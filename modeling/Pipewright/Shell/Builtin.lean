import Pipewright.Shell.Fields

/-! The commands that scripts can call. -/
namespace Pipewright.Shell
open Text

/-! Texts with escapes -/

def charBytes (c : Char) : List UInt8 := c.toString.toUTF8.toList
def textBytes (s : String) : List UInt8 := s.toUTF8.toList

def named? (c : Char) : Option Nat :=
  match c with
  | 'a' => some 7
  | 'b' => some 8
  | 'f' => some 12
  | 'n' => some 10
  | 'r' => some 13
  | 't' => some 9
  | 'v' => some 11
  | '\\' => some 92
  | _ => none

/-- The byte that an escape stands for and the number of characters after its backslash. An octal
number has three digits at most; `zero` says that a zero may stand in front of them. -/
def escape? (zero : Bool) : List Char → Option (UInt8 × Nat)
  | [] => none
  | c :: r =>
    match named? c with
    | some n => some (UInt8.ofNat n, 1)
    | none =>
      let lead := if zero && c = '0' then 1 else 0
      let digits := (((c :: r).drop lead).take 3).takeWhile fun d => '0' ≤ d && d ≤ '7'
      if digits.isEmpty && lead = 0 then none
      else some (UInt8.ofNat ((numberFrom? 8 0 digits).getD 0), lead + digits.length)

/-- The bytes of a text in which escapes stand for bytes. -/
def unescaped (cs : List Char) : List UInt8 :=
  match cs with
  | [] => []
  | '\\' :: r =>
    match escape? true r with
    | some (b, n) => b :: unescaped (r.drop n)
    | none => 92 :: unescaped r
  | c :: r => charBytes c ++ unescaped r
termination_by cs.length
decreasing_by all_goals (simp only [List.length_cons, List.length_drop]; omega)

/-- What a conversion makes of a word. -/
def convert? (kind : Char) (word : Option String) : Option (List UInt8) :=
  match kind with
  | 's' => some (textBytes (word.getD ""))
  | 'd' | 'i' => some (textBytes (word.getD "0"))
  | 'b' => some (unescaped (word.getD "").toList)
  | 'c' => some ((word.getD "").toList.head?.map charBytes |>.getD [])
  | _ => none

/-- Fills a format once; what is missing is empty. The result holds the words left over. -/
def fill (cs : List Char) (args : List String) : List UInt8 × List String :=
  match cs with
  | [] => ([], args)
  | '%' :: '%' :: r =>
    let (out, args) := fill r args
    (37 :: out, args)
  | '%' :: kind :: r =>
    match convert? kind args.head? with
    | some bytes =>
      let (out, args) := fill r args.tail
      (bytes ++ out, args)
    | none =>
      let (out, args) := fill (kind :: r) args
      (37 :: out, args)
  | '\\' :: r =>
    match escape? false r with
    | some (b, n) =>
      let (out, args) := fill (r.drop n) args
      (b :: out, args)
    | none =>
      let (out, args) := fill r args
      (92 :: out, args)
  | c :: r =>
    let (out, args) := fill r args
    (charBytes c ++ out, args)
termination_by cs.length
decreasing_by all_goals (simp only [List.length_cons, List.length_drop]; omega)

/-- Fills a format again and again until no words are left. -/
def fillAll (format : List Char) : (rounds : Nat) → List String → List UInt8
  | 0, _ => []
  | n + 1, args =>
    let (out, rest) := fill format args
    if rest.isEmpty || rest.length = args.length then out else out ++ fillAll format n rest

/-! Commands -/

/-- What a command leaves: the machine after it, what it writes and what it complains about. -/
structure Outcome where
  machine : Machine
  output : List UInt8
  complaint : String

namespace Outcome

/-- A command that writes something and ends with a status. -/
def done (m : Machine) (status : Nat) (output : List UInt8) : Outcome :=
  ⟨{ m with status }, output, ""⟩

/-- A command that fails and says why. -/
def failed (m : Machine) (status : Nat) (complaint : String) : Outcome :=
  ⟨{ m with status }, [], complaint⟩

end Outcome

/-- Whether a number stands in a relation to another one. -/
def compares? (relation : String) (a b : String) : Option Bool :=
  match integer? a.toList, integer? b.toList with
  | some a, some b =>
    match relation with
    | "-eq" => some (a = b)
    | "-ne" => some (a ≠ b)
    | "-lt" => some (a < b)
    | "-le" => some (a ≤ b)
    | "-gt" => some (b < a)
    | "-ge" => some (b ≤ a)
    | _ => none
  | _, _ => none

/-- Whether a test holds. -/
def holds (m : Machine) : List String → Bool
  | [] => false
  | [s] => s ≠ ""
  | ["-n", s] => s ≠ ""
  | ["-z", s] => s = ""
  | ["-e", p] => m.files.exists? m.here p
  | ["-f", p] => m.files.isFile m.here p
  | ["-d", p] => m.files.isDirectory m.here p
  | [a, "=", b] => a = b
  | [a, "!=", b] => a ≠ b
  | "!" :: r => !holds m r
  | [a, relation, b] => (compares? relation a b).getD false
  | _ => false

def test (m : Machine) (words : List String) : Outcome :=
  .done m (if holds m words then 0 else 1) []

/-- Writes out files. -/
def writeOut (m : Machine) : List String → Outcome
  | [] => .done m 0 []
  | path :: paths =>
    let rest := writeOut m paths
    match m.files.readBytes m.here path with
    | .ok content => { rest with output := content.toList ++ rest.output }
    | .error e =>
      { rest with
        machine := { rest.machine with status := 1 }
        complaint := s!"cat: {path}: {e.reason}\n" ++ rest.complaint }

/-- Changes files one path after the other. -/
def changeAll (f : FileTree → String → FileTree) (m : Machine) (paths : List String) : Outcome :=
  .done { m with files := paths.foldl f m.files } 0 []

/-- Sets a parameter. -/
def setVar (m : Machine) (name value : String) : Machine :=
  { m with vars := Entries.put name value m.vars }

/-- Sets the parameters of words with an equals sign. -/
def exportAll (m : Machine) (words : List String) : Outcome :=
  .done (words.foldl (fun m w =>
    match splitOnce ['='] w.toList with
    | some (name, value) => setVar m (String.ofList name) (String.ofList value)
    | none => m) m) 0 []

/-- The number of a signal. -/
def signalNumber (word : String) : Nat :=
  match word with
  | "HUP" => 1
  | "INT" => 2
  | "QUIT" => 3
  | "ABRT" => 6
  | "KILL" => 9
  | _ => (number? 10 word.toList).getD 15

/-- Sends a signal, which ends a script that sends it to itself. -/
def kill (m : Machine) (words : List String) : Outcome :=
  let (signal, targets) := match words with
    | "-s" :: s :: ts => (signalNumber s, ts)
    | w :: ts =>
      match w.toList with
      | '-' :: s => (signalNumber (String.ofList s), ts)
      | _ => (15, words)
    | [] => (15, [])
  if targets.contains ownProcess then
    ⟨{ m with status := 128 + signal, ended := true, signal := some signal }, [], ""⟩
  else .done m 0 []

def changeDirectory (m : Machine) (line : Nat) (path : String) : Outcome :=
  match m.files.openDirectory m.here path with
  | .ok here => .done { m with here } 0 []
  | .error _ => .failed m 2 s!"{m.script}: {line}: cd: can't cd to {path}\n"

def isFlag (word : String) : Bool := word.startsWith "-"

/-- Runs a command by its words. -/
def call (m : Machine) (line : Nat) : List String → Outcome
  | [] | "true" :: _ | ":" :: _ | "set" :: _ | "sleep" :: _ => .done m 0 []
  | "false" :: _ => .done m 1 []
  | "exit" :: args =>
    let status := (args.head?.bind fun a => number? 10 a.toList).getD m.status
    .done { m with ended := true } (status % 256) []
  | "echo" :: "-n" :: args => .done m 0 (unescaped (joined " " args).toList)
  | "echo" :: args => .done m 0 (unescaped (joined " " args).toList ++ [10])
  | "printf" :: format :: args => .done m 0 (fillAll format.toList (args.length + 1) args)
  | "cat" :: paths => writeOut m paths
  | "pwd" :: _ => .done m 0 (textBytes (m.here.text ++ "\n"))
  | "cd" :: path :: _ => changeDirectory m line path
  | "shift" :: args =>
    let n := (args.head?.bind fun a => number? 10 a.toList).getD 1
    .done { m with arguments := m.arguments.drop n } 0 []
  | "test" :: words => test m words
  | "[" :: words => test m words.dropLast
  | "export" :: words => exportAll m words
  | "kill" :: words => kill m words
  | "mkdir" :: words =>
    changeAll (fun t p => (t.makeDirectories m.here p).1) m (words.filter fun w => !isFlag w)
  | "touch" :: paths =>
    changeAll (fun t p =>
      if t.exists? m.here p then t
      else
        match t.write m.here p ByteArray.empty with
        | .ok t => t
        | .error _ => t) m paths
  | "rm" :: words =>
    changeAll (fun t p =>
      match t.locate m.here p with
      | .ok place => t.erase place
      | .error _ => t) m (words.filter fun w => !isFlag w)
  | name :: _ => .failed m 127 s!"{m.script}: {line}: {name}: not found\n"

end Pipewright.Shell

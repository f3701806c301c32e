import Pipewright.Shell.Basic
import Pipewright.Text.Digits

/-! Reading of shell scripts. -/
namespace Pipewright.Shell
open Text

abbrev Rest := List Char

/-- Skips blanks, joined lines and a comment. -/
def skipBlanks : List Char → Rest
  | [] => []
  | '\\' :: '\n' :: r => skipBlanks r
  | '#' :: r => r.dropWhile (· ≠ '\n')
  | c :: r => if c = ' ' || c = '\t' then skipBlanks r else c :: r

def isDelimiter (c : Char) : Bool :=
  c = ' ' || c = '\t' || c = '\n' || c = ';' || c = '&' || c = '|' || c = '<' || c = '>' ||
    c = '(' || c = ')'

def isNameChar (c : Char) : Bool := isAsciiLetter c || isDigit c || c = '_'

/-- The name of a parameter: a word, or one sign or digit. -/
def paramName? : List Char → Option (String × Rest)
  | [] => none
  | c :: r =>
    if isDigit c || c = '*' || c = '@' || c = '#' || c = '?' || c = '$' then some (c.toString, r)
    else if isNameChar c then
      some (String.ofList ((c :: r).takeWhile isNameChar), (c :: r).dropWhile isNameChar)
    else none

/-- What is done to a value within braces. -/
def change? : List Char → Option Change
  | '#' :: '#' :: p => some (.cut false true p)
  | '#' :: p => some (.cut false false p)
  | '%' :: '%' :: p => some (.cut true true p)
  | '%' :: p => some (.cut true false p)
  | ':' :: '-' :: t => some (.default true t)
  | '-' :: t => some (.default false t)
  | _ => none

/-- A parameter after its dollar sign. -/
def param? (quoted : Bool) : List Char → Option (Fragment × Rest)
  | '{' :: r => do
    let (name, r) ← paramName? r
    match r.dropWhile (· ≠ '}') with
    | _ :: rest =>
      let operation := r.takeWhile (· ≠ '}')
      if operation.isEmpty then some (.param quoted name none, rest)
      else (change? operation).map fun c => (.param quoted name (some c), rest)
    | [] => none
  | r => (paramName? r).map fun (name, r) => (.param quoted name none, r)

/-- The rest of a text in double quotes. -/
def doubled? : (fuel : Nat) → List Char → Option (Word × Rest)
  | 0, _ => none
  | n + 1, cs =>
    match cs with
    | [] => none
    | '"' :: r => some ([], r)
    | '\\' :: c :: r =>
      let kept := if c = '$' || c = '"' || c = '\\' || c = '\x60' then [c] else ['\\', c]
      (doubled? n r).map fun (w, r) => (.text true kept :: w, r)
    | '$' :: r =>
      match param? true r with
      | some (f, r) => (doubled? n r).map fun (w, r) => (f :: w, r)
      | none => (doubled? n r).map fun (w, r) => (.text true ['$'] :: w, r)
    | c :: r => (doubled? n r).map fun (w, r) => (.text true [c] :: w, r)

/-- A word; it is empty at a delimiter. -/
def word? : (fuel : Nat) → List Char → Option (Word × Rest)
  | 0, _ => none
  | n + 1, cs =>
    match cs with
    | [] => some ([], [])
    | '\'' :: r =>
      match r.dropWhile (· ≠ '\'') with
      | _ :: rest =>
        (word? n rest).map fun (w, s) => (.text true (r.takeWhile (· ≠ '\'')) :: w, s)
      | [] => none
    | '"' :: r => do
      let (quoted, r) ← doubled? (r.length + 1) r
      let (w, r) ← word? n r
      return (.text true [] :: quoted ++ w, r)
    | '\\' :: '\n' :: r => word? n r
    | '\\' :: c :: r => (word? n r).map fun (w, r) => (.text true [c] :: w, r)
    | '$' :: r =>
      match param? false r with
      | some (f, r) => (word? n r).map fun (w, r) => (f :: w, r)
      | none => (word? n r).map fun (w, r) => (.text false ['$'] :: w, r)
    | c :: r =>
      if isDelimiter c then some ([], cs)
      else (word? n r).map fun (w, r) => (.text false [c] :: w, r)

def nextWord? (cs : List Char) : Option (Word × Rest) := word? (cs.length + 1) cs

/-- A redirection, if the text starts with one. -/
def redirect? (cs : List Char) : Option (Option (Redirect × Rest)) :=
  let (stream, r) := match cs with
    | '1' :: '>' :: r => (1, '>' :: r)
    | '2' :: '>' :: r => (2, '>' :: r)
    | r => (1, r)
  match r with
  | '>' :: '&' :: '1' :: r => some (some (.toStream stream 1, r))
  | '>' :: '&' :: '2' :: r => some (some (.toStream stream 2, r))
  | '>' :: '>' :: r => (nextWord? (skipBlanks r)).map fun (w, r) => some (.toFile stream true w, r)
  | '>' :: r => (nextWord? (skipBlanks r)).map fun (w, r) => some (.toFile stream false w, r)
  | _ => some none

/-- The words and redirections of a command. -/
def parts? : (fuel : Nat) → List Char → Option (List Word × List Redirect × Rest)
  | 0, _ => none
  | n + 1, cs => do
    let cs := skipBlanks cs
    match ← redirect? cs with
    | some (d, r) =>
      let (ws, ds, r) ← parts? n r
      return (ws, d :: ds, r)
    | none =>
      let (w, r) ← nextWord? cs
      if w.isEmpty then return ([], [], cs)
      let (ws, ds, r) ← parts? n r
      return (w :: ws, ds, r)

/-- The characters of a fragment that stands for itself. -/
def plainChars? : Fragment → Option (List Char)
  | .text false cs => some cs
  | _ => none

/-- A word of plain characters. -/
def plain? (w : Word) : Option String :=
  (List.mapM plainChars? w).map fun parts => String.ofList parts.flatten

/-- The patterns of a branch up to the closing bracket. -/
def patterns? : (fuel : Nat) → List Char → Option (List Word × Rest)
  | 0, _ => none
  | n + 1, cs => do
    let (w, r) ← nextWord? (skipBlanks cs)
    match skipBlanks r with
    | '|' :: r =>
      let (ws, r) ← patterns? n r
      return (w :: ws, r)
    | ')' :: r => return ([w], r)
    | _ => none

/-- Skips blanks and ends of commands. -/
def skipEnds : (fuel : Nat) → List Char → Rest
  | 0, cs => cs
  | n + 1, cs =>
    match skipBlanks cs with
    | ';' :: ';' :: r => ';' :: ';' :: r
    | ';' :: r | '\n' :: r => skipEnds n r
    | r => r

def skipNewlines (cs : List Char) : Rest :=
  match skipEnds (cs.length + 1) cs with
  | '(' :: r => r
  | r => r

/-- What follows a word that has to come next. -/
def expect? (expected : String) (cs : List Char) : Option Rest := do
  let (w, r) ← nextWord? (skipEnds (cs.length + 1) cs)
  if plain? w = some expected then some r else none

/-- The name in front of an equals sign at the start of a word, and what follows the sign. -/
def nameBefore? : Word → Option (List Char × Word)
  | .text false [c] :: r =>
    if c = '=' then some ([], r)
    else if isNameChar c then (nameBefore? r).map fun (n, w) => (c :: n, w)
    else none
  | _ => none

/-- The name and the value of a word that gives a parameter a value. -/
def given? (w : Word) : Option (String × Word) :=
  (nameBefore? w).bind fun (n, w) =>
    if n.head?.any fun c => !isDigit c then some (String.ofList n, w) else none

/-- Splits off the words at the start that give parameters values. -/
def splitValues : List Word → List (String × Word) × List Word
  | [] => ([], [])
  | w :: ws =>
    match given? w with
    | some v => let (vs, r) := splitValues ws; (v :: vs, r)
    | none => ([], w :: ws)

/-- A simple command; `lines` counts the ends of lines in the whole script. -/
def simple? (lines : Nat) (cs : List Char) : Option (Command × Rest) := do
  let (ws, ds, r) ← parts? (cs.length + 1) cs
  if ws.isEmpty && ds.isEmpty then none
  else
    let (vs, ws) := splitValues ws
    return (.simple (lines + 1 - cs.count '\n') vs ws ds, r)

/-- Words at which a list of commands ends. -/
def closers : List String := ["esac", "then", "elif", "else", "fi", "do", "done"]

mutual
/-- Commands up to a word at which they end, the end of a branch or that of the script. -/
def commands? : (fuel lines : Nat) → List Char → Option (List Command × Rest)
  | 0, _, _ => none
  | n + 1, lines, cs =>
    match skipEnds (cs.length + 1) cs with
    | [] => some ([], [])
    | ';' :: r => some ([], ';' :: r)
    | r => do
      let (w, _) ← nextWord? r
      if (plain? w).any closers.contains then return ([], r)
      let (c, r) ← command? n lines r
      let (c, r) ← followed? n lines c r
      let (cs, r) ← commands? n lines r
      return (c :: cs, r)

/-- The commands that depend on how the one before them ends. -/
def followed? : (fuel lines : Nat) → Command → List Char → Option (Command × Rest)
  | 0, _, _, _ => none
  | n + 1, lines, first, cs =>
    match skipBlanks cs with
    | '&' :: '&' :: r => do
      let (second, r) ← command? n lines (skipEnds (r.length + 1) r)
      followed? n lines (.follow first true second) r
    | '|' :: '|' :: r => do
      let (second, r) ← command? n lines (skipEnds (r.length + 1) r)
      followed? n lines (.follow first false second) r
    | r => some (first, r)

def command? : (fuel lines : Nat) → List Char → Option (Command × Rest)
  | 0, _, _ => none
  | n + 1, lines, cs => do
    let cs := skipBlanks cs
    let (w, r) ← nextWord? cs
    match plain? w with
    | some "case" => choice? n lines r
    | some "if" =>
      let (branches, otherwise, r) ← conditional? n lines r
      return (.conditional branches otherwise, r)
    | some "for" => each? n lines r
    | some "!" => (command? n lines r).map fun (c, r) => (.negation c, r)
    | _ => simple? lines cs

/-- A choice after its first word. -/
def choice? : (fuel lines : Nat) → List Char → Option (Command × Rest)
  | 0, _, _ => none
  | n + 1, lines, cs => do
    let (subject, r) ← nextWord? (skipBlanks cs)
    let (branches, r) ← branches? n lines (← expect? "in" r)
    return (.choice subject branches, r)

def branches? : (fuel lines : Nat) → List Char → Option (List (List Word × List Command) × Rest)
  | 0, _, _ => none
  | n + 1, lines, cs => do
    let cs := skipNewlines cs
    let (w, r) ← nextWord? cs
    if plain? w = some "esac" then return ([], r)
    let (patterns, r) ← patterns? (cs.length + 1) cs
    let (body, r) ← commands? n lines r
    let r := match r with
      | ';' :: ';' :: r => r
      | r => r
    let (bs, r) ← branches? n lines r
    return ((patterns, body) :: bs, r)

/-- Tests with their commands, and the commands to run otherwise, after the first word. -/
def conditional? : (fuel lines : Nat) → List Char →
    Option (List (List Command × List Command) × List Command × Rest)
  | 0, _, _ => none
  | n + 1, lines, cs => do
    let (test, r) ← commands? n lines cs
    let (body, r) ← commands? n lines (← expect? "then" r)
    let (w, r) ← nextWord? (skipEnds (r.length + 1) r)
    match plain? w with
    | some "fi" => return ([(test, body)], [], r)
    | some "else" =>
      let (otherwise, r) ← commands? n lines r
      return ([(test, body)], otherwise, ← expect? "fi" r)
    | some "elif" =>
      let (branches, otherwise, r) ← conditional? n lines r
      return ((test, body) :: branches, otherwise, r)
    | _ => none

/-- Commands for each word, after the first word. -/
def each? : (fuel lines : Nat) → List Char → Option (Command × Rest)
  | 0, _, _ => none
  | n + 1, lines, cs => do
    let (w, r) ← nextWord? (skipBlanks cs)
    let name ← plain? w
    let (words, redirects, r) ← parts? (r.length + 1) (← expect? "in" r)
    if !redirects.isEmpty then none
    else
      let (body, r) ← commands? n lines (← expect? "do" r)
      return (.each name words body, ← expect? "done" r)
end

/-- Reads a script. -/
def read? (script : String) : Option (List Command) :=
  let cs := script.toList
  match commands? (4 * cs.length + 4) (cs.count '\n') cs with
  | some (commands, []) => some commands
  | _ => none

end Pipewright.Shell

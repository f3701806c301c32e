import Pipewright.Source.Token

/-! Tokens within brackets and between them. -/
namespace Pipewright.Source

/-- The tokens of a bracket whose opening mark has been read, and those after its end. -/
def bracketed (depth : Nat) : List Token → List Token × List Token
  | [] => ([], [])
  | t :: ts =>
    if t.closes && depth = 0 then ([], t :: ts)
    else
      let (inside, r) :=
        bracketed (if t.opens then depth + 1 else if t.closes then depth - 1 else depth) ts
      (t :: inside, r)

/-- Splits at the first token with a property that stands outside of brackets and is no part of
the parameters of a `lambda`. -/
def splitAtTop (p : Token → Bool) (depth lambdas : Nat) :
    List Token → List Token × Option (Token × List Token)
  | [] => ([], none)
  | t :: ts =>
    if depth = 0 && lambdas = 0 && p t then ([], some (t, ts))
    else
      let depth' := if t.opens then depth + 1 else if t.closes then depth - 1 else depth
      let lambdas' :=
        if depth ≠ 0 then lambdas
        else if t.isWord "lambda" then lambdas + 1
        else if t.isMark ":" then lambdas - 1
        else lambdas
      let (a, b) := splitAtTop p depth' lambdas' ts
      (t :: a, b)

/-- Splits at every token with a property that stands outside of brackets. -/
def splitAllTop (p : Token → Bool) : (fuel : Nat) → List Token → List (List Token)
  | 0, ts => [ts]
  | n + 1, ts =>
    match splitAtTop p 0 0 ts with
    | (a, some (_, r)) => a :: splitAllTop p n r
    | (a, none) => [a]

end Pipewright.Source

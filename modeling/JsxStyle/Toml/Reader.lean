import JsxStyle.Text.Basic

/-!
# Readers over what is left

A reader takes something off the front of a text or fails.  Failing gives up
nothing: the alternative of a failed reader starts from the same text.
Repetition is bounded by a number of rounds; with as many rounds as there are
bytes left, the bound is never what ends it.
-/

namespace JsxStyle

namespace Toml

/-- Takes something off the front of a text, or fails. -/
abbrev Reader := StateT Text Option

namespace Reader

variable {α : Type}

/-- The first byte that is left, without taking it. -/
def peek : Reader (Option Byte) := do
  return (← get).head?

/-- Whether nothing is left. -/
def atEnd : Reader Bool := do
  return (← get).isEmpty

/-- Takes one byte that `p` accepts. -/
def byte (p : Byte → Bool) : Reader Byte := do
  match ← get with
  | [] => failure
  | b :: rest =>
    guard (p b)
    set rest
    return b

/-- Takes exactly `word`. -/
def word (word : Text) : Reader Unit := do
  let t ← get
  guard (word.isPrefixOf t)
  set (t.drop word.length)

/-- Takes the bytes at the front that `p` accepts. -/
def run (p : Byte → Bool) : Reader Text := do
  let t ← get
  set (t.dropWhile p)
  return t.takeWhile p

/-- Takes the bytes at the front that `p` accepts, at least one. -/
def run1 (p : Byte → Bool) : Reader Text := do
  let taken ← run p
  guard !taken.isEmpty
  return taken

/-- Takes what `r` takes, or nothing. -/
def option (r : Reader α) : Reader (Option α) :=
  (some <$> r) <|> pure none

/-- Takes what `r` takes as often as it succeeds, for at most `rounds` rounds. -/
def repeated (r : Reader α) : (rounds : Nat) → Reader (List α)
  | 0 => pure []
  | rounds + 1 =>
    (do
      let a ← r
      let more ← repeated r rounds
      return a :: more) <|> pure []

/-- Takes what `r` takes as often as it succeeds. -/
def many (r : Reader α) : Reader (List α) := do
  repeated r (← get).length

/-- Takes what `r` takes, once or more often, with `sep` in between. -/
def separated (r : Reader α) (sep : Reader Unit) : Reader (List α) := do
  let first ← r
  let more ← many (sep *> r)
  return first :: more

/-- The result of reading a whole text. -/
def run? (r : Reader α) (t : Text) : Option α := do
  let (a, rest) ← StateT.run r t
  guard rest.isEmpty
  return a

end Reader

end Toml

end JsxStyle

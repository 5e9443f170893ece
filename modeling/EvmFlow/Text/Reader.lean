/-!
# Readers

A reader takes text from the front or fails; choices are ordered, and a choice that fails gives back
what it took. Beside the answer a reader keeps how far the furthest *phrase* reached, also one that
was given back: that is where a text that cannot be read is reported.

* `Cursor`, `Reader`: the place in a text; readers with their sequence and choice;
* `satisfy`, `char`, `text`, `many`, `many1`, `optional`, `notFollowedBy`, `ended`: plain readers;
* `phrase`, `withSource`, `source`, `line`: marks a phrase; gives the text taken; gives the line
  number;
* `Reader.run`: reads a whole text, or gives the line to report.
-/

namespace EvmFlow

/-- Whether a character ends a line; a carriage return and a line feed end one line each. -/
def isLineEnd (c : Char) : Bool := c == '\r' || c == '\n'

/-- A place in a text: what follows it and how many characters that has, how many precede it, and
its line. -/
structure Cursor where
  rest : List Char
  left : Nat
  pos : Nat := 0
  line : Nat := 1

/-- The place in front of a text. -/
def Cursor.ofText (cs : List Char) : Cursor := { rest := cs, left := cs.length }

/-- The place behind the first character `x` of what follows, which is `x :: rest`. -/
def Cursor.next (c : Cursor) (x : Char) (rest : List Char) : Cursor :=
  { rest, left := c.left - 1, pos := c.pos + 1
    line := if isLineEnd x then c.line + 1 else c.line }

/-- From a place and the end of the furthest phrase so far: the answer with the place behind it, or
nothing; and the end of the furthest phrase. -/
def Reader (α : Type) : Type := Cursor → Nat → Option (α × Cursor) × Nat

namespace Reader

variable {α β : Type}

/-- Takes nothing and answers `a`. -/
protected def pure (a : α) : Reader α := fun c far => (some (a, c), far)

/-- Reads `r`, then what `f` makes of the answer. -/
protected def bind (r : Reader α) (f : α → Reader β) : Reader β := fun c far =>
  match r c far with
  | (some (a, c), far) => f a c far
  | (none, far) => (none, far)

instance : Monad Reader where
  pure := Reader.pure
  bind := Reader.bind

/-- Fails. -/
def fail : Reader α := fun _ far => (none, far)

/-- Reads `r`, or `s` from the same place if `r` fails. -/
protected def orElse (r : Reader α) (s : Unit → Reader α) : Reader α := fun c far =>
  match r c far with
  | (none, far) => s () c far
  | found => found

instance : OrElse (Reader α) := ⟨Reader.orElse⟩

/-- Takes one character that satisfies `p`. -/
def satisfy (p : Char → Bool) : Reader Char := fun c far =>
  match c.rest with
  | [] => (none, far)
  | x :: rest =>
    if p x then (some (x, c.next x rest), far) else (none, far)

/-- Takes the character `x`. -/
def char (x : Char) : Reader Unit := do discard <| satisfy (· == x)

/-- Takes the characters of a list, one after the other. -/
def chars : List Char → Reader Unit
  | [] => pure ()
  | x :: rest => do
    char x
    chars rest

/-- Takes the text `s`. -/
def text (s : String) : Reader Unit := chars s.toList

/-- Reads `r` as often as it can be read, but at most `n` times. -/
def upTo (r : Reader α) : Nat → Reader (List α)
  | 0 => pure []
  | n + 1 => (do
      let a ← r
      return a :: (← upTo r n)) <|> pure []

/-- Reads `r`, which takes at least one character, as often as it can be read. -/
def many (r : Reader α) : Reader (List α) := fun c far => upTo r c.left c far

/-- Reads `r`, which takes at least one character, once or more. -/
def many1 (r : Reader α) : Reader (List α) := do return (← r) :: (← many r)

/-- Reads `r` if it can be read. -/
def optional (r : Reader α) : Reader Unit := (do discard r) <|> pure ()

/-- Takes nothing, and fails where `r` can be read. -/
def notFollowedBy (r : Reader α) : Reader Unit := fun c far =>
  match r c far with
  | (some _, far) => (none, far)
  | (none, far) => (some ((), c), far)

/-- Takes nothing, and fails before the end of the text. -/
def ended : Reader Unit := fun c far => (if c.rest.isEmpty then some ((), c) else none, far)

/-- Reads `r` as a phrase: what it takes counts for the furthest phrase. -/
def phrase (r : Reader α) : Reader α := fun c far =>
  match r c far with
  | (some (a, d), far) => (some (a, d), if c.pos < d.pos then max far d.pos else far)
  | failed => failed

/-- Reads `r` as a phrase and answers also the text it took. -/
def withSource (r : Reader α) : Reader (α × String) := fun c far =>
  match phrase r c far with
  | (some (a, d), far) => (some ((a, String.ofList (c.rest.take (d.pos - c.pos))), d), far)
  | (none, far) => (none, far)

/-- Reads `r` as a phrase and answers the text it took. -/
def source (r : Reader α) : Reader String := do return (← withSource r).2

/-- The line of the place. -/
def line : Reader Nat := fun c far => (some (c.line, c), far)

/-- The answer of `r` on the text `s`. If there is none, the line on which the character behind the
furthest phrase stands; here only line feeds end lines, and one counts for the line after it. -/
def run (r : Reader α) (s : String) : Except Nat α :=
  match r (.ofText s.toList) 0 with
  | (some (a, _), _) => .ok a
  | (none, far) => .error (1 + (s.toList.take (far + 1)).count '\n')

end Reader

end EvmFlow

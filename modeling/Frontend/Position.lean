import Frontend.Fault

/-!
# Positions in a source text

A position is a byte offset, counted from zero, with a line and a column, both counted from one.
Lines and columns count characters: a newline opens the next line, a tab moves to the next stop, and
every other character is one column wide.
-/

set_option autoImplicit false

namespace Frontend

/-- A place between two characters of a source text. -/
structure Position where
  offset : UInt64
  line : UInt32
  column : UInt32
  deriving DecidableEq, Repr

namespace Position

/-- A tab moves the column to the next multiple of this width, plus one. -/
def tabWidth : UInt32 := 4

/-- The place before the first character. -/
def start : Position := ⟨0, 1, 1⟩

/-- The place with every coordinate zero, which no text reaches. -/
def zero : Position := ⟨0, 0, 0⟩

/-- The place after one more character. The offset is checked before the line and the column, and
for a tab the width is added to the column before the distance to the last stop is taken. -/
def advance (p : Position) (c : Char) : Except Fault Position :=
  if c = '\n' then do
    let offset ← Word.add64 p.offset 1
    let line ← Word.add32 p.line 1
    return ⟨offset, line, 1⟩
  else if c = '\t' then do
    let offset ← Word.add64 p.offset 1
    let widened ← Word.add32 p.column tabWidth
    let before ← Word.sub32 p.column 1
    let column ← Word.sub32 widened (before % tabWidth)
    return ⟨offset, p.line, column⟩
  else do
    let offset ← Word.add64 p.offset (UInt64.ofNat c.utf8Size)
    let column ← Word.add32 p.column 1
    return ⟨offset, p.line, column⟩

/-- The place after a run of characters. -/
def advanceAll : Position → List Char → Except Fault Position
  | p, [] => .ok p
  | p, c :: cs =>
    match p.advance c with
    | .ok q => q.advanceAll cs
    | .error fault => .error fault

/-- Positions are ordered by offset, then by line, then by column. -/
def order (p q : Position) : Ordering :=
  (compare p.offset q.offset).then ((compare p.line q.line).then (compare p.column q.column))

/-- A position as `line:column`. -/
def render (p : Position) : String :=
  toString p.line.toNat ++ ":" ++ toString p.column.toNat

end Position

end Frontend

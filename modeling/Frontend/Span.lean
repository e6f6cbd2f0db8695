import Frontend.Position
import Frontend.Text.Bytes

/-!
# Spans

A span runs from the position before its first character to the position after its last one. Spans
built from a text never run backwards, which `Span.between` checks; a span read from outside is
taken as it is.
-/

set_option autoImplicit false

namespace Frontend

/-- A stretch of source text. -/
structure Span where
  start : Position
  stop : Position
  deriving DecidableEq, Repr

namespace Span

/-- The span between two positions, which must not run backwards. -/
def between (start stop : Position) : Except Fault Span :=
  if start.offset ≤ stop.offset then .ok ⟨start, stop⟩ else .error .spanOrder

/-- The empty span at a position. -/
def point (p : Position) : Span := ⟨p, p⟩

/-- The span of a value that stands nowhere in a text. -/
def placeholder : Span := point Position.start

/-- The span from the earlier of the two starts to the later of the two ends. On equal offsets the
first span decides. -/
def merge (a b : Span) : Span where
  start := if a.start.offset ≤ b.start.offset then a.start else b.start
  stop := if b.stop.offset ≤ a.stop.offset then a.stop else b.stop

/-- The length in bytes. -/
def length (s : Span) : Except Fault UInt64 := Word.sub64 s.stop.offset s.start.offset

/-- Whether the span covers no byte. -/
def isEmpty (s : Span) : Bool := s.start.offset == s.stop.offset

/-- The characters that the span covers. -/
def slice (s : Span) (text : List Char) : Except Fault (List Char) :=
  match Text.sliceBytes s.start.offset.toNat s.stop.offset.toNat text with
  | some covered => .ok covered
  | none => .error .badSlice

/-- A span on one line as `line:column-column`, any other as `line:column-line:column`. -/
def render (s : Span) : String :=
  if s.start.line = s.stop.line then s.start.render ++ "-" ++ toString s.stop.column.toNat
  else s.start.render ++ "-" ++ s.stop.render

end Span

end Frontend

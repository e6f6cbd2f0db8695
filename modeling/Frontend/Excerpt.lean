import Frontend.Span

/-!
# Lines of a text and excerpts under them

A text is cut into lines at its newline characters, so it always has at least one. An excerpt shows
the line where a span starts and underlines the part of it that the span covers.
-/

set_option autoImplicit false

namespace Frontend.Excerpt

/-- The pieces of a text between its newline characters. -/
def pieces (text : List Char) : List (List Char) :=
  text.foldr
    (fun c lines =>
      if c = '\n' then [] :: lines
      else
        match lines with
        | [] => [[c]]
        | line :: others => (c :: line) :: others)
    [[]]

/-- A line without the carriage returns at its end. -/
def trimReturns (line : List Char) : List Char :=
  (line.reverse.dropWhile (· = '\r')).reverse

/-- The line with a given number, counted from one. -/
def line? (lines : List (List Char)) (number : Nat) : Option (List Char) :=
  match number with
  | 0 => none
  | n + 1 => lines[n]?.map trimReturns

/-- How many marks underline a span on its first line: the columns it covers, or, when it goes on to
another line, the characters from its start to the end of this one. -/
def width (line : List Char) (span : Span) : Nat :=
  if span.start.line = span.stop.line then span.stop.column.toNat - span.start.column.toNat
  else line.length + 1 - span.start.column.toNat

/-- The lines below a message: where the span starts and, if its first line was found, that line
with at least one mark under it. -/
def under (found : Option (List Char)) (span : Span) : String :=
  let place := "  --> " ++ span.start.render ++ "\n"
  match found with
  | none => place
  | some line =>
    let number := toString span.start.line.toNat
    let margin := String.ofList (List.replicate number.length ' ')
    let indent := String.ofList (List.replicate (span.start.column.toNat - 1) ' ')
    let marks := String.ofList (List.replicate (max (width line span) 1) '^')
    place ++ margin ++ " |\n" ++ number ++ " | " ++ String.ofList line ++ "\n"
      ++ margin ++ " | " ++ indent ++ marks ++ "\n"

/-- A message with the first line of the span that it is about, if that line was found. -/
def block (found : Option (List Char)) (span : Span) (message : String) : String :=
  "error: " ++ message ++ "\n" ++ under found span

/-- A message with the excerpt that it is about. -/
def render (lines : List (List Char)) (span : Span) (message : String) : String :=
  block (line? lines span.start.line.toNat) span message

end Frontend.Excerpt

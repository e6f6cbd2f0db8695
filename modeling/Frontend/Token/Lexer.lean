import Frontend.Text.Blank
import Frontend.Token.Metrics

/-!
# The lexer

A text is cut into tokens by longest match. `munch` reads one token at the head of a text; `Lexer`
is a cursor that skips white space, reads the next token, and places it; `tokenize` drains a fresh
cursor.

No text is refused: a character that starts no token becomes an illegal token by itself. At the end
of the text the cursor hands out the same empty lexeme for ever.
-/

set_option autoImplicit false

namespace Frontend

/-! ## One token -/

/-- The characters of names and keywords. -/
def isLetter (c : Char) : Bool := c.isAlpha || c == '_'

/-- The longest token at the head of a text, with the text after it. -/
def munch : List Char → Option (Token × List Char)
  | [] => none
  | '=' :: '=' :: rest => some (⟨.eq, "=="⟩, rest)
  | '!' :: '=' :: rest => some (⟨.notEq, "!="⟩, rest)
  | c :: rest =>
    match Kind.ofChar? c with
    | some kind => some (⟨kind, String.ofList [c]⟩, rest)
    | none =>
      if isLetter c then
        let word := String.ofList (c :: rest.takeWhile isLetter)
        some (⟨Kind.ofWord word, word⟩, rest.dropWhile isLetter)
      else if c.isDigit then
        some (⟨.int, String.ofList (c :: rest.takeWhile Char.isDigit)⟩, rest.dropWhile Char.isDigit)
      else some (⟨.illegal, String.ofList [c]⟩, rest)

theorem length_dropWhile_le (p : Char → Bool) (cs : List Char) :
    (cs.dropWhile p).length ≤ cs.length :=
  (List.dropWhile_suffix p).length_le

/-- A token takes at least one character. -/
theorem length_munch_lt {text rest : List Char} {t : Token} (h : munch text = some (t, rest)) :
    rest.length < text.length := by
  unfold munch at h
  split at h
  · simp at h
  · simp only [Option.some.injEq, Prod.mk.injEq] at h
    obtain ⟨-, rfl⟩ := h
    simp only [List.length_cons]
    omega
  · simp only [Option.some.injEq, Prod.mk.injEq] at h
    obtain ⟨-, rfl⟩ := h
    simp only [List.length_cons]
    omega
  · rename_i c tail _ _
    have letters := length_dropWhile_le isLetter tail
    have digits := length_dropWhile_le Char.isDigit tail
    split at h
    · simp only [Option.some.injEq, Prod.mk.injEq] at h
      obtain ⟨-, rfl⟩ := h
      simp
    · split at h
      · simp only [Option.some.injEq, Prod.mk.injEq] at h
        obtain ⟨-, rfl⟩ := h
        simp only [List.length_cons]
        omega
      · split at h
        · simp only [Option.some.injEq, Prod.mk.injEq] at h
          obtain ⟨-, rfl⟩ := h
          simp only [List.length_cons]
          omega
        · simp only [Option.some.injEq, Prod.mk.injEq] at h
          obtain ⟨-, rfl⟩ := h
          simp

/-! ## One lexeme -/

/-- What is found from a position on: the end of the text, or a lexeme with the text after it. -/
inductive Scan where
  | ended (place : Position)
  | found (lexeme : Lexeme) (rest : List Char)

/-- Skips white space and places the next token. -/
def scan (position : Position) (text : List Char) : Except Fault Scan := do
  let start ← position.advanceAll (text.takeWhile Text.isBlank)
  match munch (text.dropWhile Text.isBlank) with
  | none => return .ended start
  | some (token, rest) =>
    let stop ← start.advanceAll token.literal.toList
    let span ← Span.between start stop
    return .found ⟨token, span⟩ rest

/-- A lexeme takes at least one character. -/
theorem length_scan_lt {position : Position} {text rest : List Char} {lexeme : Lexeme}
    (h : scan position text = .ok (.found lexeme rest)) : rest.length < text.length := by
  have skipped := length_dropWhile_le Text.isBlank text
  unfold scan at h
  cases hstart : position.advanceAll (text.takeWhile Text.isBlank) with
  | error fault => simp [hstart, bind, Except.bind] at h
  | ok start =>
    cases hmunch : munch (text.dropWhile Text.isBlank) with
    | none => simp [hstart, hmunch, bind, Except.bind, pure, Except.pure] at h
    | some found =>
      obtain ⟨token, tail⟩ := found
      have shorter := length_munch_lt hmunch
      cases hstop : start.advanceAll token.literal.toList with
      | error fault => simp [hstart, hmunch, hstop, bind, Except.bind] at h
      | ok stop =>
        cases hspan : Span.between start stop with
        | error fault => simp [hstart, hmunch, hstop, hspan, bind, Except.bind] at h
        | ok span =>
          simp only [hstart, hmunch, hstop, hspan, bind, Except.bind, pure, Except.pure,
            Except.ok.injEq, Scan.found.injEq] at h
          obtain ⟨-, rfl⟩ := h
          omega

/-! ## The cursor -/

/-- A cursor in a text: what is left of it, where that starts, what was counted on the way, and
whether the end has been handed out. -/
structure Lexer where
  source : List Char
  preferences : LexicalPreferences
  rest : List Char
  position : Position
  metrics : Metrics
  ended : Bool

namespace Lexer

/-- A cursor before the first character. -/
def ofText (preferences : LexicalPreferences) (text : List Char) : Lexer where
  source := text
  preferences := preferences
  rest := text
  position := .start
  metrics := {}
  ended := false

/-- The next lexeme and the cursor after it. -/
def next (l : Lexer) : Except Fault (Lexeme × Lexer) :=
  match scan l.position l.rest with
  | .error fault => .error fault
  | .ok (.ended place) =>
    .ok (.eofAt place, { l with rest := [], position := place, ended := true })
  | .ok (.found lexeme rest) =>
    .ok (lexeme,
      { l with
        rest := rest
        position := lexeme.span.stop
        metrics := l.metrics.record l.preferences lexeme.token })

end Lexer

/-! ## Whole texts -/

/-- The lexemes of a text from a position on, up to its end, and the empty lexeme there. -/
def lexemesFrom (position : Position) (text : List Char) : Except Fault (List Lexeme × Lexeme) :=
  match _h : scan position text with
  | .error fault => .error fault
  | .ok (.ended place) => .ok ([], .eofAt place)
  | .ok (.found lexeme rest) =>
    match lexemesFrom lexeme.span.stop rest with
    | .error fault => .error fault
    | .ok (lexemes, eof) => .ok (lexeme :: lexemes, eof)
termination_by text.length
decreasing_by exact length_scan_lt _h

/-- The lexemes of a text, and the empty lexeme at its end. -/
def lexemes (text : List Char) : Except Fault (List Lexeme × Lexeme) :=
  lexemesFrom .start text

/-- The lexemes of a text, the empty one at its end included. -/
def tokenize (text : List Char) : Except Fault (List Lexeme) :=
  (lexemes text).map fun found => found.1 ++ [found.2]

/-- The lexemes that a cursor has not handed out yet, and the empty lexeme at the end. -/
def Lexer.remaining (l : Lexer) : Except Fault (List Lexeme × Lexeme) :=
  lexemesFrom l.position l.rest

end Frontend

import Frontend.Parser.Window
import Frontend.Proofs.Parser.Program

/-!
# Parsers on lexers

A parser takes two lexemes from its lexer and leaves the others to it. Together they are what the
lexer had ahead of it (`exists_ofLexer`), and none of them is reported on twice or forgotten
(`exists_ofLexer_notes`). A program is parsed from all of them (`Holds.exists_program`), and after
that the parser holds nothing. Where the positions of the text end, the parser fails as the lexer
does (`program_eq_error`).
-/

set_option autoImplicit false

namespace Frontend

/-! ## Lexers -/

theorem Laid.scan_found {p : Position} {text : List Char} {l eof : Lexeme} {ls : List Lexeme}
    (h : Laid p text (l :: ls) eof) :
    ∃ rest, scan p text = .ok (.found l rest) ∧ Laid l.span.stop rest ls eof := by
  cases h with
  | @found p start stop gap rest t ls eof blank spelled ends first last tail =>
    refine ⟨rest, ?_, tail⟩
    rw [scan_token blank spelled ends, first]
    change start.advanceAll t.literal.toList >>= _ = _
    rw [last]
    rfl

theorem Laid.scan_ended {p : Position} {text : List Char} {eof : Lexeme} (h : Laid p text [] eof) :
    scan p text = .ok (.ended eof.span.start) ∧ eof = .eofAt eof.span.start := by
  cases h with
  | ended blank there =>
    refine ⟨?_, rfl⟩
    rw [scan_blank blank, there]
    rfl

theorem laid_nil (p : Position) : Laid p [] [] (.eofAt p) := .ended (by simp [Blank]) rfl

/-- A lexer has the lexemes ahead of it, and then the end. -/
def Lexer.Faces (lexer : Lexer) (ls : List Lexeme) (eof : Lexeme) : Prop :=
  Laid lexer.position lexer.rest ls eof

/-- The lexer when it has handed out a lexeme with some text after it. -/
def Lexer.past (lexer : Lexer) (l : Lexeme) (rest : List Char) : Lexer :=
  { lexer with
    rest := rest
    position := l.span.stop
    metrics := lexer.metrics.record lexer.preferences l.token }

theorem Lexer.Faces.next_cons {lexer : Lexer} {l eof : Lexeme} {ls : List Lexeme}
    (h : lexer.Faces (l :: ls) eof) :
    ∃ rest, lexer.next = .ok (l, lexer.past l rest) ∧ (lexer.past l rest).Faces ls eof := by
  obtain ⟨rest, found, tail⟩ := h.scan_found
  refine ⟨rest, ?_, tail⟩
  simp only [next, found]
  rfl

theorem Lexer.Faces.next_nil {lexer : Lexer} {eof : Lexeme} (h : lexer.Faces [] eof) :
    lexer.next = .ok (eof, lexer.atEnd [] eof) ∧ (lexer.atEnd [] eof).Faces [] eof := by
  obtain ⟨found, ending⟩ := h.scan_ended
  refine ⟨?_, ?_⟩
  · simp only [next, found]
    rw [← ending]
    rfl
  · have still := laid_nil eof.span.start
    rw [← ending] at still
    exact still

theorem Lexer.next_of_remaining_eq_error {lexer : Lexer} {fault : Fault}
    (h : lexer.remaining = .error fault) :
    lexer.next = .error fault ∨
      ∃ l after, lexer.next = .ok (l, after) ∧ after.remaining = .error fault := by
  unfold remaining at h
  rw [lexemesFrom_eq] at h
  unfold next
  cases hscan : scan lexer.position lexer.rest with
  | error other =>
    rw [hscan] at h
    cases h
    exact .inl rfl
  | ok found =>
    rw [hscan] at h
    cases found with
    | ended place => cases h
    | found l rest =>
      replace h : lexemesFrom l.span.stop rest >>= (fun tail => .ok (l :: tail.1, tail.2)) =
          .error fault := h
      cases htail : lexemesFrom l.span.stop rest with
      | ok tail =>
        rw [htail] at h
        cases h
      | error other =>
        rw [htail] at h
        cases h
        exact .inr ⟨l, _, rfl, htail⟩

/-! ## Counts and reports -/

/-- The counts of a lexer when it has handed out some more lexemes. -/
def Lexer.counts (lexer : Lexer) (ls : List Lexeme) : Metrics :=
  ls.foldl (fun m l => m.record lexer.preferences l.token) lexer.metrics

/-- The lexemes that a lexer has not reported on yet; the end is the last of them, and nothing comes
after it. -/
def Lexer.unreported (lexer : Lexer) (ls : List Lexeme) (eof : Lexeme) : List Lexeme :=
  if lexer.ended then [] else ls ++ [eof]

theorem Lexeme.notes_of_ne_eof (limits : Limits) (c : LexicalPreferences) {l : Lexeme}
    (h : l.kind ≠ .eof) (m m' : Metrics) : l.notes limits c m = l.notes limits c m' := by
  unfold notes
  split
  · contradiction
  · rfl
  · rfl

/-- A lexer that has handed out the end has nothing else ahead of it. -/
def Lexer.Sound (lexer : Lexer) (ls : List Lexeme) : Prop := lexer.ended = true → ls = []

/-- A lexer takes one of the lexemes ahead of it, as long as there are any, and reports on it. What
is reported in the end is the same before and after that. -/
theorem Lexer.Faces.exists_next (limits : Limits) {lexer : Lexer} {ls : List Lexeme} {eof : Lexeme}
    (h : lexer.Faces ls eof) :
    ∃ l after, lexer.next = .ok (l, after) ∧ after.Faces ls.tail eof ∧
      [l].filter (·.kind ≠ .eof) ++ ls.tail = ls ∧ after.preferences = lexer.preferences ∧
      after.counts ls.tail = lexer.counts ls ∧
      (lexer.Sound ls → after.Sound ls.tail ∧
        lexer.notes limits l ++ (after.unreported ls.tail eof).flatMap
            (Lexeme.notes limits lexer.preferences (lexer.counts ls)) =
          (lexer.unreported ls eof).flatMap
            (Lexeme.notes limits lexer.preferences (lexer.counts ls))) := by
  have ending : eof.kind = .eof := Laid.eof_kind h
  cases ls with
  | nil =>
    obtain ⟨taken, h⟩ := h.next_nil
    refine ⟨eof, _, taken, h, by simp [ending], rfl, rfl, fun _ => ⟨fun _ => rfl, ?_⟩⟩
    cases ended : lexer.ended <;> simp [notes, unreported, atEnd, counts, ended, ending]
  | cons l ls =>
    have kind : l.kind ≠ .eof := (Laid.spelled h l List.mem_cons_self).kind_ne_eof
    obtain ⟨rest, taken, h⟩ := h.next_cons
    refine ⟨l, _, taken, h, by simp [kind], rfl, rfl, fun sound => ?_⟩
    have still : lexer.ended = false := by
      cases ended : lexer.ended with
      | false => rfl
      | true => cases sound ended
    refine ⟨fun ended => absurd (still.symm.trans ended) (by decide), ?_⟩
    have same :=
      l.notes_of_ne_eof limits lexer.preferences kind lexer.metrics (lexer.counts (l :: ls))
    simp [notes, unreported, past, still, kind, same]

namespace Parser

/-! ## Parsers -/

/-- The lexemes that a parser has not parsed yet, in its window or ahead of its lexer, and the
end. -/
def Holds (p : Parser) (ls : List Lexeme) (eof : Lexeme) : Prop :=
  ∃ rest, p.lexer.Faces rest eof ∧ p.window ++ rest = ls

theorem ofLexer_eq (limits : Limits) (preferences : ParserPreferences) {lexer after after' : Lexer}
    {first second : Lexeme} (hfirst : lexer.next = .ok (first, after))
    (hsecond : after.next = .ok (second, after')) :
    ofLexer limits preferences lexer =
      .ok ({
          lexer := after'
          window := [first, second].filter (·.kind ≠ .eof)
          preferences := preferences },
        lexer.notes limits first ++ after.notes limits second) := by
  simp only [ofLexer, hfirst, hsecond, bind, Except.bind]
  rfl

theorem exists_ofLexer_notes (limits : Limits) (preferences : ParserPreferences) {lexer : Lexer}
    {ls : List Lexeme} {eof : Lexeme} (h : lexer.Faces ls eof) :
    ∃ parser opening rest, ofLexer limits preferences lexer = .ok (parser, opening) ∧
      parser.lexer.Faces rest eof ∧ parser.window ++ rest = ls ∧ parser.diagnostics = [] ∧
      parser.preferences = preferences ∧ parser.lexer.preferences = lexer.preferences ∧
      parser.lexer.counts rest = lexer.counts ls ∧
      (lexer.Sound ls →
        opening ++ (parser.lexer.unreported rest eof).flatMap
            (Lexeme.notes limits lexer.preferences (lexer.counts ls)) =
          (lexer.unreported ls eof).flatMap
            (Lexeme.notes limits lexer.preferences (lexer.counts ls))) := by
  obtain ⟨first, after, taken, h, held, same, counted, reported⟩ := h.exists_next limits
  obtain ⟨second, after', taken', h, held', same', counted', reported'⟩ := h.exists_next limits
  refine ⟨_, _, ls.tail.tail, ofLexer_eq limits preferences taken taken', h, ?_, rfl, rfl,
    same'.trans same, counted'.trans counted, fun sound => ?_⟩
  · rw [show [first, second] = [first] ++ [second] from rfl, List.filter_append,
      List.append_assoc, held', held]
  · obtain ⟨sound, reported⟩ := reported sound
    obtain ⟨-, reported'⟩ := reported' sound
    rw [same, counted] at reported'
    rw [List.append_assoc, reported', reported]

theorem exists_ofLexer (limits : Limits) (preferences : ParserPreferences) {lexer : Lexer}
    {ls : List Lexeme} {eof : Lexeme} (h : lexer.Faces ls eof) :
    ∃ parser opening, ofLexer limits preferences lexer = .ok (parser, opening) ∧
      parser.Holds ls eof ∧ parser.diagnostics = [] := by
  obtain ⟨parser, opening, rest, made, ahead, held, none, -⟩ :=
    exists_ofLexer_notes limits preferences h
  exact ⟨parser, opening, made, ⟨rest, ahead, held⟩, none⟩

theorem Holds.exists_program {p : Parser} {ls : List Lexeme} {eof : Lexeme} (h : p.Holds ls eof)
    (limits : Limits) :
    ∃ pass, p.program limits = .ok pass ∧
      pass.program = programOf (items limits.maxParseDepth eof ls) ∧
      pass.parser.diagnostics = p.diagnostics ++ diagnosticsOf (items limits.maxParseDepth eof ls) ∧
        pass.parser.Holds [] eof := by
  obtain ⟨rest, laid, rfl⟩ := h
  have remaining : p.lexer.remaining = .ok (rest, eof) := lexemesFrom_eq_ok_iff.mpr laid
  obtain ⟨place, -, rfl⟩ := Laid.advanceAll laid
  unfold program
  rw [remaining]
  exact ⟨_, rfl, rfl, rfl, [], laid_nil place, rfl⟩

theorem program_eq_error (limits : Limits) (preferences : ParserPreferences) {lexer : Lexer}
    {fault : Fault} (h : lexer.remaining = .error fault) :
    (ofLexer limits preferences lexer >>= fun made => made.1.program limits) = .error fault := by
  unfold ofLexer
  rcases lexer.next_of_remaining_eq_error h with first | ⟨l, after, first, h⟩
  · rw [first]
    rfl
  · rcases after.next_of_remaining_eq_error h with second | ⟨l', after', second, h⟩
    · simp only [first, second, bind, Except.bind]
    · simp only [first, second, program, h, bind, Except.bind, pure, Except.pure]

end Parser

end Frontend

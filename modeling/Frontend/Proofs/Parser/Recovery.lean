import Frontend.Proofs.Parser.Run

/-!
# The loop over statements

A program is parsed in turns. `Loop` is the state between two turns, and `Loop.turn` is one of them:
it takes the statement at the head of what is left, and keeps what has come of it. Every turn uses
up lexemes and ends in one of two ways (`turn_advances`), so the number of turns is the number of
statements and diagnostics together, and no more than that of lexemes (`Turns.count`,
`Turns.length_le`). The turns lead from all lexemes of a program to none, with the result that
`Parser.program` gives (`turns_items`, `exists_loop_turns`).

The parser at work takes the same number of turns, and each of them advances in the same sense
(`exists_machine_turns`). There, that it ends in one of two ways is not in the type of what comes
out: statements are kept and diagnostics recorded on the way, one at a time.
-/

set_option autoImplicit false

namespace Frontend

namespace Parser

variable {limit : UInt64} {eof : Lexeme}

/-- What is left to be parsed between two turns, and what has been kept. -/
structure Loop where
  rest : List Lexeme
  statements : List Statement
  diagnostics : List Diagnostic

namespace Loop

/-- One turn: the statement at the head of what is left. There is none when nothing is left. -/
def turn (limit : UInt64) (eof : Lexeme) : Loop → Option Loop
  | ⟨[], _, _⟩ => none
  | ⟨first :: rest, statements, diagnostics⟩ =>
    let result := statement limit eof first rest
    match result.1.outcome with
    | .accepted s => some ⟨result.2, statements ++ [s], diagnostics⟩
    | .rejected d => some ⟨result.2, statements, diagnostics ++ [d]⟩

/-- A number of turns in a row. -/
def Turns (limit : UInt64) (eof : Lexeme) : Nat → Loop → Loop → Prop
  | 0, s, t => s = t
  | n + 1, s, t => ∃ m, s.turn limit eof = some m ∧ Turns limit eof n m t

/-- Lexemes are used up, and either one statement is kept, or one diagnostic. -/
structure Advances (s t : Loop) : Prop where
  uses : ∃ used, used ≠ [] ∧ s.rest = used ++ t.rest
  keeps : (∃ kept, t.statements = s.statements ++ [kept] ∧ t.diagnostics = s.diagnostics) ∨
    (∃ kept, t.statements = s.statements ∧ t.diagnostics = s.diagnostics ++ [kept])

/-! ## One turn -/

theorem turn_eq_none_iff {s : Loop} : s.turn limit eof = none ↔ s.rest = [] := by
  rcases s with ⟨_ | ⟨first, rest⟩, statements, diagnostics⟩
  · simp [turn]
  · simp only [turn, reduceCtorEq, iff_false]
    split <;> simp

theorem turn_advances {s t : Loop} (h : s.turn limit eof = some t) : Advances s t := by
  rcases s with ⟨_ | ⟨first, rest⟩, statements, diagnostics⟩
  · cases h
  · obtain ⟨used, hused⟩ := statement_suffix limit eof first rest
    have uses : first :: rest = (first :: used) ++ (statement limit eof first rest).2 := by
      rw [List.cons_append, hused]
    simp only [turn] at h
    split at h
    · rename_i s _
      cases h
      exact ⟨⟨first :: used, List.cons_ne_nil _ _, uses⟩, .inl ⟨s, rfl, rfl⟩⟩
    · rename_i d _
      cases h
      exact ⟨⟨first :: used, List.cons_ne_nil _ _, uses⟩, .inr ⟨d, rfl, rfl⟩⟩

theorem Advances.count {s t : Loop} (h : Advances s t) :
    t.statements.length + t.diagnostics.length =
      s.statements.length + s.diagnostics.length + 1 := by
  rcases h.keeps with ⟨kept, hs, hd⟩ | ⟨kept, hs, hd⟩
  · rw [hs, hd, List.length_append, List.length_singleton]
    omega
  · rw [hs, hd, List.length_append, List.length_singleton]
    omega

theorem Advances.length_lt {s t : Loop} (h : Advances s t) : t.rest.length < s.rest.length := by
  obtain ⟨used, nonempty, hrest⟩ := h.uses
  have := List.length_pos_iff.mpr nonempty
  rw [hrest, List.length_append]
  omega

/-! ## Turns in a row -/

theorem Turns.count {n : Nat} {s t : Loop} (h : Turns limit eof n s t) :
    t.statements.length + t.diagnostics.length =
      s.statements.length + s.diagnostics.length + n := by
  induction n generalizing s with
  | zero =>
    cases h
    rfl
  | succ n ih =>
    obtain ⟨m, first, others⟩ := h
    have one := (turn_advances first).count
    rw [ih others, one]
    omega

theorem Turns.length_le {n : Nat} {s t : Loop} (h : Turns limit eof n s t) :
    n + t.rest.length ≤ s.rest.length := by
  induction n generalizing s with
  | zero =>
    cases h
    omega
  | succ n ih =>
    obtain ⟨m, first, others⟩ := h
    have one := (turn_advances first).length_lt
    have := ih others
    omega

theorem Turns.suffix {n : Nat} {s t : Loop} (h : Turns limit eof n s t) : t.rest <:+ s.rest := by
  induction n generalizing s with
  | zero =>
    cases h
    exact List.suffix_rfl
  | succ n ih =>
    obtain ⟨m, first, others⟩ := h
    obtain ⟨used, -, hrest⟩ := (turn_advances first).uses
    exact (ih others).trans ⟨used, hrest.symm⟩

/-- The turns from all lexemes to none keep the statements and diagnostics of the items. -/
theorem turns_items (limit : UInt64) (eof : Lexeme) (ls : List Lexeme)
    (statements : List Statement) (diagnostics : List Diagnostic) :
    Turns limit eof (items limit eof ls).length ⟨ls, statements, diagnostics⟩
      ⟨[], statements ++ (programOf (items limit eof ls)).statements,
        diagnostics ++ diagnosticsOf (items limit eof ls)⟩ := by
  fun_induction items limit eof ls generalizing statements diagnostics with
  | case1 => simp [Turns, programOf, diagnosticsOf]
  | case2 first rest result ih =>
    cases outcome : result.1.outcome with
    | accepted s =>
      have others := ih (statements ++ [s]) diagnostics
      rw [List.append_assoc] at others
      refine ⟨⟨result.2, statements ++ [s], diagnostics⟩, ?_, ?_⟩
      · change (match result.1.outcome with | .accepted s => _ | .rejected d => _) = _
        rw [outcome]
      · simpa [programOf, diagnosticsOf, outcome] using others
    | rejected d =>
      have others := ih statements (diagnostics ++ [d])
      rw [List.append_assoc diagnostics] at others
      refine ⟨⟨result.2, statements, diagnostics ++ [d]⟩, ?_, ?_⟩
      · change (match result.1.outcome with | .accepted s => _ | .rejected d => _) = _
        rw [outcome]
      · simpa [programOf, diagnosticsOf, outcome] using others

end Loop

/-- A parser takes turns until nothing is left, one for each item. When it is asked again it has
nothing to add. -/
theorem exists_loop_turns (limits : Limits) (preferences : ParserPreferences) {lexer : Lexer}
    {ls : List Lexeme} (h : lexer.Faces ls eof) :
    ∃ parser opening pass again, Parser.ofLexer limits preferences lexer = .ok (parser, opening) ∧
      parser.program limits = .ok pass ∧
      Loop.Turns limits.maxParseDepth eof (items limits.maxParseDepth eof ls).length ⟨ls, [], []⟩
        ⟨[], pass.program.statements, pass.parser.diagnostics⟩ ∧
      pass.parser.program limits = .ok again ∧ again.program.statements = [] ∧
      again.parser.diagnostics = pass.parser.diagnostics := by
  obtain ⟨parser, opening, made, holds, none⟩ := exists_ofLexer limits preferences h
  obtain ⟨pass, parsed, hprogram, hdiagnostics, emptied⟩ := holds.exists_program limits
  obtain ⟨again, reparsed, hagain, hsame, -⟩ := emptied.exists_program limits
  have turns := Loop.turns_items limits.maxParseDepth eof ls [] []
  rw [List.nil_append, List.nil_append, ← hprogram] at turns
  rw [none, List.nil_append] at hdiagnostics
  rw [← hdiagnostics] at turns
  refine ⟨parser, opening, pass, again, made, parsed, turns, reparsed, ?_, ?_⟩
  · rw [hagain, items]
    rfl
  · rw [hsame, items]
    exact List.append_nil _

/-! ## The parser at work -/

/-- A machine takes turns until nothing is left, as many as there are statements and diagnostics in
the program that comes of it. -/
theorem exists_machine_turns (limits : Limits) (preferences : ParserPreferences) {lexer : Lexer}
    {ls : List Lexeme} (h : lexer.Ready ls eof) :
    ∃ start ended last parser opening pass k, Machine.start limits lexer = .ok start ∧
      Parser.ofLexer limits preferences lexer = .ok (parser, opening) ∧
      parser.program limits = .ok pass ∧
      Machine.Turns limits preferences k start ended ∧
      ended.step limits preferences = .ok (some last) ∧ last.stage = .finished ∧
      last.statements = pass.program.statements ∧ last.diagnostics = pass.parser.diagnostics ∧
      k = pass.program.statements.length + pass.parser.diagnostics.length ∧
      ∀ j m n, Machine.Turns limits preferences j start m → Machine.Turn limits preferences m n →
        ∃ ls ls', m.cursor.At ls eof ∧ n.cursor.At ls' eof ∧
          Loop.Advances ⟨ls, m.statements, m.diagnostics⟩ ⟨ls', n.statements, n.diagnostics⟩ := by
  obtain ⟨start, last, parser, opening, pass, started, before, reads, made, parsed, steps,
    finished, statements, diagnostics, -, -⟩ := Machine.exists_run limits preferences h
  obtain ⟨k, ended, turns, final⟩ := (Machine.ends_of_steps steps finished).1 before
  refine ⟨start, ended, last, parser, opening, pass, k, started, made, parsed, turns,
    final, finished, statements, diagnostics, ?_, ?_⟩
  · obtain ⟨none, none'⟩ := Machine.quiet_start started
    have count := turns.count
    rcases Machine.step_outer final (by rw [finished]; rfl) with ⟨-, -, other⟩ | ⟨⟨hs, hd⟩, -⟩
    · cases finished.symm.trans other
    · rw [none, none'] at count
      rw [← statements, ← diagnostics, hs, hd, count]
      exact (Nat.zero_add k).symm
  · intro j m n turns turn
    obtain ⟨ls, reads⟩ := reads.exists_turns turns
    obtain ⟨used, ls', some, split, reads'⟩ := reads.exists_turn turn
    exact ⟨ls, ls', reads.toAt, reads'.toAt, ⟨used, some, split⟩, turn.kept⟩

end Parser

/-! ## Texts -/

/-- A parser on a text takes turns until nothing is left. Each turn uses up tokens of the text,
without its end, and keeps one statement or one diagnostic, so that there are as many turns as
statements and diagnostics. The parser at work, which keeps and records them one by one, takes the
same number of turns, and each of them keeps one statement or records one diagnostic. When the
parser is asked again it has nothing to add. On a text without positions it fails. -/
theorem program_turns (limits : Limits) (lexical : LexicalPreferences)
    (preferences : ParserPreferences) (text : List Char) :
    (∀ place, Position.start.advanceAll text = .ok place →
      ∃ tokens eof parser opening pass n,
      tokenize text = .ok (tokens ++ [eof]) ∧ (∀ l ∈ tokens, l.kind ≠ .eof) ∧ eof.kind = .eof ∧
      Parser.ofLexer limits preferences (.ofText lexical text) = .ok (parser, opening) ∧
      parser.program limits = .ok pass ∧
      Parser.Loop.Turns limits.maxParseDepth eof n ⟨tokens, [], []⟩
        ⟨[], pass.program.statements, pass.parser.diagnostics⟩ ∧
      (∀ k s, Parser.Loop.Turns limits.maxParseDepth eof k ⟨tokens, [], []⟩ s →
        (∀ l ∈ s.rest, l.kind ≠ .eof) ∧ (s.turn limits.maxParseDepth eof = none ↔ s.rest = []) ∧
        ∀ t, s.turn limits.maxParseDepth eof = some t → s.Advances t) ∧
      (∃ start ended last, Parser.Machine.start limits (.ofText lexical text) = .ok start ∧
        Parser.Machine.Turns limits preferences n start ended ∧
        ended.step limits preferences = .ok (some last) ∧ last.stage = .finished ∧
        last.statements = pass.program.statements ∧
        last.diagnostics = pass.parser.diagnostics ∧
        ∀ k m next, Parser.Machine.Turns limits preferences k start m →
          Parser.Machine.Turn limits preferences m next →
          ∃ ls ls', m.cursor.At ls eof ∧ next.cursor.At ls' eof ∧
            Parser.Loop.Advances ⟨ls, m.statements, m.diagnostics⟩
              ⟨ls', next.statements, next.diagnostics⟩) ∧
      pass.program.statements.length + pass.parser.diagnostics.length = n ∧ n ≤ tokens.length ∧
      (n = 0 → tokens = []) ∧
      ∃ again, pass.parser.program limits = .ok again ∧ again.program.statements = [] ∧
        again.parser.diagnostics = pass.parser.diagnostics) ∧
    (∀ fault, Position.start.advanceAll text = .error fault →
      (Parser.ofLexer limits preferences (.ofText lexical text) >>= fun made =>
        made.1.program limits) = .error fault) := by
  refine ⟨fun place there => ?_, fun fault missing => ?_⟩
  · obtain ⟨tokens, laid⟩ := exists_laid there
    have faces : (Lexer.ofText lexical text).Faces tokens (.eofAt place) := laid
    obtain ⟨parser, opening, pass, again, made, parsed, turns, reparsed, nothing, same⟩ :=
      Parser.exists_loop_turns limits preferences faces
    have count := turns.count
    have most := turns.length_le
    have kinds : ∀ l ∈ tokens, l.kind ≠ .eof := fun l hl => (laid.spelled l hl).kind_ne_eof
    have ready : (Lexer.ofText lexical text).Ready tokens (.eofAt place) :=
      ⟨faces, fun ended => by cases ended⟩
    obtain ⟨start, ended, last, parser', opening', pass', k, started, made', parsed', atWork, final,
      finished, hstatements, hrecorded, counted, advances⟩ :=
      Parser.exists_machine_turns limits preferences ready
    cases made.symm.trans made'
    cases parsed.symm.trans parsed'
    obtain rfl : k = (Parser.items limits.maxParseDepth (.eofAt place) tokens).length := by
      rw [counted, count]
      exact Nat.zero_add _
    refine ⟨tokens, .eofAt place, parser, opening, pass, _,
      tokenize_eq_ok_iff.mpr ⟨tokens, _, laid, rfl⟩, kinds, rfl, made, parsed, turns, ?_,
      ⟨start, ended, last, started, atWork, final, finished, hstatements, hrecorded, advances⟩,
      ?_, ?_, ?_, again, reparsed, nothing, same⟩
    · intro k s reached
      exact ⟨fun l hl => kinds l (reached.suffix.mem hl), Parser.Loop.turn_eq_none_iff,
        fun t step => Parser.Loop.turn_advances step⟩
    · simpa using count
    · simpa using most
    · intro zero
      cases tokens with
      | nil => rfl
      | cons first rest =>
        rw [Parser.items_cons] at zero
        cases zero
  · apply Parser.program_eq_error
    exact lexemesFrom_eq_error missing

theorem program_turns_broken :
    Position.start.advanceAll "1 );".toList = .ok ⟨4, 1, 5⟩ ∧
      ∃ parser opening pass, Parser.ofLexer Build.development.limits (.ofEnvironment {})
          (.ofText (.ofEnvironment {}) "1 );".toList) = .ok (parser, opening) ∧
        parser.program Build.development.limits = .ok pass ∧
        0 < pass.program.statements.length + pass.parser.diagnostics.length ∧
        pass.program.statements.length + pass.parser.diagnostics.length ≤ 3 := by
  have there : Position.start.advanceAll "1 );".toList = .ok ⟨4, 1, 5⟩ := rfl
  have known : (tokenize "1 );".toList).map List.length = .ok 4 := by decide +kernel
  obtain ⟨tokens, eof, parser, opening, pass, n, tokenized, -, -, made, parsed, -, -, -, count,
    most, some, -⟩ :=
    (program_turns Build.development.limits (.ofEnvironment {}) (.ofEnvironment {}) _).1 _ there
  rw [tokenized] at known
  have size : tokens.length + 1 = 4 := by simpa [Except.map] using known
  refine ⟨there, parser, opening, pass, made, parsed, ?_, by omega⟩
  rw [count]
  apply Nat.pos_of_ne_zero
  intro zero
  rw [some zero] at size
  cases size

end Frontend

import Frontend.Proofs.Token.Stream

/-!
# Parsers that ask for one lexeme at a time

`Parser.program` looks at all lexemes at once. A parser can also go through them with no more than
two of them in its window: for each lexeme that a statement uses up, it asks the lexer for one more
(`Takes`), until the window is empty (`TakesAll`). Both ways the lexer ends up the same
(`exists_takesAll`).
-/

set_option autoImplicit false

namespace Frontend.Parser

/-! ## One lexeme -/

/-- One lexeme further: the first in the window is given up, and the lexer is asked for one more. -/
def advance (p : Parser) : Except Fault Parser :=
  p.lexer.next.map fun (l, after) =>
    { p with lexer := after, window := p.window.tail ++ [l].filter (·.kind ≠ .eof) }

def advanceBy : Nat → Parser → Except Fault Parser
  | 0, p => .ok p
  | n + 1, p =>
    match p.advance with
    | .error fault => .error fault
    | .ok q => q.advanceBy n

/-- The window has the first two of the lexemes that are not parsed yet, and the lexer has the
others. -/
structure Keeps (p : Parser) (ls : List Lexeme) (eof : Lexeme) : Prop where
  window : p.window = ls.take 2
  ready : p.lexer.Ready (ls.drop 2) eof

section

variable {p : Parser} {ls : List Lexeme} {eof : Lexeme}

theorem Keeps.holds (h : p.Keeps ls eof) : p.Holds ls eof :=
  ⟨ls.drop 2, h.ready.faces, by rw [h.window, List.take_append_drop]⟩

theorem Keeps.exists_advance (limits : Limits) (h : p.Keeps ls eof) :
    ∃ q l events, p.advance = .ok q ∧ q.Keeps (ls.drop 1) eof ∧
      Lexer.Passes limits eof p.lexer (ls.drop 2) [l] events q.lexer := by
  obtain ⟨after, taken, passes⟩ := h.ready.exists_next limits
  have window : (ls.take 2).tail ++ (ls.drop 2).take 1 = (ls.drop 1).take 2 := by
    rcases ls with _ | ⟨first, _ | ⟨second, ls⟩⟩ <;> simp
  refine ⟨_, _, _, congrArg (Except.map _) taken, ⟨?_, ?_⟩, passes⟩
  · change p.window.tail ++ [(ls.drop 2).headD eof].filter (·.kind ≠ .eof) = _
    rw [h.window, h.ready.filter_headD, window]
  · rw [List.drop_drop]
    have ready := passes.ready
    rw [List.drop_drop] at ready
    exact ready

theorem Keeps.exists_advanceBy (limits : Limits) (h : p.Keeps ls eof) (n : Nat) :
    ∃ q handed events, p.advanceBy n = .ok q ∧ q.Keeps (ls.drop n) eof ∧ handed.length = n ∧
      Lexer.Passes limits eof p.lexer (ls.drop 2) handed events q.lexer := by
  induction n generalizing p ls with
  | zero => exact ⟨p, [], [], rfl, h, rfl, .refl h.ready⟩
  | succ n ih =>
    obtain ⟨middle, l, events, first, keeps, passes⟩ := h.exists_advance limits
    obtain ⟨q, handed, more, others, keeps, rfl, rest⟩ := ih keeps
    refine ⟨q, l :: handed, events ++ more, ?_, ?_, rfl, ?_⟩
    · rw [advanceBy, first]
      exact others
    · rw [List.drop_drop, Nat.add_comm] at keeps
      exact keeps
    · apply passes.trans
      rw [List.drop_drop] at rest ⊢
      exact rest

end

/-! ## Statements -/

variable {eof : Lexeme}

/-- A statement comes out, and the parser goes as many lexemes further as it has used up. -/
def Takes (limit : UInt64) (eof : Lexeme) (p : Parser) (item : Item) (q : Parser) : Prop :=
  ∃ first rest after, p.Holds (first :: rest) eof ∧ statement limit eof first rest = (item, after) ∧
    p.advanceBy ((first :: rest).length - after.length) = .ok q

/-- Statements come out one after the other until nothing is in the window. -/
inductive TakesAll (limit : UInt64) (eof : Lexeme) : Parser → List Item → Parser → Prop where
  | done {p : Parser} (empty : p.window = []) : TakesAll limit eof p [] p
  | more {p q r : Parser} {item : Item} {items : List Item} (some : p.window ≠ [])
      (first : Takes limit eof p item q) (rest : TakesAll limit eof q items r) :
    TakesAll limit eof p (item :: items) r

theorem Keeps.exists_takesAll (limits : Limits) {p : Parser} {ls : List Lexeme}
    (h : p.Keeps ls eof) :
    ∃ last handed events, TakesAll limits.maxParseDepth eof p
      (items limits.maxParseDepth eof ls) last ∧
      handed.length = ls.length ∧
      Lexer.Passes limits eof p.lexer (ls.drop 2) handed events last.lexer := by
  fun_induction items limits.maxParseDepth eof ls generalizing p with
  | case1 => exact ⟨p, [], [], .done h.window, rfl, .refl h.ready⟩
  | case2 first rest result =>
    rename_i ih
    obtain ⟨used, hused⟩ : result.2 <:+ rest := statement_suffix limits.maxParseDepth eof first rest
    have left : (first :: rest).drop (used.length + 1) = result.2 := by
      rw [List.drop_succ_cons, ← hused, List.drop_left]
    have size : (first :: rest).length = used.length + 1 + result.2.length := by
      rw [List.length_cons, ← hused, List.length_append]
      omega
    obtain ⟨q, handed, events, moved, keeps, length, passes⟩ :=
      h.exists_advanceBy limits (used.length + 1)
    rw [left] at keeps
    obtain ⟨last, others, more, takes, length', passes'⟩ := ih keeps
    refine ⟨last, handed ++ others, events ++ more,
      .more ?_ ⟨first, rest, result.2, h.holds, rfl, ?_⟩ takes, ?_, ?_⟩
    · simp [h.window]
    · rw [size, Nat.add_sub_cancel]
      exact moved
    · rw [List.length_append, length, length', size]
    · apply passes.trans
      rw [length, List.drop_drop, Nat.add_comm, ← List.drop_drop, left]
      exact passes'

/-! ## Whole texts -/

theorem exists_keeps (limits : Limits) (preferences : ParserPreferences) {lexer : Lexer}
    {ls : List Lexeme} (h : lexer.Ready ls eof) :
    ∃ parser opening handed, ofLexer limits preferences lexer = .ok (parser, opening) ∧
      parser.Keeps ls eof ∧ parser.diagnostics = [] ∧ handed.length = 2 ∧
      Lexer.Passes limits eof lexer ls handed opening parser.lexer := by
  obtain ⟨after, taken, passes⟩ := h.exists_next limits
  obtain ⟨after', taken', passes'⟩ := passes.ready.exists_next limits
  have both := passes.trans passes'
  refine ⟨_, _, _, ofLexer_eq limits preferences taken taken', ⟨?_, both.ready⟩, rfl, rfl, both⟩
  have second : [(ls.drop 1).headD eof].filter (·.kind ≠ .eof) = (ls.drop 1).take 1 :=
    passes.ready.filter_headD
  change ([ls.headD eof] ++ [(ls.drop 1).headD eof]).filter (·.kind ≠ .eof) = _
  rw [List.filter_append, h.filter_headD, second, ← List.take_add]

theorem Keeps.exists_program (limits : Limits) {p : Parser} {ls : List Lexeme}
    (h : p.Keeps ls eof) :
    ∃ pass, p.program limits = .ok pass ∧
      pass.program = programOf (items limits.maxParseDepth eof ls) ∧
      pass.parser.diagnostics = p.diagnostics ++ diagnosticsOf (items limits.maxParseDepth eof ls) ∧
      pass.parser.lexer = p.lexer.atEnd (ls.drop 2) eof := by
  have remaining : p.lexer.remaining = .ok (ls.drop 2, eof) :=
    lexemesFrom_eq_ok_iff.mpr h.ready.faces
  have all : p.window ++ ls.drop 2 = ls := by rw [h.window, List.take_append_drop]
  rw [program, remaining]
  refine ⟨_, rfl, ?_, ?_, rfl⟩
  · exact congrArg (fun ls => programOf (items limits.maxParseDepth eof ls)) all
  · exact congrArg (fun ls => p.diagnostics ++ diagnosticsOf (items limits.maxParseDepth eof ls))
      all

/-- A parser that has taken over a lexer comes to the end of the text in either way, and leaves the
lexer there. -/
theorem exists_takesAll (limits : Limits) (preferences : ParserPreferences) {lexer : Lexer}
    {ls : List Lexeme} (h : lexer.Ready ls eof) :
    ∃ parser opening pass last, ofLexer limits preferences lexer = .ok (parser, opening) ∧
      parser.program limits = .ok pass ∧
      pass.program = programOf (items limits.maxParseDepth eof ls) ∧
      pass.parser.diagnostics = diagnosticsOf (items limits.maxParseDepth eof ls) ∧
      pass.parser.lexer = lexer.atEnd ls eof ∧
      TakesAll limits.maxParseDepth eof parser (items limits.maxParseDepth eof ls) last ∧
      last.lexer = lexer.atEnd ls eof := by
  obtain ⟨parser, opening, handed, made, keeps, none, two, passes⟩ :=
    exists_keeps limits preferences h
  obtain ⟨pass, parsed, hprogram, hdiagnostics, hlexer⟩ := keeps.exists_program limits
  obtain ⟨last, others, events, takes, all, passes'⟩ := keeps.exists_takesAll limits
  refine ⟨parser, opening, pass, last, made, parsed, hprogram, ?_, ?_, takes, ?_⟩
  · rw [hdiagnostics, none, List.nil_append]
  · rw [hlexer, ← passes.atEnd, two]
  · rw [← two] at passes'
    have whole := passes.trans passes'
    apply whole.eq_atEnd
    rw [whole.ended, List.length_append, two, all]
    simp

end Frontend.Parser

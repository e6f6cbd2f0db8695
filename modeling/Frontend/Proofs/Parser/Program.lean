import Frontend.Proofs.Parser.Statement
import Frontend.Proofs.Token.Layout

/-!
# From texts to programs

A text has a program if it has lexemes, and then its statements are those of the lexemes, one after
the other: each statement of the program is accepted somewhere in the lexemes (`accepts_of_mem`).
-/

set_option autoImplicit false

namespace Frontend

/-! ## Texts -/

theorem parse_eq_ok_iff {limit : UInt64} {text : List Char} {p : Program} {ds : List Diagnostic} :
    parse limit text = .ok (p, ds) ↔ ∃ ls eof, Laid .start text ls eof ∧
      p = Parser.programOf (Parser.items limit eof ls) ∧
        ds = Parser.diagnosticsOf (Parser.items limit eof ls) := by
  unfold parse lexemes
  constructor
  · intro h
    cases hlex : lexemesFrom .start text with
    | error fault =>
      rw [hlex] at h
      cases h
    | ok found =>
      rw [hlex] at h
      cases h
      exact ⟨found.1, found.2, lexemesFrom_eq_ok_iff.mp hlex, rfl, rfl⟩
  · rintro ⟨ls, eof, laid, rfl, rfl⟩
    rw [lexemesFrom_eq_ok_iff.mpr laid]
    rfl

theorem parse_eq_error {limit : UInt64} {text : List Char} {fault : Fault}
    (h : Position.start.advanceAll text = .error fault) : parse limit text = .error fault := by
  unfold parse lexemes
  rw [lexemesFrom_eq_error h]
  rfl

namespace Parser

variable {limit : UInt64} {eof : Lexeme}

/-! ## Statements in a row -/

theorem items_cons (first : Lexeme) (rest : List Lexeme) :
    items limit eof (first :: rest) = (statement limit eof first rest).1 ::
      items limit eof (statement limit eof first rest).2 := by
  rw [items]

theorem exists_of_mem_items {ls : List Lexeme} {item : Item} (h : item ∈ items limit eof ls) :
    ∃ before first rest, ls = before ++ first :: rest ∧
      item = (statement limit eof first rest).1 := by
  fun_induction items limit eof ls with
  | case1 => cases h
  | case2 first rest result ih =>
    rcases List.mem_cons.mp h with rfl | h
    · exact ⟨[], first, rest, rfl, rfl⟩
    · obtain ⟨before, next, after, hrest, hitem⟩ := ih h
      obtain ⟨used, hused⟩ := statement_suffix limit eof first rest
      refine ⟨first :: (used ++ before), next, after, ?_, hitem⟩
      rw [← hused, hrest]
      simp

theorem mem_statements {items : List Item} {s : Statement} :
    s ∈ (programOf items).statements ↔ ∃ item ∈ items, item.outcome = .accepted s := by
  unfold programOf
  rw [List.mem_filterMap]
  refine exists_congr fun item => and_congr_right fun _ => ?_
  cases item.outcome <;> simp

theorem accepts_of_mem {ls : List Lexeme} {s : Statement}
    (h : s ∈ (programOf (items limit eof ls)).statements) :
    ∃ before rest after, ls = before ++ rest ∧ Accepts limit eof rest s after := by
  obtain ⟨item, hmem, houtcome⟩ := mem_statements.mp h
  obtain ⟨before, first, rest, hls, rfl⟩ := exists_of_mem_items hmem
  have step : statement limit eof first rest =
      (⟨.accepted s, (statement limit eof first rest).1.ahead⟩,
        (statement limit eof first rest).2) := by
    rw [← houtcome]
  exact ⟨before, first :: rest, _, hls, (statement_eq_accepted_iff.mp step).1⟩

theorem items_of_accepts {ls : List Lexeme} {s : Statement} (h : Accepts limit eof ls s []) :
    items limit eof ls = [⟨.accepted s, 0⟩] := by
  obtain ⟨first, rest, rfl, step⟩ := statement_of_accepts h
  rw [items_cons, step, items]
  rfl

end Parser

end Frontend

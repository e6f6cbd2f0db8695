import Frontend.Proofs.Parser.Chain
import Frontend.Proofs.Parser.Program

/-!
# The grammar

The tokens of a text without diagnostics split into items, one for each statement, and the
statements have the forms of the items (`parse_accepts_iff`). An item is told by its tokens and by
what comes after it; the trees that the parser builds, and the way it goes along the tokens, do not
occur in the definitions.
-/

set_option autoImplicit false

namespace Frontend

/-- What a statement is. -/
inductive Form where
  | binding
  | giving
  | expression
  deriving DecidableEq, Repr

/-- The form of a statement. -/
def Statement.form : Statement → Form
  | .binding .. => .binding
  | .giving .. => .giving
  | .expression .. => .expression

namespace Parser

/-! ## Items -/

/-- How an item ends that is not read to its end: with one semicolon, or with the end of the
tokens. -/
inductive Ending : List Lexeme → List Lexeme → Prop
  | semicolon {l : Lexeme} {after : List Lexeme} (kind : l.kind = .semicolon) : Ending [l] after
  | ended : Ending [] []

/-- The tokens of an item, its form, and the tokens after it. -/
inductive IsItem (limit : Nat) : Form → List Lexeme → List Lexeme → Prop
  | binding {first name sign : Lexeme} {body ending after : List Lexeme}
      (word : first.kind = .letWord) (named : name.kind = .ident) (signed : sign.kind = .assign)
      (skip : Skippable body) (done : Ending ending after) :
      IsItem limit .binding (first :: name :: sign :: (body ++ ending)) after
  | giving {first : Lexeme} {body ending after : List Lexeme} (word : first.kind = .returnWord)
      (skip : Skippable body) (done : Ending ending after) :
      IsItem limit .giving (first :: (body ++ ending)) after
  | expression {block run after : List Lexeme} (chain : IsChain block)
      (fits : nesting block ≤ limit) (semicolons : ∀ l ∈ run, l.kind = .semicolon)
      (all : ∀ l, after.head? = some l → l.kind ≠ .semicolon)
      (settled : run = [] → ∀ l, after.head? = some l → l.kind.isBinary = false) :
      IsItem limit .expression (block ++ run) after

/-- The tokens split into items with the forms. -/
inductive Splits (limit : Nat) : List Lexeme → List Form → Prop
  | nil : Splits limit [] []
  | cons {form : Form} {item after : List Lexeme} {forms : List Form}
      (first : IsItem limit form item after) (others : Splits limit after forms) :
      Splits limit (item ++ after) (form :: forms)

variable {limit : UInt64} {eof : Lexeme}

/-! ## Items and accepted statements -/

theorem exists_ending {tail after : List Lexeme} {span : Span}
    (h : Terminated eof tail span after) :
    ∃ ending, tail = ending ++ after ∧ Ending ending after := by
  cases h with
  | @semicolon l after kind => exact ⟨[l], rfl, .semicolon kind⟩
  | ended => exact ⟨[], rfl, .ended⟩

theorem exists_terminated_of_ending (eof : Lexeme) {ending after : List Lexeme}
    (h : Ending ending after) : ∃ span, Terminated eof (ending ++ after) span after := by
  cases h with
  | @semicolon l after kind => exact ⟨l.span, .semicolon kind⟩
  | ended => exact ⟨eof.span, .ended⟩

theorem stops_lowest_iff {run after : List Lexeme} (semicolons : ∀ l ∈ run, l.kind = .semicolon) :
    Stops .lowest (run ++ after) ↔
      (run = [] → ∀ l, after.head? = some l → l.kind.isBinary = false) := by
  cases run with
  | nil =>
    rw [List.nil_append]
    constructor
    · intro stops _ l hl
      exact l.kind.precedence_le_lowest_iff.mp (stops l hl)
    · intro settled l hl
      exact l.kind.precedence_le_lowest_iff.mpr (settled rfl l hl)
  | cons l run =>
    have weak : l.kind.precedence ≤ .lowest := by
      rw [semicolons l List.mem_cons_self]
      decide
    rw [List.cons_append, stops_cons]
    exact iff_of_true weak nofun

/-- What is accepted with a form is what starts with an item of the form. -/
theorem accepts_iff_isItem (eof : Lexeme) {ls after : List Lexeme} {form : Form} :
    (∃ s, Accepts limit eof ls s after ∧ s.form = form) ↔
      ∃ item, ls = item ++ after ∧ IsItem limit.toNat form item after := by
  constructor
  · rintro ⟨s, accepts, rfl⟩
    cases accepts with
    | binding word named signed skip done =>
      obtain ⟨ending, rfl, ends⟩ := exists_ending done
      refine ⟨_, ?_, .binding word named signed skip ends⟩
      simp
    | giving word skip done =>
      obtain ⟨ending, rfl, ends⟩ := exists_ending done
      refine ⟨_, ?_, .giving word skip ends⟩
      simp
    | expression parsed fits semicolons all =>
      rw [← nesting_of_reads parsed.reads parsed.graded] at fits
      exact ⟨_, by simp, .expression (isChain_of_reads parsed.reads) fits semicolons all
        ((stops_lowest_iff semicolons).mp parsed.stops)⟩
  · rintro ⟨item, rfl, isItem⟩
    cases isItem with
    | @binding first name sign body ending after word named signed skip done =>
      obtain ⟨span, done⟩ := exists_terminated_of_ending eof done
      have accepts : Accepts limit eof _ _ _ := .binding word named signed skip done
      exact ⟨_, by simpa using accepts, rfl⟩
    | @giving first body ending after word skip done =>
      obtain ⟨span, done⟩ := exists_terminated_of_ending eof done
      have accepts : Accepts limit eof _ _ _ := .giving word skip done
      exact ⟨_, by simpa using accepts, rfl⟩
    | @expression block run after chain fits semicolons all settled =>
      obtain ⟨e, reads, graded⟩ := chain.exists_reads
      rw [nesting_of_reads reads graded] at fits
      have parsed : Parsed .lowest e block (run ++ after) :=
        ⟨reads, graded, reads.above_lowest, (stops_lowest_iff semicolons).mpr settled⟩
      obtain ⟨first, block, rfl⟩ := List.exists_cons_of_ne_nil reads.ne_nil
      have accepts : Accepts limit eof _ _ _ := .expression parsed fits semicolons all
      exact ⟨_, by simpa using accepts, rfl⟩

/-! ## Splits and programs -/

theorem IsItem.ne_nil {limit : Nat} {form : Form} {item after : List Lexeme}
    (h : IsItem limit form item after) : item ≠ [] := by
  cases h with
  | binding => simp
  | giving => simp
  | expression chain =>
    obtain ⟨e, reads, -⟩ := chain.exists_reads
    simp [reads.ne_nil]

theorem splits_nil_iff {limit : Nat} {forms : List Form} : Splits limit [] forms ↔ forms = [] := by
  constructor
  · intro h
    generalize hls : ([] : List Lexeme) = ls at h
    cases h with
    | nil => rfl
    | cons first others => exact absurd (List.append_eq_nil_iff.mp hls.symm).1 first.ne_nil
  · rintro rfl
    exact .nil

/-- The first item of a split is the first statement, and it is accepted. -/
theorem splits_cons_iff (eof : Lexeme) {first : Lexeme} {rest : List Lexeme} {forms : List Form} :
    Splits limit.toNat (first :: rest) forms ↔ ∃ s after others,
      statement limit eof first rest = (⟨.accepted s, after.length⟩, after) ∧
        Splits limit.toNat after others ∧ forms = s.form :: others := by
  constructor
  · intro h
    generalize hls : first :: rest = ls at h
    cases h with
    | nil => cases hls
    | @cons form item after forms isItem others =>
      obtain ⟨s, accepts, rfl⟩ := (accepts_iff_isItem eof).mpr ⟨item, rfl, isItem⟩
      rw [← hls] at accepts
      exact ⟨s, after, forms, statement_eq_accepted_iff.mpr ⟨accepts, rfl⟩, others, rfl⟩
  · rintro ⟨s, after, others, step, splits, rfl⟩
    obtain ⟨accepts, -⟩ := statement_eq_accepted_iff.mp step
    obtain ⟨item, hls, isItem⟩ := (accepts_iff_isItem eof).mp ⟨s, accepts, rfl⟩
    rw [hls]
    exact .cons isItem splits

/-- All statements are accepted, with the given forms, exactly if the lexemes split into items. -/
theorem items_accepted_iff {ls : List Lexeme} {forms : List Form} :
    (diagnosticsOf (items limit eof ls) = [] ∧
      (programOf (items limit eof ls)).statements.map Statement.form = forms) ↔
        Splits limit.toNat ls forms := by
  fun_induction items limit eof ls generalizing forms with
  | case1 =>
    rw [splits_nil_iff]
    simp [diagnosticsOf, programOf, eq_comm]
  | case2 first rest =>
    rename_i result ih
    rw [splits_cons_iff eof]
    constructor
    · rintro ⟨none, rfl⟩
      -- without diagnostics the first statement is accepted
      cases houtcome : result.1.outcome with
      | rejected diagnostic => simp [diagnosticsOf, houtcome] at none
      | accepted s =>
        simp only [diagnosticsOf, List.filterMap_cons, houtcome] at none
        have step : statement limit eof first rest = (⟨.accepted s, result.1.ahead⟩, result.2) := by
          rw [← houtcome]
        obtain ⟨accepts, ahead⟩ := statement_eq_accepted_iff.mp step
        refine ⟨s, result.2, _, ?_, ih.mp ⟨none, rfl⟩, ?_⟩
        · rw [step, ahead]
        · simp only [programOf, List.filterMap_cons, houtcome, List.map_cons]
    · rintro ⟨s, after, others, step, splits, rfl⟩
      have hresult : result = (⟨.accepted s, after.length⟩, after) := step
      rw [hresult] at ih ⊢
      obtain ⟨none, hforms⟩ := ih.mpr splits
      refine ⟨none, ?_⟩
      rw [← hforms]
      rfl

end Parser

/-- A text has no diagnostics exactly if its tokens split into items, and then it has a statement
for each of them, in the same order and of the same form. -/
theorem parse_accepts_iff (limit : UInt64) (text : List Char) (forms : List Form) :
    (∃ p, parse limit text = .ok (p, []) ∧ p.statements.map Statement.form = forms) ↔
      ∃ all, tokenize text = .ok all ∧
        Parser.Splits limit.toNat (all.filter (·.kind ≠ .eof)) forms := by
  constructor
  · rintro ⟨p, parsed, hforms⟩
    obtain ⟨ls, eof, laid, rfl, none⟩ := parse_eq_ok_iff.mp parsed
    refine ⟨ls ++ [eof], tokenize_eq_ok_iff.mpr ⟨ls, eof, laid, rfl⟩, ?_⟩
    rw [laid.filter_eof]
    exact Parser.items_accepted_iff.mp ⟨none.symm, hforms⟩
  · rintro ⟨all, tokenized, splits⟩
    obtain ⟨ls, eof, laid, rfl⟩ := tokenize_eq_ok_iff.mp tokenized
    rw [laid.filter_eof] at splits
    obtain ⟨none, hforms⟩ := Parser.items_accepted_iff.mpr splits
    exact ⟨_, parse_eq_ok_iff.mpr ⟨ls, eof, laid, rfl, none.symm⟩, hforms⟩

end Frontend

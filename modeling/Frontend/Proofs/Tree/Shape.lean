import Frontend.Proofs.Token.Spelling
import Frontend.Proofs.Tree.Reading

/-!
# Trees without places

`Expr.bare` takes the spans out of an expression, so that expressions can be compared up to spans.
An expression is `Formed` if it could stand in a text somewhere: its leaves are names and numbers,
and each node has the data that belongs to its token. Lexemes with the tokens of a formed expression
are read by an expression that is the same up to spans (`exists_reads`), and what reads the lexemes
of a text is formed (`Reads.formed`).
-/

set_option autoImplicit false

namespace Frontend

namespace Expr

/-- The expression with every span replaced by the placeholder. -/
def bare : Expr → Expr
  | .identifier node => .identifier { node with span := .placeholder }
  | .integer token value _ => .integer token value .placeholder
  | .unary token operator operand _ => .unary token operator operand.bare .placeholder
  | .binary token left operator right _ =>
    .binary token left.bare operator right.bare .placeholder

/-- Leaves are names that are no keyword and decimal numbers that fit into 64 bits with sign, inner
nodes have one of the operators of their form, and each node has what its token says. -/
def Formed : Expr → Prop
  | .identifier node => node.token = ⟨.ident, node.name⟩ ∧ node.name.toList ≠ [] ∧
      (∀ c ∈ node.name.toList, isLetter c) ∧ Kind.ofWord node.name = .ident
  | .integer token value _ => token.kind = .int ∧ token.literal.toList ≠ [] ∧
      (∀ c ∈ token.literal.toList, c.isDigit) ∧
      Text.decimalValue token.literal.toList ≤ Text.int64Max ∧
      value.toInt = Text.decimalValue token.literal.toList
  | .unary token operator operand _ => token.kind.isUnary ∧ token.literal = token.kind.name ∧
      operator = token.literal ∧ operand.Formed
  | .binary token left operator right _ => token.kind.isBinary ∧ token.literal = token.kind.name ∧
      operator = token.literal ∧ left.Formed ∧ right.Formed

instance decidableFormed : (e : Expr) → Decidable e.Formed
  | .identifier node =>
    have : Decidable (∀ c ∈ node.name.toList, isLetter c) := List.decidableBAll _ _
    inferInstanceAs (Decidable (_ = _ ∧ _ ≠ _ ∧ (∀ c ∈ node.name.toList, _) ∧ _ = _))
  | .integer token _ _ =>
    have : Decidable (∀ c ∈ token.literal.toList, c.isDigit) := List.decidableBAll _ _
    inferInstanceAs (Decidable (_ = _ ∧ _ ≠ _ ∧ (∀ c ∈ token.literal.toList, _) ∧ _ ≤ _ ∧ _ = _))
  | .unary _ _ operand _ =>
    have := decidableFormed operand
    inferInstanceAs (Decidable (_ ∧ _ = _ ∧ _ = _ ∧ operand.Formed))
  | .binary _ left _ right _ =>
    have := decidableFormed left
    have := decidableFormed right
    inferInstanceAs (Decidable (_ ∧ _ = _ ∧ _ = _ ∧ left.Formed ∧ right.Formed))

/-! ## Spans have no influence -/

theorem chained_bare (e : Expr) : e.bare.chained = e.chained := by
  induction e with
  | identifier node => rfl
  | integer token value span => rfl
  | unary token operator operand span ih => rfl
  | binary token left operator right span ihl ihr => rw [bare, chained, chained, ihl]

theorem cost_bare (e : Expr) : e.bare.cost = e.cost := by
  induction e with
  | identifier node => rfl
  | integer token value span => rfl
  | unary token operator operand span ih => rw [bare, cost, cost, ih]
  | binary token left operator right span ihl ihr =>
    rw [bare, cost, cost, ihl, ihr, chained_bare]

theorem strength?_bare (e : Expr) : e.bare.strength? = e.strength? := by
  cases e <;> rfl

theorem graded_bare (e : Expr) : e.bare.Graded ↔ e.Graded := by
  induction e with
  | identifier node => exact Iff.rfl
  | integer token value span => exact Iff.rfl
  | unary token operator operand span ih => rw [bare, Graded, Graded, ih, strength?_bare]
  | binary token left operator right span ihl ihr =>
    rw [bare, Graded, Graded, ihl, ihr, strength?_bare, strength?_bare]

end Expr

/-! ## Formed expressions as readings -/

theorem Kind.isMark_of_isUnary {kind : Kind} (h : kind.isUnary) : kind.isMark := by
  revert h
  cases kind <;> decide

theorem Kind.isMark_of_isBinary {kind : Kind} (h : kind.isBinary) : kind.isMark := by
  revert h
  cases kind <;> decide

theorem spelled_mark {t : Token} (fixed : t.kind.isMark) (h : t.literal = t.kind.name) :
    Spelled t ∧ t.kind ≠ .illegal := by
  obtain ⟨kind, literal⟩ := t
  change literal = kind.name at h
  rw [h]
  refine ⟨.mark kind fixed, ?_⟩
  rintro (rfl : kind = .illegal)
  cases fixed

theorem Expr.Formed.spelled {e : Expr} (formed : e.Formed) :
    ∀ t ∈ e.tokens, Spelled t ∧ t.kind ≠ .illegal := by
  induction e with
  | identifier node =>
    obtain ⟨htoken, nonempty, all, hident⟩ := formed
    intro t ht
    rw [tokens, List.mem_singleton] at ht
    have spelled := Spelled.word node.name.toList nonempty all
    rw [String.ofList_toList, hident] at spelled
    rw [ht, htoken]
    exact ⟨spelled, by simp⟩
  | integer token value span =>
    obtain ⟨hkind, nonempty, all, -, -⟩ := formed
    intro t ht
    rw [tokens, List.mem_singleton] at ht
    have spelled := Spelled.number token.literal.toList nonempty all
    rw [String.ofList_toList, ← hkind] at spelled
    rw [ht]
    exact ⟨spelled, by rw [hkind]; decide⟩
  | unary token operator operand span ih =>
    obtain ⟨hunary, hliteral, -, inner⟩ := formed
    intro t ht
    rcases List.mem_cons.mp ht with rfl | ht
    · exact spelled_mark (Kind.isMark_of_isUnary hunary) hliteral
    · exact ih inner t ht
  | binary token left operator right span ihl ihr =>
    obtain ⟨hbinary, hliteral, -, formedLeft, formedRight⟩ := formed
    intro t ht
    rcases List.mem_append.mp ht with ht | ht
    · exact ihl formedLeft t ht
    · rcases List.mem_cons.mp ht with rfl | ht
      · exact spelled_mark (Kind.isMark_of_isBinary hbinary) hliteral
      · exact ihr formedRight t ht

theorem exists_reads {e : Expr} (formed : e.Formed) {ls : List Lexeme}
    (h : ls.map (·.token) = e.tokens) : ∃ e', Reads e' ls ∧ e'.bare = e.bare := by
  induction e generalizing ls with
  | identifier node =>
    obtain ⟨htoken, -, -, -⟩ := formed
    obtain ⟨l, rfl, hl⟩ := List.map_eq_singleton_iff.mp h
    refine ⟨.identifier (Parser.nameOf l), .identifier ?_, ?_⟩
    · rw [Lexeme.kind, hl, htoken]
    · simp only [Expr.bare, Parser.nameOf, Lexeme.literal, hl, htoken]
  | integer token value span =>
    obtain ⟨hkind, -, -, small, hvalue⟩ := formed
    obtain ⟨l, rfl, rfl⟩ := List.map_eq_singleton_iff.mp h
    exact ⟨.integer l.token value l.span,
      .integer hkind (int64?_eq_some_iff.mpr ⟨small, hvalue⟩), rfl⟩
  | unary token operator operand span ih =>
    obtain ⟨hunary, -, rfl, inner⟩ := formed
    obtain ⟨l, rest, rfl, rfl, hrest⟩ := List.map_eq_cons_iff.mp h
    obtain ⟨e', reads, hbare⟩ := ih inner hrest
    refine ⟨Parser.unaryOf l e', .unary hunary reads, ?_⟩
    simp only [Parser.unaryOf, Expr.bare, hbare, Lexeme.literal]
  | binary token left operator right span ihl ihr =>
    obtain ⟨hbinary, -, rfl, formedLeft, formedRight⟩ := formed
    obtain ⟨before, after, rfl, hbefore, hafter⟩ := List.map_eq_append_iff.mp h
    obtain ⟨l, rest, rfl, rfl, hrest⟩ := List.map_eq_cons_iff.mp hafter
    obtain ⟨left', readsLeft, bareLeft⟩ := ihl formedLeft hbefore
    obtain ⟨right', readsRight, bareRight⟩ := ihr formedRight hrest
    refine ⟨Parser.binaryOf left' l right', .binary hbinary readsLeft readsRight, ?_⟩
    simp only [Parser.binaryOf, Expr.bare, bareLeft, bareRight, Lexeme.literal]

/-! ## Readings as formed expressions -/

theorem Kind.not_isMark_of_isWord {kind : Kind} (h : kind.isWord) : kind.isMark = false := by
  revert h
  cases kind <;> decide

theorem Spelled.letters_of_ident {t : Token} (spelled : Spelled t) (kind : t.kind = .ident) :
    t.literal.toList ≠ [] ∧ (∀ c ∈ t.literal.toList, isLetter c) ∧
    Kind.ofWord t.literal = .ident := by
  cases spelled with
  | word letters nonempty all =>
    rw [String.toList_ofList]
    exact ⟨nonempty, all, kind⟩
  | number => cases kind
  | mark other fixed =>
    cases kind
    cases fixed
  | stray => cases kind

theorem Spelled.digits_of_int {t : Token} (spelled : Spelled t) (kind : t.kind = .int) :
    t.literal.toList ≠ [] ∧ ∀ c ∈ t.literal.toList, c.isDigit := by
  cases spelled with
  | word letters nonempty all =>
    have word := isWord_ofWord (.ofList letters)
    dsimp only at kind
    rw [kind] at word
    cases word
  | number digits nonempty all =>
    rw [String.toList_ofList]
    exact ⟨nonempty, all⟩
  | mark other fixed =>
    cases kind
    cases fixed
  | stray => cases kind

theorem Spelled.literal_of_isMark {t : Token} (spelled : Spelled t) (fixed : t.kind.isMark) :
    t.literal = t.kind.name := by
  cases spelled with
  | word letters =>
    exact absurd fixed (by rw [Kind.not_isMark_of_isWord (isWord_ofWord _)]; decide)
  | number => cases fixed
  | mark kind => rfl
  | stray => cases fixed

theorem Reads.formed {e : Expr} {ls : List Lexeme} (reads : Reads e ls)
    (spelled : ∀ l ∈ ls, Spelled l.token) :
    e.Formed := by
  induction reads with
  | @identifier l kind =>
    obtain ⟨nonempty, letters, word⟩ := (spelled l List.mem_cons_self).letters_of_ident kind
    have token : l.token = ⟨.ident, l.literal⟩ := by
      rw [← kind]
      rfl
    exact ⟨token, nonempty, letters, word⟩
  | @integer l value kind range =>
    obtain ⟨nonempty, digits⟩ := (spelled l List.mem_cons_self).digits_of_int kind
    obtain ⟨small, hvalue⟩ := int64?_eq_some_iff.mp range
    exact ⟨kind, nonempty, digits, small, hvalue⟩
  | @unary operator operand ls kind inner ih =>
    have literal :=
      (spelled operator List.mem_cons_self).literal_of_isMark (Kind.isMark_of_isUnary kind)
    exact ⟨kind, literal, rfl, ih fun l hl => spelled l (List.mem_cons_of_mem operator hl)⟩
  | @binary left right operator ls rs kind before after ihl ihr =>
    have literal := (spelled operator (by simp)).literal_of_isMark (Kind.isMark_of_isBinary kind)
    refine ⟨kind, literal, rfl, ihl fun l hl => ?_, ihr fun l hl => ?_⟩
    · exact spelled l (List.mem_append_left _ hl)
    · exact spelled l (List.mem_append_right _ (List.mem_cons_of_mem operator hl))

end Frontend

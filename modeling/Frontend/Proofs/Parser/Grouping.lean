import Frontend.Proofs.Parser.Program
import Mathlib.Data.List.Basic

/-!
# Expressions are grouped by strength

Every expression statement of a program reads a block of the tokens of the text, from its own first
token up to a token that is no operator between operands, and its operators are grouped by strength,
those of one strength to the left.
-/

set_option autoImplicit false

namespace Frontend

theorem merge_start_of_le {a b : Span} (h : a.start.offset.toNat ≤ b.start.offset.toNat) :
    (a.merge b).start = a.start := by
  rw [Span.merge]
  exact if_pos (UInt64.le_iff_toNat_le.mpr h)

theorem Laid.start_le {p : Position} {text : List Char} {before rest : List Lexeme}
    {first eof : Lexeme} (h : Laid p text (before ++ first :: rest) eof) :
    ∀ l ∈ first :: rest, first.span.start.offset.toNat ≤ l.span.start.offset.toNat := by
  intro l hl
  rcases List.mem_cons.mp hl with rfl | hl
  · exact Nat.le_refl _
  · have ordered := (List.pairwise_append.mp h.ordered).2.1
    have nonempty := (h.bounds first (by simp)).2
    have := (List.pairwise_cons.mp ordered).1 l hl
    omega

theorem exists_next {rest : List Lexeme} {eof : Lexeme} (ending : eof.kind = .eof)
    (stops : Parser.Stops .lowest rest) :
    ∃ next after, rest ++ [eof] = next :: after ∧ next.kind.isBinary = false := by
  cases rest with
  | nil => exact ⟨eof, [], rfl, by rw [ending]; rfl⟩
  | cons next rest =>
    refine ⟨next, rest ++ [eof], rfl, ?_⟩
    exact next.kind.precedence_le_lowest_iff.mp (Parser.stops_cons.mp stops)

/-- The tree of an expression statement has the tokens of a block of the text, grouped by
strength. -/
theorem parse_expression_grouped {limit : UInt64} {text : List Char} {p : Program}
    {ds : List Diagnostic} (parsed : parse limit text = .ok (p, ds)) {token : Token} {e : Expr}
    {span : Span} (mem : .expression token e span ∈ p.statements) :
    ∃ before first block next after,
      tokenize text = .ok (before ++ (first :: block) ++ next :: after) ∧
        token = first.token ∧ span.start = first.span.start ∧
        Reads e (first :: block) ∧ e.tokens = (first :: block).map (·.token) ∧
        next.kind.isBinary = false ∧ e.Graded := by
  obtain ⟨ls, eof, laid, rfl, rfl⟩ := parse_eq_ok_iff.mp parsed
  obtain ⟨before, rest, rest', rfl, accepts⟩ := Parser.accepts_of_mem mem
  cases accepts with
  | @expression first block run after e found fits semicolons all =>
    obtain ⟨next, tail, hnext, plain⟩ := exists_next laid.eof_kind found.stops
    obtain ⟨l, hl, hstart⟩ := found.reads.span_start_mem
    -- no lexeme of the block starts before the first one
    have start : first.span.start.offset.toNat ≤ e.span.start.offset.toNat := by
      rw [hstart]
      apply laid.start_le
      rw [← List.cons_append]
      exact List.mem_append_left _ hl
    refine ⟨before, first, block, next, tail, ?_, rfl, merge_start_of_le start, found.reads,
      found.reads.tokens, plain, found.graded⟩
    refine tokenize_eq_ok_iff.mpr ⟨_, eof, laid, ?_⟩
    rw [← hnext]
    simp only [List.append_assoc, List.cons_append]

theorem parse_expression_grouped_product :
    ∃ before first block next after,
      tokenize "x; a * b".toList = .ok (before ++ (first :: block) ++ next :: after) ∧
        ⟨.ident, "a"⟩ = first.token ∧ ⟨3, 1, 4⟩ = first.span.start ∧
        next.kind.isBinary = false ∧
        [⟨.ident, "a"⟩, ⟨.asterisk, "*"⟩, ⟨.ident, "b"⟩] = (first :: block).map (·.token) := by
  let name : Statement := .expression ⟨.ident, "x"⟩
    (.identifier ⟨⟨.ident, "x"⟩, "x", ⟨⟨0, 1, 1⟩, ⟨1, 1, 2⟩⟩⟩) ⟨⟨0, 1, 1⟩, ⟨1, 1, 2⟩⟩
  let product : Statement := .expression ⟨.ident, "a"⟩ (.binary ⟨.asterisk, "*"⟩
    (.identifier ⟨⟨.ident, "a"⟩, "a", ⟨⟨3, 1, 4⟩, ⟨4, 1, 5⟩⟩⟩) "*"
    (.identifier ⟨⟨.ident, "b"⟩, "b", ⟨⟨7, 1, 8⟩, ⟨8, 1, 9⟩⟩⟩) ⟨⟨3, 1, 4⟩, ⟨8, 1, 9⟩⟩)
    ⟨⟨3, 1, 4⟩, ⟨8, 1, 9⟩⟩
  have parsed : parse 256 "x; a * b".toList = .ok (⟨[name, product]⟩, []) := by decide +kernel
  have mem : product ∈ [name, product] := List.mem_cons_of_mem _ List.mem_cons_self
  obtain ⟨before, first, block, next, after, htokens, htoken, hstart, -, hread, plain, -⟩ :=
    parse_expression_grouped parsed mem
  exact ⟨before, first, block, next, after, htokens, htoken, hstart, plain, hread⟩

end Frontend

import Frontend.Proofs.Parser.Rendering
import Frontend.Proofs.Token.Content
import Mathlib.Algebra.GroupWithZero.Nat

/-!
# Parentheses in renderings

The rendering of a formed expression consists of the tokens of the expression, with a pair of
parentheses around each operator and its operands (`Formed.consists_render`). No two of these tokens
run together: a name or a number is followed by a space or by a parenthesis, and an operator before
its operand by a letter, a digit or a parenthesis. So a rendering is lexed to the tokens that the
expression was parsed from and to parentheses that match.

A rendering is one line, and it is at most three times as long as the tokens of the expression are
together (`Formed.length_render`).
-/

set_option autoImplicit false

namespace Frontend

def Kind.isParenthesis : Kind → Bool
  | .lparen | .rparen => true
  | _ => false

@[simp] theorem Kind.isParenthesis_lparen : Kind.lparen.isParenthesis = true := rfl

@[simp] theorem Kind.isParenthesis_rparen : Kind.rparen.isParenthesis = true := rfl

/-- The parentheses among tokens. -/
def parentheses (ts : List Token) : List Kind := (ts.filter (·.kind.isParenthesis)).map (·.kind)

/-- Parentheses that match. -/
inductive Balanced : List Kind → Prop
  | nil : Balanced []
  | append {ks ks' : List Kind} (h : Balanced ks) (h' : Balanced ks') : Balanced (ks ++ ks')
  | enclose {ks : List Kind} (h : Balanced ks) : Balanced (.lparen :: (ks ++ [.rparen]))

namespace Expr

/-- Whether the expression is an operator with operands. -/
def isOperation : Expr → Bool
  | .identifier _ => false
  | .integer .. => false
  | .unary .. => true
  | .binary .. => true

/-- The tokens of an expression, with parentheses around each operator and its operands. -/
def enclosed : Expr → List Token
  | .identifier node => [node.token]
  | .integer token _ _ => [token]
  | .unary token _ operand _ => ⟨.lparen, "("⟩ :: token :: (operand.enclosed ++ [⟨.rparen, ")"⟩])
  | .binary token left _ right _ =>
    ⟨.lparen, "("⟩ :: (left.enclosed ++ token :: (right.enclosed ++ [⟨.rparen, ")"⟩]))

/-! ## The tokens of a rendering -/

theorem consists_open {rest : List Char} {ts : List Token} (h : Consists rest ts) :
    Consists ('(' :: rest) (⟨.lparen, "("⟩ :: ts) :=
  .token (t := ⟨.lparen, "("⟩) (.mark .lparen rfl) (fun _ _ => rfl) h

theorem consists_close {rest : List Char} {ts : List Token} (h : Consists rest ts) :
    Consists (')' :: rest) (⟨.rparen, ")"⟩ :: ts) :=
  .token (t := ⟨.rparen, ")"⟩) (.mark .rparen rfl) (fun _ _ => rfl) h

theorem consists_space {rest : List Char} {ts : List Token} (h : Consists rest ts) :
    Consists (' ' :: rest) ts := by
  have space : Blank [' '] := by decide
  exact h.blank space

theorem Formed.consists_render {e : Expr} (formed : e.Formed) {rest : List Char} {ts : List Token}
    (apart : Apart rest) (h : Consists rest ts) :
    Consists (e.render.toList ++ rest) (e.enclosed ++ ts) := by
  -- any text may follow that no name or number goes on in, as it does in the rendering of a larger
  -- expression
  induction e generalizing rest ts with
  | identifier node =>
    have spelled := (formed.spelled node.token List.mem_cons_self).1
    obtain ⟨token, -⟩ := formed
    rw [enclosed, token]
    rw [token] at spelled
    exact .token spelled apart.1 h
  | integer token value span =>
    have spelled := (formed.spelled token List.mem_cons_self).1
    obtain ⟨kind, -⟩ := formed
    exact .token spelled (by rw [kind]; exact apart.2) h
  | unary token operator operand span ih =>
    have spelled := (formed.spelled token List.mem_cons_self).1
    obtain ⟨kind, -, rfl, inner⟩ := formed
    rw [toList_render_unary, enclosed]
    simp only [List.cons_append, List.append_assoc, List.nil_append]
    apply consists_open
    exact .token spelled (inner.endsAt kind _) (ih inner (apart_close rest) (consists_close h))
  | binary token left operator right span ihl ihr =>
    have spelled := (formed.spelled token (by simp [tokens])).1
    obtain ⟨-, -, rfl, formedLeft, formedRight⟩ := formed
    rw [toList_render_binary, enclosed]
    simp only [List.cons_append, List.append_assoc, List.nil_append]
    apply consists_open
    apply ihl formedLeft (apart_space _)
    apply consists_space
    apply Consists.token spelled (endsAt_space _ _)
    apply consists_space
    exact ihr formedRight (apart_close rest) (consists_close h)

/-! ## The parentheses, and what is left without them -/

theorem isParenthesis_of_isUnary {kind : Kind} (h : kind.isUnary) : kind.isParenthesis = false := by
  revert h
  cases kind <;> decide

theorem isParenthesis_of_isBinary {kind : Kind} (h : kind.isBinary) :
    kind.isParenthesis = false := by
  revert h
  cases kind <;> decide

theorem Formed.filter_enclosed {e : Expr} (formed : e.Formed) :
    e.enclosed.filter (!·.kind.isParenthesis) = e.tokens := by
  induction e with
  | identifier node =>
    obtain ⟨token, -⟩ := formed
    simp [enclosed, tokens, token, Kind.isParenthesis]
  | integer token value span =>
    obtain ⟨kind, -⟩ := formed
    simp [enclosed, tokens, kind, Kind.isParenthesis]
  | unary token operator operand span ih =>
    obtain ⟨kind, -, -, inner⟩ := formed
    simp [enclosed, tokens, ih inner, isParenthesis_of_isUnary kind]
  | binary token left operator right span ihl ihr =>
    obtain ⟨kind, -, -, formedLeft, formedRight⟩ := formed
    simp [enclosed, tokens, ihl formedLeft, ihr formedRight, isParenthesis_of_isBinary kind]

theorem Formed.parentheses_enclosed {e : Expr} (formed : e.Formed) :
    Balanced (parentheses e.enclosed) ∧
    (parentheses e.enclosed).count .lparen = e.parts.countP isOperation := by
  induction e with
  | identifier node =>
    obtain ⟨token, -⟩ := formed
    have alone : parentheses (identifier node).enclosed = [] := by
      simp [parentheses, enclosed, token, Kind.isParenthesis]
    rw [alone]
    exact ⟨.nil, rfl⟩
  | integer token value span =>
    obtain ⟨kind, -⟩ := formed
    have alone : parentheses (integer token value span).enclosed = [] := by
      simp [parentheses, enclosed, kind, Kind.isParenthesis]
    rw [alone]
    exact ⟨.nil, rfl⟩
  | unary token operator operand span ih =>
    obtain ⟨kind, -, -, inner⟩ := formed
    obtain ⟨balanced, count⟩ := ih inner
    have pair : parentheses (unary token operator operand span).enclosed =
        .lparen :: (parentheses operand.enclosed ++ [.rparen]) := by
      simp [parentheses, enclosed, List.filter_cons, isParenthesis_of_isUnary kind]
    rw [pair]
    refine ⟨.enclose balanced, ?_⟩
    rw [parts, List.countP_cons_of_pos rfl, ← count]
    simp
  | binary token left operator right span ihl ihr =>
    obtain ⟨kind, -, -, formedLeft, formedRight⟩ := formed
    obtain ⟨balancedLeft, countLeft⟩ := ihl formedLeft
    obtain ⟨balancedRight, countRight⟩ := ihr formedRight
    have pair : parentheses (binary token left operator right span).enclosed =
        .lparen :: ((parentheses left.enclosed ++ parentheses right.enclosed) ++ [.rparen]) := by
      simp [parentheses, enclosed, List.filter_cons, isParenthesis_of_isBinary kind]
    rw [pair]
    refine ⟨.enclose (.append balancedLeft balancedRight), ?_⟩
    rw [parts, List.countP_cons_of_pos rfl, List.countP_append, ← countLeft, ← countRight]
    simp

/-! ## The length of a rendering -/

theorem Formed.length_render {e : Expr} (formed : e.Formed) :
    e.render.toList.length + 2 ≤ 3 * (e.tokens.map (·.literal.toList.length)).sum := by
  -- two spare characters for each operand pay for the spaces and the parentheses around an operator
  induction e with
  | identifier node =>
    obtain ⟨token, nonempty, -⟩ := formed
    have := List.length_pos_iff.mpr nonempty
    change node.name.toList.length + 2 ≤ _
    simp only [tokens, token, List.map_cons, List.map_nil, List.sum_cons, List.sum_nil]
    omega
  | integer token value span =>
    obtain ⟨-, nonempty, -⟩ := formed
    have := List.length_pos_iff.mpr nonempty
    change token.literal.toList.length + 2 ≤ _
    simp only [tokens, List.map_cons, List.map_nil, List.sum_cons, List.sum_nil]
    omega
  | unary token operator operand span ih =>
    obtain ⟨kind, literal, rfl, inner⟩ := formed
    have := ih inner
    have one : token.literal.toList.length = 1 := by
      rw [literal]
      revert kind
      cases token.kind <;> simp [Kind.isUnary, Kind.name]
    rw [toList_render_unary]
    simp only [tokens, List.map_cons, List.sum_cons, List.length_cons, List.length_append,
      List.length_nil]
    omega
  | binary token left operator right span ihl ihr =>
    have := List.length_pos_iff.mpr (formed.spelled token (by simp [tokens])).1.ne_nil
    obtain ⟨-, -, rfl, formedLeft, formedRight⟩ := formed
    have := ihl formedLeft
    have := ihr formedRight
    rw [toList_render_binary]
    simp only [tokens, List.map_append, List.sum_append, List.map_cons, List.sum_cons,
      List.length_cons, List.length_append, List.length_nil]
    omega

theorem Formed.plain_render {e : Expr} (formed : e.Formed) :
    ∀ c ∈ e.render.toList, Position.Plain c := by
  have blank : Position.Plain ' ' := plain_of_toNat (by decide) (by decide)
  have opening : Position.Plain '(' := plain_of_toNat (by decide) (by decide)
  have closing : Position.Plain ')' := plain_of_toNat (by decide) (by decide)
  induction e with
  | identifier node => exact fun c hc => plain_of_isLetter (formed.2.2.1 c hc)
  | integer token value span => exact fun c hc => plain_of_isDigit (formed.2.2.1 c hc)
  | unary token operator operand span ih =>
    obtain ⟨kind, literal, rfl, inner⟩ := formed
    have sign : ∀ c ∈ token.literal.toList, Position.Plain c := by
      rw [literal]
      exact plain_of_isMark (Kind.isMark_of_isUnary kind)
    rw [toList_render_unary]
    simp only [List.forall_mem_cons, List.forall_mem_append]
    exact ⟨opening, sign, ih inner, closing, nofun⟩
  | binary token left operator right span ihl ihr =>
    obtain ⟨kind, literal, rfl, formedLeft, formedRight⟩ := formed
    have sign : ∀ c ∈ token.literal.toList, Position.Plain c := by
      rw [literal]
      exact plain_of_isMark (Kind.isMark_of_isBinary kind)
    rw [toList_render_binary]
    simp only [List.forall_mem_cons, List.forall_mem_append]
    exact ⟨opening, ihl formedLeft, blank, sign, blank, ihr formedRight, closing, nofun⟩

end Expr

theorem Laid.length_literals_le {p : Position} {text : List Char} {ls : List Lexeme} {eof : Lexeme}
    (h : Laid p text ls eof) : (ls.map (·.literal.toList.length)).sum ≤ text.length := by
  induction h with
  | ended => simp
  | found blank spelled ends first last tail ih =>
    simp only [List.map_cons, List.sum_cons, List.length_append, Lexeme.literal] at ih ⊢
    omega

/-! ## Renderings of programs -/

theorem Parser.Accepts.exists_covered {limit : UInt64} {eof : Lexeme} {ls after : List Lexeme}
    {token : Token} {e : Expr} {span : Span}
    (h : Accepts limit eof ls (.expression token e span) after) (ordered : InOrder (ls ++ [eof])) :
    ∃ block rest, ls = block ++ rest ∧ Reads e block ∧ span.Covers block := by
  cases h with
  | @expression first block run after e parsed fits semicolons all =>
    have here : InOrder (first :: block) := by
      refine ordered.sublist (List.Sublist.cons_cons first ?_)
      exact (List.sublist_append_left _ _).trans (List.sublist_append_left _ _)
    have covers := (parsed.reads.standsOn here).covers
    refine ⟨first :: block, run ++ after, rfl, parsed.reads, ?_⟩
    rw [covers.merge_first here]
    exact covers

/-- The tokens of a list of lexemes, up to the end of the text. -/
def tokensOf (ls : List Lexeme) : List Token := (ls.filter (·.kind ≠ .eof)).map (·.token)

theorem Laid.tokensOf_eq {p : Position} {text : List Char} {ls : List Lexeme} {eof : Lexeme}
    (h : Laid p text ls eof) : tokensOf (ls ++ [eof]) = ls.map (·.token) := by
  rw [tokensOf, h.filter_eof]

theorem Expr.Formed.tokenize_render {e : Expr} (formed : e.Formed) :
    (e.render.length + 1 < UInt32.size → ∃ outer, tokenize e.render.toList = .ok outer ∧
      tokensOf outer = e.enclosed) ∧
    (UInt32.size ≤ e.render.length + 1 → tokenize e.render.toList = .error .addOverflow) := by
  rw [← String.length_toList]
  constructor
  · intro short
    obtain ⟨place, there⟩ := Position.exists_advanceAll_line formed.plain_render short
    have held : Consists (e.render.toList ++ []) (e.enclosed ++ []) :=
      formed.consists_render ⟨nofun, nofun⟩ (.ended nofun)
    rw [List.append_nil, List.append_nil] at held
    obtain ⟨ls, laid, tokens⟩ := held.exists_laid there
    exact ⟨_, tokenize_eq_ok_iff.mpr ⟨ls, _, laid, rfl⟩, laid.tokensOf_eq.trans tokens⟩
  · intro long
    unfold tokenize lexemes
    rw [lexemesFrom_eq_error (Position.advanceAll_line_overflow formed.plain_render long)]
    rfl

/-- The rendering of an expression that is a statement of a program has the tokens of the source at
the span of the statement, in this order, and besides them only parentheses: they match, and there
is one pair for each operator. This is so as far as the rendering has positions, and it is less than
three times as long as the source at the span. -/
theorem render_parenthesized (limit : UInt64) (text : List Char) :
    (∀ place, Position.start.advanceAll text = .ok place → ∃ p ds, parse limit text = .ok (p, ds) ∧
      ∀ token e span, .expression token e span ∈ p.statements → ∃ cut inner,
        span.slice text = .ok cut ∧ tokenize cut = .ok inner ∧
        e.render.length + 2 ≤ 3 * cut.length ∧
        (e.render.length + 1 < UInt32.size → ∃ outer, tokenize e.render.toList = .ok outer ∧
          (tokensOf outer).filter (!·.kind.isParenthesis) = tokensOf inner ∧
          Balanced (parentheses (tokensOf outer)) ∧
          (parentheses (tokensOf outer)).count .lparen = e.parts.countP Expr.isOperation) ∧
        (UInt32.size ≤ e.render.length + 1 → tokenize e.render.toList = .error .addOverflow)) ∧
    (∀ fault, Position.start.advanceAll text = .error fault → parse limit text = .error fault) := by
  refine ⟨fun place there => ?_, fun fault missing => parse_eq_error missing⟩
  obtain ⟨ls, laid⟩ := exists_laid there
  refine ⟨_, _, parse_eq_ok_iff.mpr ⟨ls, _, laid, rfl, rfl⟩, fun token e span hs => ?_⟩
  obtain ⟨before, rest, after, rfl, accepts⟩ := Parser.accepts_of_mem hs
  have ordered : InOrder (rest ++ [.eofAt place]) := by
    refine laid.inOrder.sublist ?_
    rw [List.append_assoc]
    exact List.sublist_append_right before _
  obtain ⟨block, back, rfl, reads, covers⟩ := accepts.exists_covered ordered
  have formed : e.Formed := reads.formed fun l hl => laid.spelled l (by simp [hl])
  obtain ⟨cut, inner, place', sliced, laid', same⟩ := laid.exists_slice covers
  have tokens : inner.map (·.token) = e.tokens := same.trans reads.tokens.symm
  obtain ⟨found, missing⟩ := formed.tokenize_render
  refine ⟨cut, _, sliced, tokenize_eq_ok_iff.mpr ⟨inner, _, laid', rfl⟩, ?_,
    fun short => ?_, missing⟩
  · have length := formed.length_render
    have total : (e.tokens.map (·.literal.toList.length)).sum ≤ cut.length := by
      rw [← tokens, List.map_map]
      exact laid'.length_literals_le
    rw [String.length_toList] at length
    omega
  · obtain ⟨outer, lexed, enclosed⟩ := found short
    obtain ⟨balanced, count⟩ := formed.parentheses_enclosed
    refine ⟨outer, lexed, ?_, ?_, ?_⟩
    · rw [enclosed, laid'.tokensOf_eq, tokens]
      exact formed.filter_enclosed
    · rw [enclosed]
      exact balanced
    · rw [enclosed]
      exact count

theorem render_parenthesized_product :
    ∃ token e span, parse 256 "- a*b;".toList = .ok (⟨[.expression token e span]⟩, []) ∧
      e.render = "((-a) * b)" ∧
      span.slice "- a*b;".toList = .ok "- a*b".toList ∧
      ∃ inner outer, tokenize "- a*b".toList = .ok inner ∧
        tokenize "((-a) * b)".toList = .ok outer ∧
        (tokensOf outer).filter (!·.kind.isParenthesis) = tokensOf inner ∧
        Balanced (parentheses (tokensOf outer)) ∧
        (parentheses (tokensOf outer)).count .lparen = 2 := by
  let product : Expr := .binary ⟨.asterisk, "*"⟩ (.unary ⟨.minus, "-"⟩ "-"
    (.identifier ⟨⟨.ident, "a"⟩, "a", ⟨⟨2, 1, 3⟩, ⟨3, 1, 4⟩⟩⟩) ⟨⟨0, 1, 1⟩, ⟨3, 1, 4⟩⟩) "*"
    (.identifier ⟨⟨.ident, "b"⟩, "b", ⟨⟨4, 1, 5⟩, ⟨5, 1, 6⟩⟩⟩) ⟨⟨0, 1, 1⟩, ⟨5, 1, 6⟩⟩
  have known : parse 256 "- a*b;".toList =
      .ok (⟨[.expression ⟨.minus, "-"⟩ product ⟨⟨0, 1, 1⟩, ⟨5, 1, 6⟩⟩]⟩, []) := by decide +kernel
  have there : Position.start.advanceAll "- a*b;".toList = .ok ⟨6, 1, 7⟩ := rfl
  have covered : Span.slice ⟨⟨0, 1, 1⟩, ⟨5, 1, 6⟩⟩ "- a*b;".toList = .ok "- a*b".toList := rfl
  obtain ⟨p, ds, parsed, all⟩ := (render_parenthesized 256 "- a*b;".toList).1 _ there
  rw [known] at parsed
  cases parsed
  obtain ⟨cut, inner, sliced, lexed, -, short, -⟩ := all _ _ _ List.mem_cons_self
  rw [covered] at sliced
  cases sliced
  obtain ⟨outer, rendered, same, balanced, count⟩ := short (by decide)
  exact ⟨_, product, _, known, rfl, covered, inner, outer, lexed, rendered, same, balanced, count⟩

end Frontend

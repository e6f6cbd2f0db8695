import Frontend.Proofs.Parser.Locality

/-!
# Renderings of expressions

The rendering of a formed expression starts in a way that tells the sort of the expression
(`sortOf_render`), and what it starts with can be taken off token by token: a text that starts with
the rendering of an expression starts with that of no other one (`render_append_inj`). So the
expressions of programs are told apart by their renderings, up to spans.
-/

set_option autoImplicit false

namespace Frontend

/-- A text starts with one token, and the rest is what stands after it. -/
theorem Spelled.append_inj {t u : Token} (first : Spelled t) (second : Spelled u)
    {xs ys : List Char} (ends : t.kind.EndsAt xs) (ends' : u.kind.EndsAt ys)
    (same : t.literal.toList ++ xs = u.literal.toList ++ ys) : t = u ∧ xs = ys := by
  have found := munch_of_spelled first ends
  rw [same, munch_of_spelled second ends'] at found
  cases found
  exact ⟨rfl, rfl⟩

namespace Expr

/-! ## The start of a rendering -/

theorem toList_render_unary (token : Token) (operator : String) (operand : Expr) (span : Span) :
    (unary token operator operand span).render.toList =
      '(' :: (operator.toList ++ (operand.render.toList ++ [')'])) := by
  simp [render]

theorem toList_render_binary (token : Token) (left : Expr) (operator : String) (right : Expr)
    (span : Span) :
    (binary token left operator right span).render.toList = '(' :: (left.render.toList ++
      ' ' :: (operator.toList ++ ' ' :: (right.render.toList ++ [')']))) := by
  simp [render]

/-- The sort of the expression whose rendering a text starts with. -/
def sortOf : List Char → String
  | [] => ""
  | c :: rest =>
    if c = '(' then
      if rest.head? = some '!' ∨ rest.head? = some '-' then "PrefixExpression"
        else "InfixExpression"
    else if isLetter c then "Identifier" else "IntegerLiteral"

theorem Formed.exists_head {e : Expr} (formed : e.Formed) :
    ∃ c tail, e.render.toList = c :: tail ∧ (isLetter c ∨ c.isDigit ∨ c = '(') := by
  cases e with
  | identifier node =>
    obtain ⟨-, nonempty, letters, -⟩ := formed
    obtain ⟨c, tail, h⟩ := List.exists_cons_of_ne_nil nonempty
    exact ⟨c, tail, h, .inl (letters c (h ▸ List.mem_cons_self))⟩
  | integer token value span =>
    obtain ⟨-, nonempty, digits, -⟩ := formed
    obtain ⟨c, tail, h⟩ := List.exists_cons_of_ne_nil nonempty
    exact ⟨c, tail, h, .inr (.inl (digits c (h ▸ List.mem_cons_self)))⟩
  | unary token operator operand span => exact ⟨_, _, toList_render_unary .., .inr (.inr rfl)⟩
  | binary token left operator right span => exact ⟨_, _, toList_render_binary .., .inr (.inr rfl)⟩

theorem sortOf_render {e : Expr} (formed : e.Formed) (rest : List Char) :
    sortOf (e.render.toList ++ rest) = e.sort := by
  cases e with
  | identifier node =>
    obtain ⟨-, nonempty, letters, -⟩ := formed
    obtain ⟨c, tail, h⟩ := List.exists_cons_of_ne_nil nonempty
    have letter := letters c (h ▸ List.mem_cons_self)
    have other : c ≠ '(' := by
      rintro rfl
      exact absurd letter (by decide)
    change sortOf (node.name.toList ++ rest) = _
    rw [h, List.cons_append, sortOf, if_neg other, if_pos letter]
    rfl
  | integer token value span =>
    obtain ⟨-, nonempty, digits, -⟩ := formed
    obtain ⟨c, tail, h⟩ := List.exists_cons_of_ne_nil nonempty
    have digit := digits c (h ▸ List.mem_cons_self)
    have other : c ≠ '(' := by
      rintro rfl
      exact absurd digit (by decide)
    change sortOf (token.literal.toList ++ rest) = _
    rw [h, List.cons_append, sortOf, if_neg other, not_isLetter_of_isDigit digit]
    rfl
  | unary token operator operand span =>
    obtain ⟨kind, literal, rfl, -⟩ := formed
    rw [toList_render_unary, List.cons_append, sortOf, if_pos rfl, if_pos]
    · rfl
    · rw [literal]
      revert kind
      cases token.kind <;> simp [Kind.isUnary, Kind.name]
  | binary token left operator right span =>
    obtain ⟨-, -, -, formedLeft, -⟩ := formed
    obtain ⟨c, tail, h, start⟩ := formedLeft.exists_head
    rw [toList_render_binary, h, List.cons_append, List.cons_append, sortOf, if_pos rfl, if_neg]
    · rfl
    · rintro (operator | operator) <;> cases operator <;> exact absurd start (by decide)

theorem sort_eq_of_render {e e' : Expr} (formed : e.Formed) (formed' : e'.Formed)
    {rest rest' : List Char} (same : e.render.toList ++ rest = e'.render.toList ++ rest') :
    e.sort = e'.sort := by
  rw [← sortOf_render formed rest, same, sortOf_render formed' rest']

/-! ## Taking a rendering off a text -/

/-- No name and no number goes on in a text. -/
def Apart (rest : List Char) : Prop := Kind.ident.EndsAt rest ∧ Kind.int.EndsAt rest

theorem endsAt_space (kind : Kind) (rest : List Char) : kind.EndsAt (' ' :: rest) := by
  intro c hc
  cases hc
  exact goesOn_of_isBlank kind (by decide)

theorem apart_space (rest : List Char) :
    Apart (' ' :: rest) := ⟨endsAt_space _ rest, endsAt_space _ rest⟩

theorem apart_close (rest : List Char) : Apart (')' :: rest) :=
  ⟨fun _ h => by cases h; decide, fun _ h => by cases h; decide⟩

/-- A unary operator does not go on in the rendering of its operand. -/
theorem Formed.endsAt {e : Expr} (formed : e.Formed) {kind : Kind} (h : kind.isUnary)
    (rest : List Char) :
    kind.EndsAt (e.render.toList ++ rest) := by
  obtain ⟨c, tail, head, start⟩ := formed.exists_head
  have equals : c ≠ '=' := by
    rintro rfl
    exact absurd start (by decide)
  intro d hd
  rw [head] at hd
  cases hd
  revert h
  cases kind <;> simp [Kind.isUnary, Kind.goesOn, Kind.isWord, Kind.isKeyword, equals]

/-- A text starts with the rendering of at most one expression, up to spans. -/
theorem render_append_inj {e e' : Expr} (formed : e.Formed) (formed' : e'.Formed)
    {rest rest' : List Char} (apart : Apart rest) (apart' : Apart rest')
    (same : e.render.toList ++ rest = e'.render.toList ++ rest') :
    e.bare = e'.bare ∧ rest = rest' := by
  induction e generalizing e' rest rest' with
  | identifier node =>
    have sorts := sort_eq_of_render formed formed' same
    cases e' with
    | identifier node' =>
      have spelled := (formed.spelled node.token List.mem_cons_self).1
      have spelled' := (formed'.spelled node'.token List.mem_cons_self).1
      obtain ⟨token, -⟩ := formed
      obtain ⟨token', -⟩ := formed'
      rw [token] at spelled
      rw [token'] at spelled'
      obtain ⟨tokens, rests⟩ := spelled.append_inj spelled' apart.1 apart'.1 same
      injection tokens with _ names
      exact ⟨by rw [bare, bare, token, token', names], rests⟩
    | _ => simp [sort] at sorts
  | integer token value span =>
    have sorts := sort_eq_of_render formed formed' same
    cases e' with
    | integer token' value' span' =>
      have spelled := (formed.spelled token List.mem_cons_self).1
      have spelled' := (formed'.spelled token' List.mem_cons_self).1
      obtain ⟨kind, -, -, -, hvalue⟩ := formed
      obtain ⟨kind', -, -, -, hvalue'⟩ := formed'
      obtain ⟨rfl, rests⟩ := spelled.append_inj spelled' (by rw [kind]; exact apart.2)
        (by rw [kind']; exact apart'.2) same
      have values : value = value' := Int64.toInt_inj.mp (hvalue.trans hvalue'.symm)
      exact ⟨by rw [bare, bare, values], rests⟩
    | _ => simp [sort] at sorts
  | unary token operator operand span ih =>
    have sorts := sort_eq_of_render formed formed' same
    cases e' with
    | unary token' operator' operand' span' =>
      have spelled := (formed.spelled token List.mem_cons_self).1
      have spelled' := (formed'.spelled token' List.mem_cons_self).1
      obtain ⟨kind, -, rfl, inner⟩ := formed
      obtain ⟨kind', -, rfl, inner'⟩ := formed'
      simp only [toList_render_unary, List.cons_append, List.append_assoc, List.nil_append,
        List.cons.injEq, true_and] at same
      obtain ⟨rfl, after⟩ :=
        spelled.append_inj spelled' (inner.endsAt kind _) (inner'.endsAt kind' _) same
      obtain ⟨operands, rests⟩ := ih inner inner' (apart_close rest) (apart_close rest') after
      injection rests with _ rests
      exact ⟨by rw [bare, bare, operands], rests⟩
    | _ => simp [sort] at sorts
  | binary token left operator right span ihl ihr =>
    have sorts := sort_eq_of_render formed formed' same
    cases e' with
    | binary token' left' operator' right' span' =>
      have spelled := (formed.spelled token (by simp [tokens])).1
      have spelled' := (formed'.spelled token' (by simp [tokens])).1
      obtain ⟨-, -, rfl, formedLeft, formedRight⟩ := formed
      obtain ⟨-, -, rfl, formedLeft', formedRight'⟩ := formed'
      simp only [toList_render_binary, List.cons_append, List.append_assoc, List.nil_append,
        List.cons.injEq, true_and] at same
      obtain ⟨lefts, middle⟩ := ihl formedLeft formedLeft' (apart_space _) (apart_space _) same
      injection middle with _ middle
      obtain ⟨rfl, after⟩ :=
        spelled.append_inj spelled' (endsAt_space _ _) (endsAt_space _ _) middle
      injection after with _ after
      obtain ⟨rights, rests⟩ :=
        ihr formedRight formedRight' (apart_close rest) (apart_close rest') after
      injection rests with _ rests
      exact ⟨by rw [bare, bare, lefts, rights], rests⟩
    | _ => simp [sort] at sorts

end Expr

/-! ## Expressions of programs -/

theorem Parser.formed_of_mem_parts {limit : UInt64} {text : List Char} {p : Program}
    {ds : List Diagnostic} (parsed : parse limit text = .ok (p, ds)) {s : Statement}
    (hs : s ∈ p.statements) {e : Expr} (he : e ∈ s.parts) : e.Formed := by
  obtain ⟨ls, eof, laid, rfl, -⟩ := parse_eq_ok_iff.mp parsed
  obtain ⟨before, rest, after, rfl, accepts⟩ := accepts_of_mem hs
  obtain ⟨front, block, back, rfl, reads, -⟩ := accepts.exists_part e he
  exact reads.formed fun l hl => laid.spelled l (by simp [hl])

/-- Two expressions of any programs, at any depth, have the same rendering exactly if they are the
same up to spans. -/
theorem render_unambiguous {limit limit' : UInt64} {text text' : List Char} {p p' : Program}
    {ds ds' : List Diagnostic} (parsed : parse limit text = .ok (p, ds))
    (parsed' : parse limit' text' = .ok (p', ds')) {s s' : Statement} (hs : s ∈ p.statements)
    (hs' : s' ∈ p'.statements) {e e' : Expr} (he : e ∈ s.parts) (he' : e' ∈ s'.parts) :
    e.render = e'.render ↔ e.bare = e'.bare := by
  constructor
  · intro same
    have formed := Parser.formed_of_mem_parts parsed hs he
    have formed' := Parser.formed_of_mem_parts parsed' hs' he'
    have ended : Expr.Apart [] := ⟨nofun, nofun⟩
    exact (Expr.render_append_inj formed formed' ended ended (by rw [same])).1
  · intro same
    rw [← e.render_bare, same, e'.render_bare]

/-- A negated factor of a product, and the same text as an operand elsewhere under another limit. -/
theorem render_unambiguous_operand :
    ∃ e e' : Expr, e ≠ e' ∧
      (∃ p, parse 256 "-a*b".toList = .ok (p, []) ∧ ∃ s ∈ p.statements, e ∈ s.parts) ∧
      (∃ p, parse 128 "x;\n1 + - a".toList = .ok (p, []) ∧ ∃ s ∈ p.statements, e' ∈ s.parts) ∧
      e.render = "(-a)" ∧ e'.render = "(-a)" ∧ e.bare = e'.bare := by
  let operand : Expr := .unary ⟨.minus, "-"⟩ "-"
    (.identifier ⟨⟨.ident, "a"⟩, "a", ⟨⟨1, 1, 2⟩, ⟨2, 1, 3⟩⟩⟩) ⟨⟨0, 1, 1⟩, ⟨2, 1, 3⟩⟩
  let operand' : Expr := .unary ⟨.minus, "-"⟩ "-"
    (.identifier ⟨⟨.ident, "a"⟩, "a", ⟨⟨9, 2, 7⟩, ⟨10, 2, 8⟩⟩⟩) ⟨⟨7, 2, 5⟩, ⟨10, 2, 8⟩⟩
  let product : Statement := .expression ⟨.minus, "-"⟩ (.binary ⟨.asterisk, "*"⟩ operand "*"
    (.identifier ⟨⟨.ident, "b"⟩, "b", ⟨⟨3, 1, 4⟩, ⟨4, 1, 5⟩⟩⟩) ⟨⟨0, 1, 1⟩, ⟨4, 1, 5⟩⟩)
      ⟨⟨0, 1, 1⟩, ⟨4, 1, 5⟩⟩
  let name : Statement := .expression ⟨.ident, "x"⟩
    (.identifier ⟨⟨.ident, "x"⟩, "x", ⟨⟨0, 1, 1⟩, ⟨1, 1, 2⟩⟩⟩) ⟨⟨0, 1, 1⟩, ⟨1, 1, 2⟩⟩
  let sum : Statement := .expression ⟨.int, "1"⟩ (.binary ⟨.plus, "+"⟩
    (.integer ⟨.int, "1"⟩ 1 ⟨⟨3, 2, 1⟩, ⟨4, 2, 2⟩⟩) "+" operand' ⟨⟨3, 2, 1⟩, ⟨10, 2, 8⟩⟩)
      ⟨⟨3, 2, 1⟩, ⟨10, 2, 8⟩⟩
  have parsed : parse 256 "-a*b".toList = .ok (⟨[product]⟩, []) := by decide +kernel
  have parsed' : parse 128 "x;\n1 + - a".toList = .ok (⟨[name, sum]⟩, []) := by decide +kernel
  have mem : product ∈ [product] := List.mem_cons_self
  have mem' : sum ∈ [name, sum] := List.mem_cons_of_mem _ List.mem_cons_self
  have part : operand ∈ product.parts := by decide
  have part' : operand' ∈ sum.parts := by decide
  have same := (render_unambiguous parsed parsed' mem mem' part part').mp rfl
  exact ⟨operand, operand', by decide, ⟨_, parsed, _, mem, part⟩, ⟨_, parsed', _, mem', part'⟩,
    rfl, rfl, same⟩

end Frontend

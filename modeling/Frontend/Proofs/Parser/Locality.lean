import Frontend.Proofs.Parser.Placement
import Frontend.Proofs.Parser.Respacing
import Frontend.Proofs.Parser.RoundTrip
import Frontend.Proofs.Token.Cut
import Frontend.Proofs.Tree.Parts

/-!
# Statements and expressions cut out of a text

The slice of a text at the span of a statement has the tokens of the statement and no others, and so
has the slice at the span of an expression in it (`Laid.exists_slice`). No token changes at the
cuts, and no decision of the parser depends on what stands around the tokens of a node: the slice is
parsed to the same statement, or to a statement with the same expression, up to spans.
-/

set_option autoImplicit false

namespace Frontend

/-! ## Slices over lexemes -/

/-- The slice at a span over some of the lexemes has their tokens when it is read by itself. -/
theorem Laid.exists_slice {text : List Char} {before block after : List Lexeme} {eof : Lexeme}
    {s : Span} (h : Laid .start text (before ++ (block ++ after)) eof) (covers : s.Covers block) :
    ∃ cut ls place, s.slice text = .ok cut ∧ Laid .start cut ls (.eofAt place) ∧
      ls.map (·.token) = block.map (·.token) := by
  obtain ⟨start, stop⟩ := s
  obtain ⟨first, rest, rfl, rfl⟩ := covers.exists_head
  obtain ⟨init, last, hblock, rfl⟩ := covers.exists_last
  obtain ⟨done, part, rfl, reached, onwards⟩ := h.drop
  have split : first :: (rest ++ after) = init ++ last :: after := by
    rw [← List.cons_append, hblock, List.append_assoc]
    rfl
  obtain ⟨cut, more, rfl, laid⟩ := (split ▸ onwards).take
  obtain ⟨stop, there, hstop⟩ := laid.advanceAll
  cases hstop
  obtain ⟨ls, place, again, same⟩ := laid.restart (Position.start_lower reached)
  rw [← hblock] at same
  exact ⟨cut, ls, place, Span.slice_of_advanceAll reached there more, again, same⟩

/-- The slice at a span over the last lexemes and the end of the text has their tokens. -/
theorem Laid.exists_slice_to_end {text : List Char} {before rest : List Lexeme} {first eof : Lexeme}
    {s : Span} (h : Laid .start text (before ++ first :: rest) eof)
    (covers : s.Covers (first :: rest ++ [eof])) :
    ∃ cut ls place, s.slice text = .ok cut ∧ Laid .start cut ls (.eofAt place) ∧
      ls.map (·.token) = (first :: rest).map (·.token) := by
  obtain ⟨start, stop⟩ := s
  obtain ⟨head, tail, hhead, rfl⟩ := covers.exists_head
  obtain ⟨init, last, hlast, rfl⟩ := covers.exists_last
  cases hhead
  obtain ⟨-, ends⟩ := List.append_inj' hlast rfl
  cases ends
  obtain ⟨done, cut, rfl, reached, laid⟩ := h.drop
  obtain ⟨stop, there, rfl⟩ := laid.advanceAll
  obtain ⟨ls, place, again, same⟩ := laid.restart (Position.start_lower reached)
  have covered : Span.slice ⟨first.span.start, stop⟩ (done ++ (cut ++ [])) = .ok cut :=
    Span.slice_of_advanceAll reached there []
  rw [List.append_nil] at covered
  exact ⟨cut, ls, place, covered, again, same⟩

namespace Parser

variable {limit : UInt64} {eof : Lexeme}

/-! ## Statements by themselves -/

/-- A text whose tokens are those of one accepted statement is parsed to that statement. -/
theorem exists_parse_of_accepts {block ls : List Lexeme} {s : Statement} {cut : List Char}
    {place place' : Position} (alone : Accepts limit (.eofAt place) block s [])
    (laid : Laid .start cut ls (.eofAt place')) (same : ls.map (·.token) = block.map (·.token)) :
    ∃ s', parse limit cut = .ok (⟨[s']⟩, []) ∧ s'.bare = s.bare := by
  have bare : (items limit (.eofAt place') ls).map Item.bare = [⟨.accepted s.bare, 0⟩] := by
    have ending : (Lexeme.eofAt place').token = (Lexeme.eofAt place).token := rfl
    rw [items_bare_eq same ending, items_of_accepts alone]
    rfl
  obtain ⟨⟨outcome, ahead⟩, hitems, hitem⟩ := List.map_eq_singleton_iff.mp bare
  cases outcome with
  | rejected d => cases hitem
  | accepted s' =>
    refine ⟨s', parse_eq_ok_iff.mpr ⟨ls, _, laid, ?_, ?_⟩, ?_⟩
    · rw [hitems]
      rfl
    · rw [hitems]
      rfl
    · injection hitem with same
      injection same

theorem Terminated.alone {first : Lexeme} {tail after : List Lexeme} {span : Span}
    (mid : List Lexeme) (h : Terminated eof tail span after)
    (ordered : InOrder (first :: (mid ++ tail) ++ [eof])) :
    ∃ closer rest, tail = closer ++ rest ∧ Terminated eof closer span [] ∧
      ((first.span.merge span).Covers (first :: (mid ++ closer)) ∨
        rest = [] ∧ (first.span.merge span).Covers (first :: (mid ++ closer) ++ [eof])) := by
  cases h with
  | @semicolon l after kind =>
    have split : first :: (mid ++ l :: after) ++ [eof] =
        ([first] ++ (mid ++ [l])) ++ (after ++ [eof]) := by
      simp
    rw [split] at ordered
    have here := ordered.sublist (List.sublist_append_left _ _)
    exact ⟨[l], after, rfl, .semicolon kind,
      .inl ((Span.covers_singleton first).merge (Span.covers_singleton l) here)⟩
  | ended =>
    rw [List.append_nil] at ordered
    refine ⟨[], [], rfl, .ended, .inr ⟨rfl, ?_⟩⟩
    rw [List.append_nil]
    exact (Span.covers_singleton first).merge (Span.covers_singleton eof) ordered

/-- The lexemes of a statement are accepted without those after it. Its span covers them, together
with the end of the text if the statement goes up to it. -/
theorem Accepts.alone {ls after : List Lexeme} {s : Statement} (h : Accepts limit eof ls s after)
    (ordered : InOrder (ls ++ [eof])) : ∃ block rest, ls = block ++ rest ∧
      Accepts limit eof block s [] ∧
        (s.span.Covers block ∨ rest = [] ∧ s.span.Covers (block ++ [eof])) := by
  cases h with
  | @binding first name sign body tail after span word named signed skip done =>
    obtain ⟨closer, rest, rfl, alone, covers⟩ := done.alone (name :: sign :: body) ordered
    exact ⟨first :: name :: sign :: (body ++ closer), rest, by simp,
      .binding word named signed skip alone, covers⟩
  | @giving first body tail after span word skip done =>
    obtain ⟨closer, rest, rfl, alone, covers⟩ := done.alone body ordered
    exact ⟨first :: (body ++ closer), rest, by simp, .giving word skip alone, covers⟩
  | @expression first block run after e parsed fits semicolons all =>
    have here : InOrder (first :: block) := by
      refine ordered.sublist (List.Sublist.cons_cons first ?_)
      exact (List.sublist_append_left _ _).trans (List.sublist_append_left _ _)
    have covers := (parsed.reads.standsOn here).covers
    refine ⟨first :: block, run ++ after, rfl,
      accepts_of_reads parsed.reads parsed.graded fits eof, .inl ?_⟩
    change (first.span.merge e.span).Covers _
    rw [covers.merge_first here]
    exact covers

theorem Accepts.exists_part {ls after : List Lexeme} {s : Statement}
    (h : Accepts limit eof ls s after) :
    ∀ e ∈ s.parts, ∃ before block rest, ls = before ++ (block ++ rest) ∧ Reads e block ∧ e.Graded ∧
      e.cost ≤ limit.toNat := by
  intro e he
  cases h with
  | binding => cases he
  | giving => cases he
  | @expression first block run after whole parsed fits semicolons all =>
    obtain ⟨before, part, rest, hblock, reads, graded, cheap⟩ :=
      parsed.reads.exists_part parsed.graded e he
    refine ⟨before, part, rest ++ (run ++ after), ?_, reads, graded, Nat.le_trans cheap fits⟩
    rw [← List.cons_append, hblock, List.append_assoc, List.append_assoc]

end Parser

/-! ## Slices of a text -/

/-- The slice of a text at the span of a statement is parsed to that statement alone, and the slice
at the span of an expression in it, however deep, to that expression alone. There are no
diagnostics. A text without positions has no program. -/
theorem parse_slices (limit : UInt64) (text : List Char) :
    (∀ place, Position.start.advanceAll text = .ok place → ∃ p ds, parse limit text = .ok (p, ds) ∧
      ∀ s ∈ p.statements,
        (∃ cut s', s.span.slice text = .ok cut ∧ parse limit cut = .ok (⟨[s']⟩, []) ∧
          s'.bare = s.bare) ∧
        ∀ e ∈ s.parts, ∃ cut token e' span, e.span.slice text = .ok cut ∧
          parse limit cut = .ok (⟨[.expression token e' span]⟩, []) ∧ e'.bare = e.bare) ∧
    (∀ fault, Position.start.advanceAll text = .error fault → parse limit text = .error fault) := by
  refine ⟨fun place there => ?_, fun fault missing => parse_eq_error missing⟩
  obtain ⟨ls, laid⟩ := exists_laid there
  refine ⟨_, _, parse_eq_ok_iff.mpr ⟨ls, _, laid, rfl, rfl⟩, fun s hs => ?_⟩
  obtain ⟨before, rest, after, rfl, accepts⟩ := Parser.accepts_of_mem hs
  have ordered : InOrder (rest ++ [.eofAt place]) := by
    refine laid.inOrder.sublist ?_
    rw [List.append_assoc]
    exact List.sublist_append_right before _
  constructor
  · obtain ⟨block, rest, rfl, alone, covers⟩ := accepts.alone ordered
    obtain ⟨cut, ls', place', sliced, laid', same⟩ : ∃ cut ls' place', s.span.slice text = .ok cut ∧
        Laid .start cut ls' (.eofAt place') ∧ ls'.map (·.token) = block.map (·.token) := by
      rcases covers with covers | ⟨rfl, covers⟩
      · exact laid.exists_slice covers
      · obtain ⟨first, tail, rfl, -⟩ := Parser.statement_of_accepts alone
        rw [List.append_nil] at laid
        exact laid.exists_slice_to_end covers
    obtain ⟨s', parsed, bare⟩ := Parser.exists_parse_of_accepts alone laid' same
    exact ⟨cut, s', sliced, parsed, bare⟩
  · intro e he
    obtain ⟨front, block, back, rfl, reads, graded, cheap⟩ := accepts.exists_part e he
    obtain ⟨first, block, rfl⟩ := List.exists_cons_of_ne_nil reads.ne_nil
    have here : InOrder (first :: block) := ordered.sublist
      ((List.sublist_append_left _ back).trans
        ((List.sublist_append_right front _).trans (List.sublist_append_left _ _)))
    have alone := Parser.accepts_of_reads reads graded cheap (.eofAt place)
    rw [← List.append_assoc] at laid
    obtain ⟨cut, ls', place', sliced, laid', same⟩ := laid.exists_slice (reads.standsOn here).covers
    obtain ⟨s', parsed, bare⟩ := Parser.exists_parse_of_accepts alone laid' same
    cases s' with
    | binding => cases bare
    | giving => cases bare
    | expression token e' span =>
      injection bare with _ bare
      exact ⟨cut, token, e', span, sliced, parsed, bare⟩

/-- The left operand of a product, cut out of a text with a rejected statement before the
product. -/
theorem parse_slices_operand :
    ∃ p d, parse 256 "é;\t-a*b".toList = .ok (p, [d]) ∧ ∃ s ∈ p.statements, ∃ e ∈ s.parts,
      e.span.slice "é;\t-a*b".toList = .ok "-a".toList ∧ ∃ token e' span,
        parse 256 "-a".toList = .ok (⟨[.expression token e' span]⟩, []) ∧ e'.bare = e.bare := by
  let operand : Expr := .unary ⟨.minus, "-"⟩ "-"
    (.identifier ⟨⟨.ident, "a"⟩, "a", ⟨⟨5, 1, 6⟩, ⟨6, 1, 7⟩⟩⟩) ⟨⟨4, 1, 5⟩, ⟨6, 1, 7⟩⟩
  let product : Expr := .binary ⟨.asterisk, "*"⟩ operand "*"
    (.identifier ⟨⟨.ident, "b"⟩, "b", ⟨⟨7, 1, 8⟩, ⟨8, 1, 9⟩⟩⟩) ⟨⟨4, 1, 5⟩, ⟨8, 1, 9⟩⟩
  have known : parse 256 "é;\t-a*b".toList =
      .ok (⟨[.expression ⟨.minus, "-"⟩ product ⟨⟨4, 1, 5⟩, ⟨8, 1, 9⟩⟩]⟩,
        [.noOperand .illegal ⟨⟨0, 1, 1⟩, ⟨2, 1, 2⟩⟩]) := by decide +kernel
  have there : Position.start.advanceAll "é;\t-a*b".toList = .ok ⟨8, 1, 9⟩ := rfl
  have covered : operand.span.slice "é;\t-a*b".toList = .ok "-a".toList := rfl
  obtain ⟨p, ds, parsed, all⟩ := (parse_slices 256 "é;\t-a*b".toList).1 _ there
  rw [known] at parsed
  cases parsed
  have mem : operand ∈ product.parts := by decide
  obtain ⟨cut, token, e', span, sliced, parsed, bare⟩ := (all _ List.mem_cons_self).2 operand mem
  rw [covered] at sliced
  cases sliced
  exact ⟨_, _, known, _, List.mem_cons_self, operand, mem, covered, token, e', span, parsed, bare⟩

end Frontend

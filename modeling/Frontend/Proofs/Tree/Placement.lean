import Frontend.Proofs.Text.Slice
import Frontend.Proofs.Token.Layout
import Frontend.Proofs.Tree.Reading

/-!
# Where expressions stand

* `Position.Precedes`: one place of a text is not after another. Places of one text with the same
  offset are the same place, so ties between offsets do no harm when spans are merged
  (`merge_of_precedes`).
* `InOrder`: lexemes that follow each other in a text, as those of the lexer do (`Laid.inOrder`).
* `Span.Covers`: a span from the start of the first lexeme to the end of the last one.
* `Expr.StandsOn`: what can be said of the spans of an expression and of all its parts.

An expression that reads lexemes in order stands on them (`Reads.standsOn`).
-/

set_option autoImplicit false

namespace Frontend

/-! ## Places in order -/

/-- The first place is not after the second, and is the same if it has the same offset. -/
structure Position.Precedes (p q : Position) : Prop where
  le : p.offset ≤ q.offset
  eq_of_offset : p.offset = q.offset → p = q

namespace Position.Precedes

variable {p q r : Position}

theorem refl (p : Position) : p.Precedes p := ⟨UInt64.le_refl _, fun _ => rfl⟩

theorem trans (h : p.Precedes q) (h' : q.Precedes r) : p.Precedes r := by
  refine ⟨UInt64.le_trans h.le h'.le, fun same => ?_⟩
  have middle : p.offset = q.offset := UInt64.le_antisymm h.le (same ▸ h'.le)
  rw [h.eq_of_offset middle]
  exact h'.eq_of_offset (middle.symm.trans same)

theorem of_advanceAll {cs : List Char} (h : p.advanceAll cs = .ok q) : p.Precedes q := by
  have moved := advanceAll_offset h
  refine ⟨by rw [UInt64.le_iff_toNat_le]; omega, fun same => ?_⟩
  -- no byte lies between the two places, so there is no character between them either
  have empty : cs = [] := Text.byteSize_eq_zero.mp (by rw [same] at moved; omega)
  subst empty
  cases h
  rfl

end Position.Precedes

/-- The lexemes follow each other in a text. -/
structure InOrder (ls : List Lexeme) : Prop where
  forward : ∀ l ∈ ls, l.span.start.Precedes l.span.stop
  ordered : ls.Pairwise fun a b => a.span.stop.Precedes b.span.start

theorem InOrder.sublist {ls part : List Lexeme} (h : InOrder ls) (sub : part.Sublist ls) :
    InOrder part :=
  ⟨fun l hl => h.forward l (sub.subset hl), h.ordered.sublist sub⟩

theorem InOrder.head_precedes {first : Lexeme} {rest : List Lexeme} (h : InOrder (first :: rest)) :
    ∀ l ∈ first :: rest, first.span.start.Precedes l.span.start := by
  intro l hl
  rcases List.mem_cons.mp hl with rfl | later
  · exact .refl _
  · exact (h.forward first (by simp)).trans ((List.pairwise_cons.mp h.ordered).1 l later)

theorem InOrder.precedes_last {init : List Lexeme} {last : Lexeme} (h : InOrder (init ++ [last])) :
    ∀ l ∈ init ++ [last], l.span.stop.Precedes last.span.stop := by
  intro l hl
  rcases List.mem_append.mp hl with earlier | only
  · have between := (List.pairwise_append.mp h.ordered).2.2 l earlier last (by simp)
    exact between.trans (h.forward last (by simp))
  · rw [List.mem_singleton.mp only]
    exact .refl _

theorem Laid.precedes {p : Position} {text : List Char} {ls : List Lexeme} {eof : Lexeme}
    (h : Laid p text ls eof) : ∀ l ∈ ls ++ [eof], p.Precedes l.span.start := by
  induction h with
  | ended blank there =>
    intro l hl
    cases List.mem_singleton.mp hl
    exact .of_advanceAll there
  | found blank spelled ends first last tail ih =>
    intro l hl
    rcases List.mem_cons.mp hl with rfl | hl
    · exact .of_advanceAll first
    · exact ((Position.Precedes.of_advanceAll first).trans (.of_advanceAll last)).trans (ih l hl)

theorem Laid.inOrder {p : Position} {text : List Char} {ls : List Lexeme} {eof : Lexeme}
    (h : Laid p text ls eof) : InOrder (ls ++ [eof]) := by
  induction h with
  | @ended p place gap blank there =>
    refine ⟨fun l hl => ?_, List.pairwise_singleton _ _⟩
    cases List.mem_singleton.mp hl
    exact .refl place
  | found blank spelled ends first last tail ih =>
    refine ⟨fun l hl => ?_, .cons tail.precedes ih.ordered⟩
    rcases List.mem_cons.mp hl with rfl | hl
    · exact .of_advanceAll last
    · exact ih.forward l hl

/-! ## Spans over lexemes -/

namespace Span

/-- The span goes from the start of the first lexeme to the end of the last one. -/
structure Covers (s : Span) (ls : List Lexeme) : Prop where
  start : ls.head?.map (·.span.start) = some s.start
  stop : ls.getLast?.map (·.span.stop) = some s.stop

/-- One span lies in another. -/
def Inside (inner outer : Span) : Prop :=
  outer.start.offset ≤ inner.start.offset ∧ inner.stop.offset ≤ outer.stop.offset

/-- One span ends where another one starts, or before. -/
def Before (a b : Span) : Prop := a.stop.offset ≤ b.start.offset

theorem covers_singleton (l : Lexeme) : l.span.Covers [l] := ⟨rfl, rfl⟩

theorem merge_of_precedes {a b : Span} (starts : a.start.Precedes b.start)
    (stops : a.stop.Precedes b.stop) : a.merge b = ⟨a.start, b.stop⟩ := by
  rw [merge, if_pos starts.le]
  split
  · rename_i le
    rw [stops.eq_of_offset (UInt64.le_antisymm stops.le le)]
  · rfl

namespace Covers

variable {a b s : Span} {ls rs : List Lexeme}

theorem exists_head (h : s.Covers ls) :
    ∃ first rest, ls = first :: rest ∧ first.span.start = s.start := by
  obtain ⟨first, hfirst, hstart⟩ := Option.map_eq_some_iff.mp h.start
  obtain ⟨rest, rfl⟩ := List.head?_eq_some_iff.mp hfirst
  exact ⟨first, rest, rfl, hstart⟩

theorem exists_last (h : s.Covers ls) :
    ∃ init last, ls = init ++ [last] ∧ last.span.stop = s.stop := by
  obtain ⟨last, hlast, hstop⟩ := Option.map_eq_some_iff.mp h.stop
  obtain ⟨init, rfl⟩ := List.getLast?_eq_some_iff.mp hlast
  exact ⟨init, last, rfl, hstop⟩

theorem append (ha : a.Covers ls) (hb : b.Covers rs) (mid : List Lexeme) :
    Covers ⟨a.start, b.stop⟩ (ls ++ (mid ++ rs)) := by
  obtain ⟨first, rest, rfl, hstart⟩ := ha.exists_head
  obtain ⟨init, last, rfl, hstop⟩ := hb.exists_last
  refine ⟨by simp [hstart], ?_⟩
  rw [← List.append_assoc mid, ← List.append_assoc, List.getLast?_concat, Option.map_some, hstop]

theorem precedes (ha : a.Covers ls) (hb : b.Covers rs) (h : InOrder (ls ++ rs)) :
    a.stop.Precedes b.start := by
  obtain ⟨init, last, rfl, hstop⟩ := ha.exists_last
  obtain ⟨first, rest, rfl, hstart⟩ := hb.exists_head
  rw [← hstop, ← hstart]
  exact (List.pairwise_append.mp h.ordered).2.2 last (by simp) first (by simp)

theorem forward (hs : s.Covers ls) (h : InOrder ls) : s.start.Precedes s.stop := by
  obtain ⟨first, rest, rfl, hstart⟩ := hs.exists_head
  obtain ⟨init, last, hls, hstop⟩ := hs.exists_last
  have there : last ∈ first :: rest := by rw [hls]; simp
  rw [← hstart, ← hstop]
  exact (h.head_precedes last there).trans (h.forward last there)

theorem inside (inner : a.Covers rs) (outer : s.Covers ls) (h : InOrder ls) (some : rs ⊆ ls) :
    a.Inside s := by
  obtain ⟨first, rest, rfl, hfirst⟩ := inner.exists_head
  obtain ⟨init, last, hrs, hlast⟩ := inner.exists_last
  constructor
  · obtain ⟨head, tail, rfl, hhead⟩ := outer.exists_head
    rw [← hhead, ← hfirst]
    exact (h.head_precedes first (some (by simp))).le
  · obtain ⟨front, final, rfl, hfinal⟩ := outer.exists_last
    rw [← hlast, ← hfinal]
    exact (h.precedes_last last (some (by rw [hrs]; simp))).le

/-- Spans over two parts of the lexemes are merged to a span over both and all between them. -/
theorem merge (ha : a.Covers ls) (hb : b.Covers rs) {mid : List Lexeme}
    (h : InOrder (ls ++ (mid ++ rs))) : (a.merge b).Covers (ls ++ (mid ++ rs)) := by
  have apart : a.stop.Precedes b.start := ha.precedes hb
    (h.sublist ((List.Sublist.refl ls).append (List.sublist_append_right mid rs)))
  have forwardA := ha.forward (h.sublist (List.sublist_append_left ls _))
  have forwardB := hb.forward
    (h.sublist ((List.sublist_append_right mid rs).trans (List.sublist_append_right ls _)))
  rw [merge_of_precedes (forwardA.trans apart) (apart.trans forwardB)]
  exact ha.append hb mid

/-- The first lexeme adds nothing to a span that covers it with others. -/
theorem merge_first {first : Lexeme} (hs : s.Covers (first :: ls)) (h : InOrder (first :: ls)) :
    first.span.merge s = s := by
  obtain ⟨head, rest, hhead, hstart⟩ := hs.exists_head
  cases hhead
  obtain ⟨init, last, hlast, hstop⟩ := hs.exists_last
  have starts : first.span.start.Precedes s.start := hstart ▸ .refl _
  have stops : first.span.stop.Precedes s.stop := by
    rw [← hstop]
    rw [hlast] at h
    exact h.precedes_last first (by rw [← hlast]; simp)
  rw [merge_of_precedes starts stops, hstart]

end Covers

end Span

/-! ## Expressions -/

/-- An expression stands on lexemes. Its span covers them all, its operands stand on lexemes of
their own, in the order in which they are written and inside of its span, and its operator stands
before the operand or between the operands. -/
inductive Expr.StandsOn : Expr → List Lexeme → Prop
  | identifier {node : Identifier} {l : Lexeme} (token : node.token = l.token)
      (covers : node.span.Covers [l]) : StandsOn (.identifier node) [l]
  | integer {token : Token} {value : Int64} {span : Span} {l : Lexeme} (same : token = l.token)
      (covers : span.Covers [l]) : StandsOn (.integer token value span) [l]
  | unary {token : Token} {operator : String} {operand : Expr} {span : Span} {sign : Lexeme}
      {ls : List Lexeme} (same : token = sign.token) (inner : operand.StandsOn ls)
      (covers : span.Covers (sign :: ls)) (inside : operand.span.Inside span)
      (after : sign.span.Before operand.span) :
      StandsOn (.unary token operator operand span) (sign :: ls)
  | binary {token : Token} {left right : Expr} {operator : String} {span : Span} {sign : Lexeme}
      {ls rs : List Lexeme} (same : token = sign.token) (onLeft : left.StandsOn ls)
      (onRight : right.StandsOn rs) (covers : span.Covers (ls ++ sign :: rs))
      (insideLeft : left.span.Inside span) (insideRight : right.span.Inside span)
      (before : left.span.Before sign.span) (after : sign.span.Before right.span) :
      StandsOn (.binary token left operator right span) (ls ++ sign :: rs)

theorem Expr.StandsOn.covers {e : Expr} {ls : List Lexeme} (h : e.StandsOn ls) :
    e.span.Covers ls := by
  cases h <;> assumption

theorem Reads.standsOn {e : Expr} {ls : List Lexeme} (reads : Reads e ls) (h : InOrder ls) :
    e.StandsOn ls := by
  induction reads with
  | @identifier l kind => exact .identifier rfl (Span.covers_singleton l)
  | @integer l value kind range => exact .integer rfl (Span.covers_singleton l)
  | @unary operator operand ls kind inner ih =>
    have here := Span.covers_singleton operator
    have onOperand := ih (h.sublist (List.sublist_cons_self operator ls))
    have joined : InOrder ([operator] ++ ([] ++ ls)) := h
    have covers := here.merge onOperand.covers joined
    exact .unary rfl onOperand covers (onOperand.covers.inside covers h (List.subset_cons_self _ _))
      (here.precedes onOperand.covers h).le
  | @binary left right operator ls rs kind before after ihl ihr =>
    have here := Span.covers_singleton operator
    have toOperator : InOrder (ls ++ [operator]) :=
      h.sublist ((List.Sublist.refl ls).append (List.sublist_append_left [operator] rs))
    have fromOperator : InOrder ([operator] ++ rs) := h.sublist (List.sublist_append_right ls _)
    have onLeft := ihl (h.sublist (List.sublist_append_left ls _))
    have onRight := ihr (fromOperator.sublist (List.sublist_cons_self operator rs))
    have joined : InOrder (ls ++ ([operator] ++ rs)) := h
    have covers := onLeft.covers.merge onRight.covers joined
    exact .binary rfl onLeft onRight covers
      (onLeft.covers.inside covers h (List.subset_append_left _ _))
      (onRight.covers.inside covers h fun l hl =>
        List.mem_append_right _ (List.mem_cons_of_mem _ hl))
      (onLeft.covers.precedes here toOperator).le (here.precedes onRight.covers fromOperator).le

end Frontend

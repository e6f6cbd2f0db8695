import Frontend.Proofs.Text.Slice
import Frontend.Proofs.Token.Layout
import Mathlib.Data.List.Basic

/-!
# The decomposition of a text into tokens

`Decomposes` says what a list of tokens with their byte ranges has to do with a text, without a word
on how it is found: the ranges follow each other and hold the literals of their tokens, each token
is spelled as its kind wants it, nothing but white space is left between the ranges, and no token
could be longer. The lexer finds such a decomposition of every text that has positions, and there is
no other.
-/

set_option autoImplicit false

namespace Frontend

/-- A token with the range of bytes that it takes in a text. -/
structure Piece where
  token : Token
  start : Nat
  stop : Nat
  deriving DecidableEq, Repr

/-- The token of a lexeme with its range of bytes. -/
def Lexeme.piece (l : Lexeme) : Piece :=
  ⟨l.token, l.span.start.offset.toNat, l.span.stop.offset.toNat⟩

/-- The pieces are the tokens of a text from byte `origin` on. -/
structure Decomposes (text : List Char) (origin : Nat) (pieces : List Piece) : Prop where
  after : ∀ p ∈ pieces, origin ≤ p.start
  nonempty : ∀ p ∈ pieces, p.start < p.stop
  ordered : pieces.Pairwise fun p q => p.stop ≤ q.start
  literal : ∀ p ∈ pieces, Text.sliceBytes p.start p.stop text = some p.token.literal.toList
  spelled : ∀ p ∈ pieces, Spelled p.token
  blank : ∀ before c rest, text = before ++ c :: rest → origin ≤ Text.byteSize before →
    (∀ p ∈ pieces, ¬ (p.start ≤ Text.byteSize before ∧ Text.byteSize before < p.stop)) →
      Text.isBlank c
  maximal : ∀ p ∈ pieces, ∀ before c rest, text = before ++ c :: rest →
    Text.byteSize before = p.stop → p.token.kind.goesOn c = false

open Text (byteSize byteSize_append)

/-! ## The first piece -/

theorem decomposes_nil {done gap : List Char} (hgap : Blank gap) :
    Decomposes (done ++ gap) (byteSize done) [] where
  after := by simp
  nonempty := by simp
  ordered := .nil
  literal := by simp
  spelled := by simp
  blank := by
    intro before c rest htext hfrom _
    obtain ⟨mid, -, hmid⟩ := Text.exists_append_of_byteSize_le htext hfrom
    exact hgap c (by rw [hmid]; simp)
  maximal := by simp

theorem decomposes_cons {done gap rest : List Char} {t : Token} {pieces : List Piece}
    (hgap : Blank gap) (spelled : Spelled t) (ends : t.kind.EndsAt rest)
    (h : Decomposes (done ++ (gap ++ (t.literal.toList ++ rest)))
      (byteSize done + byteSize gap + byteSize t.literal.toList) pieces) :
    Decomposes (done ++ (gap ++ (t.literal.toList ++ rest))) (byteSize done)
      (⟨t, byteSize done + byteSize gap,
        byteSize done + byteSize gap + byteSize t.literal.toList⟩ :: pieces) where
  after := by
    intro p hp
    rcases List.mem_cons.mp hp with rfl | hp
    · exact Nat.le_add_right _ _
    · have := h.after p hp
      omega
  nonempty := by
    have := spelled.byteSize_pos
    intro p hp
    rcases List.mem_cons.mp hp with rfl | hp
    · dsimp only
      omega
    · exact h.nonempty p hp
  ordered := .cons h.after h.ordered
  literal := by
    intro p hp
    rcases List.mem_cons.mp hp with rfl | hp
    · refine Text.sliceBytes_eq_some_iff.mpr ⟨done ++ gap, rest, ?_, ?_, ?_⟩
      · rw [List.append_assoc]
      · rw [byteSize_append]
      · rw [byteSize_append]
    · exact h.literal p hp
  spelled := by
    intro p hp
    rcases List.mem_cons.mp hp with rfl | hp
    · exact spelled
    · exact h.spelled p hp
  blank := by
    intro before c tail htext hfrom uncovered
    have first := uncovered _ List.mem_cons_self
    dsimp only at first
    -- what is not covered by the first piece stands before it, in the gap, or after it
    by_cases inGap : byteSize before < byteSize done + byteSize gap
    · exact hgap c (Text.mem_of_byteSize htext hfrom inGap)
    · exact h.blank before c tail htext (by omega)
        fun p hp => uncovered p (List.mem_cons_of_mem _ hp)
  maximal := by
    intro p hp before c tail htext hstop
    rcases List.mem_cons.mp hp with rfl | hp
    · have split : (done ++ gap ++ t.literal.toList) ++ rest = before ++ c :: tail := by
        rw [← htext]
        simp only [List.append_assoc]
      obtain ⟨-, hrest⟩ := Text.append_inj_of_byteSize split (by simp only [byteSize_append, hstop])
      exact ends c (by rw [hrest]; rfl)
    · exact h.maximal p hp before c tail htext hstop

/-! ## No other pieces -/

theorem Decomposes.exists_split {text : List Char} {origin : Nat} {pieces : List Piece}
    (h : Decomposes text origin pieces) {p : Piece} (hp : p ∈ pieces) : ∃ before c tail after,
      text = before ++ (p.token.literal.toList ++ after) ∧ byteSize before = p.start ∧
        byteSize before + byteSize p.token.literal.toList = p.stop ∧
          p.token.literal.toList = c :: tail ∧ Text.isBlank c = false := by
  obtain ⟨before, after, htext, hstart, hstop⟩ := Text.sliceBytes_eq_some_iff.mp (h.literal p hp)
  obtain ⟨c, tail, hc, shown⟩ := (h.spelled p hp).starts
  exact ⟨before, c, tail, after, htext, hstart, hstop, hc, shown⟩

theorem Decomposes.eq_nil {done gap : List Char} {pieces : List Piece} (hgap : Blank gap)
    (h : Decomposes (done ++ gap) (byteSize done) pieces) : pieces = [] := by
  apply List.eq_nil_iff_forall_not_mem.mpr
  intro p hp
  obtain ⟨before, c, tail, after, htext, hstart, -, hc, shown⟩ := h.exists_split hp
  obtain ⟨mid, -, hmid⟩ :=
    Text.exists_append_of_byteSize_le htext (by rw [hstart]; exact h.after p hp)
  exact Bool.eq_false_iff.mp shown (hgap c (by rw [hmid, hc]; simp))

theorem Decomposes.tail {text : List Char} {origin : Nat} {p : Piece} {pieces : List Piece}
    (h : Decomposes text origin (p :: pieces)) : Decomposes text p.stop pieces where
  after := (List.pairwise_cons.mp h.ordered).1
  nonempty q hq := h.nonempty q (List.mem_cons_of_mem _ hq)
  ordered := h.ordered.of_cons
  literal q hq := h.literal q (List.mem_cons_of_mem _ hq)
  spelled q hq := h.spelled q (List.mem_cons_of_mem _ hq)
  blank := by
    intro before c rest htext hfrom uncovered
    have := h.after p List.mem_cons_self
    have := h.nonempty p List.mem_cons_self
    refine h.blank before c rest htext (by omega) fun q hq => ?_
    rcases List.mem_cons.mp hq with rfl | hq
    · omega
    · exact uncovered q hq
  maximal q hq := h.maximal q (List.mem_cons_of_mem _ hq)

/-- The first piece is the first token, at the place where the token stands. -/
theorem Decomposes.eq_cons {done gap rest : List Char} {t : Token} {pieces : List Piece}
    (hgap : Blank gap) (spelled : Spelled t) (ends : t.kind.EndsAt rest)
    (h : Decomposes (done ++ (gap ++ (t.literal.toList ++ rest))) (byteSize done) pieces) :
    ∃ others, pieces = ⟨t, byteSize done + byteSize gap,
      byteSize done + byteSize gap + byteSize t.literal.toList⟩ :: others := by
  -- the token starts with a character that is shown, so the first piece starts no later than the
  -- token
  have covered : ∃ p ∈ pieces, p.start ≤ byteSize done + byteSize gap := by
    obtain ⟨c, tail, hc, shown⟩ := spelled.starts
    apply Classical.byContradiction
    intro none
    have blank : Text.isBlank c := by
      refine h.blank (done ++ gap) c (tail ++ rest) ?_ ?_ fun p hp inside => none ⟨p, hp, ?_⟩
      · rw [hc, List.append_assoc, List.cons_append]
      · rw [byteSize_append]
        exact Nat.le_add_right _ _
      · rw [byteSize_append] at inside
        exact inside.1
    exact Bool.eq_false_iff.mp shown blank
  cases pieces with
  | nil => simp at covered
  | cons q others =>
    have low : byteSize done ≤ q.start := h.after q List.mem_cons_self
    have high : q.start ≤ byteSize done + byteSize gap := by
      obtain ⟨p, hp, hstart⟩ := covered
      rcases List.mem_cons.mp hp with rfl | hp
      · exact hstart
      · have := h.nonempty q List.mem_cons_self
        have := (List.pairwise_cons.mp h.ordered).1 p hp
        omega
    obtain ⟨before, c, tail, after, htext, hstart, hstop, hc, shown⟩ :=
      h.exists_split List.mem_cons_self
    -- nor does it start earlier: its own first character is shown as well
    have size : byteSize (done ++ gap) = byteSize before := by
      rw [byteSize_append]
      apply Nat.le_antisymm ?_ (hstart ▸ high)
      apply Nat.le_of_not_lt
      intro inside
      have htext' := htext
      rw [hc, List.cons_append] at htext'
      have inGap : c ∈ gap := Text.mem_of_byteSize htext' (hstart ▸ low) inside
      exact Bool.eq_false_iff.mp shown (hgap c inGap)
    rw [← List.append_assoc] at htext
    obtain ⟨rfl, same⟩ := Text.append_inj_of_byteSize htext size
    have ends' : q.token.kind.EndsAt after := by
      intro d hd
      obtain ⟨tail', rfl⟩ := List.head?_eq_some_iff.mp hd
      refine h.maximal q List.mem_cons_self (done ++ gap ++ q.token.literal.toList) d tail' ?_ ?_
      · simp only [same, List.append_assoc]
      · rw [byteSize_append, hstop]
    have first := munch_of_spelled (h.spelled q List.mem_cons_self) ends'
    rw [← same, munch_of_spelled spelled ends] at first
    cases first
    refine ⟨others, ?_⟩
    rw [← byteSize_append, hstop, hstart]

theorem decomposes_regroup {done gap word rest : List Char} {pieces : List Piece} :
    Decomposes (done ++ (gap ++ (word ++ rest)))
      (byteSize done + byteSize gap + byteSize word) pieces ↔
      Decomposes ((done ++ gap ++ word) ++ rest) (byteSize (done ++ gap ++ word)) pieces := by
  simp only [List.append_assoc, byteSize_append, Nat.add_assoc]

theorem Decomposes.unique {done rest : List Char} {pieces others : List Piece}
    (h : Decomposes (done ++ rest) (byteSize done) pieces)
    (h' : Decomposes (done ++ rest) (byteSize done) others) : pieces = others := by
  induction rest using text_induction generalizing done pieces others with
  | blank gap hgap => rw [h.eq_nil hgap, h'.eq_nil hgap]
  | token gap t rest hgap spelled ends ih =>
    obtain ⟨pieces, rfl⟩ := h.eq_cons hgap spelled ends
    obtain ⟨others, rfl⟩ := h'.eq_cons hgap spelled ends
    rw [ih (decomposes_regroup.mp h.tail) (decomposes_regroup.mp h'.tail)]

/-! ## The tokens of the lexer -/

theorem Laid.decomposes {p : Position} {rest : List Char} {ls : List Lexeme} {eof : Lexeme}
    (laid : Laid p rest ls eof) (done : List Char) (place : byteSize done = p.offset.toNat) :
    Decomposes (done ++ rest) (byteSize done) (ls.map Lexeme.piece) := by
  induction laid generalizing done with
  | ended blank there => exact decomposes_nil blank
  | @found p start stop gap rest t ls eof blank spelled ends first last tail ih =>
    have hstart := Position.advanceAll_offset first
    have hstop := Position.advanceAll_offset last
    have others := ih (done ++ gap ++ t.literal.toList)
      (by rw [byteSize_append, byteSize_append, place, hstop, hstart])
    have piece : Lexeme.piece ⟨t, ⟨start, stop⟩⟩ = ⟨t, byteSize done + byteSize gap,
        byteSize done + byteSize gap + byteSize t.literal.toList⟩ := by
      rw [Lexeme.piece, hstop, hstart, place]
    rw [List.map_cons, piece]
    exact decomposes_cons blank spelled ends (decomposes_regroup.mpr others)

/-- The lexer finds the tokens of a text that has positions, and puts the end after them. No other
pieces are a decomposition of the text. -/
theorem exists_tokenize_decomposition {text : List Char} {place : Position}
    (there : Position.start.advanceAll text = .ok place) :
    ∃ ls eof, tokenize text = .ok (ls ++ [eof]) ∧ (∀ l ∈ ls, l.kind ≠ .eof) ∧
      eof.kind = .eof ∧ eof.literal = "" ∧ eof.span.start = eof.span.stop ∧
      eof.span.start.offset.toNat = byteSize text ∧ Decomposes text 0 (ls.map Lexeme.piece) ∧
      ∀ pieces, Decomposes text 0 pieces → pieces = ls.map Lexeme.piece := by
  obtain ⟨ls, laid⟩ := exists_laid there
  have found : Decomposes text 0 (ls.map Lexeme.piece) := laid.decomposes [] rfl
  refine ⟨ls, .eofAt place, ?_, ?_, rfl, rfl, rfl, ?_, found, ?_⟩
  · exact tokenize_eq_ok_iff.mpr ⟨ls, _, laid, rfl⟩
  · intro l hl
    exact (laid.spelled l hl).kind_ne_eof
  · have offset := Position.advanceAll_offset there
    rw [show Position.start.offset.toNat = 0 from rfl, Nat.zero_add] at offset
    exact offset
  · intro pieces other
    have other' : Decomposes ([] ++ text) (byteSize []) pieces := other
    exact other'.unique found

theorem exists_tokenize_decomposition_wide :
    Position.start.advanceAll ['a', '\u2003', '≠', '=', '='] = .ok ⟨9, 1, 6⟩ ∧
      ∃ ls eof, tokenize ['a', '\u2003', '≠', '=', '='] = .ok (ls ++ [eof]) ∧ ls.map Lexeme.piece =
        [⟨⟨.ident, "a"⟩, 0, 1⟩, ⟨⟨.illegal, "≠"⟩, 4, 7⟩, ⟨⟨.eq, "=="⟩, 7, 9⟩] := by
  have there : Position.start.advanceAll ['a', '\u2003', '≠', '=', '='] = .ok ⟨9, 1, 6⟩ := rfl
  have lexed : tokenize ['a', '\u2003', '≠', '=', '='] =
      .ok ([⟨⟨.ident, "a"⟩, ⟨⟨0, 1, 1⟩, ⟨1, 1, 2⟩⟩⟩, ⟨⟨.illegal, "≠"⟩, ⟨⟨4, 1, 3⟩, ⟨7, 1, 4⟩⟩⟩,
        ⟨⟨.eq, "=="⟩, ⟨⟨7, 1, 4⟩, ⟨9, 1, 6⟩⟩⟩] ++ [.eofAt ⟨9, 1, 6⟩]) := by decide +kernel
  obtain ⟨ls, eof, found, -⟩ := exists_tokenize_decomposition there
  refine ⟨there, ls, eof, found, ?_⟩
  rw [lexed, Except.ok.injEq] at found
  rw [← (List.append_inj' found rfl).1]
  rfl

end Frontend

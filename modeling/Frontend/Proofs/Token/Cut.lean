import Frontend.Proofs.Token.Joined

/-!
# Parts of a text by themselves

The text from the start of one of its tokens to the end of a later one has the tokens between the
two, and no others: at its start the token is not cut, and at its end nothing follows that could go
on with the last one (`Laid.drop`, `Laid.take`). It has positions of its own when it is read from
the start, since no coordinate gets larger than it is in the whole text (`Position.Lower`), so it is
lexed to the same tokens (`Laid.restart`).
-/

set_option autoImplicit false

namespace Frontend

/-! ## Lower positions -/

namespace Position

/-- No coordinate of the first position is larger than that of the second one. -/
structure Lower (p q : Position) : Prop where
  offset : p.offset.toNat ≤ q.offset.toNat
  line : p.line.toNat ≤ q.line.toNat
  column_pos : 1 ≤ p.column.toNat
  column : p.column.toNat ≤ q.column.toNat

/-- A character that can be passed at a position can be passed at a lower one. -/
theorem Lower.exists_advance {p q r : Position} (h : p.Lower q) {c : Char}
    (step : q.advance c = .ok r) :
    ∃ s, p.advance c = .ok s ∧ s.Lower r := by
  obtain ⟨hoffset, moved⟩ := advance_cases step
  obtain ⟨offset, line, pos, column⟩ := h
  have offsetFits := r.offset.toNat_lt_size
  have lineFits := r.line.toNat_lt_size
  have columnFits := r.column.toNat_lt_size
  obtain ⟨s, step'⟩ : ∃ s, p.advance c = .ok s := by
    apply exists_advance_of_lt
    · omega
    · rintro rfl
      rcases moved with ⟨-, hline, -⟩ | ⟨other, -⟩ | ⟨other, -⟩
      · omega
      · exact absurd other (by decide)
      · exact absurd rfl other
    · rintro rfl
      rcases moved with ⟨other, -⟩ | ⟨-, -, wide, -⟩ | ⟨-, other, -⟩
      · exact absurd other (by decide)
      · exact ⟨pos, by omega⟩
      · exact absurd rfl other
    · intro newline tab
      rcases moved with ⟨other, -⟩ | ⟨other, -⟩ | ⟨-, -, -, hcolumn⟩
      · exact absurd other newline
      · exact absurd other tab
      · omega
  refine ⟨s, step', ?_⟩
  -- the same case holds for both, and a tab never passes a stop that the higher column has reached
  obtain ⟨hoffset', moved'⟩ := advance_cases step'
  rcases moved with ⟨hc, hline, hcolumn⟩ | ⟨hc, hline, -, hcolumn⟩ | ⟨newline, tab, hline, hcolumn⟩
  · rcases moved' with ⟨-, hline', hcolumn'⟩ | ⟨other, -⟩ | ⟨other, -⟩
    · exact ⟨by omega, by omega, by omega, by omega⟩
    · exact absurd (hc.symm.trans other) (by decide)
    · exact absurd hc other
  · rcases moved' with ⟨other, -⟩ | ⟨-, hline', -, hcolumn'⟩ | ⟨-, other, -⟩
    · exact absurd (hc.symm.trans other) (by decide)
    · rw [← hline, ← hline'] at line
      exact ⟨by omega, line, by omega, by omega⟩
    · exact absurd hc other
  · rcases moved' with ⟨other, -⟩ | ⟨other, -⟩ | ⟨-, -, hline', hcolumn'⟩
    · exact absurd other newline
    · exact absurd other tab
    · rw [← hline, ← hline'] at line
      exact ⟨by omega, line, by omega, by omega⟩

theorem Lower.exists_advanceAll {p q r : Position} (h : p.Lower q) {cs : List Char}
    (there : q.advanceAll cs = .ok r) : ∃ s, p.advanceAll cs = .ok s := by
  induction cs generalizing p q with
  | nil => exact ⟨p, rfl⟩
  | cons c cs ih =>
    simp only [advanceAll] at there
    cases step : q.advance c with
    | error fault => simp [step] at there
    | ok middle =>
      rw [step] at there
      obtain ⟨s, step', lower⟩ := h.exists_advance step
      obtain ⟨last, others⟩ := ih lower there
      exact ⟨last, by rw [advanceAll, step']; exact others⟩

/-- The start of a text is lower than any position after it. -/
theorem Lower.of_advance {p q : Position} (h : start.Lower p) {c : Char}
    (step : p.advance c = .ok q) :
    start.Lower q := by
  obtain ⟨-, line, pos, column⟩ := h
  change 1 ≤ _ at line column
  have counted : 1 ≤ q.line.toNat ∧ 1 ≤ q.column.toNat := by
    obtain ⟨-, moved⟩ := advance_cases step
    rcases moved with ⟨-, hline, hcolumn⟩ | ⟨-, hline, -, hcolumn⟩ | ⟨-, -, hline, hcolumn⟩
    · omega
    · rw [hline]
      omega
    · rw [hline]
      omega
  exact ⟨Nat.zero_le _, counted.1, pos, counted.2⟩

theorem Lower.of_advanceAll {p q : Position} (h : start.Lower p) {cs : List Char}
    (there : p.advanceAll cs = .ok q) : start.Lower q := by
  induction cs generalizing p with
  | nil =>
    cases there
    exact h
  | cons c cs ih =>
    simp only [advanceAll] at there
    cases step : p.advance c with
    | error fault => simp [step] at there
    | ok middle =>
      rw [step] at there
      exact ih (h.of_advance step) there

theorem start_lower {q : Position} {cs : List Char} (h : start.advanceAll cs = .ok q) :
    start.Lower q :=
  Lower.of_advanceAll ⟨Nat.le_refl _, Nat.le_refl _, Nat.le_refl _, Nat.le_refl _⟩ h

end Position

/-! ## Lexemes of a part -/

theorem Kind.EndsAt.of_append {kind : Kind} {text more : List Char}
    (h : kind.EndsAt (text ++ more)) :
    kind.EndsAt text := by
  intro c hc
  apply h c
  rw [List.head?_append, hc]
  rfl

theorem Laid.drop {p : Position} {text : List Char} {before rest : List Lexeme} {first eof : Lexeme}
    (h : Laid p text (before ++ first :: rest) eof) : ∃ done part, text = done ++ part ∧
      p.advanceAll done = .ok first.span.start ∧
      Laid first.span.start part (first :: rest) eof := by
  induction before generalizing p text with
  | nil =>
    cases h with
    | @found p start stop gap tail t ls eof blank spelled ends there last others =>
      have part : Laid start ([] ++ (t.literal.toList ++ tail)) (⟨t, start, stop⟩ :: rest) eof :=
        .found nofun spelled ends rfl last others
      exact ⟨gap, t.literal.toList ++ tail, rfl, there, part⟩
  | cons l before ih =>
    cases h with
    | @found p start stop gap tail t ls eof blank spelled ends there last others =>
      obtain ⟨done, part, rfl, reached, laid⟩ := ih others
      refine ⟨gap ++ (t.literal.toList ++ done), part, by simp, ?_, laid⟩
      rw [Position.advanceAll_append, there]
      change Position.advanceAll _ (_ ++ _) = _
      rw [Position.advanceAll_append, last]
      exact reached

theorem Laid.take {p : Position} {text : List Char} {init after : List Lexeme} {last eof : Lexeme}
    (h : Laid p text (init ++ last :: after) eof) : ∃ part more, text = part ++ more ∧
      Laid p part (init ++ [last]) (.eofAt last.span.stop) := by
  induction init generalizing p text with
  | nil =>
    cases h with
    | @found p start stop gap tail t ls eof blank spelled ends there here others =>
      refine ⟨gap ++ (t.literal.toList ++ []), tail, by simp, ?_⟩
      exact .found blank spelled nofun there here (.ended nofun rfl)
  | cons l init ih =>
    cases h with
    | @found p start stop gap tail t ls eof blank spelled ends there here others =>
      obtain ⟨part, more, rfl, laid⟩ := ih others
      refine ⟨gap ++ (t.literal.toList ++ part), more, by simp, ?_⟩
      exact .found blank spelled ends.of_append there here laid

/-- A text that starts at some position of another one has the same tokens when it is read by
itself. -/
theorem Laid.restart {q : Position} {text : List Char} {ls : List Lexeme} {eof : Lexeme}
    (h : Laid q text ls eof) (low : Position.start.Lower q) :
    ∃ ls' place, Laid .start text ls' (.eofAt place) ∧ ls'.map (·.token) = ls.map (·.token) := by
  obtain ⟨place, there, rfl⟩ := h.advanceAll
  obtain ⟨place', there'⟩ := low.exists_advanceAll there
  obtain ⟨ls', laid⟩ := exists_laid there'
  exact ⟨ls', place', laid, laid.tokens_eq h⟩

end Frontend

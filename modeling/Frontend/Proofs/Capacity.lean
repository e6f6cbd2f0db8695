import Frontend.Limits
import Frontend.Proofs.Position

/-!
# Texts that have positions

A column is at most four times as large as the offset, plus one: a tab is one byte and moves the
column by four at most. So a text of a thousand million bytes at most has all its positions
(`exists_advanceAll`), also in the middle of a step, where the width of a tab is added before
anything is taken off again. Limits that a build admits allow no larger texts (`maxSourceSize_le`).
-/

set_option autoImplicit false

namespace Frontend

namespace Position

/-- The most bytes that a text may have under any limits. -/
def capacity : Nat := 1000000000

/-- What is known of a position from its offset. -/
structure Bound (p : Position) : Prop where
  line : p.line.toNat ≤ p.offset.toNat + 1
  column_pos : 1 ≤ p.column.toNat
  column : p.column.toNat ≤ 4 * p.offset.toNat + 1

theorem bound_start : Bound start where
  line := Nat.le_refl 1
  column_pos := Nat.le_refl 1
  column := Nat.le_refl 1

/-- The words of a position stay far below their sizes. -/
theorem Bound.lt_size {p : Position} (h : Bound p) {n : Nat}
    (room : p.offset.toNat + n ≤ capacity) :
    p.offset.toNat + n < UInt64.size ∧ p.line.toNat + n < UInt32.size ∧
      p.column.toNat + 4 * n < UInt32.size := by
  obtain ⟨line, -, column⟩ := h
  unfold capacity at room
  change _ < 18446744073709551616 ∧ _ < 4294967296 ∧ _ < 4294967296
  omega

theorem exists_advance {p : Position} (h : Bound p) {c : Char}
    (room : p.offset.toNat + c.utf8Size ≤ capacity) : ∃ q, p.advance c = .ok q ∧ Bound q := by
  have pos := c.utf8Size_pos
  obtain ⟨offsetFits, lineFits, columnFits⟩ := h.lt_size room
  obtain ⟨line, column_pos, column⟩ := h
  obtain ⟨q, step⟩ : ∃ q, p.advance c = .ok q :=
    exists_advance_of_lt offsetFits (fun _ => by omega) (fun _ => ⟨column_pos, by omega⟩)
      (fun _ _ => by omega)
  refine ⟨q, step, ?_⟩
  obtain ⟨hoffset, moved⟩ := advance_cases step
  rcases moved with ⟨-, hline, hcolumn⟩ | ⟨-, hline, -, hcolumn⟩ | ⟨-, -, hline, hcolumn⟩
  · exact ⟨by omega, by omega, by omega⟩
  · rw [← hline] at line
    exact ⟨by omega, by omega, by omega⟩
  · rw [← hline] at line
    exact ⟨by omega, by omega, by omega⟩

theorem exists_advanceAll {p : Position} (h : Bound p) {cs : List Char}
    (room : p.offset.toNat + Text.byteSize cs ≤ capacity) : ∃ q, p.advanceAll cs = .ok q := by
  induction cs generalizing p with
  | nil => exact ⟨p, rfl⟩
  | cons c cs ih =>
    rw [Text.byteSize_cons] at room
    obtain ⟨q, step, bound⟩ := exists_advance h (c := c) (by omega)
    have offset := advance_offset step
    obtain ⟨r, rest⟩ := ih bound (by omega)
    exact ⟨r, by rw [advanceAll, step]; exact rest⟩

end Position

theorem Limits.maxSourceSize_le {limits : Limits} {profile : String}
    (admitted : limits.problem? profile = none) : limits.maxSourceSize.toNat ≤ Position.capacity :=
  UInt64.le_iff_toNat_le.mp (problem?_eq_none_iff.mp admitted).size_le

theorem Limits.exists_advanceAll {limits : Limits} {profile : String}
    (admitted : limits.problem? profile = none) {text : List Char}
    (size : Text.byteSize text ≤ limits.maxSourceSize.toNat) :
    ∃ place, Position.start.advanceAll text = .ok place := by
  apply Position.exists_advanceAll Position.bound_start
  rw [show Position.start.offset.toNat = 0 from rfl, Nat.zero_add]
  exact Nat.le_trans size (maxSourceSize_le admitted)

end Frontend

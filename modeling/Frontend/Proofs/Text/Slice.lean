import Frontend.Proofs.Position

/-!
# Slices at byte offsets

A slice of a text exists exactly if both its ends are character boundaries, and then it is what
stands between two parts of the text with these lengths in bytes (`sliceBytes_eq_some_iff`). A
boundary is given by its offset: two ways to split a text at the same offset are the same
(`append_inj_of_byteSize`).
-/

set_option autoImplicit false

namespace Frontend.Text

theorem byteSize_eq_zero {cs : List Char} : byteSize cs = 0 ↔ cs = [] := by
  cases cs with
  | nil => simp
  | cons c cs =>
    have := c.utf8Size_pos
    simp only [byteSize_cons, reduceCtorEq, iff_false]
    omega

/-! ## Splits -/

theorem exists_append_of_byteSize_le {xs ys xs' ys' : List Char} (h : xs ++ ys = xs' ++ ys')
    (le : byteSize xs ≤ byteSize xs') : ∃ mid, xs' = xs ++ mid ∧ ys = mid ++ ys' := by
  rcases List.append_eq_append_iff.mp h with ⟨mid, hx, hy⟩ | ⟨mid, hx, hy⟩
  · exact ⟨mid, hx, hy⟩
  · rw [hx, byteSize_append] at le
    have empty : mid = [] := byteSize_eq_zero.mp (by omega)
    subst empty
    exact ⟨[], by simp [hx], by simp [hy]⟩

theorem append_inj_of_byteSize {xs ys xs' ys' : List Char} (h : xs ++ ys = xs' ++ ys')
    (size : byteSize xs = byteSize xs') : xs = xs' ∧ ys = ys' := by
  obtain ⟨mid, hx, hy⟩ := exists_append_of_byteSize_le h (Nat.le_of_eq size)
  rw [hx, byteSize_append] at size
  have empty : mid = [] := byteSize_eq_zero.mp (by omega)
  subst empty
  exact ⟨by simp [hx], by simp [hy]⟩

/-- A character whose offset is inside a part of the text belongs to the part. -/
theorem mem_of_byteSize {done part rest before after : List Char} {c : Char}
    (h : done ++ (part ++ rest) = before ++ c :: after) (low : byteSize done ≤ byteSize before)
    (high : byteSize before < byteSize done + byteSize part) : c ∈ part := by
  obtain ⟨mid, rfl, hmid⟩ := exists_append_of_byteSize_le h low
  rw [byteSize_append] at high
  obtain ⟨left, hpart, hleft⟩ := exists_append_of_byteSize_le hmid.symm (by omega)
  cases left with
  | nil =>
    rw [List.append_nil] at hpart
    rw [hpart] at high
    omega
  | cons d left =>
    cases hleft
    rw [hpart]
    simp

/-! ## Slices -/

theorem dropBytes_append (done rest : List Char) :
    dropBytes (byteSize done) (done ++ rest) = some rest := by
  induction done with
  | nil => rw [byteSize_nil, List.nil_append, dropBytes]
  | cons c done ih =>
    obtain ⟨n, hn⟩ : ∃ n, byteSize (c :: done) = n + 1 :=
      ⟨byteSize (c :: done) - 1, by have := c.utf8Size_pos; rw [byteSize_cons]; omega⟩
    have left : n + 1 - c.utf8Size = byteSize done := by
      rw [byteSize_cons] at hn
      omega
    rw [hn, List.cons_append, dropBytes, if_pos (by rw [byteSize_cons] at hn; omega), left]
    exact ih

theorem dropBytes_eq_some_iff {n : Nat} {cs rest : List Char} :
    dropBytes n cs = some rest ↔ ∃ done, cs = done ++ rest ∧ byteSize done = n := by
  constructor
  · intro h
    fun_induction dropBytes n cs with
    | case1 cs =>
      cases h
      exact ⟨[], rfl, rfl⟩
    | case2 => cases h
    | case3 n c cs fits ih =>
      obtain ⟨done, rfl, hsize⟩ := ih h
      refine ⟨c :: done, rfl, ?_⟩
      rw [byteSize_cons, hsize]
      omega
    | case4 => cases h
  · rintro ⟨done, rfl, rfl⟩
    exact dropBytes_append done rest

theorem takeBytes_append (taken rest : List Char) :
    takeBytes (byteSize taken) (taken ++ rest) = some taken := by
  induction taken with
  | nil => rw [byteSize_nil, List.nil_append, takeBytes]
  | cons c taken ih =>
    obtain ⟨n, hn⟩ : ∃ n, byteSize (c :: taken) = n + 1 :=
      ⟨byteSize (c :: taken) - 1, by have := c.utf8Size_pos; rw [byteSize_cons]; omega⟩
    have left : n + 1 - c.utf8Size = byteSize taken := by
      rw [byteSize_cons] at hn
      omega
    rw [hn, List.cons_append, takeBytes, if_pos (by rw [byteSize_cons] at hn; omega), left, ih]
    rfl

theorem takeBytes_eq_some_iff {n : Nat} {cs taken : List Char} :
    takeBytes n cs = some taken ↔ ∃ rest, cs = taken ++ rest ∧ byteSize taken = n := by
  constructor
  · intro h
    fun_induction takeBytes n cs generalizing taken with
    | case1 cs =>
      cases h
      exact ⟨cs, rfl, rfl⟩
    | case2 => cases h
    | case3 n c cs fits ih =>
      obtain ⟨taken, htaken, rfl⟩ := Option.map_eq_some_iff.mp h
      obtain ⟨rest, rfl, hsize⟩ := ih htaken
      refine ⟨rest, rfl, ?_⟩
      rw [byteSize_cons, hsize]
      omega
    | case4 => cases h
  · rintro ⟨rest, rfl, rfl⟩
    exact takeBytes_append taken rest

theorem sliceBytes_eq_some_iff {start stop : Nat} {cs covered : List Char} :
    sliceBytes start stop cs = some covered ↔ ∃ before after, cs = before ++ (covered ++ after) ∧
      byteSize before = start ∧ byteSize before + byteSize covered = stop := by
  unfold sliceBytes
  constructor
  · intro h
    split at h
    · rename_i ordered
      obtain ⟨rest, hdrop, htake⟩ := Option.bind_eq_some_iff.mp h
      obtain ⟨before, rfl, hbefore⟩ := dropBytes_eq_some_iff.mp hdrop
      obtain ⟨after, rfl, hcovered⟩ := takeBytes_eq_some_iff.mp htake
      exact ⟨before, after, rfl, hbefore, by omega⟩
    · cases h
  · rintro ⟨before, after, rfl, rfl, rfl⟩
    rw [if_pos (Nat.le_add_right _ _), dropBytes_append, Option.bind_some, Nat.add_sub_cancel_left]
    exact takeBytes_append covered after

end Frontend.Text

/-! ## Slices at spans -/

namespace Frontend.Span

theorem slice_of_sliceBytes {s : Span} {text covered : List Char}
    (h : Text.sliceBytes s.start.offset.toNat s.stop.offset.toNat text = some covered) :
    s.slice text = .ok covered := by
  rw [slice, h]

/-- What is passed on the way from one place to another is the slice between the two. -/
theorem slice_of_advanceAll {start stop : Position} {done covered : List Char}
    (first : Position.start.advanceAll done = .ok start)
    (last : start.advanceAll covered = .ok stop) (more : List Char) :
    slice ⟨start, stop⟩ (done ++ (covered ++ more)) = .ok covered := by
  have starts : start.offset.toNat = 0 + Text.byteSize done := Position.advanceAll_offset first
  have stops := Position.advanceAll_offset last
  have covers : Text.sliceBytes start.offset.toNat stop.offset.toNat (done ++ (covered ++ more)) =
      some covered := Text.sliceBytes_eq_some_iff.mpr ⟨done, more, rfl, by omega, by omega⟩
  exact slice_of_sliceBytes covers

end Frontend.Span

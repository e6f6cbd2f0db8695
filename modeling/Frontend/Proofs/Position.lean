import Frontend.Span

/-!
# Positions along a text

The offset of a position counts the bytes of the text before it, so the positions that a text leads
to never go back (`advanceAll_offset`), and a span between two of them always exists.
-/

set_option autoImplicit false

namespace Frontend

/-! ## Checked words -/

/-- A computation of two steps has an answer if both steps have one. -/
theorem exists_of_bind_eq_ok {α β : Type} {x : Except Fault α} {f : α → Except Fault β} {b : β}
    (h : x >>= f = .ok b) : ∃ a, x = .ok a ∧ f a = .ok b := by
  cases x with
  | error fault => cases h
  | ok a => exact ⟨a, rfl, h⟩

theorem Word.toNat_of_add64 {a b c : UInt64} (h : Word.add64 a b = .ok c) :
    c.toNat = a.toNat + b.toNat := by
  unfold Word.add64 at h
  split at h
  · rename_i fits
    cases h
    rw [UInt64.toNat_add]
    exact Nat.mod_eq_of_lt fits
  · cases h

theorem Word.toNat_of_add32 {a b c : UInt32} (h : Word.add32 a b = .ok c) :
    c.toNat = a.toNat + b.toNat := by
  unfold Word.add32 at h
  split at h
  · rename_i fits
    cases h
    rw [UInt32.toNat_add]
    exact Nat.mod_eq_of_lt fits
  · cases h

theorem Word.add64_of_lt {a b : UInt64} (fits : a.toNat + b.toNat < UInt64.size) :
    Word.add64 a b = .ok (a + b) := if_pos fits

theorem Word.add32_of_lt {a b : UInt32} (fits : a.toNat + b.toNat < UInt32.size) :
    Word.add32 a b = .ok (a + b) := if_pos fits

theorem Word.sub32_of_le {a b : UInt32} (fits : b.toNat ≤ a.toNat) :
    Word.sub32 a b = .ok (a - b) := if_pos (UInt32.le_iff_toNat_le.mpr fits)

theorem Word.toNat_of_sub32 {a b c : UInt32} (h : Word.sub32 a b = .ok c) :
    c.toNat = a.toNat - b.toNat := by
  unfold Word.sub32 at h
  split at h
  · rename_i fits
    cases h
    exact UInt32.toNat_sub_of_le a b fits
  · cases h

theorem Word.toNat_of_sub64 {a b c : UInt64} (h : Word.sub64 a b = .ok c) :
    c.toNat + b.toNat = a.toNat := by
  unfold Word.sub64 at h
  split at h
  · rename_i fits
    cases h
    rw [UInt64.toNat_sub_of_le a b fits]
    exact Nat.sub_add_cancel (UInt64.le_iff_toNat_le.mp fits)
  · cases h

theorem Word.lt_of_sub64 {a b : UInt64} {fault : Fault} (h : Word.sub64 a b = .error fault) :
    a.toNat < b.toNat := by
  unfold Word.sub64 at h
  split at h
  · cases h
  · rename_i less
    rwa [UInt64.le_iff_toNat_le, Nat.not_le] at less

theorem Word.fault_of_add64 {a b : UInt64} {fault : Fault} (h : Word.add64 a b = .error fault) :
    fault = .addOverflow := by
  unfold Word.add64 at h
  split at h <;> cases h
  rfl

theorem Word.fault_of_add32 {a b : UInt32} {fault : Fault} (h : Word.add32 a b = .error fault) :
    fault = .addOverflow := by
  unfold Word.add32 at h
  split at h <;> cases h
  rfl

/-! ## Byte counts -/

theorem Text.byteSize_append (xs ys : List Char) :
    Text.byteSize (xs ++ ys) = Text.byteSize xs + Text.byteSize ys := by
  induction xs with
  | nil => simp
  | cons c xs ih =>
    rw [List.cons_append, byteSize_cons, byteSize_cons, ih]
    omega

theorem Text.byteSize_toList (s : String) : byteSize s.toList = s.toUTF8.size := by
  have encoded (cs : List Char) : byteSize cs = cs.utf8Encode.size := by
    induction cs with
    | nil => rfl
    | cons c cs ih =>
      rw [byteSize_cons, ih, List.utf8Encode_cons, ByteArray.size_append, List.utf8Encode_singleton,
        List.size_toByteArray, String.length_utf8EncodeChar]
  rw [encoded, String.utf8Encode_toList]
  rfl

namespace Position

/-! ## Offsets -/

theorem toNat_utf8Size (c : Char) : (UInt64.ofNat c.utf8Size).toNat = c.utf8Size := by
  have := Char.utf8Size_le_four c
  rw [UInt64.toNat_ofNat']
  omega

/-- What a character does to the coordinates of a position. -/
theorem advance_cases {p q : Position} {c : Char} (h : p.advance c = .ok q) :
    q.offset.toNat = p.offset.toNat + c.utf8Size ∧
      ((c = '\n' ∧ q.line.toNat = p.line.toNat + 1 ∧ q.column.toNat = 1) ∨
        (c = '\t' ∧ q.line = p.line ∧ p.column.toNat + 4 < UInt32.size ∧
          q.column.toNat = p.column.toNat + 4 - (p.column.toNat - 1) % 4) ∨
        (c ≠ '\n' ∧ c ≠ '\t' ∧ q.line = p.line ∧ q.column.toNat = p.column.toNat + 1)) := by
  unfold advance at h
  split at h
  · rename_i newline
    obtain ⟨offset, hoffset, h⟩ := exists_of_bind_eq_ok h
    obtain ⟨line, hline, h⟩ := exists_of_bind_eq_ok h
    cases h
    rw [newline]
    exact ⟨Word.toNat_of_add64 hoffset, .inl ⟨rfl, Word.toNat_of_add32 hline, rfl⟩⟩
  · rename_i newline
    split at h
    · rename_i tab
      obtain ⟨offset, hoffset, h⟩ := exists_of_bind_eq_ok h
      obtain ⟨widened, hwidened, h⟩ := exists_of_bind_eq_ok h
      obtain ⟨before, hbefore, h⟩ := exists_of_bind_eq_ok h
      obtain ⟨column, hcolumn, h⟩ := exists_of_bind_eq_ok h
      cases h
      have wide : widened.toNat = p.column.toNat + 4 := Word.toNat_of_add32 hwidened
      have fits := widened.toNat_lt_size
      have passed : before.toNat = p.column.toNat - 1 := Word.toNat_of_sub32 hbefore
      have stop : column.toNat = widened.toNat - before.toNat % 4 := by
        rw [Word.toNat_of_sub32 hcolumn, UInt32.toNat_mod]
        rfl
      rw [tab]
      refine ⟨Word.toNat_of_add64 hoffset, .inr (.inl ⟨rfl, rfl, by omega, ?_⟩)⟩
      rw [stop, wide, passed]
    · rename_i tab
      obtain ⟨offset, hoffset, h⟩ := exists_of_bind_eq_ok h
      obtain ⟨column, hcolumn, h⟩ := exists_of_bind_eq_ok h
      cases h
      rw [← toNat_utf8Size c]
      exact ⟨Word.toNat_of_add64 hoffset,
        .inr (.inr ⟨newline, tab, rfl, Word.toNat_of_add32 hcolumn⟩)⟩

/-- A position can be advanced as long as its words are large enough. -/
theorem exists_advance_of_lt {p : Position} {c : Char}
    (offset : p.offset.toNat + c.utf8Size < UInt64.size)
    (line : c = '\n' → p.line.toNat + 1 < UInt32.size)
    (tab : c = '\t' → 1 ≤ p.column.toNat ∧ p.column.toNat + 4 < UInt32.size)
    (column : c ≠ '\n' → c ≠ '\t' → p.column.toNat + 1 < UInt32.size) :
    ∃ q, p.advance c = .ok q := by
  rw [← toNat_utf8Size c] at offset
  unfold advance
  split
  · rename_i newline
    rw [newline] at offset
    have moved : Word.add64 p.offset 1 = .ok (p.offset + 1) := Word.add64_of_lt offset
    rw [moved, Word.add32_of_lt (line newline)]
    exact ⟨_, rfl⟩
  · rename_i newline
    split
    · rename_i htab
      obtain ⟨pos, wide⟩ := tab htab
      rw [htab] at offset
      have moved : Word.add64 p.offset 1 = .ok (p.offset + 1) := Word.add64_of_lt offset
      have widened : Word.add32 p.column tabWidth = .ok (p.column + tabWidth) :=
        Word.add32_of_lt wide
      -- no more is taken off than the tab is wide
      have fits : ((p.column - 1) % tabWidth).toNat ≤ (p.column + tabWidth).toNat := by
        have small : (p.column - 1).toNat % 4 < 4 := Nat.mod_lt _ (by decide)
        have sum : (p.column + tabWidth).toNat = p.column.toNat + 4 := Word.toNat_of_add32 widened
        rw [UInt32.toNat_mod, sum]
        exact Nat.le_of_lt (Nat.lt_of_lt_of_le small (Nat.le_add_left _ _))
      have before : Word.sub32 p.column 1 = .ok (p.column - 1) := Word.sub32_of_le pos
      have stop := Word.sub32_of_le fits
      exact ⟨_, by simp only [moved, widened, before, stop, bind, Except.bind]; rfl⟩
    · rename_i htab
      rw [Word.add64_of_lt offset, Word.add32_of_lt (column newline htab)]
      exact ⟨_, rfl⟩

theorem advance_offset {p q : Position} {c : Char} (h : p.advance c = .ok q) :
    q.offset.toNat = p.offset.toNat + c.utf8Size := (advance_cases h).1

theorem advanceAll_append (p : Position) (xs ys : List Char) :
    p.advanceAll (xs ++ ys) = p.advanceAll xs >>= fun q => q.advanceAll ys := by
  induction xs generalizing p with
  | nil => rfl
  | cons c xs ih =>
    simp only [List.cons_append, advanceAll]
    cases p.advance c with
    | error fault => rfl
    | ok q => exact ih q

/-- A run of characters moves the offset by its length in bytes. -/
theorem advanceAll_offset {p q : Position} {cs : List Char} (h : p.advanceAll cs = .ok q) :
    q.offset.toNat = p.offset.toNat + Text.byteSize cs := by
  induction cs generalizing p with
  | nil =>
    cases h
    simp
  | cons c cs ih =>
    simp only [advanceAll] at h
    cases hc : p.advance c with
    | error fault => simp [hc] at h
    | ok r =>
      rw [hc] at h
      rw [ih h, advance_offset hc, Text.byteSize_cons]
      omega

theorem between_of_advanceAll {p q : Position} {cs : List Char} (h : p.advanceAll cs = .ok q) :
    Span.between p q = .ok ⟨p, q⟩ := by
  have offset := advanceAll_offset h
  have ordered : p.offset ≤ q.offset := by
    rw [UInt64.le_iff_toNat_le]
    omega
  rw [Span.between, if_pos ordered]

/-! ## Plain characters -/

/-- A character of one byte that moves the column by one. -/
def Plain (c : Char) : Prop := c ≠ '\n' ∧ c ≠ '\t' ∧ c.utf8Size = 1

theorem advance_plain {c : Char} (plain : Plain c) (p : Position) :
    p.advance c = Word.add64 p.offset 1 >>= fun offset =>
      Word.add32 p.column 1 >>= fun column => .ok ⟨offset, p.line, column⟩ := by
  obtain ⟨newline, tab, size⟩ := plain
  rw [advance, if_neg newline, if_neg tab, size]
  rfl

theorem exists_advanceAll_plain {cs : List Char} (plain : ∀ c ∈ cs, Plain c) {p : Position}
    (offset : p.offset.toNat + cs.length < UInt64.size)
    (column : p.column.toNat + cs.length < UInt32.size) : ∃ q, p.advanceAll cs = .ok q := by
  induction cs generalizing p with
  | nil => exact ⟨p, rfl⟩
  | cons c cs ih =>
    rw [List.length_cons] at offset column
    have add64 : Word.add64 p.offset 1 = .ok (p.offset + 1) := Word.add64_of_lt (by
      change p.offset.toNat + 1 < _
      omega)
    have add32 : Word.add32 p.column 1 = .ok (p.column + 1) := Word.add32_of_lt (by
      change p.column.toNat + 1 < _
      omega)
    have step : p.advance c = .ok ⟨p.offset + 1, p.line, p.column + 1⟩ := by
      rw [advance_plain (plain c List.mem_cons_self), add64, add32]
      rfl
    have offset' := Word.toNat_of_add64 add64
    have column' := Word.toNat_of_add32 add32
    rw [advanceAll, step]
    apply ih (fun d hd => plain d (List.mem_cons_of_mem c hd))
    · rw [offset']
      change p.offset.toNat + 1 + cs.length < _
      omega
    · rw [column']
      change p.column.toNat + 1 + cs.length < _
      omega

theorem advanceAll_plain_overflow {cs : List Char} (plain : ∀ c ∈ cs, Plain c) {p : Position}
    (column : UInt32.size ≤ p.column.toNat + cs.length) :
    p.advanceAll cs = .error .addOverflow := by
  induction cs generalizing p with
  | nil =>
    have := p.column.toNat_lt_size
    rw [List.length_nil] at column
    omega
  | cons c cs ih =>
    rw [List.length_cons] at column
    rw [advanceAll, advance_plain (plain c List.mem_cons_self)]
    cases hoffset : Word.add64 p.offset 1 with
    | error fault => rw [Word.fault_of_add64 hoffset]; rfl
    | ok offset =>
      cases hcolumn : Word.add32 p.column 1 with
      | error fault => rw [Word.fault_of_add32 hcolumn]; rfl
      | ok next =>
        have moved : next.toNat = p.column.toNat + 1 := Word.toNat_of_add32 hcolumn
        apply ih (fun d hd => plain d (List.mem_cons_of_mem c hd))
        change _ ≤ next.toNat + cs.length
        omega

end Position

end Frontend

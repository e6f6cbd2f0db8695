import Frontend.Proofs.Json.Reading

/-!
# Compact text has no control characters

In strings the control characters below the blank are escaped, and nothing else that is written has
any. So compact text has none (`Exact.printable`), and a value stands on one line.
-/

set_option autoImplicit false

namespace Frontend.Json

/-- No character of a text is a control character below the blank. -/
def Printable (text : List Char) : Prop := ∀ c ∈ text, 0x20 ≤ c.toNat

instance (text : List Char) : Decidable (Printable text) := List.decidableBAll _ text

theorem printable_cons {c : Char} {text : List Char} :
    Printable (c :: text) ↔ 0x20 ≤ c.toNat ∧ Printable text :=
  List.forall_mem_cons

theorem printable_append {xs ys : List Char} : Printable (xs ++ ys) ↔ Printable xs ∧ Printable ys :=
  List.forall_mem_append

/-- What stands between two printable characters. -/
theorem Printable.enclosed {text : List Char} (h : Printable text) {first last : Char}
    (hf : 0x20 ≤ first.toNat) (hl : 0x20 ≤ last.toNat) : Printable (first :: (text ++ [last])) := by
  refine printable_cons.mpr ⟨hf, printable_append.mpr ⟨h, ?_⟩⟩
  intro c hc
  rw [List.mem_singleton.mp hc]
  exact hl

/-! ## Strings and numbers -/

theorem printable_hexDigit : ∀ n < 16, 0x20 ≤ (hexDigit n).toNat := by decide

theorem printable_escape (c : Char) : Printable (escape c) := by
  unfold escape
  split
  case h_8 =>
    split
    · have high := printable_hexDigit (c.toNat / 16) (by omega)
      have low := printable_hexDigit (c.toNat % 16) (by omega)
      have start : Printable ['\\', 'u', '0', '0'] := by decide
      have unit : Printable [hexDigit (c.toNat / 16), hexDigit (c.toNat % 16)] := by
        intro d hd
        rcases List.mem_pair.mp hd with rfl | rfl
        · exact high
        · exact low
      exact printable_append.mpr ⟨start, unit⟩
    · intro d hd
      rw [List.mem_singleton.mp hd]
      omega
  all_goals decide

theorem printable_quote? (content : Option String) : Printable (quote? content) := by
  cases content with
  | none => decide
  | some content =>
    have inside : Printable (content.toList.flatMap escape) := by
      intro c hc
      obtain ⟨d, -, hd⟩ := List.mem_flatMap.mp hc
      exact printable_escape d c hd
    exact inside.enclosed (by decide) (by decide)

theorem printable_toDigits (n : Nat) : Printable (Nat.toDigits 10 n) := by
  intro c hc
  have digit := (isDigit_iff c).mp (isDigit_toDigits n c hc)
  omega

theorem printable_integer (i : Int) : Printable (toString i).toList := by
  rw [toList_toString]
  split
  · exact printable_toDigits _
  · exact printable_cons.mpr ⟨by decide, printable_toDigits _⟩

/-! ## Values -/

theorem printable_moreItems {items : List Json} (parts : ∀ j ∈ items, Printable j.compactChars) :
    Printable (compactMoreItems items) := by
  induction items with
  | nil => decide
  | cons j items ih =>
    rw [List.forall_mem_cons] at parts
    exact printable_cons.mpr ⟨by decide, printable_append.mpr ⟨parts.1, ih parts.2⟩⟩

theorem printable_items {items : List Json} (parts : ∀ j ∈ items, Printable j.compactChars) :
    Printable (compactItems items) := by
  cases items with
  | nil => decide
  | cons j items =>
    rw [List.forall_mem_cons] at parts
    exact printable_append.mpr ⟨parts.1, printable_moreItems parts.2⟩

/-- A key, its value and what comes after them. -/
theorem printable_member (key : Option String) {j : Json} (h : Printable j.compactChars)
    {rest : List Char} (hrest : Printable rest) :
    Printable (quote? key ++ ':' :: (j.compactChars ++ rest)) :=
  printable_append.mpr ⟨printable_quote? key,
    printable_cons.mpr ⟨by decide, printable_append.mpr ⟨h, hrest⟩⟩⟩

theorem printable_moreMembers {members : List (Option String × Json)}
    (parts : ∀ m ∈ members, Printable m.2.compactChars) :
    Printable (compactMoreMembers members) := by
  induction members with
  | nil => decide
  | cons m members ih =>
    rw [List.forall_mem_cons] at parts
    exact printable_cons.mpr ⟨by decide, printable_member m.1 parts.1 (ih parts.2)⟩

theorem printable_members {members : List (Option String × Json)}
    (parts : ∀ m ∈ members, Printable m.2.compactChars) : Printable (compactMembers members) := by
  cases members with
  | nil => decide
  | cons m members =>
    rw [List.forall_mem_cons] at parts
    exact printable_member m.1 parts.1 (printable_moreMembers parts.2)

theorem Exact.printable {j : Json} (h : Exact j) : Printable j.compactChars := by
  induction h with
  | null => decide
  | bool b => cases b <;> decide
  | integer i => exact printable_integer i
  | string content => exact printable_quote? content
  | array _ parts => exact (printable_items parts).enclosed (by decide) (by decide)
  | object _ parts => exact (printable_members parts).enclosed (by decide) (by decide)

end Frontend.Json

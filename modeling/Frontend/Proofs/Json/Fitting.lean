import Frontend.Proofs.Json.Decoding

/-!
# Data that was read fits where it was read

A decoder accepts many spellings of the same data. Whichever it was given, the encoding of the data
is no deeper than the value in hand, and there is room for it (`Fits`). So what was read once can be
written and read again (`decodeText_again`).
-/

set_option autoImplicit false

namespace Frontend.Json

/-! ## Depth of parts -/

theorem depthItems_le_iff {items : List Json} {n : Nat} :
    depthItems items ≤ n ↔ ∀ j ∈ items, j.depth ≤ n := by
  induction items with
  | nil => simp [depthItems]
  | cons j items ih => simp [depthItems, ih]

theorem depth_le_depthMembers {members : List (Option String × Json)} {m : Option String × Json}
    (hm : m ∈ members) :
    m.2.depth ≤ depthMembers members := by
  induction members with
  | nil => cases hm
  | cons k members ih =>
    rw [depthMembers]
    rcases List.mem_cons.mp hm with rfl | hm
    · exact Nat.le_max_left _ _
    · exact (ih hm).trans (Nat.le_max_right _ _)

theorem exists_of_mem_mapM {α β : Type} {f : α → Option β} {xs : List α} {ys : List β}
    (h : xs.mapM f = some ys) {y : β} (hy : y ∈ ys) : ∃ x ∈ xs, f x = some y := by
  induction xs generalizing ys with
  | nil =>
    cases h
    cases hy
  | cons x xs ih =>
    simp only [List.mapM_cons, bind, pure, Option.bind_eq_some_iff, Option.some.injEq] at h
    obtain ⟨first, hfirst, others, hothers, rfl⟩ := h
    rcases List.mem_cons.mp hy with rfl | hy
    · exact ⟨x, List.mem_cons_self, hfirst⟩
    · obtain ⟨z, hz, found⟩ := ih hothers hy
      exact ⟨z, List.mem_cons_of_mem x hz, found⟩

/-- The fields of a record are one level further in. -/
theorem exists_depth_of_fields? {d : Dialect} {names : List String} {j : Json}
    {fields : List (Option Json)} (h : j.fields? d names = some fields) :
    ∃ n, j.depth = n + 1 ∧ ∀ field, some field ∈ fields → field.depth ≤ n := by
  cases j with
  | array items =>
    refine ⟨depthItems items, depth_array items, fun field hfield => ?_⟩
    simp only [fields?] at h
    split at h
    · cases h
      rcases List.mem_append.mp hfield with present | missing
      · obtain ⟨item, hitem, same⟩ := List.mem_map.mp present
        cases same
        exact depthItems_le_iff.mp le_rfl field (List.mem_of_mem_take hitem)
      · cases List.eq_of_mem_replicate missing
    · cases h
  | object members =>
    refine ⟨depthMembers members, by rw [depth], fun field hfield => ?_⟩
    simp only [fields?] at h
    split at h
    · cases h
    · rename_i found named
      split at h
      · cases h
        obtain ⟨name, -, hname⟩ := List.mem_map.mp hfield
        obtain ⟨m, hm, rfl⟩ := Option.map_eq_some_iff.mp hname
        obtain ⟨k, hk, same⟩ := exists_of_mem_mapM named (List.mem_of_find?_eq_some hm)
        obtain ⟨key, -, rfl⟩ := Option.map_eq_some_iff.mp same
        exact depth_le_depthMembers hk
      · cases h
  | _ => cases h

theorem depth_of_payload? {j body : Json} {tag : String} (h : j.payload? = some (tag, body)) :
    j.depth = body.depth + 1 := by
  unfold payload? at h
  split at h
  · cases h
    simp [depth, depthMembers]
  · cases h

/-! ## Decoders -/

/-- What is read with some room left is written no deeper than the value it was read from, and
within the room. -/
def FitsIn {α : Type} (room : Nat) (decode : Json → Option α) (encode : α → Json) : Prop :=
  ∀ j x, decode j = some x → (encode x).depth ≤ min room j.depth

/-- What a decoder reads fits, whatever room there is. -/
def Fits {α : Type} (decoder : Decoder α) (encode : α → Json) : Prop :=
  ∀ room, FitsIn room (decoder room) encode

section

variable {α : Type} {decoder : Decoder α} {encode : α → Json}

theorem FitsIn.part {room most : Nat} {decode : Json → Option α} (h : FitsIn room decode encode)
    {j : Json} {x : α} (read : decode j = some x) (small : j.depth ≤ most) :
    (encode x).depth ≤ min room most :=
  (h j x read).trans (min_le_min le_rfl small)

/-- A record fits if its fields do, which have one level less. -/
theorem fitsIn_record {names : List String} {build : Nat → List (Option Json) → Option α}
    {members : α → List (String × Json)} {room : Nat} (shape : ∀ x, encode x = record (members x))
    (parts : ∀ fields most x, (∀ field, some field ∈ fields → field.depth ≤ most) →
      build room fields = some x → ∀ m ∈ members x, m.2.depth ≤ min room most) :
    FitsIn (room + 1) (asRecord names build (room + 1)) encode := by
  intro j x read
  obtain ⟨fields, hfields, built⟩ := Option.bind_eq_some_iff.mp read
  obtain ⟨most, depth, small⟩ := exists_depth_of_fields? hfields
  rw [shape, depth, Nat.add_min_add_right, depth_record_le_iff]
  exact parts fields most x small built

theorem fits_record {names : List String} {build : Nat → List (Option Json) → Option α}
    {members : α → List (String × Json)} (shape : ∀ x, encode x = record (members x))
    (parts : ∀ room fields most x, (∀ field, some field ∈ fields → field.depth ≤ most) →
      build room fields = some x → ∀ m ∈ members x, m.2.depth ≤ min room most) :
    Fits (asRecord names build) encode := by
  intro room
  cases room with
  | zero => exact fun j x read => nomatch read
  | succ room => exact fitsIn_record shape (parts room)

/-- Behind a tag there is one level less, in the value and in the room. -/
theorem FitsIn.tagged {room : Nat} {decode : Json → Option α} (h : FitsIn room decode encode)
    {j body : Json} {tag : String} (payload : j.payload? = some (tag, body)) {x : α}
    (read : decode body = some x) :
    (encode x).depth + 1 ≤ min (room + 1) j.depth := by
  have inner := h body x read
  rw [depth_of_payload? payload]
  omega

theorem fits_list (h : Fits decoder encode) :
    Fits (asList decoder) fun xs => .array (xs.map encode) := by
  intro room j xs read
  unfold asList at read
  split at read
  · rename_i room items
    have parts : depthItems (xs.map encode) ≤ min room (depthItems items) := by
      rw [depthItems_le_iff]
      intro k hk
      obtain ⟨x, hx, rfl⟩ := List.mem_map.mp hk
      obtain ⟨item, hitem, decoded⟩ := exists_of_mem_mapM read hx
      exact (h room).part decoded (depthItems_le_iff.mp le_rfl item hitem)
    rw [depth_array, depth_array]
    omega
  · cases read

end

/-- What was read from a text is read again from its own compact text, and this text is nowhere
deeper. -/
theorem decodeText_again {α : Type} {decoder : Decoder α} {encode : α → Json}
    (exact : ∀ x, Exact (encode x)) (decodes : ∀ x, Decodes decoder (encode x) x)
    (fits : Fits decoder encode) {text : String} {x : α} (h : decodeText decoder text = some x) :
    decodeText decoder (encode x).compact = some x ∧
      ∃ j, read text.toList = some j ∧ (encode x).depth ≤ j.depth := by
  obtain ⟨j, hread, decoded⟩ := Option.bind_eq_some_iff.mp h
  have small := le_min_iff.mp (fits nestingLimit j x decoded)
  refine ⟨?_, j, hread, small.2⟩
  rw [decodeText_compact (exact x) (decodes x), if_pos small.1]

end Frontend.Json

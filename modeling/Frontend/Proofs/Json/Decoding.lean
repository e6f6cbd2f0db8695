import Mathlib.Data.List.Nodup
import Frontend.Json.Decoder
import Frontend.Proofs.Json.Reading

/-!
# Decoders of what is written

`depth` counts how many arrays and objects are open at once in a value. A decoder gives typed data
back from its encoding if there is room for that depth, and fails if there is not (`Decodes`).
Records, variants and lists do so if their parts do, and a text is decoded as the value that is
written in it (`decodeText_compact`).
-/

set_option autoImplicit false

namespace Frontend.Json

/-! ## Depth -/

mutual

/-- How many arrays and objects are open at once in a value, at most. -/
def depth : Json → Nat
  | .array items => depthItems items + 1
  | .object members => depthMembers members + 1
  | _ => 0

def depthItems : List Json → Nat
  | [] => 0
  | item :: rest => max item.depth (depthItems rest)

def depthMembers : List (Option String × Json) → Nat
  | [] => 0
  | (_, value) :: rest => max value.depth (depthMembers rest)

end

@[simp] theorem depth_null : depth .null = 0 := rfl

@[simp] theorem depth_integer (i : Int) : depth (.integer i) = 0 := rfl

@[simp] theorem depth_natural (n : Nat) : (natural n).depth = 0 := rfl

@[simp] theorem depth_text (content : String) : (text content).depth = 0 := rfl

@[simp] theorem depth_array (items : List Json) : (array items).depth = depthItems items + 1 := by
  rw [depth]

theorem depth_record_le_iff (members : List (String × Json)) (n : Nat) :
    (record members).depth ≤ n + 1 ↔ ∀ m ∈ members, m.2.depth ≤ n := by
  rw [record, depth, Nat.add_le_add_iff_right]
  induction members with
  | nil => simp [depthMembers]
  | cons m members ih => simp [depthMembers, ih]

theorem depth_record_pos (members : List (String × Json)) : 0 < (record members).depth := by
  rw [record, depth]
  omega

@[simp] theorem depth_tagged (tag : String) (payload : Json) :
    (tagged tag payload).depth = payload.depth + 1 := by
  simp [tagged, record, depth, depthMembers]

/-! ## Values without literals -/

@[simp] theorem exact_null : Exact .null := .null

@[simp] theorem exact_integer (i : Int) : Exact (.integer i) := .integer i

@[simp] theorem exact_natural (n : Nat) : Exact (natural n) := .integer n

@[simp] theorem exact_text (content : String) : Exact (text content) := .string content

@[simp] theorem exact_record {members : List (String × Json)} :
    Exact (record members) ↔ ∀ m ∈ members, Exact m.2 := by
  constructor
  · intro h m hm
    cases h with
    | object parts => exact parts (some m.1, m.2) (List.mem_map_of_mem hm)
  · intro parts
    refine .object fun member hmember => ?_
    obtain ⟨m, hm, rfl⟩ := List.mem_map.mp hmember
    exact parts m hm

@[simp] theorem exact_tagged {tag : String} {payload : Json} :
    Exact (tagged tag payload) ↔ Exact payload := by
  simp [tagged]

/-! ## Decoders -/

/-- A decoder gives `x` for a value as soon as there is room for it. -/
def Decodes {α : Type} (decoder : Decoder α) (j : Json) (x : α) : Prop :=
  ∀ room, decoder room j = if j.depth ≤ room then some x else none

section

variable {α β : Type} {decoder : Decoder α} {j : Json} {x : α}

theorem Decodes.bind (h : Decodes decoder j x) (room : Nat) (f : α → Option β) :
    (decoder room j >>= f) = if j.depth ≤ room then f x else none := by
  rw [h room]
  split <;> rfl

theorem Decodes.map (h : Decodes decoder j x) (f : α → β) :
    Decodes (fun room j => (decoder room j).map f) j (f x) := by
  intro room
  simp only [h room]
  split <;> rfl

theorem decodeText_compact (exact : Exact j) (h : Decodes decoder j x) :
    decodeText decoder j.compact = if j.depth ≤ nestingLimit then some x else none := by
  rw [decodeText, read_compact exact]
  exact h nestingLimit

theorem decodes_text (content : String) : Decodes asText (.text content) content := by
  intro room
  rw [depth_text, if_pos (Nat.zero_le room)]
  rfl

theorem decodes_word64 (w : UInt64) : Decodes asWord64 (.natural w.toNat) w := by
  intro room
  have small := w.toNat_lt
  simp [asWord64, asBetween, natural, UInt64.size, small]

theorem decodes_word32 (w : UInt32) : Decodes asWord32 (.natural w.toNat) w := by
  intro room
  have small := w.toNat_lt
  simp [asWord32, asBetween, natural, UInt32.size, small]

theorem decodes_int64 (w : Int64) : Decodes asInt64 (.integer w.toInt) w := by
  intro room
  have range : -(Text.int64Bound : Int) ≤ w.toInt ∧ w.toInt < Text.int64Bound :=
    ⟨w.le_toInt, w.toInt_lt⟩
  simp [asInt64, asBetween, range]

/-! ## Records, variants and lists -/

theorem find?_of_mem {members : List (String × Json)} (distinct : (members.map (·.1)).Nodup)
    {m : String × Json} (hm : m ∈ members) : members.find? (·.1 == m.1) = some m := by
  induction members with
  | nil => cases hm
  | cons k members ih =>
    rw [List.map_cons, List.nodup_cons] at distinct
    rcases List.mem_cons.mp hm with rfl | hm
    · simp
    · have other : k.1 ≠ m.1 := fun same => distinct.1 (same ▸ List.mem_map_of_mem hm)
      rw [List.find?_cons_of_neg (by simpa using other)]
      exact ih distinct.2 hm

theorem mapM_named (members : List (String × Json)) :
    (members.map fun m => (some m.1, m.2)).mapM
    (fun (key, value) => key.map fun name => (name, value)) =
      some members := by
  induction members with
  | nil => rfl
  | cons m members ih =>
    rw [List.map_cons, List.mapM_cons, ih]
    rfl

theorem fields?_record (d : Dialect) {names : List String} {members : List (String × Json)}
    (keys : members.map (·.1) = names) (distinct : names.Nodup) :
    (record members).fields? d names = some (members.map fun m => some m.2) := by
  subst keys
  have once : (members.map (·.1)).all fun name => (members.filter (·.1 == name)).length ≤ 1 := by
    rw [List.all_eq_true]
    intro name _
    have count := List.nodup_iff_count_le_one.mp distinct name
    rw [List.count, List.countP_map, List.countP_eq_length_filter] at count
    exact decide_eq_true count
  have found : members.map (fun m => (members.find? (·.1 == m.1)).map (·.2)) = members.map fun m =>
      some m.2 := by
    refine List.map_congr_left fun m hm => ?_
    rw [find?_of_mem distinct hm, Option.map_some]
  simp only [record, fields?, mapM_named, once, if_true, List.map_map]
  exact congrArg some found

theorem asRecord_record {names : List String} {members : List (String × Json)}
    (keys : members.map (·.1) = names) (distinct : names.Nodup)
    (build : Nat → List (Option Json) → Option α) (room : Nat) :
    asRecord names build (room + 1) (record members) =
      build room (members.map fun m => some m.2) := by
  rw [asRecord, asRecordIn, fields?_record dialect keys distinct, Option.bind_some]

/-- What reads the fields of a record may depend on the room for the record. -/
theorem decodes_record {names : List String} {members : List (String × Json)}
    {build : Nat → Nat → List (Option Json) → Option α} (keys : members.map (·.1) = names)
    (distinct : names.Nodup)
    (fields : ∀ room, build (room + 1) room (members.map fun m => some m.2) =
      if ∀ m ∈ members, m.2.depth ≤ room then some x else none) :
    Decodes (fun room j => asRecord names (build room) room j) (record members) x := by
  intro room
  cases room with
  | zero =>
    rw [if_neg (Nat.not_le_of_lt (depth_record_pos members))]
    rfl
  | succ room =>
    simp only [asRecord_record keys distinct, fields, depth_record_le_iff]

theorem Decodes.tagged {inner : Decoder α} {tag : String} (h : Decodes inner j x)
    (empty : decoder 0 (.tagged tag j) = none)
    (payload : ∀ room, decoder (room + 1) (.tagged tag j) = inner room j) :
    Decodes decoder (.tagged tag j) x := by
  intro room
  cases room with
  | zero => rw [empty, depth_tagged, if_neg (Nat.not_succ_le_zero _)]
  | succ room =>
    rw [payload room, h room]
    simp only [depth_tagged, Nat.add_le_add_iff_right]

theorem decodes_list {toJson : α → Json} (parts : ∀ x, Decodes decoder (toJson x) x) (xs : List α) :
    Decodes (asList decoder) (.array (xs.map toJson)) xs := by
  intro room
  cases room with
  | zero => simp [asList]
  | succ room =>
    rw [asList, depth_array]
    simp only [Nat.add_le_add_iff_right]
    induction xs with
    | nil => simp [depthItems]
    | cons x xs ih =>
      rw [List.map_cons, List.mapM_cons, (parts x).bind, ih]
      simp only [depthItems, max_le_iff, ite_and]
      split
      · split <;> rfl
      · rfl

end

end Frontend.Json

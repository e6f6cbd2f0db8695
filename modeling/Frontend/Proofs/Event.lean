import Frontend.Event.Basic

/-!
# Events with named texts

Named texts change nothing else of an event, and the text of a name is the one that was set last
(`lookup_withContext`). A message is cut only where it does not fit, and then it ends in dots
(`cut_ne`).
-/

set_option autoImplicit false

namespace Frontend

namespace Event

/-! ## Named texts -/

/-- Named texts change nothing but the context. -/
theorem withContexts_eq (e : Event) (pairs : List (String × String)) :
    ∃ context, e.withContexts pairs = { e with context := context } := by
  unfold withContexts
  induction pairs generalizing e with
  | nil => exact ⟨e.context, rfl⟩
  | cons pair pairs ih =>
    obtain ⟨context, h⟩ := ih (e.withContext pair.1 pair.2)
    exact ⟨context, h⟩

@[simp] theorem level_withContexts (e : Event) (pairs : List (String × String)) :
    (e.withContexts pairs).level = e.level := by
  obtain ⟨context, h⟩ := e.withContexts_eq pairs
  rw [h]

@[simp] theorem code_withContexts (e : Event) (pairs : List (String × String)) :
    (e.withContexts pairs).code = e.code := by
  obtain ⟨context, h⟩ := e.withContexts_eq pairs
  rw [h]

@[simp] theorem message_withContexts (e : Event) (pairs : List (String × String)) :
    (e.withContexts pairs).message = e.message := by
  obtain ⟨context, h⟩ := e.withContexts_eq pairs
  rw [h]

theorem lookup_pair {α : Type} (key : String) (value : α) (name : String)
    (context : List (String × α)) :
    ((key, value) :: context).lookup name = if name = key then some value
      else context.lookup name := by
  by_cases h : name = key
  · simp [h]
  · have different : (name == key) = false := beq_eq_false_iff_ne.mpr h
    simp [List.lookup_cons, different, h]

theorem lookup_put (key value name : String) (context : List (String × String)) :
    (put key value context).lookup name = if name = key then some value
      else context.lookup name := by
  induction context with
  | nil => exact lookup_pair key value name []
  | cons pair context ih =>
    obtain ⟨other, text⟩ := pair
    unfold put
    split
    · rename_i same
      subst same
      simp only [lookup_pair]
      split <;> rfl
    · rename_i different
      split
      · exact lookup_pair key value name ((other, text) :: context)
      · simp only [lookup_pair, ih]
        by_cases h : name = key
        · have notOther : ¬name = other := fun same => different (h.symm.trans same)
          rw [if_neg notOther, if_pos h, if_pos h]
        · rw [if_neg h, if_neg h]

theorem lookup_withContext (e : Event) (key value name : String) :
    (e.withContext key value).context.lookup name = if name = key then some value
      else e.context.lookup name :=
  lookup_put key value name e.context

theorem lookup_withContexts_of_not_mem (e : Event) {pairs : List (String × String)} {name : String}
    (h : name ∉ pairs.map (·.1)) :
    (e.withContexts pairs).context.lookup name = e.context.lookup name := by
  unfold withContexts
  induction pairs generalizing e with
  | nil => rfl
  | cons pair pairs ih =>
    rw [List.map_cons, List.mem_cons, not_or] at h
    rw [List.foldl_cons, ih (e.withContext pair.1 pair.2) h.2, lookup_withContext, if_neg h.1]

theorem lookup_withContexts (e : Event) {pairs : List (String × String)}
    (distinct : (pairs.map (·.1)).Nodup) {pair : String × String} (h : pair ∈ pairs) :
    (e.withContexts pairs).context.lookup pair.1 = some pair.2 := by
  induction pairs generalizing e with
  | nil => cases h
  | cons first pairs ih =>
    rw [List.map_cons, List.nodup_cons] at distinct
    change ((e.withContext first.1 first.2).withContexts pairs).context.lookup pair.1 = _
    rcases List.mem_cons.mp h with rfl | h
    · rw [lookup_withContexts_of_not_mem _ distinct.1, lookup_withContext, if_pos rfl]
    · exact ih (e.withContext first.1 first.2) distinct.2 h

/-! ## Messages -/

theorem cut_of_le {most : Nat} {message : String} (h : message.utf8ByteSize ≤ most) :
    cut most message = message :=
  if_pos h

/-- A text that does not end in a dot is only had by not cutting it. -/
theorem cut_ne {most : Nat} {message text : String} (other : message ≠ text)
    (last : text.toList.getLast? ≠ some '.') : cut most message ≠ text := by
  unfold cut
  split
  · exact other
  · rintro rfl
    apply last
    rw [String.toList_append, show "...".toList = ['.', '.', '.'] by decide]
    simp

end Event

theorem Limits.le_maxMessageLength {limits : Limits} {profile : String}
    (admitted : limits.problem? profile = none) : 64 ≤ limits.maxMessageLength.toNat :=
  UInt64.le_iff_toNat_le.mp (problem?_eq_none_iff.mp admitted).le_message

end Frontend

import Mathlib.Data.List.DropRight
import Frontend.Logging.State
import Frontend.Proofs.Logging.Dispatch
import Frontend.Proofs.Position

/-!
# What a memory log keeps

A memory log behind a level is sent events and cleared, in any order. What it holds is always the
newest of the events that were let through since it was cleared, as many as it has room for
(`toList_run`).

`runChecked` does the same to a plain list and in machine words, where a difference may be negative
and more events may be asked to go than are there. A capacity that a build admits leaves no room for
that (`runChecked_eq`).
-/

set_option autoImplicit false

namespace Frontend

namespace MemoryLog

/-! ## Calls -/

/-- A call to a memory log behind a level. -/
inductive Call where
  | send (e : Event)
  | clear
  deriving DecidableEq

/-- The event that is sent. -/
def Call.event? : Call → Option Event
  | .send e => some e
  | .clear => none

/-- The log after a call. -/
def perform (capacity : Nat) (most : Level) (m : MemoryLog) : Call → MemoryLog
  | .send e => m.receive capacity most e
  | .clear => m.clear

def run (capacity : Nat) (most : Level) (calls : List Call) (m : MemoryLog) : MemoryLog :=
  calls.foldl (perform capacity most) m

theorem run_append (capacity : Nat) (most : Level) (calls more : List Call) (m : MemoryLog) :
    run capacity most (calls ++ more) m = run capacity most more (run capacity most calls m) := by
  rw [run, List.foldl_append]
  rfl

theorem run_concat (capacity : Nat) (most : Level) (calls : List Call) (call : Call)
    (m : MemoryLog) :
    run capacity most (calls ++ [call]) m = (run capacity most calls m).perform
      capacity most call :=
  run_append capacity most calls [call] m

/-- The events that are sent after the last call that clears the log. -/
def sinceClear (calls : List Call) : List Event :=
  (calls.rtakeWhile (· ≠ .clear)).filterMap Call.event?

@[simp] theorem sinceClear_send (calls : List Call) (e : Event) :
    sinceClear (calls ++ [.send e]) = sinceClear calls ++ [e] := by
  rw [sinceClear, List.rtakeWhile_concat_pos _ _ _ (by simp), List.filterMap_append]
  rfl

@[simp] theorem sinceClear_clear (calls : List Call) : sinceClear (calls ++ [.clear]) = [] := by
  rw [sinceClear, List.rtakeWhile_concat_neg _ _ _ (by simp)]
  rfl

/-! ## The newest events -/

theorem rtake_concat {capacity : Nat} (pos : 0 < capacity) (events : List Event) (e : Event) :
    (events ++ [e]).rtake capacity =
      (events.rtake capacity).drop ((events.rtake capacity).length + 1 - capacity) ++ [e] := by
  have shorter : events.length + 1 - capacity ≤ events.length := by omega
  have dropped : events.length - capacity +
    (events.length - (events.length - capacity) + 1 - capacity) =
      events.length + 1 - capacity := by omega
  rw [List.rtake, List.rtake, List.length_append, List.length_singleton, List.length_drop,
    List.drop_drop, dropped, List.drop_append_of_le_length shorter]

theorem toList_run {capacity : Nat} (pos : 0 < capacity) (most : Level) (calls : List Call) :
    (run capacity most calls {}).toList = ((sinceClear calls).filter (·.level.within most)).rtake
    capacity := by
  induction calls using List.reverseRecOn with
  | nil => simp [run, toList, sinceClear, List.rtake]
  | append_singleton calls call ih =>
    rw [run_concat]
    cases call with
    | clear => simp [perform]
    | send e =>
      rw [perform, receive, sinceClear_send, List.filter_append]
      by_cases admits : e.level.within most
      · have kept : [e].filter (·.level.within most) = [e] := by simp [admits]
        rw [if_pos admits, toList_push, ih, kept, rtake_concat pos]
      · have lost : [e].filter (·.level.within most) = [] := by simp [admits]
        rw [if_neg admits, ih, lost, List.append_nil]

theorem size_run_le {capacity : Nat} (pos : 0 < capacity) (most : Level) (calls : List Call) :
    (run capacity most calls {}).size ≤ capacity := by
  rw [size_eq_length, toList_run pos, List.rtake, List.length_drop]
  omega

/-- Every event has one of the four levels. -/
theorem summary_total (m : MemoryLog) :
    m.summary.errors + m.summary.warnings + m.summary.infos + m.summary.debugs =
      m.summary.total := by
  have counted (events : List Event) :
    events.countP (·.level = .error) + events.countP (·.level = .warning) +
      events.countP (·.level = .info) + events.countP (·.level = .debug) = events.length := by
    induction events with
    | nil => rfl
    | cons e events ih =>
      simp only [List.countP_cons, List.length_cons]
      cases e.level <;> simp <;> omega
  rw [summary, size_eq_length]
  exact counted m.toList

/-! ## Checked steps -/

/-- A list without its first `n` elements, which must be there. -/
def drain (n : UInt64) (events : List Event) : Except Fault (List Event) :=
  if n.toNat ≤ events.length then .ok (events.drop n.toNat) else .error .badSlice

/-- One more event. When the list is full, it is worked out how many go first, and these are
drained. -/
def pushChecked (capacity : UInt64) (events : List Event) (e : Event) : Except Fault (List Event) :=
  if capacity.toNat ≤ events.length then do
    let excess ← Word.sub64 (.ofNat events.length) capacity
    let leaving ← Word.add64 excess 1
    let kept ← drain leaving events
    return kept ++ [e]
  else .ok (events ++ [e])

def performChecked (capacity : UInt64) (most : Level) (events : List Event) :
    Call → Except Fault (List Event)
  | .send e => if e.level.within most then pushChecked capacity events e else .ok events
  | .clear => .ok []

def runChecked (capacity : UInt64) (most : Level) (calls : List Call) (events : List Event) :
    Except Fault (List Event) :=
  calls.foldlM (performChecked capacity most) events

/-- A list that is full, and not more than that, loses one event. -/
theorem pushChecked_eq {capacity : UInt64} (pos : 0 < capacity.toNat) {events : List Event}
    (fits : events.length ≤ capacity.toNat) (e : Event) :
    pushChecked capacity events e =
      .ok (events.drop (events.length + 1 - capacity.toNat) ++ [e]) := by
  unfold pushChecked
  by_cases full : capacity.toNat ≤ events.length
  · have length : events.length = capacity.toNat := Nat.le_antisymm fits full
    have words : UInt64.ofNat events.length = capacity := by rw [length, UInt64.ofNat_toNat]
    have none : Word.sub64 capacity capacity = .ok 0 := by
      rw [Word.sub64, if_pos (UInt64.le_refl capacity), UInt64.sub_self]
    have one : Word.add64 0 1 = .ok 1 := by decide
    have drained : drain 1 events = .ok (events.drop 1) := by
      change (if 1 ≤ events.length then _ else _) = _
      rw [if_pos (by omega)]
      rfl
    rw [if_pos full, words, none, show events.length + 1 - capacity.toNat = 1 by omega]
    simp only [bind, Except.bind, one, drained]
    rfl
  · rw [if_neg full, show events.length + 1 - capacity.toNat = 0 by omega, List.drop_zero]

example (e : Event) : pushChecked 0 [] e = .error .badSlice := rfl

theorem performChecked_eq {capacity : UInt64} (pos : 0 < capacity.toNat) (most : Level)
    {m : MemoryLog} (fits : m.size ≤ capacity.toNat) (call : Call) :
    performChecked capacity most m.toList call =
      .ok (m.perform capacity.toNat most call).toList := by
  cases call with
  | clear => rfl
  | send e =>
    rw [performChecked, perform, receive]
    by_cases admits : e.level.within most
    · rw [size_eq_length] at fits
      rw [if_pos admits, if_pos admits, pushChecked_eq pos fits, toList_push]
    · rw [if_neg admits, if_neg admits]

theorem runChecked_eq {capacity : UInt64} (pos : 0 < capacity.toNat) (most : Level)
    (calls : List Call) :
    runChecked capacity most calls [] = .ok (run capacity.toNat most calls {}).toList := by
  induction calls using List.reverseRecOn with
  | nil => rfl
  | append_singleton calls call ih =>
    have step := performChecked_eq pos most (size_run_le pos most calls) call
    rw [runChecked, List.foldlM_append]
    change runChecked capacity most calls [] >>= _ = _
    rw [ih, run_concat]
    simp only [bind, Except.bind, List.foldlM_cons, List.foldlM_nil, step]
    rfl

end MemoryLog

theorem Limits.logBufferSize_bounds {limits : Limits} {profile : String}
    (admitted : limits.problem? profile = none) :
    100 ≤ limits.logBufferSize.toNat ∧ limits.logBufferSize.toNat ≤ 100000 := by
  have bounds := problem?_eq_none_iff.mp admitted
  exact ⟨UInt64.le_iff_toNat_le.mp bounds.le_buffer, UInt64.le_iff_toNat_le.mp bounds.buffer_le⟩

/-- A service over the memory log lets events through to it in the same way. -/
theorem Logging.memory_deliverAll (limits : Limits) (most : Level) (events : List Event)
    (s : Logging) :
    (s.deliverAll limits ⟨.memory, most⟩ events).memory =
      s.memory.run limits.logBufferSize.toNat most (events.map .send) := by
  have step (e : Event) (s : Logging) : (s.deliver limits ⟨.memory, most⟩ e).memory =
      s.memory.perform limits.logBufferSize.toNat most (.send e) := by
    rw [deliver, Service.admits, MemoryLog.perform, MemoryLog.receive]
    by_cases admits : e.level.within most
    · rw [if_pos admits, if_pos admits]
    · rw [if_neg admits, if_neg admits]
  unfold deliverAll MemoryLog.run
  induction events generalizing s with
  | nil => rfl
  | cons e events ih => rw [List.foldl_cons, List.map_cons, List.foldl_cons, ih, step]

namespace MemoryLog

/-- Whatever is sent and however often the log is cleared, under limits that a build admits nothing
fails, and the log holds the newest events that were let through since it was cleared last. The
counts by level add up to its size, which the capacity bounds. A service over the log that is given
more events does to it what sending them does. -/
theorem run_newest {limits : Limits} {profile : String} (admitted : limits.problem? profile = none)
    (most : Level) (calls : List Call) :
    let capacity := limits.logBufferSize.toNat
    let m := run capacity most calls {}
    let sent := (sinceClear calls).filter (·.level.within most)
    runChecked limits.logBufferSize most calls [] = .ok m.toList ∧
      m.toList = sent.rtake (min capacity sent.length) ∧
      m.summary.errors + m.summary.warnings + m.summary.infos + m.summary.debugs = m.summary.total ∧
      m.summary.total = m.size ∧ m.size ≤ capacity ∧
      ∀ (s : Logging) (events : List Event), s.memory = m →
        (s.deliverAll limits ⟨.memory, most⟩ events).memory =
          run capacity most (calls ++ events.map .send) {} := by
  obtain ⟨least, -⟩ := Limits.logBufferSize_bounds admitted
  have pos : 0 < limits.logBufferSize.toNat := by omega
  refine ⟨runChecked_eq pos most calls, ?_, summary_total _, rfl, size_run_le pos most calls, ?_⟩
  · rw [toList_run pos, List.rtake, List.rtake]
    congr 1
    omega
  · intro s events same
    rw [Logging.memory_deliverAll, same, run_append]

/-- Of three warnings and a hundred errors a log for a hundred events keeps the errors. What was
sent before the log was cleared is not there, and neither is what matters less. -/
theorem run_newest_full :
    let limits : Limits := ⟨1, 1, 16, 100, 64⟩
    let event (level : Level) : Call := .send ⟨level, .internalError, "", none, []⟩
    let calls := event .error :: .clear :: List.replicate 3 (event .warning) ++
      List.replicate 100 (event .error) ++
      [event .debug]
    limits.problem? "development" = none ∧
      runChecked 100 .info calls [] =
        .ok (List.replicate 100 ⟨.error, .internalError, "", none, []⟩) := by
  intro limits event calls
  have admitted : limits.problem? "development" = none := by decide
  obtain ⟨checked, newest, -⟩ := run_newest admitted .info calls
  refine ⟨admitted, checked.trans (congrArg Except.ok (newest.trans ?_))⟩
  decide +kernel

end MemoryLog

end Frontend

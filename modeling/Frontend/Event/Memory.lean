import Frontend.Event.Basic

/-!
# Events kept in memory

A memory log keeps events in the order they came, and at most as many as its capacity: when it is
full, the oldest make room for the next one. `MemoryLog.receive` is the log behind a level, which
passes over events that matter less.
-/

set_option autoImplicit false

namespace Frontend

/-- Events in the order they came. The oldest are forgotten by moving the mark `first` past them;
their cells are given back when they outnumber the others. -/
structure MemoryLog where
  cells : Array Event := #[]
  first : Nat := 0
  first_le : first ≤ cells.size := by exact Nat.zero_le _

/-- How many events a memory log holds, all of them and by level. -/
structure MemoryLog.Summary where
  total : Nat
  errors : Nat
  warnings : Nat
  infos : Nat
  debugs : Nat
  deriving DecidableEq, Repr

namespace MemoryLog

/-- The events, oldest first. -/
def toList (m : MemoryLog) : List Event := m.cells.toList.drop m.first

/-- The number of events. -/
def size (m : MemoryLog) : Nat := m.cells.size - m.first

/-- The events without the oldest `n`. -/
def forget (n : Nat) (m : MemoryLog) : MemoryLog :=
  let first := m.first + n
  if h : m.cells.size < 2 * first then { cells := m.cells.extract first }
  else { cells := m.cells, first := first, first_le := by omega }

/-- One more event after the others. -/
def add (m : MemoryLog) (e : Event) : MemoryLog where
  cells := m.cells.push e
  first := m.first
  first_le := by
    have := m.first_le
    simp only [Array.size_push]
    omega

/-- One more event; when the log is full, the oldest go first. -/
def push (capacity : Nat) (m : MemoryLog) (e : Event) : MemoryLog :=
  (m.forget (m.size + 1 - capacity)).add e

/-- One more event, if it matters enough. -/
def receive (capacity : Nat) (most : Level) (m : MemoryLog) (e : Event) : MemoryLog :=
  if e.level.within most then m.push capacity e else m

/-- The log when all events are forgotten. -/
def clear (_ : MemoryLog) : MemoryLog := {}

theorem size_eq_length (m : MemoryLog) : m.size = m.toList.length := by
  simp [size, toList]

@[simp]
theorem toList_forget (m : MemoryLog) (n : Nat) : (m.forget n).toList = m.toList.drop n := by
  unfold forget toList
  simp only
  split
  · simp [Array.toList_extract, List.take_of_length_le, List.drop_drop]
  · simp [List.drop_drop]

@[simp]
theorem toList_add (m : MemoryLog) (e : Event) : (m.add e).toList = m.toList ++ [e] := by
  have := m.first_le
  simp only [toList, add, Array.toList_push]
  rw [List.drop_append_of_le_length (by simpa using this)]

@[simp]
theorem toList_clear (m : MemoryLog) : m.clear.toList = [] := rfl

/-- What is kept after one more event: the others, without those that are too many, and the new
one. -/
theorem toList_push (capacity : Nat) (m : MemoryLog) (e : Event) :
    (m.push capacity e).toList = m.toList.drop (m.toList.length + 1 - capacity) ++ [e] := by
  simp [push, size_eq_length]

/-! ## Questions -/

/-- The errors. -/
def errors (m : MemoryLog) : List Event := m.toList.filter (·.level = .error)

/-- The events with a code. -/
def withCode (m : MemoryLog) (code : Code) : List Event := m.toList.filter (·.code = code)

/-- Whether there is an error with a code. -/
def hasError (m : MemoryLog) (code : Code) : Bool :=
  m.toList.any fun e => e.level = .error && e.code = code

/-- Whether there is a success with a code. -/
def hasSuccess (m : MemoryLog) (code : Code) : Bool :=
  m.toList.any fun e => e.level = .info && e.code = code

/-- The number of events at a level. -/
def count (m : MemoryLog) (level : Level) : Nat := m.toList.countP (·.level = level)

/-- The counts of a memory log. -/
def summary (m : MemoryLog) : Summary where
  total := m.size
  errors := m.count .error
  warnings := m.count .warning
  infos := m.count .info
  debugs := m.count .debug

/-- Whether there is any error. -/
def Summary.hasErrors (s : Summary) : Bool := 0 < s.errors

end MemoryLog

end Frontend

import Mathlib.Data.List.DropRight

/-!
# Lines and their columns

* `lastLine`, `firstLine`: the two parts of the line around a place, one from the text before the
  place and one from the text after it.
* `width`: how many columns a line takes when a tab fills up to the next multiple of four.
* `expand`: the line as it is seen, with spaces for the tabs, so that columns are indices
  (`length_expandFrom`, `take_drop_expand`).

None of them mentions positions.
-/

set_option autoImplicit false

namespace Frontend.Text

/-! ## The line around a place -/

/-- What stands after the last newline. -/
def lastLine (text : List Char) : List Char := text.rtakeWhile (· ≠ '\n')

/-- What stands before the first newline. -/
def firstLine (text : List Char) : List Char := text.takeWhile (· ≠ '\n')

theorem lastLine_concat_newline (text : List Char) : lastLine (text ++ ['\n']) = [] :=
  List.rtakeWhile_concat_neg _ text '\n' (by decide)

theorem lastLine_concat {c : Char} (h : c ≠ '\n') (text : List Char) :
    lastLine (text ++ [c]) = lastLine text ++ [c] :=
  List.rtakeWhile_concat_pos _ text c (by simpa using h)

theorem lastLine_append_of_not_mem (text : List Char) {more : List Char} (h : '\n' ∉ more) :
    lastLine (text ++ more) = lastLine text ++ more := by
  induction more using List.reverseRecOn with
  | nil => rw [List.append_nil, List.append_nil]
  | append_singleton more c ih =>
    obtain ⟨hmore, hc⟩ := not_or.mp (fun found => h (List.mem_append.mpr found))
    have other : c ≠ '\n' := fun newline => hc (newline ▸ List.mem_singleton_self c)
    rw [← List.append_assoc, lastLine_concat other, ih hmore, List.append_assoc]

theorem lastLine_append_newline (text rest : List Char) :
    lastLine (text ++ '\n' :: rest) = lastLine rest := by
  induction rest using List.reverseRecOn with
  | nil => rw [lastLine_concat_newline]; rfl
  | append_singleton rest c ih =>
    rw [← List.cons_append, ← List.append_assoc]
    by_cases hc : c = '\n'
    · rw [hc, lastLine_concat_newline, lastLine_concat_newline]
    · rw [lastLine_concat hc, lastLine_concat hc, ih]

theorem lastLine_of_not_mem {line : List Char} (h : '\n' ∉ line) : lastLine line = line :=
  lastLine_append_of_not_mem [] h

theorem firstLine_append_of_not_mem {line : List Char} (h : '\n' ∉ line) (rest : List Char) :
    firstLine (line ++ rest) = line ++ firstLine rest := by
  apply List.takeWhile_append_of_pos
  intro c hc
  exact decide_eq_true (fun newline : c = '\n' => h (newline ▸ hc))

theorem firstLine_line {line : List Char} (h : '\n' ∉ line) (rest : List Char) :
    firstLine (line ++ '\n' :: rest) = line := by
  rw [firstLine_append_of_not_mem h]
  exact List.append_nil line

theorem firstLine_of_not_mem {line : List Char} (h : '\n' ∉ line) : firstLine line = line := by
  have whole := firstLine_append_of_not_mem h []
  rw [List.append_nil] at whole
  rw [whole]
  exact List.append_nil line

/-! ## Columns -/

/-- The column after one more character, counted from zero: a tab fills up to the next multiple of
four. -/
def columnAfter (column : Nat) (c : Char) : Nat :=
  if c = '\t' then 4 * (column / 4 + 1) else column + 1

/-- The column after a run of characters. -/
def widthFrom (column : Nat) (line : List Char) : Nat := line.foldl columnAfter column

/-- How many columns a line takes. -/
def width (line : List Char) : Nat := widthFrom 0 line

theorem lt_columnAfter (column : Nat) (c : Char) : column < columnAfter column c := by
  unfold columnAfter
  split <;> omega

theorem widthFrom_append (column : Nat) (xs ys : List Char) :
    widthFrom column (xs ++ ys) = widthFrom (widthFrom column xs) ys := List.foldl_append

theorem width_append (xs ys : List Char) : width (xs ++ ys) = widthFrom (width xs) ys :=
  widthFrom_append 0 xs ys

theorem width_concat (line : List Char) (c : Char) :
    width (line ++ [c]) = columnAfter (width line) c :=
  width_append line [c]

/-- Every character takes at least one column. -/
theorem add_length_le_widthFrom (column : Nat) (line : List Char) :
    column + line.length ≤ widthFrom column line := by
  induction line generalizing column with
  | nil => exact Nat.le_refl _
  | cons c line ih =>
    have step := lt_columnAfter column c
    have rest := ih (columnAfter column c)
    change _ ≤ widthFrom (columnAfter column c) line
    rw [List.length_cons]
    omega

theorem length_le_width (line : List Char) : line.length ≤ width line := by
  have h := add_length_le_widthFrom 0 line
  rw [Nat.zero_add] at h
  exact h

/-! ## Lines as they are seen -/

/-- A line that starts at a column, with every tab replaced by spaces up to the next stop. -/
def expandFrom (column : Nat) : List Char → List Char
  | [] => []
  | c :: cs =>
    (if c = '\t' then List.replicate (4 - column % 4) ' ' else [c]) ++
    expandFrom (columnAfter column c) cs

/-- A line with every tab replaced by spaces up to the next stop. -/
def expand (line : List Char) : List Char := expandFrom 0 line

theorem length_expandFrom (column : Nat) (line : List Char) :
    column + (expandFrom column line).length = widthFrom column line := by
  induction line generalizing column with
  | nil => rfl
  | cons c line ih =>
    change _ = widthFrom (columnAfter column c) line
    rw [← ih, expandFrom, List.length_append, ← Nat.add_assoc]
    congr 1
    unfold columnAfter
    split
    · rw [List.length_replicate]
      omega
    · rfl

theorem length_expand (line : List Char) : (expand line).length = width line := by
  have h := length_expandFrom 0 line
  rw [Nat.zero_add] at h
  exact h

theorem expandFrom_append (column : Nat) (xs ys : List Char) :
    expandFrom column (xs ++ ys) = expandFrom column xs ++ expandFrom (widthFrom column xs) ys := by
  induction xs generalizing column with
  | nil => rfl
  | cons c xs ih =>
    rw [List.cons_append, expandFrom, ih, expandFrom, List.append_assoc]
    rfl

theorem expandFrom_of_not_mem (column : Nat) {line : List Char} (h : '\t' ∉ line) :
    expandFrom column line = line := by
  induction line generalizing column with
  | nil => rfl
  | cons c line ih =>
    obtain ⟨hc, hline⟩ := List.ne_and_not_mem_of_not_mem_cons h
    rw [expandFrom, if_neg hc.symm, ih _ hline]
    rfl

theorem widthFrom_of_not_mem (column : Nat) {line : List Char} (h : '\t' ∉ line) :
    widthFrom column line = column + line.length := by
  rw [← length_expandFrom, expandFrom_of_not_mem column h]

/-- A part of a line without tabs is seen at the column where it starts. -/
theorem take_drop_expand (left : List Char) {part : List Char} (h : '\t' ∉ part)
    (right : List Char) :
    ((expand (left ++ (part ++ right))).drop (width left)).take part.length = part := by
  rw [expand, expandFrom_append, ← length_expand]
  change List.take _ (List.drop _ (expand left ++ expandFrom (width left) (part ++ right))) = _
  rw [List.drop_left, expandFrom_append, expandFrom_of_not_mem _ h, List.take_left]

end Frontend.Text

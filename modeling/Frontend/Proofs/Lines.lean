import Mathlib.Data.List.DropRight
import Frontend.Proofs.Excerpt

/-!
# Lines by number

The pieces of a text are those that splitting at newlines gives (`pieces_eq_splitOn`), one more than
there are newlines. Their byte offsets lie inside the text, and only the first is zero, so the
newline before a line is always a byte that can be stepped back over. With that, finding a line by
its offsets is splitting (`cut_exact`).
-/

set_option autoImplicit false

namespace Frontend.Excerpt

open Text (byteSize byteSize_append byteSize_cons)

theorem pieces_eq_splitOn (text : List Char) : pieces text = text.splitOn '\n' := by
  induction text using lines_induction with
  | last line hline => rw [pieces_last hline, List.splitOn_eq_singleton hline]
  | more line rest hline ih =>
    rw [pieces_line hline, List.splitOn_append_cons_self, List.splitOn_eq_singleton hline, ih]
    rfl

theorem length_startsFrom (text : List Char) (origin : Nat) :
    (startsFrom origin text).length = text.count '\n' := by
  induction text generalizing origin with
  | nil => rfl
  | cons c text ih =>
    rw [startsFrom]
    by_cases h : c = '\n'
    · rw [if_pos h, List.length_cons, ih, h, List.count_cons_self]
    · rw [if_neg h, ih, List.count_cons_of_ne h]

/-- A line starts after a newline, and not after the end of the text. -/
theorem startsFrom_bounds {text : List Char} {origin start : Nat}
    (h : start ∈ startsFrom origin text) :
    origin < start ∧ start ≤ origin + byteSize text := by
  induction text generalizing origin with
  | nil => cases h
  | cons c text ih =>
    have size := c.utf8Size_pos
    rw [startsFrom] at h
    rw [byteSize_cons]
    by_cases newline : c = '\n'
    · rw [if_pos newline] at h
      rcases List.mem_cons.mp h with rfl | h
      · omega
      · have later := ih h
        omega
    · rw [if_neg newline] at h
      have later := ih h
      omega

theorem length_starts (text : List Char) : (starts text).length = 1 + text.count '\n' := by
  rw [starts, List.length_cons, length_startsFrom, Nat.add_comm]

theorem length_pieces_eq_starts (text : List Char) : (pieces text).length = (starts text).length :=
  length_pieces text 0

theorem start_le {text : List Char} {start : Nat} (h : start ∈ starts text) :
    start ≤ byteSize text := by
  rcases List.mem_cons.mp h with rfl | later
  · exact Nat.zero_le _
  · have bounds := startsFrom_bounds later
    omega

/-- A number from one up to the number of lines is that of a piece. -/
theorem line?_eq_some {text : List Char} {number : Nat} (first : 1 ≤ number)
    (last : number ≤ (starts text).length) :
    ∃ piece, (text.splitOn '\n')[number - 1]? = some piece ∧
      line? (pieces text) number = some (piece.rdropWhile (· = '\r')) := by
  obtain ⟨n, rfl⟩ := Nat.exists_eq_add_of_le' first
  have inside : n < (text.splitOn '\n').length := by
    rw [← pieces_eq_splitOn, length_pieces_eq_starts]
    omega
  have found := List.getElem?_eq_getElem inside
  refine ⟨_, found, ?_⟩
  rw [line?, pieces_eq_splitOn, found]
  rfl

theorem line?_eq_none {text : List Char} {number : Nat}
    (h : ¬(1 ≤ number ∧ number ≤ (starts text).length)) :
    line? (pieces text) number = none := by
  cases number with
  | zero => rfl
  | succ n =>
    have outside : (pieces text)[n]? = none := by
      rw [List.getElem?_eq_none_iff, length_pieces_eq_starts]
      omega
    rw [line?, outside, Option.map_none]

/-- There is one line more than there are newlines. Lines start inside the text, and all but the
first one after a byte that can be stepped back over. The line with a number is found by its start
and the next one without any failure, and it is the piece with this number between the newlines,
without the carriage returns at its end. No other number has a line. The pieces with newlines
between them are the text. -/
theorem cut_exact (text : List Char) :
    (starts text).length = 1 + text.count '\n' ∧ (pieces text).length = (starts text).length ∧
      (∀ start ∈ starts text, start ≤ byteSize text) ∧ (∀ start ∈ (starts text).tail, 0 < start) ∧
      (∀ number : UInt32, cut text number.toNat = .ok (line? (pieces text) number.toNat) ∧
        (1 ≤ number.toNat ∧ number.toNat ≤ (starts text).length →
          ∃ piece, (text.splitOn '\n')[number.toNat - 1]? = some piece ∧
            cut text number.toNat = .ok (some (piece.rdropWhile (· = '\r')))) ∧
        (¬(1 ≤ number.toNat ∧ number.toNat ≤ (starts text).length) →
          cut text number.toNat = .ok none)) ∧
      pieces text = text.splitOn '\n' ∧ ['\n'].intercalate (pieces text) = text := by
  refine ⟨length_starts text, length_pieces_eq_starts text, fun start => start_le,
    fun start later => (startsFrom_bounds later).1, fun number => ⟨cut_eq_line? text _, ?_, ?_⟩,
    pieces_eq_splitOn text, ?_⟩
  · rintro ⟨first, last⟩
    obtain ⟨piece, found, line⟩ := line?_eq_some first last
    exact ⟨piece, found, by rw [cut_eq_line?, line]⟩
  · intro outside
    rw [cut_eq_line?, line?_eq_none outside]
  · rw [pieces_eq_splitOn, List.intercalate_splitOn]

end Frontend.Excerpt

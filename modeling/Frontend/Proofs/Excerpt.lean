import Frontend.Excerpt
import Frontend.Proofs.Text.Slice

/-!
# Lines as slices

A text is a line, or a line, a newline and another text (`lines_induction`), and its pieces follow
this structure. A line can be found in another way: by the byte offsets at which the lines start, as
the slice from one of them up to the newline before the next (`cut`). Both ways agree on every text
and every number, and the slices are always possible (`cut_eq_line?`).
-/

set_option autoImplicit false

namespace Frontend.Excerpt

open Text (byteSize byteSize_append byteSize_cons byteSize_nil)

/-! ## The structure of texts -/

theorem pieces_cons_newline (text : List Char) : pieces ('\n' :: text) = [] :: pieces text := rfl

theorem pieces_cons_of_ne {c : Char} (h : c ≠ '\n') {text line : List Char}
    {others : List (List Char)} (found : pieces text = line :: others) :
    pieces (c :: text) = (c :: line) :: others := by
  unfold pieces at found ⊢
  simp only [List.foldr_cons, found, if_neg h]

theorem pieces_last {line : List Char} (h : '\n' ∉ line) : pieces line = [line] := by
  induction line with
  | nil => rfl
  | cons c line ih =>
    obtain ⟨hc, hline⟩ := List.ne_and_not_mem_of_not_mem_cons h
    exact pieces_cons_of_ne hc.symm (ih hline)

theorem pieces_line {line : List Char} (h : '\n' ∉ line) (rest : List Char) :
    pieces (line ++ '\n' :: rest) = line :: pieces rest := by
  induction line with
  | nil => exact pieces_cons_newline rest
  | cons c line ih =>
    obtain ⟨hc, hline⟩ := List.ne_and_not_mem_of_not_mem_cons h
    exact pieces_cons_of_ne hc.symm (ih hline)

theorem lines_induction {P : List Char → Prop} (last : ∀ line, '\n' ∉ line → P line)
    (more : ∀ line rest, '\n' ∉ line → P rest → P (line ++ '\n' :: rest)) (text : List Char) :
    P text := by
  induction hn : text.length using Nat.strongRecOn generalizing text with
  | ind n ih =>
    by_cases h : '\n' ∈ text
    · obtain ⟨line, rest, rfl, hline⟩ := List.eq_append_cons_of_mem h
      exact more line rest hline (ih rest.length (by rw [← hn]; simp; omega) rest rfl)
    · exact last text h

/-! ## Offsets of lines -/

/-- The byte offsets right after the newlines of a text that itself starts at byte `origin`. -/
def startsFrom (origin : Nat) : List Char → List Nat
  | [] => []
  | c :: cs =>
    if c = '\n' then (origin + 1) :: startsFrom (origin + 1) cs
      else startsFrom (origin + c.utf8Size) cs

/-- The byte offsets at which the lines of a text start. -/
def starts (text : List Char) : List Nat := 0 :: startsFrom 0 text

theorem startsFrom_last {line : List Char} (h : '\n' ∉ line) (origin : Nat) :
    startsFrom origin line = [] := by
  induction line generalizing origin with
  | nil => rfl
  | cons c line ih =>
    obtain ⟨hc, hline⟩ := List.ne_and_not_mem_of_not_mem_cons h
    rw [startsFrom, if_neg hc.symm, ih hline]

theorem startsFrom_line {line : List Char} (h : '\n' ∉ line) (origin : Nat) (rest : List Char) :
    startsFrom origin (line ++ '\n' :: rest) =
      (origin + byteSize line + 1) :: startsFrom (origin + byteSize line + 1) rest := by
  induction line generalizing origin with
  | nil => rfl
  | cons c line ih =>
    obtain ⟨hc, hline⟩ := List.ne_and_not_mem_of_not_mem_cons h
    rw [List.cons_append, startsFrom, if_neg hc.symm, ih hline, byteSize_cons, Nat.add_assoc origin]

/-! ## Lines cut out at their offsets -/

/-- Where a line ends: before the newline that the next one starts after, or at the end of the
text. -/
def stop (starts : List Nat) (size n : Nat) : Nat :=
  match starts[n + 1]? with
  | some next => next - 1
  | none => size

/-- The line with a given number, counted from one, cut out of the text at the offsets of the
lines. -/
def cut (text : List Char) (number : Nat) : Except Fault (Option (List Char)) :=
  match number with
  | 0 => .ok none
  | n + 1 =>
    match (starts text)[n]? with
    | none => .ok none
    | some start =>
      match Text.sliceBytes start (stop (starts text) (byteSize text) n) text with
      | some line => .ok (some (trimReturns line))
      | none => .error .badSlice

theorem length_pieces (text : List Char) (origin : Nat) :
    (pieces text).length = (startsFrom origin text).length + 1 := by
  induction text using lines_induction generalizing origin with
  | last line hline => rw [pieces_last hline, startsFrom_last hline]; rfl
  | more line rest hline ih =>
    rw [pieces_line hline, startsFrom_line hline, List.length_cons, List.length_cons, ih]

theorem slice_piece {text : List Char} (done : List Char) {n : Nat} {line : List Char}
    (h : (pieces text)[n]? = some line) :
    ∃ start, (byteSize done :: startsFrom (byteSize done) text)[n]? = some start ∧
      Text.sliceBytes start (stop (byteSize done :: startsFrom (byteSize done) text)
        (byteSize (done ++ text)) n) (done ++ text) = some line := by
  induction text using lines_induction generalizing done n with
  | last whole hwhole =>
    rw [pieces_last hwhole] at h
    rw [startsFrom_last hwhole]
    cases n with
    | succ n => cases h
    | zero =>
      cases h
      refine ⟨byteSize done, rfl, Text.sliceBytes_eq_some_iff.mpr ⟨done, [], ?_, rfl, ?_⟩⟩
      · rw [List.append_nil]
      · change _ = byteSize (done ++ line)
        rw [byteSize_append]
  | more first rest hfirst ih =>
    rw [pieces_line hfirst] at h
    rw [startsFrom_line hfirst]
    cases n with
    | zero =>
      cases h
      exact ⟨byteSize done, rfl,
        Text.sliceBytes_eq_some_iff.mpr ⟨done, '\n' :: rest, rfl, rfl, rfl⟩⟩
    | succ n =>
      have moved : byteSize (done ++ first ++ ['\n']) = byteSize done + byteSize first + 1 := by
        rw [byteSize_append, byteSize_append]
        rfl
      have found := ih (done ++ first ++ ['\n']) h
      rw [moved] at found
      simp only [List.append_assoc, List.singleton_append] at found
      exact found

theorem cut_eq_line? (text : List Char) (number : Nat) :
    cut text number = .ok (line? (pieces text) number) := by
  cases number with
  | zero => rfl
  | succ n =>
    unfold cut line?
    cases hline : (pieces text)[n]? with
    | none =>
      have none : (starts text)[n]? = none := by
        rw [List.getElem?_eq_none_iff] at hline ⊢
        rw [length_pieces text 0] at hline
        exact hline
      simp only [none, hline, Option.map_none]
    | some line =>
      obtain ⟨start, hstart, slice⟩ := slice_piece [] hline
      have hstart' : (starts text)[n]? = some start := hstart
      have slice' : Text.sliceBytes start (stop (starts text) (byteSize text) n) text =
          some line := slice
      simp only [hstart', slice', hline, Option.map_some]

/-- A message with the line that it is about, which is cut out of the text. -/
def cutBlock (text : List Char) (span : Span) (message : String) : Except Fault String :=
  (cut text span.start.line.toNat).map fun found => block found span message

theorem cutBlock_eq_render (text : List Char) (span : Span) (message : String) :
    cutBlock text span message = .ok (render (pieces text) span message) := by
  rw [cutBlock, cut_eq_line?]
  rfl

end Frontend.Excerpt

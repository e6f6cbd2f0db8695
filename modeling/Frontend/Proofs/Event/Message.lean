import Frontend.Proofs.Event
import Frontend.Proofs.Text.Slice

/-!
# Messages that are cut

A message that is too long for a build is cut between two characters. `Text.fitBytes` goes forward
for this and takes characters as long as they fit, and no run of characters that fits is longer
(`Text.prefix_fitBytes`). One can also start at the limit and go back byte by byte until a character
starts there (`Text.walkBack`), and slice the message at this place. On the way the offset may have
to go below zero, and at the end the slice may be impossible. Neither happens: the start of a text
is always a place to stop at, and the last such place is the end of the run that fits. So both ways
give the same message (`Event.cutBack_eq`), and since no character has more than four bytes, three
steps back are enough.
-/

set_option autoImplicit false

namespace Frontend

namespace Text

/-! ## Runs of characters that fit -/

theorem byteSize_le_of_prefix {xs ys : List Char} (h : xs <+: ys) : byteSize xs ≤ byteSize ys := by
  obtain ⟨rest, rfl⟩ := h
  rw [byteSize_append]
  exact Nat.le_add_right _ _

theorem fitBytes_prefix (n : Nat) (cs : List Char) : fitBytes n cs <+: cs := by
  fun_induction fitBytes n cs with
  | case1 n => exact List.prefix_rfl
  | case2 n c cs fits ih => exact (List.prefix_cons_inj c).mpr ih
  | case3 n c cs wide => exact List.nil_prefix

theorem byteSize_fitBytes_le (n : Nat) (cs : List Char) : byteSize (fitBytes n cs) ≤ n := by
  fun_induction fitBytes n cs with
  | case1 n => exact Nat.zero_le n
  | case2 n c cs fits ih =>
    rw [byteSize_cons]
    omega
  | case3 n c cs wide => exact Nat.zero_le n

/-- A run at the head of a text that fits is a part of the one that is taken. -/
theorem prefix_fitBytes {n : Nat} {cs run : List Char} (h : run <+: cs) (fits : byteSize run ≤ n) :
    run <+: fitBytes n cs := by
  induction run generalizing n cs with
  | nil => exact List.nil_prefix
  | cons c run ih =>
    obtain ⟨rest, rfl⟩ := h
    rw [byteSize_cons] at fits
    rw [List.cons_append, fitBytes, if_pos (by omega)]
    exact (List.prefix_cons_inj c).mpr (ih (List.prefix_append run rest) (by omega))

theorem lt_byteSize_fitBytes {n : Nat} {cs : List Char} (large : n < byteSize cs) :
    n < byteSize (fitBytes n cs) + 4 := by
  fun_induction fitBytes n cs with
  | case1 n => cases large
  | case2 n c cs fits ih =>
    rw [byteSize_cons] at large ⊢
    have rest := ih (by omega)
    omega
  | case3 n c cs wide =>
    -- the next character needs more than what is left over
    have widest := c.utf8Size_le_four
    omega

/-! ## Boundaries -/

/-- Whether a byte offset is at an end of a text, or the byte there is the first one of a
character. -/
def isBoundary (text : String) (offset : UInt64) : Bool :=
  String.Pos.Raw.isValid text ⟨offset.toNat⟩

theorem isBoundary_iff {text : String} {offset : UInt64} :
    isBoundary text offset ↔ ∃ run, run <+: text.toList ∧ byteSize run = offset.toNat := by
  rw [isBoundary, String.Pos.Raw.isValid_eq_true_iff, String.Pos.Raw.isValid_iff_exists_append]
  constructor
  · rintro ⟨run, rest, rfl, size⟩
    refine ⟨run.toList, ?_, ?_⟩
    · rw [String.toList_append]
      exact List.prefix_append _ _
    · rw [byteSize_toList]
      exact (congrArg String.Pos.Raw.byteIdx size).symm
  · rintro ⟨run, ⟨rest, whole⟩, size⟩
    refine ⟨String.ofList run, String.ofList rest, ?_, ?_⟩
    · rw [← String.ofList_append, whole, String.ofList_toList]
    · have encoded := byteSize_toList (String.ofList run)
      rw [String.toList_ofList, size] at encoded
      exact String.Pos.Raw.ext encoded

theorem isBoundary_zero (text : String) : isBoundary text 0 :=
  isBoundary_iff.mpr ⟨[], List.nil_prefix, rfl⟩

/-- The first boundary on the way back from a byte offset. -/
def walkBack (text : String) (stop : UInt64) : Except Fault UInt64 :=
  if isBoundary text stop then .ok stop
  else
    match _ : Word.sub64 stop 1 with
    | .ok before => walkBack text before
    | .error fault => .error fault
termination_by stop.toNat
decreasing_by
  have back := Word.toNat_of_sub64 ‹_›
  rw [UInt64.toNat_one] at back
  omega

/-- The way back ends, and not below zero, at the last boundary that does not lie after the
offset. -/
theorem exists_walkBack (text : String) (stop : UInt64) :
    ∃ place, walkBack text stop = .ok place ∧ isBoundary text place ∧ place.toNat ≤ stop.toNat ∧
      ∀ other, isBoundary text other → other.toNat ≤ stop.toNat → other.toNat ≤ place.toNat := by
  fun_induction walkBack text stop with
  | case1 stop boundary => exact ⟨stop, rfl, boundary, Nat.le_refl _, fun other _ le => le⟩
  | case2 stop inside before back ih =>
    obtain ⟨place, walked, boundary, le, last⟩ := ih
    have one := Word.toNat_of_sub64 back
    rw [UInt64.toNat_one] at one
    refine ⟨place, walked, boundary, by omega, fun other there reach => last other there ?_⟩
    have ne : other.toNat ≠ stop.toNat := fun same => inside (UInt64.toNat_inj.mp same ▸ there)
    omega
  | case3 stop inside fault back =>
    -- only from zero there is no step back, and zero is a boundary
    have small : stop.toNat < 1 := Word.lt_of_sub64 back
    have zero : stop = 0 := UInt64.toNat_inj.mp (Nat.lt_one_iff.mp small)
    exact absurd (zero ▸ isBoundary_zero text) inside

theorem walkBack_fitBytes (text : String) (stop : UInt64) :
    ∃ place, walkBack text stop = .ok place ∧
      place.toNat = byteSize (fitBytes stop.toNat text.toList) := by
  obtain ⟨place, walked, boundary, le, last⟩ := exists_walkBack text stop
  have fits := byteSize_fitBytes_le stop.toNat text.toList
  obtain ⟨stopped, size⟩ : ∃ offset : UInt64, offset.toNat =
      byteSize (fitBytes stop.toNat text.toList) :=
    ⟨.ofNat _, UInt64.toNat_ofNat_of_lt' (Nat.lt_of_le_of_lt fits stop.toNat_lt)⟩
  have reached :=
    last stopped (isBoundary_iff.mpr ⟨_, fitBytes_prefix stop.toNat text.toList, size.symm⟩)
      (by omega)
  obtain ⟨run, starts, runSize⟩ := isBoundary_iff.mp boundary
  have within := byteSize_le_of_prefix (prefix_fitBytes (n := stop.toNat) starts (by omega))
  exact ⟨place, walked, by omega⟩

/-- A text up to a byte offset. -/
def sliceTo (text : String) (stop : UInt64) : Except Fault String :=
  match sliceBytes 0 stop.toNat text.toList with
  | some covered => .ok (String.ofList covered)
  | none => .error .badSlice

theorem sliceTo_of_prefix {text : String} {run : List Char} {stop : UInt64}
    (h : run <+: text.toList) (size : stop.toNat = byteSize run) :
    sliceTo text stop = .ok (String.ofList run) := by
  obtain ⟨rest, whole⟩ := h
  have covered : sliceBytes 0 stop.toNat text.toList = some run :=
    sliceBytes_eq_some_iff.mpr ⟨[], rest, whole.symm, rfl, by rw [byteSize_nil, Nat.zero_add, size]⟩
  rw [sliceTo, covered]

end Text

namespace Event

open Text (byteSize byteSize_toList)

/-! ## Messages -/

/-- A message that fits into `most` bytes as it is; any other up to the first boundary on the way
back from there, and dots. -/
def cutBack (most : UInt64) (message : String) : Except Fault String :=
  if message.utf8ByteSize ≤ most.toNat then .ok message
  else do
    let stop ← Text.walkBack message most
    let kept ← Text.sliceTo message stop
    return kept ++ "..."

theorem cutBack_eq (most : UInt64) (message : String) :
    cutBack most message = .ok (cut most.toNat message) := by
  unfold cutBack cut
  split
  · rfl
  · obtain ⟨place, walked, size⟩ := Text.walkBack_fitBytes message most
    have kept := Text.sliceTo_of_prefix (Text.fitBytes_prefix most.toNat message.toList) size
    simp only [walked, kept, bind, Except.bind]
    rfl

/-- A character of three bytes stands across the limit. -/
example : (cutBack 5 "aé€€").toOption = some "aé..." := by decide +kernel

/-- The message of an event is what the way back from the limit gives, and nothing fails there. It
is the whole message if that fits. Otherwise it is the part of the message before the place where
the way back ends, and dots. This place is at most three bytes before the limit, and every other
part at the start of the message that fits lies within the one that is shown. Limits that a build
admits leave room for 64 bytes. -/
theorem make_longest (limits : Limits) (level : Level) (code : Code) (message : String) :
    let most := limits.maxMessageLength
    let shown := (make limits level code message).message
    (∀ profile, limits.problem? profile = none → 64 ≤ most.toNat) ∧
    cutBack most message = .ok shown ∧
      (message.utf8ByteSize ≤ most.toNat → shown = message) ∧
      (most.toNat < message.utf8ByteSize → ∃ kept rest place, message = kept ++ rest ∧
        shown = kept ++ "..." ∧
        Text.walkBack message most = .ok place ∧ place.toNat = kept.utf8ByteSize ∧
        kept.utf8ByteSize ≤ most.toNat ∧ most.toNat < kept.utf8ByteSize + 4 ∧
        ∀ other more, message = other ++ more → other.utf8ByteSize ≤ most.toNat →
          ∃ left, kept = other ++ left) := by
  intro most shown
  have inBytes (text : String) : text.utf8ByteSize = byteSize text.toList :=
    (byteSize_toList text).symm
  refine ⟨fun profile => Limits.le_maxMessageLength, cutBack_eq most message, cut_of_le,
    fun large => ?_⟩
  obtain ⟨place, walked, stopped⟩ := Text.walkBack_fitBytes message most
  obtain ⟨rest, whole⟩ := Text.fitBytes_prefix most.toNat message.toList
  have size : (String.ofList (Text.fitBytes most.toNat message.toList)).utf8ByteSize =
      byteSize (Text.fitBytes most.toNat message.toList) := by
    rw [inBytes, String.toList_ofList]
  refine ⟨String.ofList (Text.fitBytes most.toNat message.toList), String.ofList rest, place, ?_,
    if_neg (Nat.not_le_of_lt large), walked, by
      rw [size, stopped], ?_, ?_, fun other more split fits => ?_⟩
  · rw [← String.ofList_append, whole, String.ofList_toList]
  · rw [size]
    exact Text.byteSize_fitBytes_le most.toNat message.toList
  · rw [size]
    exact Text.lt_byteSize_fitBytes (inBytes message ▸ large)
  · have starts : other.toList <+: message.toList :=
      ⟨more.toList, by rw [split, String.toList_append]⟩
    obtain ⟨left, within⟩ := Text.prefix_fitBytes starts (inBytes other ▸ fits)
    exact ⟨String.ofList left, by rw [← within, String.ofList_append, String.ofList_toList]⟩

end Event

end Frontend

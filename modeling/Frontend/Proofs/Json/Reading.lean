import Mathlib.Data.List.Basic
import Mathlib.Tactic.IntervalCases
import Frontend.Json.Printer
import Frontend.Json.Reader
import Frontend.Proofs.Token.Spelling

/-!
# What is written is read back

A value without numbers that are kept as they are written (`Exact`) is read back from its compact
text (`read_compact`). Strings are read back character by character, integers digit by digit, arrays
and objects part by part. The reader needs no more fuel than the text has characters, and it stops
where the value ends: at the end of the text, or at a comma or a closing bracket.
-/

set_option autoImplicit false

namespace Frontend.Json

/-! ## The end of a value -/

/-- A value ends before this text. -/
def Ends (rest : List Char) : Prop := ∀ c, rest.head? = some c → c = ',' ∨ c = ']' ∨ c = '}'

theorem ends_nil : Ends [] := by
  intro c h
  cases h

theorem ends_cons {c : Char} (rest : List Char) (h : c = ',' ∨ c = ']' ∨ c = '}') :
    Ends (c :: rest) := by
  intro d hd
  cases hd
  exact h

theorem Ends.not_isDigit {rest : List Char} (h : Ends rest) :
    ∀ c, rest.head? = some c → c.isDigit = false := by
  intro c hc
  rcases h c hc with rfl | rfl | rfl <;> rfl

theorem Ends.fraction {rest : List Char} (h : Ends rest) : fraction rest = some ([], rest) := by
  unfold Json.fraction
  split
  · rcases h _ rfl with h | h | h <;> cases h
  · rfl

theorem Ends.exponent {rest : List Char} (h : Ends rest) : exponent rest = some ([], rest) := by
  unfold Json.exponent
  split
  · rcases h _ rfl with h | h | h <;> cases h
  · rcases h _ rfl with h | h | h <;> cases h
  · rfl

theorem skipSpace_cons {c : Char} (rest : List Char) (h : isSpace c = false) :
    skipSpace (c :: rest) = c :: rest := by
  simp [skipSpace, h]

/-! ## Integers -/

theorem digits_append {ds rest : List Char} (nonempty : ds ≠ []) (all : ∀ c ∈ ds, c.isDigit)
    (h : Ends rest) :
    digits (ds ++ rest) = some (ds, rest) := by
  obtain ⟨taken, dropped⟩ := takeWhile_append_of_boundary all h.not_isDigit
  unfold digits
  rw [taken, dropped]
  cases ds with
  | nil => exact absurd rfl nonempty
  | cons c ds => rfl

theorem isDigit_toDigits (n : Nat) : ∀ c ∈ Nat.toDigits 10 n, c.isDigit := by
  intro c hc
  exact Nat.isDigit_of_mem_toDigits (by decide) (by decide) hc

/-- Only the number zero is written with a zero in front. -/
theorem head?_toDigits {n : Nat} (pos : 0 < n) : (Nat.toDigits 10 n).head? ≠ some '0' := by
  induction n using Nat.strong_induction_on with
  | _ n ih =>
    rw [Nat.toDigits_eq_if (by decide)]
    by_cases small : n < 10
    · rw [if_pos small]
      interval_cases n <;> decide
    · have others := ih (n / 10) (by omega) (by omega)
      rw [if_neg small, List.head?_append_of_ne_nil _ Nat.toDigits_ne_nil]
      exact others

theorem wholePart_toDigits (n : Nat) {rest : List Char} (h : Ends rest) :
    wholePart (Nat.toDigits 10 n ++ rest) = some (Nat.toDigits 10 n, rest) := by
  have read := digits_append Nat.toDigits_ne_nil (isDigit_toDigits n) h
  rcases Nat.eq_zero_or_pos n with rfl | pos
  · rw [Nat.toDigits_zero]
    rfl
  · unfold wholePart
    split
    · rename_i tail text
      have same : (Nat.toDigits 10 n ++ rest).head? = (Nat.toDigits 10 n).head? :=
        List.head?_append_of_ne_nil _ Nat.toDigits_ne_nil
      rw [text] at same
      exact absurd same.symm (head?_toDigits pos)
    · exact read

theorem decimalValue_toDigits (n : Nat) : Text.decimalValue (Nat.toDigits 10 n) = n := by
  have h : Nat.ofDigitChars 10 (Nat.toDigits 10 n) 0 = n := Nat.ofDigitChars_ten_toDigits
  rw [Nat.ofDigitChars_eq_foldl] at h
  exact h

theorem unsigned_toDigits (negative : Bool) (n : Nat) (signed : negative = true → 0 < n)
    {rest : List Char} (h : Ends rest) :
    unsigned negative (Nat.toDigits 10 n ++ rest) =
      some (.integer (if negative then -(n : Int) else n), rest) := by
  have noNegativeZero : negative = true → ¬Nat.toDigits 10 n = ['0'] := by
    intro sign zero
    exact head?_toDigits (signed sign) (by rw [zero]; rfl)
  simpa [unsigned, wholePart_toDigits n h, h.fraction, h.exponent, decimalValue_toDigits]
    using noNegativeZero

theorem isSpace_of_isDigit {c : Char} (h : c.isDigit = true) : isSpace c = false := by
  unfold isSpace
  simp only [Bool.or_eq_false_iff, decide_eq_false_iff_not]
  refine ⟨⟨⟨?_, ?_⟩, ?_⟩, ?_⟩ <;> rintro rfl <;> exact absurd h (by decide)

/-- A text that starts with a digit is a number without sign. -/
theorem value_of_isDigit (fuel : Nat) {c : Char} (rest : List Char) (h : c.isDigit = true) :
    value (fuel + 1) (c :: rest) = unsigned false (c :: rest) := by
  rw [value, skipSpace_cons rest (isSpace_of_isDigit h)]
  split
  case h_8 => rfl
  all_goals
    rename_i text
    cases text
    exact absurd h (by decide)

theorem exists_digit (n : Nat) : ∃ c cs, Nat.toDigits 10 n = c :: cs ∧ c.isDigit = true := by
  obtain ⟨c, cs, digits⟩ := List.exists_cons_of_ne_nil (Nat.toDigits_ne_nil (n := n) (b := 10))
  exact ⟨c, cs, digits, isDigit_toDigits n c (by rw [digits]; exact List.mem_cons_self)⟩

theorem toList_toString (i : Int) :
    (toString i).toList =
      if 0 ≤ i then Nat.toDigits 10 i.toNat else '-' :: Nat.toDigits 10 (-i).toNat := by
  rw [Int.toString_eq_repr, Int.repr_eq_if]
  split
  · exact Nat.toList_repr
  · rw [String.toList_append, Nat.toList_repr]
    rfl

theorem value_integer (fuel : Nat) (i : Int) {rest : List Char} (h : Ends rest) :
    value (fuel + 1) ((toString i).toList ++ rest) = some (.integer i, rest) := by
  rw [toList_toString]
  by_cases sign : 0 ≤ i
  · have read := unsigned_toDigits false i.toNat (by simp) h
    obtain ⟨c, cs, digits, first⟩ := exists_digit i.toNat
    rw [digits, List.cons_append] at read
    rw [if_pos sign, digits, List.cons_append, value_of_isDigit fuel _ first, read]
    simp [sign]
  · have read := unsigned_toDigits true (-i).toNat (fun _ => by omega) h
    rw [if_neg sign, List.cons_append, value, skipSpace_cons _ rfl]
    simp only [read, if_true, Option.some.injEq, Prod.mk.injEq, Json.integer.injEq, and_true]
    omega

/-! ## Strings -/

theorem hexValue?_hexDigit : ∀ n < 16, hexValue? (hexDigit n) = some n := by decide

/-- The unit that stands for a control character. -/
theorem unit?_control {n : Nat} (h : n < 32) :
    unit? '0' '0' (hexDigit (n / 16)) (hexDigit (n % 16)) = some n := by
  have zero : hexValue? '0' = some 0 := rfl
  have high := hexValue?_hexDigit (n / 16) (by omega)
  have low := hexValue?_hexDigit (n % 16) (by omega)
  simp only [unit?, zero, high, low, Option.bind_eq_bind, Option.bind_some, pure, Option.some.injEq]
  omega

theorem pieces_unit {a b c d : Char} {n : Nat} (h : unit? a b c d = some n) (rest : List Char) :
    pieces ('\\' :: 'u' :: a :: b :: c :: d :: rest) =
      (pieces rest).map fun found => (.unit n :: found.1, found.2) := by
  rw [pieces, h]
  cases pieces rest <;> rfl

theorem pieces_letter {letter c : Char} (h : escaped? letter = some c) (rest : List Char) :
    pieces ('\\' :: letter :: rest) = (pieces rest).map fun found =>
      (.char c :: found.1, found.2) := by
  rw [pieces, h]
  · cases pieces rest <;> rfl
  · rintro _ _ _ _ _ rfl
    cases h

theorem pieces_plain {c : Char} (large : ¬c.toNat < 0x20) (quote : c ≠ '"') (backslash : c ≠ '\\')
    (rest : List Char) :
    pieces (c :: rest) = (pieces rest).map fun found => (.char c :: found.1, found.2) := by
  rw [pieces]
  · rw [if_neg (by simp [large, backslash])]
    cases pieces rest <;> rfl
  · exact quote
  · exact fun _ _ _ _ _ h _ => backslash h
  · exact fun _ _ h _ => backslash h

theorem assemble_control {n : Nat} (h : n < 32) (more : List Piece) :
    assemble (.unit n :: more) = (assemble more).map (Char.ofNat n :: ·) := by
  have high : isHighSurrogate n = false := by simp [isHighSurrogate]; omega
  have low : isLowSurrogate n = false := by simp [isLowSurrogate]; omega
  rw [assemble.eq_def]
  simp [high, low]

/-- A character is written so that it is read as one piece, which stands for the character. -/
theorem exists_piece (c : Char) :
    ∃ piece : Piece, (∀ rest, pieces (escape c ++ rest) =
      (pieces rest).map fun found => (piece :: found.1, found.2)) ∧
      ∀ more, assemble (piece :: more) = (assemble more).map (c :: ·) := by
  unfold escape
  split
  case h_8 quote backslash _ _ _ _ _ =>
    by_cases control : c.toNat < 0x20
    · rw [if_pos control]
      refine ⟨.unit c.toNat, pieces_unit (unit?_control control), fun more => ?_⟩
      rw [assemble_control control, Char.ofNat_toNat]
    · rw [if_neg control]
      exact ⟨.char c, pieces_plain control quote backslash, fun more => rfl⟩
  all_goals exact ⟨.char _, pieces_letter rfl, fun more => rfl⟩

theorem pieces_quote (content rest : List Char) :
    ∃ found, pieces (content.flatMap escape ++ '"' :: rest) = some (found, rest) ∧
      assemble found = some content := by
  induction content with
  | nil => exact ⟨[], rfl, rfl⟩
  | cons c content ih =>
    obtain ⟨found, read, assembled⟩ := ih
    obtain ⟨piece, first, stands⟩ := exists_piece c
    refine ⟨piece :: found, ?_, ?_⟩
    · rw [List.flatMap_cons, List.append_assoc, first, read]
      rfl
    · rw [stands, assembled]
      rfl

theorem stringBody_quote? (content : Option String) (rest : List Char) :
    ∃ body, quote? content = '"' :: body ∧ stringBody (body ++ rest) = some (content, rest) := by
  cases content with
  | none => exact ⟨['\\', 'u', 'd', '8', '0', '0', '"'], by decide, rfl⟩
  | some content =>
    obtain ⟨found, read, assembled⟩ := pieces_quote content.toList rest
    refine ⟨content.toList.flatMap escape ++ ['"'], rfl, ?_⟩
    rw [List.append_assoc, List.singleton_append, stringBody, read]
    simp [assembled]

/-! ## Parts of values -/

/-- A value without numbers that are kept as they are written. -/
inductive Exact : Json → Prop
  | null : Exact .null
  | bool (b : Bool) : Exact (.bool b)
  | integer (i : Int) : Exact (.integer i)
  | string (content : Option String) : Exact (.string content)
  | array {items : List Json} (parts : ∀ j ∈ items, Exact j) : Exact (.array items)
  | object {members : List (Option String × Json)} (parts : ∀ m ∈ members, Exact m.2) :
    Exact (.object members)

/-- A value is read from its compact text, whatever comes after it. -/
def ReadsBack (j : Json) : Prop :=
  ∀ fuel rest, j.compactChars.length ≤ fuel → Ends rest →
    value fuel (j.compactChars ++ rest) = some (j, rest)

theorem Exact.exists_head {j : Json} (h : Exact j) :
    ∃ c cs, j.compactChars = c :: cs ∧ isSpace c = false ∧ c ≠ ']' := by
  cases h with
  | null => exact ⟨'n', ['u', 'l', 'l'], by decide, by decide, by decide⟩
  | bool b =>
    cases b with
    | false => exact ⟨'f', ['a', 'l', 's', 'e'], by decide, by decide, by decide⟩
    | true => exact ⟨'t', ['r', 'u', 'e'], by decide, by decide, by decide⟩
  | integer i =>
    rw [compactChars, toList_toString]
    split
    · obtain ⟨c, cs, digits, first⟩ := exists_digit i.toNat
      exact ⟨c, cs, digits, isSpace_of_isDigit first, by rintro rfl; exact absurd first (by decide)⟩
    · exact ⟨'-', _, rfl, by decide, by decide⟩
  | string content =>
    obtain ⟨body, text, -⟩ := stringBody_quote? content []
    exact ⟨'"', body, text, by decide, by decide⟩
  | array => exact ⟨'[', _, rfl, by decide, by decide⟩
  | object => exact ⟨'{', _, rfl, by decide, by decide⟩

theorem ends_moreItems (items : List Json) (rest : List Char) :
    Ends (compactMoreItems items ++ ']' :: rest) := by
  cases items with
  | nil => exact ends_cons rest (by decide)
  | cons j items => exact ends_cons _ (by decide)

theorem length_le_moreItems (items : List Json) :
    items.length ≤ (compactMoreItems items).length := by
  induction items with
  | nil => simp
  | cons j items ih =>
    simp only [compactMoreItems, List.length_cons, List.length_append]
    omega

theorem moreItems_compact {items : List Json} (parts : ∀ j ∈ items, ReadsBack j) (fuel n : Nat)
    (enough : (compactMoreItems items).length ≤ fuel) (most : items.length < n) (rest : List Char) :
    moreItems (fun text => value fuel text) n (compactMoreItems items ++ ']' :: rest) =
      some (items, rest) := by
  induction items generalizing n with
  | nil =>
    obtain ⟨n, rfl⟩ := Nat.exists_eq_add_one_of_ne_zero (Nat.ne_of_gt most)
    rfl
  | cons j items ih =>
    obtain ⟨n, rfl⟩ := Nat.exists_eq_add_one_of_ne_zero (Nat.ne_of_gt (Nat.zero_lt_of_lt most))
    simp only [compactMoreItems, List.length_cons, List.length_append] at enough most
    have first := parts j List.mem_cons_self fuel (compactMoreItems items ++ ']' :: rest) (by omega)
      (ends_moreItems items rest)
    have others := ih (fun k hk => parts k (List.mem_cons_of_mem j hk)) n (by omega) (by omega)
    rw [compactMoreItems, List.cons_append, List.append_assoc, moreItems,
      skipSpace_cons _ (by decide)]
    simp only [first, others, Option.map_some]

theorem arrayBody_compact {items : List Json} (exact : ∀ j ∈ items, Exact j)
    (parts : ∀ j ∈ items, ReadsBack j) (fuel : Nat) (enough : (compactItems items).length < fuel)
    (rest : List Char) :
    arrayBody (fun text => value fuel text) fuel (compactItems items ++ ']' :: rest) =
      some (items, rest) := by
  cases items with
  | nil => rfl
  | cons j items =>
    simp only [compactItems, List.length_append] at enough
    have count := length_le_moreItems items
    have first := parts j List.mem_cons_self fuel (compactMoreItems items ++ ']' :: rest) (by omega)
      (ends_moreItems items rest)
    have others :=
      moreItems_compact (fun k hk => parts k (List.mem_cons_of_mem j hk)) fuel fuel (by omega)
      (by omega) rest
    obtain ⟨c, cs, text, noSpace, noBracket⟩ := (exact j List.mem_cons_self).exists_head
    rw [compactItems, List.append_assoc]
    rw [text, List.cons_append] at first ⊢
    rw [arrayBody, skipSpace_cons _ noSpace]
    split
    · rename_i bracket
      cases bracket
      exact absurd rfl noBracket
    · simp only [first, others, Option.map_some]

theorem member_compact {j : Json} (h : ReadsBack j) (key : Option String) (fuel : Nat)
    (enough : j.compactChars.length ≤ fuel) {rest : List Char} (ends : Ends rest) :
    member (fun text => value fuel text) (quote? key ++ ':' :: (j.compactChars ++ rest)) =
      some ((key, j), rest) := by
  obtain ⟨body, text, read⟩ := stringBody_quote? key (':' :: (j.compactChars ++ rest))
  rw [text, List.cons_append, member, skipSpace_cons _ (by decide)]
  simp only [read]
  rw [skipSpace_cons _ (by decide)]
  simp only [h fuel rest enough ends, Option.map_some]

theorem ends_moreMembers (members : List (Option String × Json)) (rest : List Char) :
    Ends (compactMoreMembers members ++ '}' :: rest) := by
  cases members with
  | nil => exact ends_cons rest (by decide)
  | cons m members => exact ends_cons _ (by decide)

theorem length_le_moreMembers (members : List (Option String × Json)) :
    members.length ≤ (compactMoreMembers members).length := by
  induction members with
  | nil => simp
  | cons m members ih =>
    simp only [compactMoreMembers, List.length_cons, List.length_append]
    omega

theorem moreMembers_compact {members : List (Option String × Json)}
    (parts : ∀ m ∈ members, ReadsBack m.2) (fuel n : Nat)
    (enough : (compactMoreMembers members).length ≤ fuel) (most : members.length < n)
    (rest : List Char) :
    moreMembers (fun text => value fuel text) n (compactMoreMembers members ++ '}' :: rest) =
      some (members, rest) := by
  induction members generalizing n with
  | nil =>
    obtain ⟨n, rfl⟩ := Nat.exists_eq_add_one_of_ne_zero (Nat.ne_of_gt most)
    rfl
  | cons m members ih =>
    obtain ⟨n, rfl⟩ := Nat.exists_eq_add_one_of_ne_zero (Nat.ne_of_gt (Nat.zero_lt_of_lt most))
    simp only [compactMoreMembers, List.length_cons, List.length_append] at enough most
    have first := member_compact (parts m List.mem_cons_self) m.1 fuel (by omega)
      (ends_moreMembers members rest)
    have others := ih (fun k hk => parts k (List.mem_cons_of_mem m hk)) n (by omega) (by omega)
    simp only [compactMoreMembers, List.cons_append, List.append_assoc]
    rw [moreMembers, skipSpace_cons _ (by decide)]
    simp only [first, others, Option.map_some]

theorem objectBody_compact {members : List (Option String × Json)}
    (parts : ∀ m ∈ members, ReadsBack m.2) (fuel : Nat)
    (enough : (compactMembers members).length < fuel) (rest : List Char) :
    objectBody (fun text => value fuel text) fuel (compactMembers members ++ '}' :: rest) =
      some (members, rest) := by
  cases members with
  | nil => rfl
  | cons m members =>
    simp only [compactMembers, List.length_append, List.length_cons] at enough
    have count := length_le_moreMembers members
    have first := member_compact (parts m List.mem_cons_self) m.1 fuel (by omega)
      (ends_moreMembers members rest)
    have others :=
      moreMembers_compact (fun k hk => parts k (List.mem_cons_of_mem m hk)) fuel fuel (by omega)
      (by omega) rest
    obtain ⟨body, text, -⟩ := stringBody_quote? m.1 []
    simp only [compactMembers, List.append_assoc, List.cons_append]
    rw [text, List.cons_append] at first ⊢
    rw [objectBody, skipSpace_cons _ (by decide)]
    split
    · rename_i brace
      cases brace
    · simp only [first, others, Option.map_some]

/-! ## Values -/

theorem Exact.exists_fuel {j : Json} (h : Exact j) {fuel : Nat}
    (enough : j.compactChars.length ≤ fuel) :
    ∃ n, fuel = n + 1 := by
  obtain ⟨c, cs, text, -⟩ := h.exists_head
  rw [text, List.length_cons] at enough
  exact ⟨fuel - 1, by omega⟩

theorem Exact.readsBack {j : Json} (h : Exact j) : ReadsBack j := by
  induction h with
  | null =>
    intro fuel rest enough _
    obtain ⟨n, rfl⟩ := Exact.null.exists_fuel enough
    have text : compactChars .null = ['n', 'u', 'l', 'l'] := by decide
    rw [text]
    rfl
  | bool b =>
    intro fuel rest enough _
    obtain ⟨n, rfl⟩ := (Exact.bool b).exists_fuel enough
    cases b with
    | false =>
      have text : compactChars (.bool false) = ['f', 'a', 'l', 's', 'e'] := by decide
      rw [text]
      rfl
    | true =>
      have text : compactChars (.bool true) = ['t', 'r', 'u', 'e'] := by decide
      rw [text]
      rfl
  | integer i =>
    intro fuel rest enough ends
    obtain ⟨n, rfl⟩ := (Exact.integer i).exists_fuel enough
    rw [compactChars]
    exact value_integer n i ends
  | string content =>
    intro fuel rest enough _
    obtain ⟨n, rfl⟩ := (Exact.string content).exists_fuel enough
    obtain ⟨body, text, read⟩ := stringBody_quote? content rest
    rw [compactChars, text, List.cons_append, value, skipSpace_cons _ (by decide)]
    simp only [read, Option.map_some]
  | @array items exact parts =>
    intro fuel rest enough _
    obtain ⟨n, rfl⟩ := (Exact.array exact).exists_fuel enough
    simp only [compactChars, List.length_cons, List.length_append] at enough
    have read := arrayBody_compact exact parts n (by omega) rest
    rw [compactChars, List.cons_append, List.append_assoc, List.singleton_append, value,
      skipSpace_cons _ (by decide)]
    simp only [read, Option.map_some]
  | @object members exact parts =>
    intro fuel rest enough _
    obtain ⟨n, rfl⟩ := (Exact.object exact).exists_fuel enough
    simp only [compactChars, List.length_cons, List.length_append] at enough
    have read := objectBody_compact parts n (by omega) rest
    rw [compactChars, List.cons_append, List.append_assoc, List.singleton_append, value,
      skipSpace_cons _ (by decide)]
    simp only [read, Option.map_some]

theorem read_compact {j : Json} (h : Exact j) : read j.compact.toList = some j := by
  have found := h.readsBack j.compactChars.length [] (Nat.le_refl _) ends_nil
  rw [List.append_nil] at found
  rw [compact, String.toList_ofList, read, found]
  rfl

end Frontend.Json

import Frontend.Token.Lexer

/-!
# How tokens are spelled

`Spelled` says, class by class, which text a token may have, and `Kind.goesOn` which character after
that text would belong to the token as well. Neither mentions the lexer. The two together determine
the first token of a text: `munch` finds a token exactly when the token is spelled at the head of
the text and the text after it does not go on with it (`munch_eq_some_iff`).
-/

set_option autoImplicit false

namespace Frontend

/-! ## Classes of kinds -/

/-- Whether every token of the kind has the same text, which is the name of the kind. -/
def Kind.isMark (kind : Kind) : Bool := kind.isOperator || kind.isDelimiter

/-- Whether the kind is that of a name or a keyword. -/
def Kind.isWord (kind : Kind) : Bool := kind == .ident || kind.isKeyword

/-- Whether a character right after a token of the kind would belong to the token. -/
def Kind.goesOn (kind : Kind) (c : Char) : Bool :=
  (kind.isWord && isLetter c) || (kind == .int && c.isDigit) ||
    ((kind == .assign || kind == .bang) && c == '=')

/-- A character that some word, number or mark starts with. -/
def StartsToken (c : Char) : Prop :=
  isLetter c ∨ c.isDigit ∨ ∃ kind : Kind, kind.isMark ∧ kind.name.toList.head? = some c

/-- The tokens that a text can hold. -/
inductive Spelled : Token → Prop
  | word (letters : List Char) (nonempty : letters ≠ []) (all : ∀ c ∈ letters, isLetter c) :
      Spelled ⟨Kind.ofWord (.ofList letters), .ofList letters⟩
  | number (digits : List Char) (nonempty : digits ≠ []) (all : ∀ c ∈ digits, c.isDigit) :
      Spelled ⟨.int, .ofList digits⟩
  | mark (kind : Kind) (fixed : kind.isMark) : Spelled ⟨kind, kind.name⟩
  | stray (c : Char) (shown : Text.isBlank c = false) (useless : ¬ StartsToken c) :
      Spelled ⟨.illegal, .ofList [c]⟩

/-- The text after a token of the kind does not go on with the token. -/
def Kind.EndsAt (kind : Kind) (rest : List Char) : Prop :=
  ∀ c, rest.head? = some c → kind.goesOn c = false

/-! ## Characters -/

theorem mem_range_iff (c low high : Char) :
    (decide (c.val ≥ low.val) && decide (c.val ≤ high.val)) = true ↔
      low.toNat ≤ c.toNat ∧ c.toNat ≤ high.toNat := by
  rw [Bool.and_eq_true, decide_eq_true_eq, decide_eq_true_eq]
  rfl

theorem isLetter_iff (c : Char) :
    isLetter c ↔ (65 ≤ c.toNat ∧ c.toNat ≤ 90) ∨ (97 ≤ c.toNat ∧ c.toNat ≤ 122) ∨ c.toNat = 95 := by
  have upper : c.isUpper ↔ 65 ≤ c.toNat ∧ c.toNat ≤ 90 := decide_eq_true_iff
  have lower : c.isLower ↔ 97 ≤ c.toNat ∧ c.toNat ≤ 122 := mem_range_iff c 'a' 'z'
  have underscore : c = '_' ↔ c.toNat = 95 := Char.toNat_inj.symm
  change ((c.isUpper || c.isLower) || c == '_') = true ↔ _
  rw [Bool.or_eq_true, Bool.or_eq_true, upper, lower, beq_iff_eq, underscore, or_assoc]

theorem isDigit_iff (c : Char) : c.isDigit ↔ 48 ≤ c.toNat ∧ c.toNat ≤ 57 := mem_range_iff c '0' '9'

theorem not_isLetter_of_isDigit {c : Char} (h : c.isDigit) : isLetter c = false := by
  rw [isDigit_iff] at h
  rw [Bool.eq_false_iff, ne_eq, isLetter_iff]
  omega

theorem isBlank_iff (c : Char) :
    Text.isBlank c ↔ ∃ range ∈ Text.blankRanges, range.1 ≤ c.toNat ∧ c.toNat ≤ range.2 := by
  simp [Text.isBlank]

theorem not_isLetter_of_isBlank {c : Char} (h : Text.isBlank c) : isLetter c = false := by
  rw [isBlank_iff] at h
  simp only [Text.blankRanges, List.mem_cons, List.not_mem_nil, or_false, exists_eq_or_imp,
    exists_eq_left] at h
  rw [Bool.eq_false_iff, ne_eq, isLetter_iff]
  omega

theorem not_isDigit_of_isBlank {c : Char} (h : Text.isBlank c) : c.isDigit = false := by
  rw [isBlank_iff] at h
  simp only [Text.blankRanges, List.mem_cons, List.not_mem_nil, or_false, exists_eq_or_imp,
    exists_eq_left] at h
  rw [Bool.eq_false_iff, ne_eq, isDigit_iff]
  omega

theorem goesOn_of_isBlank (kind : Kind) {c : Char} (h : Text.isBlank c) :
    kind.goesOn c = false := by
  have equals : (c == '=') = false := by
    rw [beq_eq_false_iff_ne]
    rintro rfl
    exact absurd h (by decide)
  simp [Kind.goesOn, not_isLetter_of_isBlank h, not_isDigit_of_isBlank h, equals]

theorem ofChar?_of_isLetter {c : Char} (h : isLetter c) : Kind.ofChar? c = none := by
  unfold Kind.ofChar?
  split
  case h_15 => rfl
  all_goals exact absurd h (by decide)

theorem ofChar?_of_isDigit {c : Char} (h : c.isDigit) : Kind.ofChar? c = none := by
  unfold Kind.ofChar?
  split
  case h_15 => rfl
  all_goals exact absurd h (by decide)

theorem isMark_of_ofChar? {c : Char} {kind : Kind} (h : Kind.ofChar? c = some kind) :
    kind.isMark ∧ kind.name = String.ofList [c] := by
  unfold Kind.ofChar? at h
  split at h
  case h_15 => simp at h
  all_goals
    cases h
    exact ⟨rfl, rfl⟩

theorem ofChar?_of_isMark {kind : Kind} (h : kind.isMark) {c : Char}
    (hc : kind.name.toList.head? = some c) : Kind.ofChar? c ≠ none := by
  cases kind
  case illegal | eof | ident | int | fnWord | letWord | trueWord | falseWord | ifWord | elseWord
      | returnWord => exact absurd h (by decide)
  all_goals
    cases hc
    decide

theorem startsToken_iff (c : Char) :
    StartsToken c ↔ isLetter c ∨ c.isDigit ∨ Kind.ofChar? c ≠ none := by
  refine or_congr_right (or_congr_right ⟨?_, ?_⟩)
  · rintro ⟨kind, fixed, hc⟩
    exact ofChar?_of_isMark fixed hc
  · intro h
    obtain ⟨kind, hkind⟩ := Option.ne_none_iff_exists'.mp h
    obtain ⟨fixed, hname⟩ := isMark_of_ofChar? hkind
    exact ⟨kind, fixed, by rw [hname, String.toList_ofList]; rfl⟩

/-- No character of a token is white space. -/
theorem Spelled.shown {t : Token} (spelled : Spelled t) :
    ∀ c ∈ t.literal.toList, Text.isBlank c = false := by
  cases spelled with
  | word letters nonempty all =>
    intro c hc
    rw [String.toList_ofList] at hc
    refine Bool.eq_false_iff.mpr fun blank => ?_
    exact absurd (all c hc) (by rw [not_isLetter_of_isBlank blank]; decide)
  | number digits nonempty all =>
    intro c hc
    rw [String.toList_ofList] at hc
    refine Bool.eq_false_iff.mpr fun blank => ?_
    exact absurd (all c hc) (by rw [not_isDigit_of_isBlank blank]; decide)
  | mark kind fixed =>
    have all : kind.name.toList.all fun c => !Text.isBlank c := by
      revert fixed
      cases kind <;> decide
    simpa using all
  | stray c shown useless =>
    intro d hd
    rw [String.toList_ofList, List.mem_singleton] at hd
    rw [hd]
    exact shown

theorem Spelled.ne_nil {t : Token} (spelled : Spelled t) : t.literal.toList ≠ [] := by
  cases spelled with
  | word letters nonempty all => rwa [String.toList_ofList]
  | number digits nonempty all => rwa [String.toList_ofList]
  | mark kind fixed =>
    revert fixed
    cases kind <;> decide
  | stray c shown useless => rw [String.toList_ofList]; nofun

theorem Spelled.starts {t : Token} (spelled : Spelled t) :
    ∃ c tail, t.literal.toList = c :: tail ∧ Text.isBlank c = false := by
  obtain ⟨c, tail, h⟩ := List.exists_cons_of_ne_nil spelled.ne_nil
  exact ⟨c, tail, h, spelled.shown c (h ▸ List.mem_cons_self)⟩

/-! ## The first token of a text -/

theorem munch_of_ofChar?_eq_none {c : Char} (h : Kind.ofChar? c = none) (rest : List Char) :
    munch (c :: rest) =
      if isLetter c then
        some (⟨Kind.ofWord (.ofList (c :: rest.takeWhile isLetter)),
          .ofList (c :: rest.takeWhile isLetter)⟩, rest.dropWhile isLetter)
      else if c.isDigit then
        some (⟨.int, .ofList (c :: rest.takeWhile Char.isDigit)⟩, rest.dropWhile Char.isDigit)
      else some (⟨.illegal, .ofList [c]⟩, rest) := by
  unfold munch
  split
  · rename_i heq
    cases heq
  · rename_i heq
    cases heq
    exact absurd h (by decide)
  · rename_i heq
    cases heq
    exact absurd h (by decide)
  · rename_i heq
    cases heq
    simp only [h]

theorem takeWhile_append_of_boundary {p : Char → Bool} {run rest : List Char}
    (inside : ∀ c ∈ run, p c) (boundary : ∀ c, rest.head? = some c → p c = false) :
    (run ++ rest).takeWhile p = run ∧ (run ++ rest).dropWhile p = rest := by
  rw [List.takeWhile_append_of_pos inside, List.dropWhile_append_of_pos inside]
  cases rest with
  | nil => simp
  | cons c rest => simp [boundary c rfl]

theorem isWord_ofWord (text : String) : (Kind.ofWord text).isWord := by
  unfold Kind.ofWord
  split <;> rfl

theorem Spelled.kind_ne_eof {t : Token} (spelled : Spelled t) : t.kind ≠ .eof := by
  cases spelled with
  | word letters =>
    have word := isWord_ofWord (.ofList letters)
    intro h
    dsimp only at h
    rw [h] at word
    cases word
  | number => nofun
  | mark kind fixed =>
    rintro rfl
    cases fixed
  | stray => nofun

theorem munch_word {letters rest : List Char} (nonempty : letters ≠ [])
    (all : ∀ c ∈ letters, isLetter c) (ends : (Kind.ofWord (.ofList letters)).EndsAt rest) :
    munch (letters ++ rest) = some (⟨Kind.ofWord (.ofList letters), .ofList letters⟩, rest) := by
  obtain ⟨c, tail, rfl⟩ := List.exists_cons_of_ne_nil nonempty
  have hc := all c List.mem_cons_self
  have boundary : ∀ d, rest.head? = some d → isLetter d = false := by
    intro d hd
    have := ends d hd
    simp only [Kind.goesOn, isWord_ofWord, Bool.true_and, Bool.or_eq_false_iff] at this
    exact this.1.1
  obtain ⟨taken, dropped⟩ := takeWhile_append_of_boundary
    (fun d hd => all d (List.mem_cons_of_mem c hd)) boundary
  rw [List.cons_append, munch_of_ofChar?_eq_none (ofChar?_of_isLetter hc), if_pos hc,
    taken, dropped]

theorem munch_number {digits rest : List Char} (nonempty : digits ≠ [])
    (all : ∀ c ∈ digits, c.isDigit) (ends : Kind.int.EndsAt rest) :
    munch (digits ++ rest) = some (⟨.int, .ofList digits⟩, rest) := by
  obtain ⟨c, tail, rfl⟩ := List.exists_cons_of_ne_nil nonempty
  have hc := all c List.mem_cons_self
  have boundary : ∀ d, rest.head? = some d → d.isDigit = false := by
    intro d hd
    simpa [Kind.goesOn, Kind.isWord, Kind.isKeyword] using ends d hd
  obtain ⟨taken, dropped⟩ := takeWhile_append_of_boundary
    (fun d hd => all d (List.mem_cons_of_mem c hd)) boundary
  rw [List.cons_append, munch_of_ofChar?_eq_none (ofChar?_of_isDigit hc),
    if_neg (by rw [not_isLetter_of_isDigit hc]; decide), if_pos hc, taken, dropped]

theorem munch_mark {kind : Kind} (fixed : kind.isMark) {rest : List Char}
    (ends : kind.EndsAt rest) :
    munch (kind.name.toList ++ rest) = some (⟨kind, kind.name⟩, rest) := by
  cases kind
  case illegal | eof | ident | int | fnWord | letWord | trueWord | falseWord | ifWord | elseWord
      | returnWord => exact absurd fixed (by decide)
  case assign | bang =>
    -- the only two marks that look at the next character
    cases rest with
    | nil => rfl
    | cons c rest =>
      have hc : c ≠ '=' := by simpa [Kind.goesOn, Kind.isWord, Kind.isKeyword] using ends c rfl
      simp [Kind.name, munch, hc, Kind.ofChar?]
  all_goals rfl

/-- A token that is spelled at the head of a text, and not gone on with, is the first token. -/
theorem munch_of_spelled {t : Token} (spelled : Spelled t) {rest : List Char}
    (ends : t.kind.EndsAt rest) : munch (t.literal.toList ++ rest) = some (t, rest) := by
  cases spelled with
  | word letters nonempty all => simpa using munch_word nonempty all ends
  | number digits nonempty all => simpa using munch_number nonempty all ends
  | mark kind fixed => exact munch_mark fixed ends
  | stray c shown useless =>
    rw [startsToken_iff] at useless
    simp only [not_or, ne_eq, Decidable.not_not] at useless
    obtain ⟨letter, digit, single⟩ := useless
    rw [String.toList_ofList, List.singleton_append, munch_of_ofChar?_eq_none single, if_neg letter,
      if_neg digit]

theorem head?_dropWhile_eq_some {p : Char → Bool} {text : List Char} {c : Char}
    (h : (text.dropWhile p).head? = some c) : p c = false := by
  have := List.head?_dropWhile_not p text
  rw [h] at this
  simpa using this

theorem mem_cons_takeWhile {p : Char → Bool} {c : Char} (hc : p c) (text : List Char) :
    ∀ d ∈ c :: text.takeWhile p, p d := by
  intro d hd
  rcases List.mem_cons.mp hd with rfl | hd
  · exact hc
  · exact List.all_eq_true.mp List.all_takeWhile d hd

theorem endsAt_ofWord (word : String) (text : List Char) :
    (Kind.ofWord word).EndsAt (text.dropWhile isLetter) := by
  intro d hd
  have letter := head?_dropWhile_eq_some hd
  unfold Kind.ofWord
  split <;> simp [Kind.goesOn, letter]

theorem endsAt_int (text : List Char) : Kind.int.EndsAt (text.dropWhile Char.isDigit) := by
  intro d hd
  have digit := head?_dropWhile_eq_some hd
  simp [Kind.goesOn, Kind.isWord, Kind.isKeyword, digit]

/-- A mark of one character ends, unless it is the first half of a longer one. -/
theorem endsAt_of_ofChar? {c : Char} {kind : Kind} (h : Kind.ofChar? c = some kind)
    {rest : List Char} (half : c = '=' ∨ c = '!' → rest.head? ≠ some '=') : kind.EndsAt rest := by
  intro d hd
  have hne : c = '=' ∨ c = '!' → d ≠ '=' := by
    intro hc heq
    exact half hc (heq ▸ hd)
  unfold Kind.ofChar? at h
  split at h
  case h_15 => simp at h
  all_goals
    cases h
    simp [Kind.goesOn, Kind.isWord, Kind.isKeyword]
  all_goals
    apply hne
    decide

/-- The first token of a text that does not start with white space is spelled at its head, and the
text after it does not go on with it. -/
theorem spelled_of_munch {c : Char} {text rest : List Char} {t : Token}
    (shown : Text.isBlank c = false) (h : munch (c :: text) = some (t, rest)) :
    c :: text = t.literal.toList ++ rest ∧ Spelled t ∧ t.kind.EndsAt rest := by
  cases single : Kind.ofChar? c with
  | none =>
    rw [munch_of_ofChar?_eq_none single] at h
    split at h
    · rename_i letter
      cases h
      refine ⟨?_, .word _ (by simp) (mem_cons_takeWhile letter text), endsAt_ofWord _ text⟩
      simp [List.takeWhile_append_dropWhile]
    · split at h
      · rename_i digit
        cases h
        refine ⟨?_, .number _ (by simp) (mem_cons_takeWhile digit text), endsAt_int text⟩
        simp [List.takeWhile_append_dropWhile]
      · rename_i letter digit
        cases h
        refine ⟨by simp, .stray c shown ?_, fun d _ => rfl⟩
        rw [startsToken_iff]
        simp [letter, digit, single]
  | some kind =>
    obtain ⟨fixed, hname⟩ := isMark_of_ofChar? single
    unfold munch at h
    split at h
    · simp at h
    · rename_i heq
      cases heq
      cases h
      exact ⟨rfl, .mark .eq rfl, fun d _ => rfl⟩
    · rename_i heq
      cases heq
      cases h
      exact ⟨rfl, .mark .notEq rfl, fun d _ => rfl⟩
    · rename_i equals bang heq
      cases heq
      simp only [single, Option.some.injEq, Prod.mk.injEq] at h
      obtain ⟨rfl, rfl⟩ := h
      refine ⟨by simp, hname ▸ .mark kind fixed, endsAt_of_ofChar? single ?_⟩
      -- the marks of two characters were tried first
      intro hc hhead
      obtain ⟨tail, rfl⟩ := List.head?_eq_some_iff.mp hhead
      rcases hc with rfl | rfl
      · exact equals tail rfl rfl
      · exact bang tail rfl rfl

/-- The first token of a text that does not start with white space. -/
theorem munch_eq_some_iff {text rest : List Char} {t : Token}
    (shown : ∀ c, text.head? = some c → Text.isBlank c = false) :
    munch text = some (t, rest) ↔
      text = t.literal.toList ++ rest ∧ Spelled t ∧ t.kind.EndsAt rest := by
  constructor
  · intro h
    cases text with
    | nil => simp [munch] at h
    | cons c text => exact spelled_of_munch (shown c rfl) h
  · rintro ⟨rfl, spelled, ends⟩
    exact munch_of_spelled spelled ends

end Frontend

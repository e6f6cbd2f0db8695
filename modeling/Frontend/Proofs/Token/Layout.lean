import Frontend.Proofs.Position
import Frontend.Proofs.Token.Spelling

/-!
# Texts as gaps and tokens

Every text is a run of gaps and tokens, and ends in a gap (`text_induction`). The lexer follows this
structure with two equations, one for a text that is white space only (`lexemesFrom_blank`) and one
for a text that starts with a gap and a token (`lexemesFrom_token`); nothing else about `scan` and
`munch` is used afterwards. `Laid` is the same as a relation, with the position of every token.

A text has lexemes if all its positions exist (`exists_laid`), and else the lexer fails as they do
(`lexemesFrom_eq_error`).
-/

set_option autoImplicit false

namespace Frontend

/-- White space only. -/
def Blank (gap : List Char) : Prop := ∀ c ∈ gap, Text.isBlank c

instance (gap : List Char) : Decidable (Blank gap) := List.decidableBAll _ gap

theorem dropWhile_blank {gap : List Char} (blank : Blank gap) :
    gap.dropWhile Text.isBlank = [] := by
  rw [← List.append_nil gap, List.dropWhile_append_of_pos blank]
  rfl

theorem takeWhile_blank {gap : List Char} (blank : Blank gap) :
    gap.takeWhile Text.isBlank = gap := by
  rw [← List.append_nil gap, List.takeWhile_append_of_pos blank]
  rfl

theorem span_gap {gap : List Char} (blank : Blank gap) {t : Token} (spelled : Spelled t)
    (rest : List Char) :
    (gap ++ (t.literal.toList ++ rest)).takeWhile Text.isBlank = gap ∧
      (gap ++ (t.literal.toList ++ rest)).dropWhile Text.isBlank = t.literal.toList ++ rest := by
  obtain ⟨c, tail, hstart, shown⟩ := spelled.starts
  apply takeWhile_append_of_boundary blank
  intro d hd
  rw [hstart, List.cons_append, List.head?_cons] at hd
  cases hd
  exact shown

/-! ## The structure of texts -/

theorem munch_isSome (c : Char) (text : List Char) :
    ∃ t rest, munch (c :: text) = some (t, rest) := by
  unfold munch
  split
  · rename_i heq
    cases heq
  · exact ⟨_, _, rfl⟩
  · exact ⟨_, _, rfl⟩
  · split
    · exact ⟨_, _, rfl⟩
    · split
      · exact ⟨_, _, rfl⟩
      · split <;> exact ⟨_, _, rfl⟩

theorem blank_or_token (text : List Char) :
    Blank text ∨ ∃ gap t rest, text = gap ++ (t.literal.toList ++ rest) ∧ Blank gap ∧ Spelled t ∧
      t.kind.EndsAt rest := by
  have split : text = text.takeWhile Text.isBlank ++ text.dropWhile Text.isBlank :=
    List.takeWhile_append_dropWhile.symm
  have blank : Blank (text.takeWhile Text.isBlank) := List.all_eq_true.mp List.all_takeWhile
  cases hrest : text.dropWhile Text.isBlank with
  | nil =>
    left
    rw [hrest, List.append_nil] at split
    exact split ▸ blank
  | cons c tail =>
    right
    have shown : ∀ d, (c :: tail).head? = some d → Text.isBlank d = false := by
      intro d hd
      exact head?_dropWhile_eq_some (by rw [hrest]; exact hd)
    obtain ⟨t, rest, hmunch⟩ := munch_isSome c tail
    obtain ⟨heq, spelled, ends⟩ := (munch_eq_some_iff shown).mp hmunch
    refine ⟨_, t, rest, ?_, blank, spelled, ends⟩
    rw [← heq, ← hrest]
    exact split

theorem text_induction {P : List Char → Prop} (blank : ∀ gap, Blank gap → P gap)
    (token : ∀ gap t rest, Blank gap → Spelled t → t.kind.EndsAt rest → P rest →
      P (gap ++ (t.literal.toList ++ rest))) (text : List Char) : P text := by
  induction hn : text.length using Nat.strongRecOn generalizing text with
  | ind n ih =>
    rcases blank_or_token text with h | ⟨gap, t, rest, rfl, hgap, spelled, ends⟩
    · exact blank text h
    · apply token gap t rest hgap spelled ends
      apply ih rest.length _ rest rfl
      obtain ⟨c, tail, hstart, -⟩ := spelled.starts
      rw [← hn, hstart]
      simp only [List.length_append, List.length_cons]
      omega

/-! ## The lexer on such a text -/

theorem scan_blank {gap : List Char} (blank : Blank gap) (p : Position) :
    scan p gap = p.advanceAll gap >>= fun place => .ok (.ended place) := by
  unfold scan
  rw [takeWhile_blank blank, dropWhile_blank blank]
  rfl

theorem scan_token {gap rest : List Char} {t : Token} (blank : Blank gap) (spelled : Spelled t)
    (ends : t.kind.EndsAt rest) (p : Position) :
    scan p (gap ++ (t.literal.toList ++ rest)) = p.advanceAll gap >>= fun start =>
      start.advanceAll t.literal.toList >>= fun stop => .ok (.found ⟨t, ⟨start, stop⟩⟩ rest) := by
  obtain ⟨taken, dropped⟩ := span_gap blank spelled rest
  unfold scan
  rw [taken, dropped, munch_of_spelled spelled ends]
  cases p.advanceAll gap with
  | error fault => rfl
  | ok start =>
    cases hstop : start.advanceAll t.literal.toList with
    | error fault => simp [hstop, bind, Except.bind]
    | ok stop =>
      simp [hstop, Position.between_of_advanceAll hstop, bind, Except.bind, pure, Except.pure]

theorem lexemesFrom_eq (p : Position) (text : List Char) :
    lexemesFrom p text = scan p text >>= fun found =>
      match found with
      | .ended place => .ok ([], .eofAt place)
      | .found lexeme rest =>
        lexemesFrom lexeme.span.stop rest >>= fun tail => .ok (lexeme :: tail.1, tail.2) := by
  rw [lexemesFrom]
  split
  · rename_i hscan
    rw [hscan]
    rfl
  · rename_i hscan
    rw [hscan]
    rfl
  · rename_i lexeme rest hscan
    rw [hscan]
    cases htail : lexemesFrom lexeme.span.stop rest with
    | error fault => simp [htail, bind, Except.bind]
    | ok tail => simp [htail, bind, Except.bind]

theorem lexemesFrom_blank {gap : List Char} (blank : Blank gap) (p : Position) :
    lexemesFrom p gap = p.advanceAll gap >>= fun place => .ok ([], .eofAt place) := by
  rw [lexemesFrom_eq, scan_blank blank, bind_assoc]
  rfl

theorem lexemesFrom_token {gap rest : List Char} {t : Token} (blank : Blank gap)
    (spelled : Spelled t) (ends : t.kind.EndsAt rest) (p : Position) :
    lexemesFrom p (gap ++ (t.literal.toList ++ rest)) = p.advanceAll gap >>= fun start =>
      start.advanceAll t.literal.toList >>= fun stop =>
        lexemesFrom stop rest >>= fun tail => .ok (⟨t, ⟨start, stop⟩⟩ :: tail.1, tail.2) := by
  rw [lexemesFrom_eq, scan_token blank spelled ends, bind_assoc]
  congr 1
  funext start
  rw [bind_assoc]
  rfl

/-! ## Texts with lexemes -/

/-- From position `p` on, a text has the lexemes `ls` and ends in the empty lexeme `eof`. -/
inductive Laid : Position → List Char → List Lexeme → Lexeme → Prop
  | ended {p place : Position} {gap : List Char} (blank : Blank gap)
      (there : p.advanceAll gap = .ok place) : Laid p gap [] (.eofAt place)
  | found {p start stop : Position} {gap rest : List Char} {t : Token} {ls : List Lexeme}
      {eof : Lexeme} (blank : Blank gap) (spelled : Spelled t) (ends : t.kind.EndsAt rest)
      (first : p.advanceAll gap = .ok start) (last : start.advanceAll t.literal.toList = .ok stop)
      (tail : Laid stop rest ls eof) :
      Laid p (gap ++ (t.literal.toList ++ rest)) (⟨t, ⟨start, stop⟩⟩ :: ls) eof

theorem laid_of_lexemesFrom {p : Position} {text : List Char} {ls : List Lexeme} {eof : Lexeme}
    (h : lexemesFrom p text = .ok (ls, eof)) : Laid p text ls eof := by
  induction text using text_induction generalizing p ls with
  | blank gap blank =>
    rw [lexemesFrom_blank blank] at h
    obtain ⟨place, there, h⟩ := exists_of_bind_eq_ok h
    cases h
    exact .ended blank there
  | token gap t rest blank spelled ends ih =>
    rw [lexemesFrom_token blank spelled ends] at h
    obtain ⟨start, first, h⟩ := exists_of_bind_eq_ok h
    obtain ⟨stop, last, h⟩ := exists_of_bind_eq_ok h
    obtain ⟨⟨ls, eof⟩, tail, h⟩ := exists_of_bind_eq_ok h
    cases h
    exact .found blank spelled ends first last (ih tail)

theorem lexemesFrom_of_laid {p : Position} {text : List Char} {ls : List Lexeme} {eof : Lexeme}
    (h : Laid p text ls eof) : lexemesFrom p text = .ok (ls, eof) := by
  induction h with
  | ended blank there =>
    rw [lexemesFrom_blank blank, there]
    rfl
  | found blank spelled ends first last _ ih =>
    rw [lexemesFrom_token blank spelled ends, first]
    simp [last, ih, bind, Except.bind]

theorem lexemesFrom_eq_ok_iff {p : Position} {text : List Char} {ls : List Lexeme} {eof : Lexeme} :
    lexemesFrom p text = .ok (ls, eof) ↔ Laid p text ls eof :=
  ⟨laid_of_lexemesFrom, lexemesFrom_of_laid⟩

/-- The lexer fails where the positions of the text end. -/
theorem lexemesFrom_eq_error {p : Position} {text : List Char} {fault : Fault}
    (h : p.advanceAll text = .error fault) : lexemesFrom p text = .error fault := by
  induction text using text_induction generalizing p with
  | blank gap blank =>
    rw [lexemesFrom_blank blank, h]
    rfl
  | token gap t rest blank spelled ends ih =>
    rw [lexemesFrom_token blank spelled ends]
    rw [Position.advanceAll_append] at h
    cases first : p.advanceAll gap with
    | error other =>
      rw [first] at h
      cases h
      rfl
    | ok start =>
      rw [first] at h
      replace h : start.advanceAll (t.literal.toList ++ rest) = .error fault := h
      rw [Position.advanceAll_append] at h
      cases last : start.advanceAll t.literal.toList with
      | error other =>
        rw [last] at h
        cases h
        simp [last, bind, Except.bind]
      | ok stop =>
        rw [last] at h
        simp [last, ih h, bind, Except.bind]

theorem tokenize_eq_ok_iff {text : List Char} {all : List Lexeme} :
    tokenize text = .ok all ↔ ∃ ls eof, Laid .start text ls eof ∧ all = ls ++ [eof] := by
  unfold tokenize lexemes
  constructor
  · intro h
    cases hlex : lexemesFrom .start text with
    | error fault =>
      rw [hlex] at h
      cases h
    | ok found =>
      rw [hlex] at h
      cases h
      exact ⟨found.1, found.2, lexemesFrom_eq_ok_iff.mp hlex, rfl⟩
  · rintro ⟨ls, eof, laid, rfl⟩
    rw [lexemesFrom_eq_ok_iff.mpr laid]
    rfl

theorem Laid.advanceAll {p : Position} {text : List Char} {ls : List Lexeme} {eof : Lexeme}
    (h : Laid p text ls eof) : ∃ place, p.advanceAll text = .ok place ∧ eof = .eofAt place := by
  induction h with
  | ended _ there => exact ⟨_, there, rfl⟩
  | found _ _ _ first last _ ih =>
    obtain ⟨place, there, rfl⟩ := ih
    refine ⟨place, ?_, rfl⟩
    rw [Position.advanceAll_append, first]
    change Position.advanceAll _ (_ ++ _) = _
    rw [Position.advanceAll_append, last]
    exact there

theorem Laid.eof_kind {p : Position} {text : List Char} {ls : List Lexeme} {eof : Lexeme}
    (h : Laid p text ls eof) : eof.kind = .eof := by
  obtain ⟨place, -, rfl⟩ := h.advanceAll
  rfl

theorem exists_laid {p place : Position} {text : List Char} (h : p.advanceAll text = .ok place) :
    ∃ ls, Laid p text ls (.eofAt place) := by
  induction text using text_induction generalizing p with
  | blank gap blank => exact ⟨[], .ended blank h⟩
  | token gap t rest blank spelled ends ih =>
    rw [Position.advanceAll_append] at h
    obtain ⟨start, first, h⟩ := exists_of_bind_eq_ok h
    rw [Position.advanceAll_append] at h
    obtain ⟨stop, last, h⟩ := exists_of_bind_eq_ok h
    obtain ⟨ls, tail⟩ := ih h
    exact ⟨_, .found blank spelled ends first last tail⟩

theorem Spelled.byteSize_pos {t : Token} (spelled : Spelled t) :
    0 < Text.byteSize t.literal.toList := by
  obtain ⟨c, tail, hstart, -⟩ := spelled.starts
  rw [hstart, Text.byteSize_cons]
  have := c.utf8Size_pos
  omega

theorem Laid.spelled {p : Position} {text : List Char} {ls : List Lexeme} {eof : Lexeme}
    (h : Laid p text ls eof) : ∀ l ∈ ls, Spelled l.token := by
  induction h with
  | ended => simp
  | found _ spelled _ _ _ _ ih =>
    intro l hl
    rcases List.mem_cons.mp hl with rfl | hl
    · exact spelled
    · exact ih l hl

theorem Laid.filter_eof {p : Position} {text : List Char} {ls : List Lexeme} {eof : Lexeme}
    (h : Laid p text ls eof) : (ls ++ [eof]).filter (·.kind ≠ .eof) = ls := by
  have kept : ls.filter (·.kind ≠ .eof) = ls := by
    rw [List.filter_eq_self]
    intro l hl
    exact decide_eq_true (h.spelled l hl).kind_ne_eof
  rw [List.filter_append, kept]
  simp [h.eof_kind]

theorem Laid.bounds {p : Position} {text : List Char} {ls : List Lexeme} {eof : Lexeme}
    (h : Laid p text ls eof) : ∀ l ∈ ls, p.offset.toNat ≤ l.span.start.offset.toNat ∧
      l.span.start.offset.toNat < l.span.stop.offset.toNat := by
  induction h with
  | ended => simp
  | found _ spelled _ first last _ ih =>
    have := Position.advanceAll_offset first
    have := Position.advanceAll_offset last
    have := spelled.byteSize_pos
    intro l hl
    rcases List.mem_cons.mp hl with rfl | hl
    · dsimp only
      omega
    · obtain ⟨after, nonempty⟩ := ih l hl
      exact ⟨by omega, nonempty⟩

theorem Laid.ordered {p : Position} {text : List Char} {ls : List Lexeme} {eof : Lexeme}
    (h : Laid p text ls eof) :
    ls.Pairwise fun a b => a.span.stop.offset.toNat ≤ b.span.start.offset.toNat := by
  induction h with
  | ended => exact .nil
  | found _ _ _ _ _ tail ih => exact .cons (fun l hl => (tail.bounds l hl).1) ih

/-! ## Texts woven from gaps and tokens -/

/-- The text of tokens, each with a gap before it, and a gap at the end. -/
def weave : List (List Char × Token) → List Char → List Char
  | [], gap => gap
  | (gap, t) :: parts, last => gap ++ (t.literal.toList ++ weave parts last)

/-- Tokens with gaps between them are read back, whatever the gaps are. -/
theorem laid_weave (parts : List (List Char × Token)) (last : List Char) {p place : Position}
    (blank : ∀ part ∈ parts, Blank part.1) (spelled : ∀ part ∈ parts, Spelled part.2)
    (apart : ∀ part ∈ parts.tail, part.1 ≠ []) (blankLast : Blank last)
    (there : p.advanceAll (weave parts last) = .ok place) :
    ∃ ls, Laid p (weave parts last) ls (.eofAt place) ∧ ls.map (·.token) = parts.map (·.2) := by
  induction parts generalizing p with
  | nil => exact ⟨[], .ended blankLast there, rfl⟩
  | cons part parts ih =>
    obtain ⟨gap, t⟩ := part
    rw [weave, Position.advanceAll_append] at there
    obtain ⟨start, hfirst, there⟩ := exists_of_bind_eq_ok there
    rw [Position.advanceAll_append] at there
    obtain ⟨stop, hlast, there⟩ := exists_of_bind_eq_ok there
    have ends : t.kind.EndsAt (weave parts last) := by
      -- the token is followed by a gap that is not empty, or by the last gap, or by nothing
      intro c hc
      apply goesOn_of_isBlank
      cases parts with
      | nil => exact blankLast c (List.mem_of_head? hc)
      | cons next parts =>
        obtain ⟨d, gap, hgap⟩ := List.exists_cons_of_ne_nil (apart next (by simp))
        rw [weave, hgap, List.cons_append, List.head?_cons] at hc
        cases hc
        exact blank next (by simp) c (by rw [hgap]; simp)
    obtain ⟨ls, tail, htokens⟩ := ih (fun part h => blank part (List.mem_cons_of_mem _ h))
      (fun part h => spelled part (List.mem_cons_of_mem _ h))
      (fun part h => apart part (List.mem_of_mem_tail h)) there
    refine ⟨⟨t, ⟨start, stop⟩⟩ :: ls, ?_, ?_⟩
    · exact .found (blank _ List.mem_cons_self) (spelled _ List.mem_cons_self) ends
        hfirst hlast tail
    · rw [List.map_cons, List.map_cons, htokens]

end Frontend

import Frontend.Proofs.Text.Line
import Frontend.Proofs.Text.Slice
import Frontend.Proofs.Token.Layout

/-!
# Places of tokens

`Position.At before p` says what the coordinates of a place count in the text before it. One more
character keeps this (`At.advance`), so it holds of every place that a text leads to
(`at_of_advanceAll`), and the two ends of a token are such places (`Laid.exists_split`). A later
place has a later line, or the same line and a larger column (`At.earlier`), so line and column
together give the offset.
-/

set_option autoImplicit false

namespace Frontend

namespace Position

open Text (byteSize byteSize_append byteSize_cons byteSize_nil lastLine width)

/-! ## What the coordinates count -/

/-- The coordinates of a place count the bytes, the newlines and the columns before it. -/
structure At (before : List Char) (p : Position) : Prop where
  offset : p.offset.toNat = byteSize before
  line : p.line.toNat = 1 + before.count '\n'
  column : p.column.toNat = 1 + width (lastLine before)

theorem at_start : At [] start := ⟨rfl, rfl, rfl⟩

theorem At.advance {before : List Char} {p q : Position} {c : Char} (h : At before p)
    (step : p.advance c = .ok q) : At (before ++ [c]) q := by
  obtain ⟨offset, line, column⟩ := h
  obtain ⟨passed, moved⟩ := advance_cases step
  have size : q.offset.toNat = byteSize (before ++ [c]) := by
    rw [byteSize_append, passed, offset, byteSize_cons, byteSize_nil, Nat.add_zero]
  rcases moved with ⟨rfl, hline, hcolumn⟩ | ⟨rfl, hline, -, hcolumn⟩
    | ⟨newline, tab, hline, hcolumn⟩
  · refine ⟨size, ?_, ?_⟩
    · rw [List.count_append, List.count_singleton_self, hline, line, Nat.add_assoc]
    · rw [Text.lastLine_concat_newline, hcolumn]
      rfl
  · refine ⟨size, ?_, ?_⟩
    · rw [List.count_append, hline, line]
      rfl
    · rw [Text.lastLine_concat (by decide), Text.width_concat, Text.columnAfter, if_pos rfl,
        hcolumn, column]
      omega
  · refine ⟨size, ?_, ?_⟩
    · rw [List.count_append, List.count_singleton, beq_false_of_ne newline, hline, line]
      rfl
    · rw [Text.lastLine_concat newline, Text.width_concat, Text.columnAfter, if_neg tab,
        hcolumn, column, Nat.add_assoc]

theorem At.advanceAll {before cs : List Char} {p q : Position} (h : At before p)
    (there : p.advanceAll cs = .ok q) : At (before ++ cs) q := by
  induction cs generalizing before p with
  | nil =>
    cases there
    rw [List.append_nil]
    exact h
  | cons c cs ih =>
    simp only [Position.advanceAll] at there
    cases step : p.advance c with
    | error fault => simp [step] at there
    | ok middle =>
      rw [step] at there
      have rest := ih (h.advance step) there
      rw [List.append_assoc, List.singleton_append] at rest
      exact rest

theorem at_of_advanceAll {before : List Char} {p : Position} (h : start.advanceAll before = .ok p) :
    At before p := at_start.advanceAll h

theorem exists_advanceAll_left {p q : Position} {xs ys : List Char}
    (h : p.advanceAll (xs ++ ys) = .ok q) :
    ∃ r, p.advanceAll xs = .ok r := by
  rw [advanceAll_append] at h
  obtain ⟨r, there, -⟩ := exists_of_bind_eq_ok h
  exact ⟨r, there⟩

/-! ## The order of places -/

/-- The order by line and then by column. -/
def Earlier (p q : Position) : Prop := p.line < q.line ∨ p.line = q.line ∧ p.column < q.column

theorem At.earlier {before more : List Char} {p q : Position} (first : At before p)
    (second : At (before ++ more) q) (nonempty : more ≠ []) : p.Earlier q := by
  have hline := second.line
  have hcolumn := second.column
  rw [List.count_append] at hline
  by_cases newline : '\n' ∈ more
  · have counted := List.count_pos_iff.mpr newline
    left
    rw [UInt32.lt_iff_toNat_lt, first.line]
    omega
  · -- on one line the later place is past at least one more column
    have wider := Text.add_length_le_widthFrom (width (lastLine before)) more
    have long := List.length_pos_of_ne_nil nonempty
    rw [Text.lastLine_append_of_not_mem before newline, Text.width_append] at hcolumn
    rw [List.count_eq_zero_of_not_mem newline] at hline
    refine .inr ⟨?_, ?_⟩
    · rw [← UInt32.toNat_inj, first.line, hline]
      rfl
    · rw [UInt32.lt_iff_toNat_lt, first.column, hcolumn]
      omega

theorem Earlier.ne {p q : Position} (h : p.Earlier q) :
    ¬ (p.line = q.line ∧ p.column = q.column) := by
  rintro ⟨line, column⟩
  rcases h with later | ⟨-, later⟩
  · rw [line] at later
    exact UInt32.lt_irrefl _ later
  · rw [column] at later
    exact UInt32.lt_irrefl _ later

end Position

/-! ## Prefixes of a text -/

theorem Text.exists_append_of_takeBytes {text before after : List Char} {m n : Nat}
    (first : takeBytes m text = some before) (second : takeBytes n text = some after) (lt : m < n) :
    ∃ more, after = before ++ more ∧ more ≠ [] := by
  obtain ⟨rest, htext, hm⟩ := takeBytes_eq_some_iff.mp first
  obtain ⟨rest', htext', hn⟩ := takeBytes_eq_some_iff.mp second
  obtain ⟨more, hmore, -⟩ := exists_append_of_byteSize_le (htext.symm.trans htext') (by omega)
  refine ⟨more, hmore, ?_⟩
  rintro rfl
  rw [List.append_nil] at hmore
  rw [hmore] at hn
  omega

theorem Position.earlier_of_takeBytes {text before after : List Char} {m n : Nat} {p q : Position}
    (first : Text.takeBytes m text = some before) (second : Text.takeBytes n text = some after)
    (there : start.advanceAll before = .ok p) (there' : start.advanceAll after = .ok q)
    (lt : m < n) :
    p.Earlier q := by
  obtain ⟨more, rfl, nonempty⟩ := Text.exists_append_of_takeBytes first second lt
  exact (at_of_advanceAll there).earlier (at_of_advanceAll there') nonempty

/-! ## The ends of tokens -/

/-- A lexeme stands in the text between two parts, and its span is where they meet. -/
theorem Laid.exists_split {p : Position} {text : List Char} {ls : List Lexeme} {eof : Lexeme}
    (h : Laid p text ls eof) : ∀ l ∈ ls ++ [eof], ∃ before after,
      text = before ++ (l.literal.toList ++ after) ∧ p.advanceAll before = .ok l.span.start ∧
        l.span.start.advanceAll l.literal.toList = .ok l.span.stop := by
  induction h with
  | @ended p place gap blank there =>
    intro l hl
    rw [List.nil_append, List.mem_singleton] at hl
    rw [hl]
    exact ⟨gap, [], (List.append_nil gap).symm, there, rfl⟩
  | @found p start stop gap rest t ls eof blank spelled ends first last tail ih =>
    intro l hl
    rcases List.mem_cons.mp hl with rfl | hl
    · exact ⟨gap, rest, rfl, first, last⟩
    · obtain ⟨before, after, rfl, reached, covered⟩ := ih l hl
      refine ⟨gap ++ (t.literal.toList ++ before), after, by simp, ?_, covered⟩
      rw [Position.advanceAll_append, first]
      change Position.advanceAll _ (_ ++ _) = _
      rw [Position.advanceAll_append, last]
      exact reached

theorem Laid.exists_prefix {text : List Char} {ls : List Lexeme} {eof : Lexeme}
    (h : Laid .start text ls eof) {l : Lexeme} (hl : l ∈ ls ++ [eof]) {p : Position}
    (hp : p = l.span.start ∨ p = l.span.stop) :
    ∃ before, Text.takeBytes p.offset.toNat text = some before ∧
      Position.start.advanceAll before = .ok p := by
  obtain ⟨before, after, rfl, first, last⟩ := h.exists_split l hl
  have reached : ∃ done more, before ++ (l.literal.toList ++ after) = done ++ more ∧
      Position.start.advanceAll done = .ok p := by
    rcases hp with rfl | rfl
    · exact ⟨before, _, rfl, first⟩
    · refine ⟨before ++ l.literal.toList, after, (List.append_assoc ..).symm, ?_⟩
      rw [Position.advanceAll_append, first]
      exact last
  obtain ⟨done, more, htext, there⟩ := reached
  refine ⟨done, Text.takeBytes_eq_some_iff.mpr ⟨more, htext, ?_⟩, there⟩
  exact (Position.at_of_advanceAll there).offset.symm

/-- The two ends of a token are the places that the text before them leads to, and their coordinates
count that text. Of two boundaries between characters the first one has the earlier line and column,
so no two of them have the same. A text without positions has no tokens. -/
theorem tokenize_places (text : List Char) :
    (∀ place, Position.start.advanceAll text = .ok place →
      (∃ tokens, tokenize text = .ok tokens ∧
        ∀ l ∈ tokens, ∀ p, p = l.span.start ∨ p = l.span.stop →
        ∃ before, Text.takeBytes p.offset.toNat text = some before ∧
          Position.start.advanceAll before = .ok p ∧ Position.At before p) ∧
      ∀ m n before before', Text.takeBytes m text = some before →
        Text.takeBytes n text = some before' →
        ∃ p q, Position.start.advanceAll before = .ok p ∧
          Position.start.advanceAll before' = .ok q ∧
          (m < n → p.Earlier q) ∧ (p.line = q.line ∧ p.column = q.column → m = n)) ∧
    (∀ fault, Position.start.advanceAll text = .error fault → tokenize text = .error fault) := by
  refine ⟨fun place there => ⟨?_, ?_⟩, fun fault missing => ?_⟩
  · obtain ⟨ls, laid⟩ := exists_laid there
    refine ⟨_, tokenize_eq_ok_iff.mpr ⟨ls, _, laid, rfl⟩, fun l hl p hp => ?_⟩
    obtain ⟨before, taken, reached⟩ := laid.exists_prefix hl hp
    exact ⟨before, taken, reached, Position.at_of_advanceAll reached⟩
  · intro m n before before' first second
    obtain ⟨rest, htext, -⟩ := Text.takeBytes_eq_some_iff.mp first
    obtain ⟨rest', htext', -⟩ := Text.takeBytes_eq_some_iff.mp second
    obtain ⟨p, hp⟩ := Position.exists_advanceAll_left (htext ▸ there)
    obtain ⟨q, hq⟩ := Position.exists_advanceAll_left (htext' ▸ there)
    refine ⟨p, q, hp, hq, Position.earlier_of_takeBytes first second hp hq, fun same => ?_⟩
    rcases Nat.lt_trichotomy m n with lt | eq | gt
    · exact absurd same (Position.earlier_of_takeBytes first second hp hq lt).ne
    · exact eq
    · refine absurd ⟨same.1.symm, same.2.symm⟩
        (Position.earlier_of_takeBytes second first hq hp gt).ne
  · unfold tokenize lexemes
    rw [lexemesFrom_eq_error missing]
    rfl

/-- Two tokens in the same column, one after a tab on its line and one after a wide character and a
tab. -/
theorem tokenize_places_tabs :
    Position.start.advanceAll "é\t≠\n\tx".toList = .ok ⟨9, 2, 6⟩ ∧
    (∃ tokens, tokenize "é\t≠\n\tx".toList = .ok tokens ∧
      ⟨⟨.ident, "x"⟩, ⟨⟨8, 2, 5⟩, ⟨9, 2, 6⟩⟩⟩ ∈ tokens ∧
      ∃ before, Text.takeBytes 8 "é\t≠\n\tx".toList = some before ∧
        Position.start.advanceAll before = .ok ⟨8, 2, 5⟩ ∧ Position.At before ⟨8, 2, 5⟩) ∧
    ∃ p q, Position.start.advanceAll "é\t".toList = .ok p ∧
      Position.start.advanceAll "é\t≠\n\t".toList = .ok q ∧ p.Earlier q := by
  have there : Position.start.advanceAll "é\t≠\n\tx".toList = .ok ⟨9, 2, 6⟩ := rfl
  have known : tokenize "é\t≠\n\tx".toList = .ok [⟨⟨.illegal, "é"⟩, ⟨⟨0, 1, 1⟩, ⟨2, 1, 2⟩⟩⟩,
      ⟨⟨.illegal, "≠"⟩, ⟨⟨3, 1, 5⟩, ⟨6, 1, 6⟩⟩⟩, ⟨⟨.ident, "x"⟩, ⟨⟨8, 2, 5⟩, ⟨9, 2, 6⟩⟩⟩,
      .eofAt ⟨9, 2, 6⟩] := by decide +kernel
  have first : Text.takeBytes 3 "é\t≠\n\tx".toList = some "é\t".toList := rfl
  have second : Text.takeBytes 8 "é\t≠\n\tx".toList = some "é\t≠\n\t".toList := rfl
  obtain ⟨⟨tokens, tokenized, ends⟩, ordered⟩ := (tokenize_places "é\t≠\n\tx".toList).1 _ there
  obtain ⟨p, q, hp, hq, earlier, -⟩ := ordered 3 8 _ _ first second
  rw [known] at tokenized
  cases tokenized
  have mem : (⟨⟨.ident, "x"⟩, ⟨⟨8, 2, 5⟩, ⟨9, 2, 6⟩⟩⟩ : Lexeme) ∈
      [⟨⟨.illegal, "é"⟩, ⟨⟨0, 1, 1⟩, ⟨2, 1, 2⟩⟩⟩,
      ⟨⟨.illegal, "≠"⟩, ⟨⟨3, 1, 5⟩, ⟨6, 1, 6⟩⟩⟩, ⟨⟨.ident, "x"⟩, ⟨⟨8, 2, 5⟩, ⟨9, 2, 6⟩⟩⟩,
      Lexeme.eofAt ⟨9, 2, 6⟩] := by decide
  exact ⟨there, ⟨_, known, mem, ends _ mem _ (.inl rfl)⟩, p, q, hp, hq, earlier (by decide)⟩

end Frontend

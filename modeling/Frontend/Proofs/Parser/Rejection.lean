import Frontend.Proofs.Parser.Program
import Mathlib.Data.List.Basic

/-!
# What diagnostics point at

A diagnostic has the span of one lexeme, or of the end of the text, and says of it what is true
(`Diagnostic.Describes`). When the parser goes on, it is past that lexeme (`Points`), so no lexeme
gets a second diagnostic and the diagnostics of a program come in the order of their places.
-/

set_option autoImplicit false

namespace Frontend

/-- What a diagnostic says of the lexeme it points at is so, given the lexemes before this one. -/
def Diagnostic.Describes (limit : UInt64) (before : List Lexeme) (l : Lexeme) : Diagnostic → Prop
  | .unexpectedToken expected actual _ => actual = l.kind ∧ actual ≠ expected ∧
      ((expected = .ident ∧ ∃ start word, before = start ++ [word] ∧ word.kind = .letWord) ∨
        (expected = .assign ∧ ∃ start word name, before = start ++ [word, name] ∧
          word.kind = .letWord ∧ name.kind = .ident))
  | .noOperand kind _ =>
    kind = l.kind ∧ kind ≠ .ident ∧ kind ≠ .int ∧ kind ≠ .bang ∧ kind ≠ .minus
  | .integerRange literal _ =>
    l.kind = .int ∧ literal = l.literal ∧ Text.int64Max < Text.decimalValue l.literal.toList
  | .tooDeep max _ => max = limit

theorem Diagnostic.Describes.prepend {limit : UInt64} {before : List Lexeme} {l : Lexeme}
    {d : Diagnostic} (h : d.Describes limit before l) (block : List Lexeme) :
    d.Describes limit (block ++ before) l := by
  cases d with
  | unexpectedToken expected actual span =>
    obtain ⟨hactual, other, place⟩ := h
    refine ⟨hactual, other, ?_⟩
    rcases place with ⟨hexpected, start, word, rfl, hword⟩
      | ⟨hexpected, start, word, name, rfl, kinds⟩
    · exact .inl ⟨hexpected, block ++ start, word, (List.append_assoc ..).symm, hword⟩
    · exact .inr ⟨hexpected, block ++ start, word, name, (List.append_assoc ..).symm, kinds⟩
  | noOperand kind span => exact h
  | integerRange literal span => exact h
  | tooDeep max span => exact h

theorem int64?_eq_none_iff {digits : List Char} :
    Text.int64? digits = none ↔ Text.int64Max < Text.decimalValue digits := by
  unfold Text.int64? Text.int64Bound Text.int64Max
  dsimp only
  split <;> simp only [reduceCtorEq, false_iff, true_iff] <;> omega

namespace Parser

variable {limit : UInt64} {eof : Lexeme}

/-- A diagnostic points at one of the lexemes and describes it, and all that is left comes after
that one; or it points at the end and nothing is left. -/
inductive Points (limit : UInt64) (eof : Lexeme) : List Lexeme → Diagnostic → List Lexeme → Prop
  | lexeme {before rest after : List Lexeme} {l : Lexeme} {d : Diagnostic} (place : d.span = l.span)
      (describes : d.Describes limit before l) (past : after <:+ rest) :
      Points limit eof (before ++ l :: rest) d after
  | ended {ls : List Lexeme} {d : Diagnostic} (place : d.span = eof.span)
      (describes : d.Describes limit ls eof) : Points limit eof ls d []

theorem Points.prepend {ls after : List Lexeme} {d : Diagnostic} (h : Points limit eof ls d after)
    (block : List Lexeme) : Points limit eof (block ++ ls) d after := by
  cases h with
  | lexeme place describes past =>
    rw [← List.append_assoc]
    exact .lexeme place (describes.prepend block) past
  | ended place describes => exact .ended place (describes.prepend block)

theorem Points.of_suffix {ls after rest : List Lexeme} {d : Diagnostic}
    (h : Points limit eof ls d after) (suffix : rest <:+ after) : Points limit eof ls d rest := by
  cases h with
  | lexeme place describes past => exact .lexeme place describes (suffix.trans past)
  | ended place describes =>
    rw [List.suffix_nil.mp suffix]
    exact .ended place describes

theorem Points.head {l : Lexeme} {rest after : List Lexeme} {d : Diagnostic}
    (place : d.span = l.span) (describes : d.Describes limit [] l) (past : after <:+ rest) :
    Points limit eof (l :: rest) d after := by
  rw [← List.nil_append (l :: rest)]
  exact .lexeme place describes past

theorem Points.exists_mem {ls after : List Lexeme} {d : Diagnostic}
    (h : Points limit eof ls d after) :
    ∃ before l rest, ls ++ [eof] = before ++ l :: rest ∧ d.span = l.span ∧
      d.Describes limit before l := by
  cases h with
  | @lexeme before rest after l d place describes past =>
    exact ⟨before, l, rest ++ [eof], by simp, place, describes⟩
  | ended place describes => exact ⟨ls, eof, [], rfl, place, describes⟩

/-! ## Expressions -/

theorem points_outOfRoom (ls : List Lexeme) (ahead : Nat) :
    Points limit eof ls (outOfRoom limit (ls.headD eof).span ahead ls).diagnostic
      (outOfRoom limit (ls.headD eof).span ahead ls).rest := by
  cases ls with
  | nil => exact .ended rfl rfl
  | cons l rest => exact .head rfl rfl (pastSemicolon_cons_suffix l rest)

theorem operand_points (ending : eof.kind = .eof) {nested : List Lexeme → Attempt Expr}
    (hn : ∀ ls r, nested ls = .error r → Points limit eof ls r.diagnostic r.rest) {ls : List Lexeme}
    {r : Rejection} (h : operand eof nested ls = .error r) :
    Points limit eof ls r.diagnostic r.rest := by
  cases ls with
  | nil =>
    cases h
    exact .ended rfl (by rw [ending]; simp [Diagnostic.Describes, ending])
  | cons l rest =>
    cases unary : l.kind.isUnary with
    | true =>
      rw [operand_unary unary] at h
      split at h
      · cases h
      · rename_i rejection heq
        cases h
        exact (hn rest r heq).prepend [l]
    | false =>
      simp only [operand] at h
      split at h
      · cases h
      · rename_i kind
        split at h
        · cases h
        · rename_i range
          cases h
          exact .head rfl ⟨kind, rfl, int64?_eq_none_iff.mp range⟩ List.suffix_rfl
      · rename_i kind
        rw [kind] at unary
        cases unary
      · rename_i kind
        rw [kind] at unary
        cases unary
      · rename_i ident int bang minus
        cases h
        exact .head rfl ⟨rfl, ident, int, bang, minus⟩ List.suffix_rfl

theorem expression_chain_points (ending : eof.kind = .eof) (room : Nat) :
    (∀ least ls r, expression limit eof least room ls = .error r →
      Points limit eof ls r.diagnostic r.rest) ∧
    (∀ least left ls r, chain limit eof least room left ls = .error r →
      Points limit eof ls r.diagnostic r.rest) := by
  induction room with
  | zero =>
    refine ⟨fun least ls r h => ?_, fun least left ls r h => ?_⟩
    · rw [expression] at h
      cases h
      exact points_outOfRoom ls _
    · rcases stops_or_cons least ls with stops | ⟨operator, rest, rfl, hleast⟩
      · rw [chain_of_stops stops] at h
        cases h
      · rw [chain, if_pos hleast] at h
        cases h
        exact points_outOfRoom (operator :: rest) _
  | succ room ih =>
    obtain ⟨ihe, ihc⟩ := ih
    refine ⟨fun least ls r h => ?_, fun least left ls r h => ?_⟩
    · rw [expression] at h
      split at h
      · rename_i left after heq
        obtain ⟨block, rfl, -⟩ := operand_sound (fun _ _ _ => expression_sound) heq
        exact (ihc least left after r h).prepend block
      · rename_i rejection heq
        cases h
        exact operand_points ending (ihe .unary) heq
    · rcases stops_or_cons least ls with stops | ⟨operator, rest, rfl, hleast⟩
      · rw [chain_of_stops stops] at h
        cases h
      · rw [chain_cons hleast] at h
        split at h
        · rename_i right after heq
          obtain ⟨block, rfl, -⟩ := expression_sound heq
          exact (ihc least _ after r h).prepend (operator :: block)
        · rename_i rejection heq
          cases h
          exact (ihe _ rest r heq).prepend [operator]

/-! ## Statements -/

theorem broken_points (before : List Lexeme) (expected : Kind) (rest : List Lexeme)
    (wrong : (rest.headD eof).kind ≠ expected)
    (place : (expected = .ident ∧ ∃ start word, before = start ++ [word] ∧ word.kind = .letWord) ∨
      (expected = .assign ∧ ∃ start word name, before = start ++ [word, name] ∧
        word.kind = .letWord ∧ name.kind = .ident)) {d : Diagnostic} {n : Nat} {after : List Lexeme}
    (h : broken eof expected rest = (⟨.rejected d, n⟩, after)) :
    Points limit eof (before ++ rest) d after := by
  cases h
  cases rest with
  | nil =>
    rw [List.append_nil]
    exact .ended rfl ⟨rfl, wrong, place⟩
  | cons l rest => exact .lexeme rfl ⟨rfl, wrong, place⟩ (pastSemicolon_cons_suffix l rest)

theorem bindingAfter_points (ending : eof.kind = .eof) {first : Lexeme} {rest after : List Lexeme}
    {d : Diagnostic} {n : Nat} (word : first.kind = .letWord)
    (h : bindingAfter first eof rest = (⟨.rejected d, n⟩, after)) :
    Points limit eof (first :: rest) d after := by
  have noName : (.ident : Kind) = .ident ∧ ∃ start w, [first] = start ++ [w] ∧ w.kind = .letWord :=
    ⟨rfl, [], first, rfl, word⟩
  cases rest with
  | nil =>
    refine broken_points [first] .ident [] ?_ (.inl noName) h
    rw [List.headD_nil, ending]
    decide
  | cons name rest =>
    by_cases named : name.kind = .ident
    · have noSign : (.assign : Kind) = .assign ∧ ∃ start w n, [first, name] = start ++ [w, n] ∧
          w.kind = .letWord ∧ n.kind = .ident := ⟨rfl, [], first, name, rfl, word, named⟩
      cases rest with
      | nil =>
        rw [bindingAfter_ended named] at h
        refine broken_points [first, name] .assign [] ?_ (.inr noSign) h
        rw [List.headD_nil, ending]
        decide
      | cons sign rest =>
        by_cases signed : sign.kind = .assign
        · rw [bindingAfter_signed named signed] at h
          cases h
        · rw [bindingAfter_unsigned named signed] at h
          exact broken_points [first, name] .assign (sign :: rest) signed (.inr noSign) h
    · rw [bindingAfter_unnamed named] at h
      exact broken_points [first] .ident (name :: rest) named (.inl noName) h

theorem statement_points (ending : eof.kind = .eof) {first : Lexeme} {rest after : List Lexeme}
    {d : Diagnostic} {n : Nat} (h : statement limit eof first rest = (⟨.rejected d, n⟩, after)) :
    Points limit eof (first :: rest) d after := by
  unfold statement at h
  split at h
  · exact bindingAfter_points ending ‹_› h
  · cases h
  · unfold expressionStatement at h
    split at h
    · cases h
    · rename_i rejection heq
      cases h
      have points :=
        (expression_chain_points ending limit.toNat).1 .lowest (first :: rest) rejection heq
      exact points.of_suffix (List.dropWhile_suffix _)

/-! ## Programs -/

theorem mem_diagnosticsOf {items : List Item} {d : Diagnostic} :
    d ∈ diagnosticsOf items ↔ ∃ item ∈ items, item.outcome = .rejected d := by
  unfold diagnosticsOf
  rw [List.mem_filterMap]
  refine exists_congr fun item => and_congr_right fun _ => ?_
  cases item.outcome <;> simp

theorem diagnosticsOf_cons (item : Item) (items : List Item) :
    diagnosticsOf (item :: items) =
      match item.outcome with
      | .accepted _ => diagnosticsOf items
      | .rejected d => d :: diagnosticsOf items := by
  rcases item with ⟨_ | _, _⟩ <;> rfl

theorem exists_points_of_mem (ending : eof.kind = .eof) {ls : List Lexeme} {d : Diagnostic}
    (h : d ∈ diagnosticsOf (items limit eof ls)) : ∃ after, Points limit eof ls d after := by
  obtain ⟨item, hitem, outcome⟩ := mem_diagnosticsOf.mp h
  obtain ⟨before, first, rest, rfl, rfl⟩ := exists_of_mem_items hitem
  have step : statement limit eof first rest =
      (⟨.rejected d, (statement limit eof first rest).1.ahead⟩,
        (statement limit eof first rest).2) := by
    rw [← outcome]
  exact ⟨_, (statement_points ending step).prepend before⟩

/-- The order of lexemes by the places where they start. -/
def Ascending (ls : List Lexeme) : Prop :=
  ls.Pairwise fun a b => a.span.start.offset < b.span.start.offset

/-- What comes later in the lexemes has later diagnostics. -/
theorem Points.lt (ending : eof.kind = .eof) {ls after : List Lexeme} {d e : Diagnostic}
    (ascending : Ascending (ls ++ [eof])) (h : Points limit eof ls d after)
    (later : e ∈ diagnosticsOf (items limit eof after)) :
    d.span.start.offset < e.span.start.offset := by
  cases h with
  | @lexeme before rest after l d place describes past =>
    obtain ⟨rest', points⟩ := exists_points_of_mem ending later
    obtain ⟨skipped, l', tail, hl', place', -⟩ := points.exists_mem
    obtain ⟨block, rfl⟩ := past
    rw [List.append_assoc, List.cons_append] at ascending
    have after := (List.pairwise_cons.mp (List.pairwise_append.mp ascending).2.1).1
    rw [place, place']
    apply after
    rw [List.append_assoc, hl']
    simp
  | ended place describes =>
    rw [items] at later
    cases later

theorem diagnosticsOf_ascending (ending : eof.kind = .eof) {ls : List Lexeme}
    (ascending : Ascending (ls ++ [eof])) : (diagnosticsOf (items limit eof ls)).Pairwise
      fun d e => d.span.start.offset < e.span.start.offset := by
  fun_induction items limit eof ls with
  | case1 => exact .nil
  | case2 first rest result ih =>
    have others := by
      apply ih
      obtain ⟨used, hused⟩ := statement_suffix limit eof first rest
      rw [← hused, ← List.cons_append, List.append_assoc] at ascending
      exact (List.pairwise_append.mp ascending).2.1
    rw [diagnosticsOf_cons]
    split
    · exact others
    · rename_i d outcome
      have step : statement limit eof first rest = (⟨.rejected d, result.1.ahead⟩, result.2) := by
        rw [← outcome]
      exact .cons (fun e he => (statement_points ending step).lt ending ascending he) others

end Parser

/-! ## Texts -/

theorem Laid.le_eof {p : Position} {text : List Char} {ls : List Lexeme} {eof : Lexeme}
    (h : Laid p text ls eof) :
    p.offset.toNat ≤ eof.span.start.offset.toNat ∧
      ∀ l ∈ ls, l.span.stop.offset.toNat ≤ eof.span.start.offset.toNat := by
  induction h with
  | @ended p place gap blank there =>
    have offset := Position.advanceAll_offset there
    change _ ≤ place.offset.toNat ∧ _
    exact ⟨by omega, by simp⟩
  | found _ _ _ first last _ ih =>
    have := Position.advanceAll_offset first
    have := Position.advanceAll_offset last
    refine ⟨by omega, ?_⟩
    intro l hl
    rcases List.mem_cons.mp hl with rfl | hl
    · exact ih.1
    · exact ih.2 l hl

theorem Laid.ascending {p : Position} {text : List Char} {ls : List Lexeme} {eof : Lexeme}
    (h : Laid p text ls eof) : Parser.Ascending (ls ++ [eof]) := by
  refine List.pairwise_append.mpr ⟨?_, List.pairwise_singleton _ _, ?_⟩
  · apply h.ordered.imp_of_mem
    intro a b ha _ hab
    have nonempty := (h.bounds a ha).2
    rw [UInt64.lt_iff_toNat_lt]
    omega
  · intro a ha b hb
    rw [List.mem_singleton.mp hb, UInt64.lt_iff_toNat_lt]
    have nonempty := (h.bounds a ha).2
    have before := h.le_eof.2 a ha
    omega

/-- The diagnostics of a text come in the order of their places, and each of them points at a token
of the text and says of it what is so. A text without positions has no diagnostics, and parsing
fails. -/
theorem parse_diagnostics_described (limit : UInt64) (text : List Char) :
    (∀ place, Position.start.advanceAll text = .ok place → ∃ p ds, parse limit text = .ok (p, ds) ∧
      (ds.Pairwise fun d e => d.span.start.offset < e.span.start.offset) ∧
      ∀ d ∈ ds, ∃ before l after, tokenize text = .ok (before ++ l :: after) ∧ d.span = l.span ∧
        d.Describes limit before l) ∧
    (∀ fault, Position.start.advanceAll text = .error fault → parse limit text = .error fault) := by
  refine ⟨fun place there => ?_, fun fault missing => parse_eq_error missing⟩
  obtain ⟨ls, laid⟩ := exists_laid there
  refine ⟨_, _, parse_eq_ok_iff.mpr ⟨ls, .eofAt place, laid, rfl, rfl⟩,
    Parser.diagnosticsOf_ascending laid.eof_kind laid.ascending, ?_⟩
  intro d hd
  obtain ⟨rest, points⟩ := Parser.exists_points_of_mem laid.eof_kind hd
  obtain ⟨before, l, after, hall, place, describes⟩ := points.exists_mem
  exact ⟨before, l, after, tokenize_eq_ok_iff.mpr ⟨ls, _, laid, hall.symm⟩, place, describes⟩

theorem parse_diagnostics_described_unfinished :
    parse 256 "); 1 +".toList = .ok (⟨[]⟩, [.noOperand .rparen ⟨⟨0, 1, 1⟩, ⟨1, 1, 2⟩⟩,
      .noOperand .eof ⟨⟨6, 1, 7⟩, ⟨6, 1, 7⟩⟩]) ∧
      ∃ before l after, tokenize "); 1 +".toList = .ok (before ++ l :: after) ∧
        l.span = ⟨⟨6, 1, 7⟩, ⟨6, 1, 7⟩⟩ ∧ l.kind = .eof := by
  have parsed : parse 256 "); 1 +".toList = .ok (⟨[]⟩, [.noOperand .rparen ⟨⟨0, 1, 1⟩, ⟨1, 1, 2⟩⟩,
      .noOperand .eof ⟨⟨6, 1, 7⟩, ⟨6, 1, 7⟩⟩]) := by decide +kernel
  have there : Position.start.advanceAll "); 1 +".toList = .ok ⟨6, 1, 7⟩ := rfl
  obtain ⟨p, ds, found, -, described⟩ := (parse_diagnostics_described 256 "); 1 +".toList).1 _ there
  rw [parsed] at found
  cases found
  obtain ⟨before, l, after, tokens, place, describes⟩ :=
    described _ (List.mem_cons_of_mem _ List.mem_cons_self)
  exact ⟨parsed, before, l, after, tokens, place.symm, describes.1.symm⟩

end Frontend

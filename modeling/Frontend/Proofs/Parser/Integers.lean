import Mathlib.Data.List.TakeWhile
import Mathlib.Data.Nat.Digits.Defs
import Frontend.Proofs.Json.Reading
import Frontend.Proofs.Parser.Height
import Frontend.Proofs.Parser.Rejection
import Frontend.Proofs.Parser.RoundTrip
import Frontend.Proofs.Token.Content

/-!
# Integers in programs

The sign of an integer is an operator, and only the digits after it are converted. So the decimal
text of a signed 64-bit word is read as the expression `Expr.ofInt64` of the word, if the digits by
themselves fit into such a word. They do for all words but the least one, whose digits are one too
many; a number that does not fit is the only thing that is reported, whatever operators stand before
it (`expression_outOfRange`).
-/

set_option autoImplicit false

namespace Frontend

/-! ## The text of an integer -/

/-- The expression that is written as the decimal text of a word, without spans. -/
def Expr.ofInt64 (v : Int64) : Expr :=
  if 0 ≤ v.toInt then .integer ⟨.int, toString v.toInt⟩ v .placeholder
  else .unary ⟨.minus, "-"⟩ "-"
    (.integer ⟨.int, toString (-v.toInt)⟩ (-v) .placeholder) .placeholder

/-- Digits, with minus signs before and semicolons after them. -/
def signed (signs : Nat) (digits : List Char) (ends : Nat) : List Char :=
  List.replicate signs '-' ++ (digits ++ List.replicate ends ';')

section

variable {digits : List Char} (nonempty : digits ≠ []) (all : ∀ c ∈ digits, c.isDigit)
  (signs ends : Nat)

theorem consists_semicolons :
    Consists (List.replicate ends ';') (List.replicate ends ⟨.semicolon, ";"⟩) := by
  induction ends with
  | zero => exact .ended nofun
  | succ ends ih => exact .token (t := ⟨.semicolon, ";"⟩) (.mark .semicolon rfl) (fun _ _ => rfl) ih

include nonempty all in
theorem consists_signed :
    Consists (signed signs digits ends) (List.replicate signs ⟨.minus, "-"⟩ ++
      ⟨.int, .ofList digits⟩ :: List.replicate ends ⟨.semicolon, ";"⟩) := by
  induction signs with
  | zero =>
    have boundary : Kind.int.EndsAt (List.replicate ends ';') := by
      intro c hc
      rw [List.eq_of_mem_replicate (List.mem_of_head? hc)]
      decide
    have held := Consists.token (.number digits nonempty all) boundary (consists_semicolons ends)
    rwa [String.toList_ofList] at held
  | succ signs ih => exact .token (t := ⟨.minus, "-"⟩) (.mark .minus rfl) (fun _ _ => rfl) ih

include all in
theorem plain_signed : ∀ c ∈ signed signs digits ends, Position.Plain c := by
  intro c hc
  rcases List.mem_append.mp hc with hc | hc
  · rw [List.eq_of_mem_replicate hc]
    exact plain_of_toNat (by decide) (by decide)
  · rcases List.mem_append.mp hc with hc | hc
    · exact plain_of_isDigit (all c hc)
    · rw [List.eq_of_mem_replicate hc]
      exact plain_of_toNat (by decide) (by decide)

end

/-! ## Numbers that fit -/

namespace Parser

variable {limit : UInt64} {eof : Lexeme}

/-- An expression with any number of semicolons after it. -/
theorem items_of_reads {e : Expr} {block run : List Lexeme} (reads : Reads e block)
    (graded : e.Graded) (fits : e.cost ≤ limit.toNat) (semicolons : ∀ l ∈ run, l.kind = .semicolon)
    (eof : Lexeme) :
    ∃ token span, items limit eof (block ++ run) = [⟨.accepted (.expression token e span), 0⟩] := by
  obtain ⟨first, block, rfl⟩ := List.exists_cons_of_ne_nil reads.ne_nil
  have stops : Stops .lowest run := by
    intro l hl
    rw [semicolons l (List.mem_of_head? hl)]
    decide
  rw [← List.append_nil run] at stops
  have accepts : Accepts limit eof (first :: (block ++ (run ++ []))) _ [] :=
    .expression ⟨reads, graded, reads.above_lowest, stops⟩ fits semicolons nofun
  rw [List.append_nil] at accepts
  exact ⟨_, _, items_of_accepts accepts⟩

/-! ## Numbers that do not fit -/

section

variable {l : Lexeme} (kind : l.kind = .int)
  (large : Text.int64Max < Text.decimalValue l.literal.toList)
include kind large

/-- Operators before a number have no influence on whether it fits. -/
theorem expression_outOfRange {signs : List Lexeme} (unary : ∀ sign ∈ signs, sign.kind.isUnary)
    (least : Precedence) {room : Nat} (fits : signs.length < room) (rest : List Lexeme) :
    expression limit eof least room (signs ++ l :: rest) =
      .error ⟨.integerRange l.literal l.span, rest.length, rest⟩ := by
  induction signs generalizing least room with
  | nil =>
    obtain ⟨room, rfl⟩ := Nat.exists_eq_succ_of_ne_zero (Nat.ne_of_gt fits)
    have failed (nested : List Lexeme → Attempt Expr) :
        operand eof nested (l :: rest) = .error
          ⟨.integerRange l.literal l.span, rest.length, rest⟩ := by
      simp only [operand, kind, int64?_eq_none_iff.mpr large]
    rw [List.nil_append, expression, failed]
  | cons sign signs ih =>
    rw [List.length_cons] at fits
    obtain ⟨room, rfl⟩ := Nat.exists_eq_succ_of_ne_zero (show room ≠ 0 by omega)
    have inner : expression limit eof .unary room (signs ++ l :: rest) = _ :=
      ih (fun sign hs => unary sign (List.mem_cons_of_mem _ hs)) .unary (by omega)
    rw [List.cons_append, expression, operand_unary (unary sign List.mem_cons_self), inner]

theorem items_outOfRange {signs run : List Lexeme} (unary : ∀ sign ∈ signs, sign.kind.isUnary)
    (fits : signs.length < limit.toNat) (semicolons : ∀ l ∈ run, l.kind = .semicolon) :
    items limit eof (signs ++ l :: run) =
      [⟨.rejected (.integerRange l.literal l.span), run.length⟩] := by
  obtain ⟨first, rest, split, start⟩ : ∃ first rest, signs ++ l :: run = first :: rest ∧
      (first.kind = .int ∨ first.kind.isUnary) := by
    cases signs with
    | nil => exact ⟨l, run, rfl, .inl kind⟩
    | cons sign signs => exact ⟨sign, signs ++ l :: run, rfl, .inr (unary sign List.mem_cons_self)⟩
  -- neither `let` nor `return` stands first
  have other : statement limit eof first rest = expressionStatement limit first eof rest := by
    unfold statement
    split
    · rename_i word
      simp [word, Kind.isUnary] at start
    · rename_i word
      simp [word, Kind.isUnary] at start
    · rfl
  have failed : expression limit eof .lowest limit.toNat (signs ++ l :: run) = _ :=
    expression_outOfRange kind large unary .lowest fits run
  have dropped : run.dropWhile (·.kind = .semicolon) = [] := by
    rw [List.dropWhile_eq_nil_iff]
    simpa using semicolons
  rw [split] at failed ⊢
  rw [items_cons, other, expressionStatement, failed]
  simp only [dropped, items]

end

end Parser

/-! ## Words -/

theorem toInt_neg_of_ne_minValue {v : Int64} (h : v ≠ Int64.minValue) : (-v).toInt = -v.toInt := by
  have least : v.toInt ≠ -2 ^ 63 := by
    intro same
    exact h (Int64.toInt_inj.mp (same.trans Int64.toInt_minValue.symm))
  have := v.toInt_lt
  have := v.le_toInt
  rw [Int64.toInt_neg, Int.bmod]
  split <;> omega

theorem toList_toString_of_nonneg {i : Int} (h : 0 ≤ i) :
    (toString i).toList = Nat.toDigits 10 i.natAbs := by
  rw [Json.toList_toString, if_pos h]
  congr 1
  omega

namespace Expr

theorem formed_number {i : Int} (h : 0 ≤ i) {v : Int64} (hv : v.toInt = i) (span : Span) :
    (integer ⟨.int, toString i⟩ v span).Formed := by
  have text := toList_toString_of_nonneg h
  have value : Text.decimalValue (Nat.toDigits 10 i.natAbs) = i.natAbs :=
    Json.decimalValue_toDigits _
  have := v.toInt_lt
  unfold Formed
  dsimp only
  rw [text, value]
  refine ⟨rfl, Nat.toDigits_ne_nil, Json.isDigit_toDigits _, ?_, ?_⟩
  · unfold Text.int64Max
    omega
  · omega

theorem formed_ofInt64 {v : Int64} (h : v ≠ Int64.minValue) : (ofInt64 v).Formed := by
  unfold ofInt64
  split
  · rename_i sign
    exact formed_number sign rfl _
  · rename_i sign
    exact ⟨rfl, rfl, rfl, formed_number (by omega) (toInt_neg_of_ne_minValue h) _⟩

theorem graded_ofInt64 (v : Int64) : (ofInt64 v).Graded := by
  unfold ofInt64
  split
  · trivial
  · exact ⟨rfl, trivial⟩

theorem cost_ofInt64 (v : Int64) : (ofInt64 v).cost ≤ 2 := by
  unfold ofInt64
  split <;> simp [cost]

theorem tokens_ofInt64 (v : Int64) : (ofInt64 v).tokens =
    List.replicate (if 0 ≤ v.toInt then 0 else 1) ⟨.minus, "-"⟩ ++
      [⟨.int, .ofList (Nat.toDigits 10 v.toInt.natAbs)⟩] := by
  unfold ofInt64
  split
  · rename_i sign
    rw [← toList_toString_of_nonneg sign, String.ofList_toList]
    rfl
  · rename_i sign
    rw [← Int.natAbs_neg, ← toList_toString_of_nonneg (by omega), String.ofList_toList]
    rfl

theorem bare_ofInt64 (v : Int64) : (ofInt64 v).bare = ofInt64 v := by
  unfold ofInt64
  split <;> rfl

end Expr

/-- The decimal text of a word. -/
theorem toString_eq_signed (v : Int64) : (toString v.toInt).toList ++ [';'] =
    signed (if 0 ≤ v.toInt then 0 else 1) (Nat.toDigits 10 v.toInt.natAbs) 1 := by
  rw [Json.toList_toString]
  split
  · rename_i sign
    rw [show v.toInt.toNat = v.toInt.natAbs by omega]
    rfl
  · rename_i sign
    rw [show (-v.toInt).toNat = v.toInt.natAbs by omega]
    rfl

/-! ## Programs -/

theorem token_of_map_eq_replicate {ls : List Lexeme} {n : Nat} {t : Token}
    (h : ls.map (·.token) = List.replicate n t) : ∀ l ∈ ls, l.token = t := by
  intro l hl
  apply List.eq_of_mem_replicate (n := n)
  rw [← h]
  exact List.mem_map_of_mem hl

section

variable {limit : UInt64} {digits : List Char} (all : ∀ c ∈ digits, c.isDigit)
include all

theorem exists_laid_signed (nonempty : digits ≠ []) {signs ends : Nat}
    (short : (signed signs digits ends).length + 1 < UInt32.size) :
    ∃ minuses l run place, Laid .start (signed signs digits ends) (minuses ++ l :: run)
      (.eofAt place) ∧
      minuses.map (·.token) = List.replicate signs ⟨.minus, "-"⟩ ∧
      l.token = ⟨.int, .ofList digits⟩ ∧
      ∀ l ∈ run, l.kind = .semicolon := by
  obtain ⟨place, there⟩ := Position.exists_advanceAll_line (plain_signed all signs ends) short
  obtain ⟨ls, laid, tokens⟩ := (consists_signed nonempty all signs ends).exists_laid there
  obtain ⟨minuses, tail, rfl, front, back⟩ := List.map_eq_append_iff.mp tokens
  obtain ⟨l, run, rfl, number, semicolons⟩ := List.map_eq_cons_iff.mp back
  refine ⟨minuses, l, run, place, laid, front, number, fun l hl => ?_⟩
  rw [Lexeme.kind, token_of_map_eq_replicate semicolons l hl]

theorem parse_signed_large (large : Text.int64Max < Text.decimalValue digits) (signs : Nat)
    (fits : signs < limit.toNat) (ends : Nat)
    (short : (signed signs digits ends).length + 1 < UInt32.size) :
    ∃ span, parse limit (signed signs digits ends) =
      .ok (⟨[]⟩, [.integerRange (.ofList digits) span]) := by
  have nonempty : digits ≠ [] := by
    rintro rfl
    exact absurd large (by decide)
  obtain ⟨minuses, l, run, place, laid, front, number, semicolons⟩ :=
    exists_laid_signed all nonempty short
  have unary : ∀ sign ∈ minuses, sign.kind.isUnary := by
    intro sign hsign
    rw [Lexeme.kind, token_of_map_eq_replicate front sign hsign]
    rfl
  have count : minuses.length = signs := by simpa using congrArg List.length front
  have kind : l.kind = .int := by rw [Lexeme.kind, number]
  have literal : l.literal = .ofList digits := by rw [Lexeme.literal, number]
  have items : Parser.items limit (.eofAt place) (minuses ++ l :: run) = _ :=
    Parser.items_outOfRange kind (by rw [literal, String.toList_ofList]; exact large) unary
      (by omega) semicolons
  rw [literal] at items
  refine ⟨l.span, parse_eq_ok_iff.mpr ⟨_, _, laid, ?_, ?_⟩⟩ <;> rw [items] <;> rfl

end

theorem length_signed_toDigits {n : Nat} (small : n < 10 ^ 19) {signs : Nat} (h : signs ≤ 1) :
    (signed signs (Nat.toDigits 10 n) 1).length + 1 < UInt32.size := by
  have := Nat.toDigits_length 10 n 19 (by decide) small
  simp only [signed, List.length_append, List.length_replicate]
  change _ < 4294967296
  omega

theorem parse_toString {limit : UInt64} (deep : 2 ≤ limit.toNat) {v : Int64}
    (h : v ≠ Int64.minValue) :
    ∃ token e span, parse limit ((toString v.toInt).toList ++ [';']) =
      .ok (⟨[.expression token e span]⟩, []) ∧
      e.bare = .ofInt64 v := by
  have := v.toInt_lt
  have := v.le_toInt
  have short :
      (signed (if 0 ≤ v.toInt then 0 else 1) (Nat.toDigits 10 v.toInt.natAbs) 1).length + 1 <
        UInt32.size :=
    length_signed_toDigits (by omega) (by split <;> omega)
  obtain ⟨minuses, l, run, place, laid, front, number, semicolons⟩ :=
    exists_laid_signed (Json.isDigit_toDigits _) Nat.toDigits_ne_nil short
  have block : (minuses ++ [l]).map (·.token) = (Expr.ofInt64 v).tokens := by
    rw [Expr.tokens_ofInt64, List.map_append, front, List.map_singleton, number]
  obtain ⟨e, reads, same⟩ := exists_reads (Expr.formed_ofInt64 h) block
  have graded : e.Graded := by
    rw [← Expr.graded_bare, same, Expr.graded_bare]
    exact Expr.graded_ofInt64 v
  have cost : e.cost ≤ limit.toNat := by
    rw [← Expr.cost_bare, same, Expr.cost_bare]
    exact (Expr.cost_ofInt64 v).trans deep
  obtain ⟨token, span, items⟩ := Parser.items_of_reads reads graded cost semicolons (.eofAt place)
  rw [List.append_assoc, List.singleton_append] at items
  rw [toString_eq_signed]
  refine ⟨token, e, span, parse_eq_ok_iff.mpr ⟨_, _, laid, ?_, ?_⟩,
    same.trans (Expr.bare_ofInt64 v)⟩ <;>
    rw [items] <;> rfl

/-- Every signed 64-bit word but the least one is read from its decimal text. In the text of the
least one, and in any text of digits that are too large, with minus signs before and semicolons
after them, nothing but the digits is reported, as far as the text has positions. -/
theorem parse_integers {limits : Limits} {profile : String}
    (admitted : limits.problem? profile = none) :
    (∀ v : Int64, let text := (toString v.toInt).toList ++ [';']
      (v ≠ Int64.minValue → ∃ token e span,
        parse limits.maxParseDepth text = .ok (⟨[.expression token e span]⟩, []) ∧
        e.bare = .ofInt64 v) ∧
      (v = Int64.minValue → ∃ span,
        parse limits.maxParseDepth text = .ok (⟨[]⟩, [.integerRange "9223372036854775808" span]))) ∧
    ∀ digits : List Char, (∀ c ∈ digits, c.isDigit) → Text.int64Max < Text.decimalValue digits →
      ∀ signs ends, signs < limits.maxParseDepth.toNat →
        ((signed signs digits ends).length + 1 < UInt32.size → ∃ span,
          parse limits.maxParseDepth (signed signs digits ends) =
            .ok (⟨[]⟩, [.integerRange (.ofList digits) span])) ∧
        (UInt32.size ≤ (signed signs digits ends).length + 1 →
          parse limits.maxParseDepth (signed signs digits ends) = .error .addOverflow) := by
  obtain ⟨deep, -⟩ := Limits.maxParseDepth_bounds admitted
  refine ⟨fun v => ⟨fun other => parse_toString (by omega) other, ?_⟩, ?_⟩
  · rintro rfl
    have value : Int64.minValue.toInt.natAbs = 9223372036854775808 := by decide
    have large : Text.int64Max < Text.decimalValue (Nat.toDigits 10 9223372036854775808) := by
      rw [Json.decimalValue_toDigits]
      decide
    obtain ⟨span, parsed⟩ := parse_signed_large (Json.isDigit_toDigits _) large 1
      (show 1 < limits.maxParseDepth.toNat by omega) 1
        (length_signed_toDigits (by decide) (Nat.le_refl 1))
    rw [toString_eq_signed, if_neg (by decide), value]
    exact ⟨span, parsed⟩
  · intro digits all large signs ends fits
    exact ⟨fun short => parse_signed_large all large signs fits ends short,
      fun long => parse_eq_error
        (Position.advanceAll_line_overflow (plain_signed all signs ends) long)⟩

theorem parse_integers_bounds :
    Build.development.limits.problem? Build.development.profile = none ∧
      (∃ token e span, parse 256 "9223372036854775807;".toList =
        .ok (⟨[.expression token e span]⟩, []) ∧
        e.bare = .integer ⟨.int, "9223372036854775807"⟩ 9223372036854775807 .placeholder) ∧
      (∃ token e span, parse 256 "-9223372036854775807;".toList =
        .ok (⟨[.expression token e span]⟩, []) ∧
        e.bare = .unary ⟨.minus, "-"⟩ "-"
          (.integer ⟨.int, "9223372036854775807"⟩ 9223372036854775807 .placeholder)
          .placeholder) ∧
      ∃ span, parse 256 "009223372036854775808;".toList =
        .ok (⟨[]⟩, [.integerRange "009223372036854775808" span]) := by
  have admitted : Build.development.limits.problem? Build.development.profile = none := by decide
  obtain ⟨words, large⟩ := parse_integers admitted
  have most := (words Int64.maxValue).1 (by decide)
  have least := (words (-Int64.maxValue)).1 (by decide)
  have tooLarge :=
    (large "009223372036854775808".toList (List.all_eq_true.mp (by decide)) (by decide) 0 1
      (by decide)).1
    (by decide)
  have positive : (toString Int64.maxValue.toInt).toList ++ [';'] =
      "9223372036854775807;".toList := by decide
  have negative : (toString (-Int64.maxValue).toInt).toList ++ [';'] =
      "-9223372036854775807;".toList := by decide
  rw [positive] at most
  rw [negative] at least
  exact ⟨admitted, most, least, tooLarge⟩

/-- The least signed 64-bit word can not be written, although the advice on integers that do not fit
names it as the first one that does. -/
theorem parse_integers_least :
    toString Int64.minValue.toInt = "-9223372036854775808" ∧
      Code.integerRange.entry.action =
        "Use a value between -9223372036854775808 and 9223372036854775807" ∧
      ∃ span, parse 256 "-9223372036854775808;".toList =
        .ok (⟨[]⟩, [.integerRange "9223372036854775808" span]) := by
  have rejected : ∃ span, parse 256 (signed 1 "9223372036854775808".toList 1) =
      .ok (⟨[]⟩, [.integerRange (.ofList "9223372036854775808".toList) span]) :=
    parse_signed_large (List.all_eq_true.mp (by decide)) (by decide) 1 (by decide) 1
      (by decide)
  exact ⟨by decide, by decide, rejected⟩

end Frontend

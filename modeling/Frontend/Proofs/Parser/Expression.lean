import Frontend.Parser.Statement
import Frontend.Proofs.Tree.Reading

/-!
# What the expression parser does

`expression` returns an expression with some of the lexemes left over exactly if the lexemes used up
are read by the expression, the expression is graded, the next lexeme does not go on with it, and it
costs no more than the room there is (`expression_eq_ok_iff`). A reading that costs more is given up
with the nesting limit as the reason (`expression_tooDeep`).

The parser goes along chains of left operands, so the completeness half says what is left to do when
an expression has been read: to chain on to it, with one level less for every operator of its chain
(`expression_eq_chain`).
-/

set_option autoImplicit false

namespace Frontend.Parser

variable {limit : UInt64} {eof : Lexeme}

/-- The first lexeme is no operator that is stronger than `least`. -/
def Stops (least : Precedence) (rest : List Lexeme) : Prop :=
  ∀ l, rest.head? = some l → l.kind.precedence ≤ least

/-- An expression between operands is not gone on with inside its right operand. -/
def Closed (e : Expr) (rest : List Lexeme) : Prop := ∀ p, e.strength? = some p → Stops p rest

theorem stops_cons {least : Precedence} {l : Lexeme} {rest : List Lexeme} :
    Stops least (l :: rest) ↔ l.kind.precedence ≤ least := by
  simp [Stops]

theorem stops_unary (rest : List Lexeme) : Stops .unary rest := fun l _ =>
  Nat.le_of_lt (Kind.precedence_lt_unary l.kind)

theorem Stops.mono {p q : Precedence} (hpq : p ≤ q) {rest : List Lexeme} (h : Stops p rest) :
    Stops q rest := fun l hl => Nat.le_trans (h l hl) hpq

theorem stops_or_cons (least : Precedence) (ls : List Lexeme) :
    Stops least ls ∨ ∃ operator rest, ls = operator :: rest ∧ least < operator.kind.precedence := by
  cases ls with
  | nil => exact .inl fun l hl => by cases hl
  | cons operator rest =>
    by_cases h : least < operator.kind.precedence
    · exact .inr ⟨operator, rest, rfl, h⟩
    · exact .inl (stops_cons.mpr (Precedence.not_lt.mp h))

theorem closed_of_strength? {e : Expr} (h : e.strength? = none) (rest : List Lexeme) :
    Closed e rest := by
  intro p hp
  rw [h] at hp
  cases hp

theorem above_of_strength? {e : Expr} (h : e.strength? = none) (least : Precedence) :
    e.Above least := by
  intro p hp
  rw [h] at hp
  cases hp

/-! ## One step -/

theorem chain_of_stops {least : Precedence} {rest : List Lexeme} (h : Stops least rest) (room : Nat)
    (left : Expr) : chain limit eof least room left rest = .ok (left, rest) := by
  cases rest with
  | nil => rw [chain]
  | cons l rest =>
    have hl := Precedence.not_lt.mpr (stops_cons.mp h)
    rw [chain.eq_def]
    simp only [if_neg hl]

theorem chain_cons {least : Precedence} {operator : Lexeme}
    (h : least < operator.kind.precedence) (room : Nat) (left : Expr) (rest : List Lexeme) :
    chain limit eof least (room + 1) left (operator :: rest) =
      match expression limit eof operator.kind.precedence room rest with
      | .ok (right, rest) => chain limit eof least room (binaryOf left operator right) rest
      | .error rejection => .error rejection := by
  rw [chain]
  exact if_pos h

theorem operand_unary {nested : List Lexeme → Attempt Expr} {operator : Lexeme}
    (kind : operator.kind.isUnary) (rest : List Lexeme) :
    operand eof nested (operator :: rest) =
      match nested rest with
      | .ok (inner, rest) => .ok (unaryOf operator inner, rest)
      | .error rejection => .error rejection := by
  rw [operand]
  cases hkind : operator.kind
  case bang | minus => rfl
  all_goals simp [hkind, Kind.isUnary] at kind

theorem pastSemicolon_append {ls : List Lexeme} (h : ∀ l ∈ ls, l.kind ≠ .semicolon)
    (rest : List Lexeme) : pastSemicolon (ls ++ rest) = pastSemicolon rest := by
  unfold pastSemicolon
  rw [List.dropWhile_append_of_pos]
  intro l hl
  simpa using h l hl

/-! ## A reading with room enough is found -/

theorem expression_eq_chain {e : Expr} {ls : List Lexeme} (reads : Reads e ls) (graded : e.Graded)
    (least : Precedence) (above : e.Above least) (room : Nat) (fits : e.cost ≤ room + 1)
    (rest : List Lexeme) (closed : Closed e rest) :
    expression limit eof least (room + 1) (ls ++ rest) =
      chain limit eof least (room - e.chained) e rest := by
  induction reads generalizing least room rest with
  | identifier kind =>
    rw [expression, List.singleton_append, operand, kind]
    rfl
  | integer kind range =>
    rw [expression, List.singleton_append, operand, kind]
    simp only [range]
    rfl
  | @unary operator inner ls kind reads ih =>
    obtain ⟨single, graded⟩ := (graded_unaryOf _ _).mp graded
    rw [cost_unaryOf] at fits
    obtain ⟨n, rfl⟩ : ∃ n, room = n + 1 := ⟨room - 1, by have := inner.cost_pos; omega⟩
    have read := ih graded .unary (above_of_strength? single .unary) n (by omega) rest
      (closed_of_strength? single rest)
    rw [chain_of_stops (stops_unary rest)] at read
    rw [expression, List.cons_append, operand_unary kind, read]
    rfl
  | @binary left right operator ls rs kind before after ihl ihr =>
    obtain ⟨hleft, hright, gradedLeft, gradedRight⟩ := (graded_binaryOf _ _ _).mp graded
    have hleast : least < operator.kind.precedence := above _ rfl
    have stops : Stops operator.kind.precedence rest := closed _ rfl
    rw [cost_binaryOf] at fits
    have := right.cost_pos
    obtain ⟨n, hroom⟩ : ∃ n, room - left.chained = n + 1 + 1 :=
      ⟨room - left.chained - 2, by omega⟩
    have readLeft := ihl gradedLeft least (fun p hp => Nat.lt_of_lt_of_le hleast (hleft p hp))
      room (by omega) (operator :: (rs ++ rest)) (fun p hp => stops_cons.mpr (hleft p hp))
    have readRight := ihr gradedRight _ hright n (by omega) rest
      (fun p hp => stops.mono (Nat.le_of_lt (hright p hp)))
    rw [chain_of_stops stops] at readRight
    have hchained : room - (left.chained + 1) = n + 1 := by omega
    rw [List.append_assoc, List.cons_append, readLeft, hroom, chain_cons hleast, readRight,
      chained_binaryOf, hchained]

/-! ## A reading with too little room is given up -/

theorem expression_zero {e : Expr} {ls : List Lexeme} (reads : Reads e ls) (least : Precedence)
    (rest : List Lexeme) :
    ∃ span ahead, expression limit eof least 0 (ls ++ rest) =
      .error ⟨.tooDeep limit span, ahead, pastSemicolon rest⟩ := by
  refine ⟨((ls ++ rest).headD eof).span, (ls ++ rest).length - 1, ?_⟩
  rw [expression, outOfRoom, pastSemicolon_append reads.not_semicolon]

theorem expression_tooDeep {e : Expr} {ls : List Lexeme} (reads : Reads e ls) (graded : e.Graded)
    (least : Precedence) (above : e.Above least) (room : Nat) (short : room < e.cost)
    (rest : List Lexeme) (closed : Closed e rest) :
    ∃ span ahead, expression limit eof least room (ls ++ rest) =
      .error ⟨.tooDeep limit span, ahead, pastSemicolon rest⟩ := by
  induction reads generalizing least room rest with
  | identifier kind =>
    obtain rfl : room = 0 := by simpa [Expr.cost] using short
    exact expression_zero (.identifier kind) least rest
  | integer kind range =>
    obtain rfl : room = 0 := by simpa [Expr.cost] using short
    exact expression_zero (.integer kind range) least rest
  | @unary operator inner ls kind reads ih =>
    obtain ⟨single, graded⟩ := (graded_unaryOf _ _).mp graded
    rw [cost_unaryOf] at short
    cases room with
    | zero => exact expression_zero (.unary kind reads) least rest
    | succ n =>
      obtain ⟨span, ahead, read⟩ := ih graded .unary (above_of_strength? single .unary) n (by omega)
        rest (closed_of_strength? single rest)
      refine ⟨span, ahead, ?_⟩
      rw [expression, List.cons_append, operand_unary kind, read]
  | @binary left right operator ls rs kind before after ihl ihr =>
    cases room with
    | zero => exact expression_zero (.binary kind before after) least rest
    | succ room =>
      obtain ⟨hleft, hright, gradedLeft, gradedRight⟩ := (graded_binaryOf _ _ _).mp graded
      have hleast : least < operator.kind.precedence := above _ rfl
      have stops : Stops operator.kind.precedence rest := closed _ rfl
      have aboveLeft : left.Above least := fun p hp => Nat.lt_of_lt_of_le hleast (hleft p hp)
      have closedLeft : Closed left (operator :: (rs ++ rest)) :=
        fun p hp => stops_cons.mpr (hleft p hp)
      have skip : pastSemicolon (operator :: (rs ++ rest)) = pastSemicolon rest :=
        pastSemicolon_append (fun l hl => (Reads.binary kind before after).not_semicolon l
          (List.mem_append_right ls hl)) rest
      rw [cost_binaryOf] at short
      rw [List.append_assoc, List.cons_append]
      -- the left operand does not fit, or the operator does not, or the right operand does not
      by_cases fits : left.cost ≤ room + 1
      · rw [expression_eq_chain before gradedLeft least aboveLeft room fits _ closedLeft]
        cases hroom : room - left.chained with
        | zero =>
          refine ⟨operator.span, (rs ++ rest).length + 1, ?_⟩
          rw [chain, if_pos hleast, outOfRoom, skip]
        | succ n =>
          obtain ⟨span, ahead, read⟩ := ihr gradedRight _ hright n (by omega) rest
            (fun p hp => stops.mono (Nat.le_of_lt (hright p hp)))
          refine ⟨span, ahead, ?_⟩
          rw [chain_cons hleast, read]
      · obtain ⟨span, ahead, read⟩ :=
          ihl gradedLeft least aboveLeft (room + 1) (by omega) _ closedLeft
        exact ⟨span, ahead, by rw [read, skip]⟩

/-! ## What is found is a reading -/

/-- The expression reads the lexemes, its operators are stronger than `least` and grouped by
strength, and the lexemes after it do not go on with it. -/
structure Parsed (least : Precedence) (e : Expr) (block rest : List Lexeme) : Prop where
  reads : Reads e block
  graded : e.Graded
  above : e.Above least
  stops : Stops least rest

theorem Parsed.closed {least : Precedence} {e : Expr} {block rest : List Lexeme}
    (h : Parsed least e block rest) : Closed e rest :=
  fun p hp => h.stops.mono (Nat.le_of_lt (h.above p hp))

theorem Parsed.strength? {e : Expr} {block rest : List Lexeme} (h : Parsed .unary e block rest) :
    e.strength? = none := by
  cases e with
  | binary token left operator right span =>
    have strong := h.above token.kind.precedence rfl
    have weak := Kind.precedence_lt_unary token.kind
    rw [Precedence.lt_iff] at strong weak
    omega
  | _ => rfl

theorem operand_sound {nested : List Lexeme → Attempt Expr} {ls rest : List Lexeme} {e : Expr}
    (hn : ∀ ls e rest, nested ls = .ok (e, rest) → ∃ block, ls = block ++ rest ∧
      Parsed .unary e block rest)
    (h : operand eof nested ls = .ok (e, rest)) :
    ∃ block, ls = block ++ rest ∧ Reads e block ∧ e.Graded ∧ e.strength? = none := by
  cases ls with
  | nil => simp [operand] at h
  | cons l ls =>
    cases unary : l.kind.isUnary with
    | true =>
      rw [operand_unary unary] at h
      split at h
      · rename_i inner after heq
        cases h
        obtain ⟨block, rfl, parsed⟩ := hn ls inner rest heq
        exact ⟨l :: block, rfl, .unary unary parsed.reads, ⟨parsed.strength?, parsed.graded⟩, rfl⟩
      · cases h
    | false =>
      simp only [operand] at h
      split at h
      · rename_i kind
        cases h
        exact ⟨[l], rfl, .identifier kind, trivial, rfl⟩
      · rename_i kind
        split at h
        · rename_i value range
          cases h
          exact ⟨[l], rfl, .integer kind range, trivial, rfl⟩
        · cases h
      · rename_i kind
        rw [kind] at unary
        cases unary
      · rename_i kind
        rw [kind] at unary
        cases unary
      · cases h

/-- One operator and its right operand, chained on to what stands to the left. -/
theorem reads_link {least : Precedence} {left right : Expr} {operator : Lexeme}
    {ls rs rest : List Lexeme} (before : Reads left ls) (graded : left.Graded)
    (closed : Closed left (operator :: (rs ++ rest))) (hleast : least < operator.kind.precedence)
    (parsed : Parsed operator.kind.precedence right rs rest) :
    Reads (binaryOf left operator right) (ls ++ operator :: rs) ∧
      (binaryOf left operator right).Graded ∧ (binaryOf left operator right).Above least ∧
        Closed (binaryOf left operator right) rest := by
  have kind : operator.kind.isBinary := by
    rw [Kind.isBinary_iff]
    exact Nat.lt_of_le_of_lt (Nat.zero_le least.rank) hleast
  refine ⟨.binary kind before parsed.reads, ?_, ?_, ?_⟩
  · exact ⟨fun p hp => stops_cons.mp (closed p hp), parsed.above, graded, parsed.graded⟩
  · intro p hp
    cases hp
    exact hleast
  · intro p hp
    cases hp
    exact parsed.stops

theorem expression_chain_sound (room : Nat) :
    (∀ least ls e rest, expression limit eof least room ls = .ok (e, rest) →
      ∃ block, ls = block ++ rest ∧ Parsed least e block rest) ∧
    (∀ least left before ls e rest, Reads left before → left.Graded → left.Above least →
      Closed left ls → chain limit eof least room left ls = .ok (e, rest) →
        ∃ block, ls = block ++ rest ∧ Parsed least e (before ++ block) rest) := by
  -- a chain that stops leaves its left operand as it is, whatever room there is
  have stopped : ∀ room least left before ls e rest, Reads left before → left.Graded →
      left.Above least → Stops least ls → chain limit eof least room left ls = .ok (e, rest) →
        ∃ block, ls = block ++ rest ∧ Parsed least e (before ++ block) rest := by
    intro room least left before ls e rest reads graded above stops h
    rw [chain_of_stops stops] at h
    cases h
    exact ⟨[], rfl, by rwa [List.append_nil], graded, above, stops⟩
  induction room with
  | zero =>
    refine ⟨?_, ?_⟩
    · intro least ls e rest h
      rw [expression] at h
      cases h
    · intro least left before ls e rest reads graded above _ h
      rcases stops_or_cons least ls with stops | ⟨operator, ls, rfl, hleast⟩
      · exact stopped 0 least left before ls e rest reads graded above stops h
      · rw [chain, if_pos hleast] at h
        cases h
  | succ room ih =>
    obtain ⟨ihe, ihc⟩ := ih
    refine ⟨?_, ?_⟩
    · intro least ls e rest h
      rw [expression] at h
      split at h
      · rename_i left after heq
        obtain ⟨first, rfl, reads, graded, single⟩ := operand_sound (ihe .unary) heq
        obtain ⟨block, rfl, parsed⟩ := ihc least left first after e rest reads graded
          (above_of_strength? single least) (closed_of_strength? single after) h
        exact ⟨first ++ block, by rw [List.append_assoc], parsed⟩
      · cases h
    · intro least left before ls e rest reads graded above closed h
      rcases stops_or_cons least ls with stops | ⟨operator, ls, rfl, hleast⟩
      · exact stopped _ least left before ls e rest reads graded above stops h
      · rw [chain_cons hleast] at h
        split at h
        · rename_i right after heq
          obtain ⟨rs, rfl, parsedRight⟩ := ihe _ _ _ _ heq
          obtain ⟨reads, graded, above, closed⟩ := reads_link reads graded closed hleast parsedRight
          obtain ⟨block, rfl, parsed⟩ := ihc least _ _ _ e rest reads graded above closed h
          refine ⟨operator :: (rs ++ block), by simp, ?_⟩
          simpa using parsed
        · cases h

/-! ## The expressions that are found -/

theorem expression_sound {least : Precedence} {room : Nat} {ls rest : List Lexeme} {e : Expr}
    (h : expression limit eof least room ls = .ok (e, rest)) :
    ∃ block, ls = block ++ rest ∧ Parsed least e block rest :=
  (expression_chain_sound room).1 least ls e rest h

theorem expression_complete {least : Precedence} {room : Nat} {block rest : List Lexeme} {e : Expr}
    (parsed : Parsed least e block rest) (fits : e.cost ≤ room) :
    expression limit eof least room (block ++ rest) = .ok (e, rest) := by
  obtain ⟨n, rfl⟩ : ∃ n, room = n + 1 := ⟨room - 1, by have := e.cost_pos; omega⟩
  rw [expression_eq_chain parsed.reads parsed.graded least parsed.above n fits rest parsed.closed,
    chain_of_stops parsed.stops]

theorem expression_eq_ok_iff {least : Precedence} {room : Nat} {ls rest : List Lexeme} {e : Expr} :
    expression limit eof least room ls = .ok (e, rest) ↔
      ∃ block, ls = block ++ rest ∧ Parsed least e block rest ∧ e.cost ≤ room := by
  constructor
  · intro h
    obtain ⟨block, rfl, parsed⟩ := expression_sound h
    refine ⟨block, rfl, parsed, ?_⟩
    apply Nat.le_of_not_lt
    intro short
    obtain ⟨span, ahead, tooDeep⟩ :=
      expression_tooDeep parsed.reads parsed.graded least parsed.above
      room short rest parsed.closed
    rw [tooDeep] at h
    cases h
  · rintro ⟨block, rfl, parsed, fits⟩
    exact expression_complete parsed fits

end Frontend.Parser

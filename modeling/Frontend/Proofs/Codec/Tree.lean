import Frontend.Codec.Tree
import Frontend.Proofs.Json.Decoding

/-!
# Trees and diagnostics in JSON

Every type of the tree is decoded from its own encoding, given room for the arrays and objects of
the encoding (`decodes`). A text is decoded with room for 127 of them, so that is where the round
trip of programs, expressions and diagnostics ends.
-/

set_option autoImplicit false

namespace Frontend

open Json (Decodes Exact decodes_record decodes_text decodes_word64 decodes_word32 decodes_int64)

/-! ## Positions, spans, tokens -/

theorem Position.decodes (p : Position) : Decodes Position.decode p.toJson p := by
  refine decodes_record rfl (by decide) fun room => ?_
  simp only [List.map, (decodes_word64 p.offset).bind, (decodes_word32 p.line).bind,
    (decodes_word32 p.column).bind, List.forall_mem_cons, ite_and]
  simp

theorem Span.decodes (s : Span) : Decodes Span.decode s.toJson s := by
  refine decodes_record rfl (by decide) fun room => ?_
  simp only [List.map, s.start.decodes.bind, s.stop.decodes.bind, List.forall_mem_cons, ite_and]
  simp

theorem Kind.decodes (k : Kind) : Decodes Kind.decode k.toJson k := by
  intro room
  rw [toJson, Json.depth_text, if_pos (Nat.zero_le room)]
  cases k <;> rfl

theorem Token.decodes (t : Token) : Decodes Token.decode t.toJson t := by
  refine decodes_record rfl (by decide) fun room => ?_
  simp only [List.map, t.kind.decodes.bind, (decodes_text t.literal).bind,
    List.forall_mem_cons, ite_and]
  simp

/-! ## Expressions -/

theorem Identifier.decodes (i : Identifier) : Decodes Identifier.decode i.toJson i := by
  refine decodes_record rfl (by decide) fun room => ?_
  simp only [List.map, i.token.decodes.bind, (decodes_text i.name).bind, i.span.decodes.bind,
    List.forall_mem_cons, ite_and]
  simp

theorem Expr.decodeInteger_decodes (token : Token) (value : Int64) (span : Span) :
    Decodes Expr.decodeInteger
      (.record [("token", token.toJson), ("value", .integer value.toInt), ("span", span.toJson)])
      (.integer token value span) := by
  refine decodes_record rfl (by decide) fun room => ?_
  simp only [List.map, token.decodes.bind, (decodes_int64 value).bind, span.decodes.bind,
    List.forall_mem_cons, ite_and]
  simp

theorem Expr.decodeUnary_decodes (token : Token) (operator : String) {operand : Expr} (span : Span)
    (h : Decodes Expr.decode operand.toJson operand) :
    Decodes (fun room j => Expr.decodeUnary (fun j => Expr.decode (room - 1) j) room j)
      (.record [("token", token.toJson), ("operator", .text operator), ("right", operand.toJson),
        ("span", span.toJson)])
      (.unary token operator operand span) := by
  refine decodes_record rfl (by decide) fun room => ?_
  simp only [List.map, token.decodes.bind, (decodes_text operator).bind, Nat.add_sub_cancel, h.bind,
    span.decodes.bind, List.forall_mem_cons, ite_and]
  simp

theorem Expr.decodeBinary_decodes (token : Token) {left right : Expr} (operator : String)
    (span : Span) (hl : Decodes Expr.decode left.toJson left)
    (hr : Decodes Expr.decode right.toJson right) :
    Decodes (fun room j => Expr.decodeBinary (fun j => Expr.decode (room - 1) j) room j)
      (.record [("token", token.toJson), ("left", left.toJson), ("operator", .text operator),
        ("right", right.toJson), ("span", span.toJson)])
      (.binary token left operator right span) := by
  refine decodes_record rfl (by decide) fun room => ?_
  simp only [List.map, token.decodes.bind, hl.bind, (decodes_text operator).bind,
    Nat.add_sub_cancel, hr.bind, span.decodes.bind, List.forall_mem_cons, ite_and]
  simp

theorem Expr.decodes (e : Expr) : Decodes Expr.decode e.toJson e := by
  induction e with
  | identifier node =>
    refine (node.decodes.map Expr.identifier).tagged rfl ?_
    rintro (_ | room) <;> rfl
  | integer token value span =>
    refine (Expr.decodeInteger_decodes token value span).tagged rfl ?_
    rintro (_ | room) <;> rfl
  | unary token operator operand span ih =>
    refine (Expr.decodeUnary_decodes token operator span ih).tagged rfl ?_
    rintro (_ | room) <;> rfl
  | binary token left operator right span ihl ihr =>
    refine (Expr.decodeBinary_decodes token operator span ihl ihr).tagged rfl ?_
    rintro (_ | room) <;> rfl

/-! ## Statements and programs -/

theorem decodeValue_decodes (value : Option Expr) :
    Decodes (fun room j => decodeValue room (some j)) (valueToJson value) value := by
  cases value with
  | none =>
    intro room
    simp [decodeValue, valueToJson, Json.asOption]
  | some e =>
    intro room
    have h := e.decodes.map some room
    cases e <;> exact h

theorem Statement.decodes (s : Statement) : Decodes Statement.decode s.toJson s := by
  cases s with
  | binding token name value span =>
    have record : Decodes Statement.decodeBinding
        (.record [("token", token.toJson), ("name", name.toJson), ("value", valueToJson value),
          ("span", span.toJson)])
        (.binding token name value span) := by
      refine decodes_record rfl (by decide) fun room => ?_
      simp only [List.map, token.decodes.bind, name.decodes.bind, (decodeValue_decodes value).bind,
        span.decodes.bind, List.forall_mem_cons, ite_and]
      simp
    exact record.tagged rfl fun room => rfl
  | giving token value span =>
    have record : Decodes Statement.decodeGiving
        (.record [("token", token.toJson), ("value", valueToJson value), ("span", span.toJson)])
        (.giving token value span) := by
      refine decodes_record rfl (by decide) fun room => ?_
      simp only [List.map, token.decodes.bind, (decodeValue_decodes value).bind, span.decodes.bind,
        List.forall_mem_cons, ite_and]
      simp
    exact record.tagged rfl fun room => rfl
  | expression token body span =>
    have record : Decodes Statement.decodeExpression
        (.record [("token", token.toJson), ("expression", body.toJson), ("span", span.toJson)])
        (.expression token body span) := by
      refine decodes_record rfl (by decide) fun room => ?_
      simp only [List.map, token.decodes.bind, body.decodes.bind, span.decodes.bind,
        List.forall_mem_cons, ite_and]
      simp
    exact record.tagged rfl fun room => rfl

theorem Program.decodes (p : Program) : Decodes Program.decode p.toJson p := by
  refine decodes_record rfl (by decide) fun room => ?_
  have statements := (Json.decodes_list Statement.decodes p.statements).map Program.mk room
  simp only [List.map, List.forall_mem_cons]
  simpa using statements

/-! ## Diagnostics -/

theorem Diagnostic.decodeWith_decodes {α : Type} {name : String} (other : name ≠ "span")
    {part : Json.Decoder α} {j : Json} {x : α} (h : Decodes part j x)
    (build : α → Span → Diagnostic) (span : Span) :
    Decodes (Diagnostic.decodeWith name part build) (.record [(name, j), ("span", span.toJson)])
      (build x span) := by
  refine decodes_record rfl (by simpa using other) fun room => ?_
  simp only [List.map, h.bind, span.decodes.bind, List.forall_mem_cons, ite_and]
  simp

theorem Diagnostic.decodes (d : Diagnostic) : Decodes Diagnostic.decode d.toJson d := by
  cases d with
  | unexpectedToken expected actual span =>
    have record : Decodes Diagnostic.decodeUnexpected
        (.record [("expected", expected.toJson), ("actual", actual.toJson), ("span", span.toJson)])
        (.unexpectedToken expected actual span) := by
      refine decodes_record rfl (by decide) fun room => ?_
      simp only [List.map, expected.decodes.bind, actual.decodes.bind, span.decodes.bind,
        List.forall_mem_cons, ite_and]
      simp
    exact record.tagged rfl fun room => rfl
  | noOperand kind span =>
    exact (decodeWith_decodes (by decide) kind.decodes .noOperand span).tagged rfl fun room => rfl
  | integerRange literal span =>
    exact (decodeWith_decodes (by decide) (decodes_text literal) .integerRange span).tagged rfl
      fun room => rfl
  | tooDeep limit span =>
    exact (decodeWith_decodes (by decide) (decodes_word64 limit) .tooDeep span).tagged rfl
      fun room => rfl

/-! ## Encodings -/

@[simp] theorem Position.exact_toJson (p : Position) : Exact p.toJson := by simp [toJson]

@[simp] theorem Span.exact_toJson (s : Span) : Exact s.toJson := by simp [toJson]

@[simp] theorem Kind.exact_toJson (k : Kind) : Exact k.toJson := by simp [toJson]

@[simp] theorem Token.exact_toJson (t : Token) : Exact t.toJson := by simp [toJson]

@[simp] theorem Identifier.exact_toJson (i : Identifier) : Exact i.toJson := by simp [toJson]

@[simp] theorem Expr.exact_toJson (e : Expr) : Exact e.toJson := by
  induction e with
  | identifier node => simp [toJson]
  | integer token value span => simp [toJson]
  | unary token operator operand span ih => simp [toJson, ih]
  | binary token left operator right span ihl ihr => simp [toJson, ihl, ihr]

@[simp] theorem exact_valueToJson (value : Option Expr) : Exact (valueToJson value) := by
  cases value <;> simp [valueToJson]

@[simp] theorem Statement.exact_toJson (s : Statement) : Exact s.toJson := by
  cases s <;> simp [toJson]

theorem Program.exact_toJson (p : Program) : Exact p.toJson := by
  have statements : Exact (.array (p.statements.map Statement.toJson)) := by
    refine .array fun j hj => ?_
    obtain ⟨s, -, rfl⟩ := List.mem_map.mp hj
    exact s.exact_toJson
  simp [toJson, statements]

theorem Diagnostic.exact_toJson (d : Diagnostic) : Exact d.toJson := by
  cases d <;> simp [toJson]

/-! ## Texts -/

/-- Programs, expressions and diagnostics are read back from their compact texts, exactly as they
were, if no more than 127 arrays and objects are open at once in the text. Otherwise the text is
refused. -/
theorem decode_compact :
    (∀ p : Program, Json.decodeText Program.decode p.toJson.compact =
      if p.toJson.depth ≤ 127 then some p else none) ∧
    (∀ e : Expr, Json.decodeText Expr.decode e.toJson.compact =
      if e.toJson.depth ≤ 127 then some e else none) ∧
    (∀ d : Diagnostic, Json.decodeText Diagnostic.decode d.toJson.compact =
      if d.toJson.depth ≤ 127 then some d else none) := by
  refine ⟨fun p => ?_, fun e => ?_, fun d => ?_⟩
  · exact Json.decodeText_compact p.exact_toJson p.decodes
  · exact Json.decodeText_compact e.exact_toJson e.decodes
  · exact Json.decodeText_compact d.exact_toJson d.decodes

end Frontend

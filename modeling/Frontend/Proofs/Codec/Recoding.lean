import Frontend.Proofs.Codec.Tree
import Frontend.Proofs.Json.Fitting

/-!
# Programs that are read, written and read again

A program can be spelled in many ways: with fields in any order and others among them, with arrays
in place of records, with objects in place of the tags of kinds, without values that are missing.
Each decoder of the tree fits its encoding (`Fits`), whatever the spelling. So the compact text of a
program that was read is accepted, and it stands for the same program.
-/

set_option autoImplicit false

namespace Frontend

open Json (Fits FitsIn fits_record fitsIn_record fits_list)

/-! ## Positions, spans, tokens -/

theorem Position.fits : Fits Position.decode Position.toJson := by
  refine fits_record (fun _ => rfl) fun room fields most p _ _ => ?_
  simp

theorem Span.fits : Fits Span.decode Span.toJson := by
  refine fits_record (fun _ => rfl) fun room fields most s small built => ?_
  split at built
  · simp only [bind, pure, Option.bind_eq_some_iff, Option.some.injEq] at built
    obtain ⟨start, hstart, stop, hstop, rfl⟩ := built
    simp only [List.forall_mem_cons]
    exact ⟨(Position.fits room).part hstart (small _ (by simp)),
      (Position.fits room).part hstop (small _ (by simp)), by simp⟩
  · cases built

theorem Token.fits : Fits Token.decode Token.toJson := by
  refine fits_record (fun _ => rfl) fun room fields most t _ _ => ?_
  simp [Kind.toJson]

/-! ## Expressions -/

theorem Identifier.fits : Fits Identifier.decode Identifier.toJson := by
  refine fits_record (fun _ => rfl) fun room fields most i small built => ?_
  split at built
  · simp only [bind, pure, Option.bind_eq_some_iff, Option.some.injEq] at built
    obtain ⟨token, htoken, name, -, span, hspan, rfl⟩ := built
    simp only [List.forall_mem_cons]
    exact ⟨(Token.fits room).part htoken (small _ (by simp)), by simp,
      (Span.fits room).part hspan (small _ (by simp)), by simp⟩
  · cases built

/-- The fields of an expression, without its tag. -/
def Expr.fields : Expr → List (String × Json)
  | .identifier node =>
    [("token", node.token.toJson), ("value", .text node.name), ("span", node.span.toJson)]
  | .integer token value span =>
    [("token", token.toJson), ("value", .integer value.toInt), ("span", span.toJson)]
  | .unary token operator operand span =>
    [("token", token.toJson), ("operator", .text operator), ("right", operand.toJson),
      ("span", span.toJson)]
  | .binary token left operator right span =>
    [("token", token.toJson), ("left", left.toJson), ("operator", .text operator),
      ("right", right.toJson),
      ("span", span.toJson)]

theorem Expr.depth_toJson (e : Expr) : e.toJson.depth = (Json.record e.fields).depth + 1 := by
  cases e <;> rw [toJson, Json.depth_tagged] <;> rfl

theorem Expr.decodeInteger_fits : Fits Expr.decodeInteger fun e => .record e.fields := by
  refine fits_record (fun _ => rfl) fun room fields most e small built => ?_
  split at built
  · simp only [bind, pure, Option.bind_eq_some_iff, Option.some.injEq] at built
    obtain ⟨token, htoken, value, -, span, hspan, rfl⟩ := built
    simp only [Expr.fields, List.forall_mem_cons]
    exact ⟨(Token.fits room).part htoken (small _ (by simp)), by simp,
      (Span.fits room).part hspan (small _ (by simp)), by simp⟩
  · cases built

section

variable {room : Nat} {nested : Json → Option Expr}

theorem Expr.decodeUnary_fits (h : FitsIn room nested Expr.toJson) :
    FitsIn (room + 1) (Expr.decodeUnary nested (room + 1)) fun e => .record e.fields := by
  refine fitsIn_record (fun _ => rfl) fun fields most e small built => ?_
  split at built
  · simp only [bind, pure, Option.bind_eq_some_iff, Option.some.injEq] at built
    obtain ⟨token, htoken, operator, -, operand, hoperand, span, hspan, rfl⟩ := built
    simp only [Expr.fields, List.forall_mem_cons]
    exact ⟨(Token.fits room).part htoken (small _ (by simp)), by simp,
      h.part hoperand (small _ (by simp)), (Span.fits room).part hspan (small _ (by simp)), by simp⟩
  · cases built

theorem Expr.decodeBinary_fits (h : FitsIn room nested Expr.toJson) :
    FitsIn (room + 1) (Expr.decodeBinary nested (room + 1)) fun e => .record e.fields := by
  refine fitsIn_record (fun _ => rfl) fun fields most e small built => ?_
  split at built
  · simp only [bind, pure, Option.bind_eq_some_iff, Option.some.injEq] at built
    obtain ⟨token, htoken, left, hleft, operator, -, right, hright, span, hspan, rfl⟩ := built
    simp only [Expr.fields, List.forall_mem_cons]
    exact ⟨(Token.fits room).part htoken (small _ (by simp)),
      h.part hleft (small _ (by simp)), by simp,
      h.part hright (small _ (by simp)), (Span.fits room).part hspan (small _ (by simp)), by simp⟩
  · cases built

end

theorem Expr.fits : Fits Expr.decode Expr.toJson := by
  intro room
  -- the tag and the record inside it take one level each
  induction room using Nat.twoStepInduction with
  | zero => exact fun j e read => nomatch read
  | one => exact fun j e read => nomatch read
  | more room ih _ =>
    intro j e read
    rw [Expr.depth_toJson]
    unfold Expr.decode at read
    split at read
    · rename_i body payload
      obtain ⟨node, hnode, rfl⟩ := Option.map_eq_some_iff.mp read
      exact (Identifier.fits (room + 1)).tagged payload hnode
    · rename_i body payload
      exact (Expr.decodeInteger_fits (room + 1)).tagged payload read
    · rename_i body payload
      exact (Expr.decodeUnary_fits ih).tagged payload read
    · rename_i body payload
      exact (Expr.decodeBinary_fits ih).tagged payload read
    · cases read

/-! ## Statements and programs -/

theorem decodeValue_fits {room most : Nat} {field : Option Json} {value : Option Expr}
    (read : decodeValue room field = some value) (small : ∀ j, field = some j → j.depth ≤ most) :
    (valueToJson value).depth ≤ min room most := by
  cases field with
  | none =>
    cases read
    exact Nat.zero_le _
  | some j =>
    change Json.asOption Expr.decode room j = some value at read
    unfold Json.asOption at read
    split at read
    · cases read
      exact Nat.zero_le _
    · obtain ⟨e, he, rfl⟩ := Option.map_eq_some_iff.mp read
      exact (Expr.fits room).part he (small _ rfl)

/-- The fields of a statement, without its tag. -/
def Statement.fields : Statement → List (String × Json)
  | .binding token name value span =>
    [("token", token.toJson), ("name", name.toJson), ("value", valueToJson value),
      ("span", span.toJson)]
  | .giving token value span =>
    [("token", token.toJson), ("value", valueToJson value), ("span", span.toJson)]
  | .expression token body span =>
    [("token", token.toJson), ("expression", body.toJson), ("span", span.toJson)]

theorem Statement.depth_toJson (s : Statement) :
    s.toJson.depth = (Json.record s.fields).depth + 1 := by
  cases s <;> rw [toJson, Json.depth_tagged] <;> rfl

theorem Statement.decodeBinding_fits : Fits Statement.decodeBinding fun s => .record s.fields := by
  refine fits_record (fun _ => rfl) fun room fields most s small built => ?_
  split at built
  · simp only [bind, pure, Option.bind_eq_some_iff, Option.some.injEq] at built
    obtain ⟨token, htoken, name, hname, value, hvalue, span, hspan, rfl⟩ := built
    simp only [Statement.fields, List.forall_mem_cons]
    exact ⟨(Token.fits room).part htoken (small _ (by simp)),
      (Identifier.fits room).part hname (small _ (by simp)),
      decodeValue_fits hvalue fun j hj => small j (by simp [hj]),
      (Span.fits room).part hspan (small _ (by simp)),
      by simp⟩
  · cases built

theorem Statement.decodeGiving_fits : Fits Statement.decodeGiving fun s => .record s.fields := by
  refine fits_record (fun _ => rfl) fun room fields most s small built => ?_
  split at built
  · simp only [bind, pure, Option.bind_eq_some_iff, Option.some.injEq] at built
    obtain ⟨token, htoken, value, hvalue, span, hspan, rfl⟩ := built
    simp only [Statement.fields, List.forall_mem_cons]
    exact ⟨(Token.fits room).part htoken (small _ (by simp)),
      decodeValue_fits hvalue fun j hj => small j (by simp [hj]),
      (Span.fits room).part hspan (small _ (by simp)),
      by simp⟩
  · cases built

theorem Statement.decodeExpression_fits :
    Fits Statement.decodeExpression fun s => .record s.fields := by
  refine fits_record (fun _ => rfl) fun room fields most s small built => ?_
  split at built
  · simp only [bind, pure, Option.bind_eq_some_iff, Option.some.injEq] at built
    obtain ⟨token, htoken, body, hbody, span, hspan, rfl⟩ := built
    simp only [Statement.fields, List.forall_mem_cons]
    exact ⟨(Token.fits room).part htoken (small _ (by simp)),
      (Expr.fits room).part hbody (small _ (by simp)),
      (Span.fits room).part hspan (small _ (by simp)), by simp⟩
  · cases built

theorem Statement.fits : Fits Statement.decode Statement.toJson := by
  intro room j s read
  rw [Statement.depth_toJson]
  unfold Statement.decode at read
  split at read
  · rename_i room
    split at read
    · rename_i body payload
      exact (Statement.decodeBinding_fits room).tagged payload read
    · rename_i body payload
      exact (Statement.decodeGiving_fits room).tagged payload read
    · rename_i body payload
      exact (Statement.decodeExpression_fits room).tagged payload read
    · cases read
  · cases read

theorem Program.fits : Fits Program.decode Program.toJson := by
  refine fits_record (fun _ => rfl) fun room fields most p small built => ?_
  split at built
  · obtain ⟨statements, hstatements, rfl⟩ := Option.map_eq_some_iff.mp built
    simp only [List.forall_mem_cons]
    exact ⟨(fits_list Statement.fits room).part hstatements (small _ (by simp)), by simp⟩
  · cases built

/-! ## Texts -/

/-- A text that is read as a program, however the program is spelled in it, has a compact form: this
is read as the same program, writing that one out gives the compact form again, and it is nowhere
deeper than the text was. -/
theorem decode_recoded {text : String} {p : Program}
    (h : Json.decodeText Program.decode text = some p) :
    Json.decodeText Program.decode p.toJson.compact = some p ∧
      (Json.decodeText Program.decode p.toJson.compact).map (fun again => again.toJson.compact) =
        some p.toJson.compact ∧
      ∃ j, Json.read text.toList = some j ∧ p.toJson.depth ≤ j.depth := by
  obtain ⟨again, shallow⟩ :=
    Json.decodeText_again Program.exact_toJson Program.decodes Program.fits h
  exact ⟨again, by rw [again, Option.map_some], shallow⟩

/-- A return between blanks, with a field that programs do not have, its own fields in another order
and without a value, its records as arrays and its kind as an object. -/
theorem decode_recoded_loose :
    let place (offset column : Nat) : Json := .array [.natural offset, .natural 1, .natural column]
    let token : Json := .array [.tagged "Return" .null, .text "return"]
    let loose :=
      Json.record [("comment", .array [.decimal "1.5"]),
        ("statements", .array [.tagged "Return" (.record
      [("span", .array [place 0 1, place 6 7]), ("token", token)])])]
    let text := "\n " ++ loose.compact ++ "\t"
    let p : Program := ⟨[.giving ⟨.returnWord, "return"⟩ none ⟨⟨0, 1, 1⟩, ⟨6, 1, 7⟩⟩]⟩
    Json.decodeText Program.decode text = some p ∧
    Json.decodeText Program.decode p.toJson.compact = some p := by
  intro place token loose text p
  have read : Json.decodeText Program.decode text = some p := by decide +kernel
  exact ⟨read, (decode_recoded read).1⟩

end Frontend

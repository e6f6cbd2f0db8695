import Frontend.Proofs.Parser.Program
import Frontend.Proofs.Tree.Shape

/-!
# Written expressions are read back

The tokens of a formed and graded expression, written one after the other with a space between any
two, are parsed to that expression again, up to spans, without any parentheses. This holds as far as
the expression does not cost more than the nesting limit, where `Expr.cost_eq_spine` writes out what
a chain of operands costs; otherwise the only result is the diagnostic on the limit.

A position counts columns in 32 bits, so a line of `2 ^ 32 - 1` characters or more has no positions
and no program; the texts here are lines.
-/

set_option autoImplicit false

namespace Frontend

/-! ## Tokens with spaces between them -/

/-- The texts of tokens with one space between any two. -/
def spaced (ts : List Token) : List Char := [' '].intercalate (ts.map (·.literal.toList))

theorem spaced_cons_cons (t next : Token) (ts : List Token) :
    spaced (t :: next :: ts) = t.literal.toList ++ ' ' :: spaced (next :: ts) := by
  simp [spaced, List.intercalate_cons_cons]

theorem spaced_eq_weave (t : Token) (ts : List Token) :
    spaced (t :: ts) = weave (([], t) :: ts.map fun t => ([' '], t)) [] := by
  induction ts generalizing t with
  | nil => simp [spaced, weave]
  | cons next ts ih =>
    rw [spaced_cons_cons, ih next]
    simp [weave]

theorem mem_spaced {ts : List Token} {c : Char} (h : c ∈ spaced ts) :
    c = ' ' ∨ ∃ t ∈ ts, c ∈ t.literal.toList := by
  induction ts with
  | nil => simp [spaced] at h
  | cons t ts ih =>
    cases ts with
    | nil => exact .inr ⟨t, List.mem_cons_self, by simpa [spaced] using h⟩
    | cons next ts =>
      rw [spaced_cons_cons] at h
      rcases List.mem_append.mp h with h | h
      · exact .inr ⟨t, List.mem_cons_self, h⟩
      · rcases List.mem_cons.mp h with rfl | h
        · exact .inl rfl
        · rcases ih h with rfl | ⟨t', ht', hc⟩
          · exact .inl rfl
          · exact .inr ⟨t', List.mem_cons_of_mem t ht', hc⟩

theorem laid_spaced {ts : List Token} (nonempty : ts ≠ []) (spelled : ∀ t ∈ ts, Spelled t)
    {p place : Position} (there : p.advanceAll (spaced ts) = .ok place) :
    ∃ ls, Laid p (spaced ts) ls (.eofAt place) ∧ ls.map (·.token) = ts := by
  obtain ⟨t, ts, rfl⟩ := List.exists_cons_of_ne_nil nonempty
  rw [spaced_eq_weave] at there ⊢
  have gaps : ∀ part ∈ ([], t) :: ts.map fun t => ([' '], t), Blank part.1 := by
    intro part hpart c hc
    rcases List.mem_cons.mp hpart with rfl | hpart
    · cases hc
    · obtain ⟨t, -, rfl⟩ := List.mem_map.mp hpart
      rw [List.mem_singleton.mp hc]
      decide
  obtain ⟨ls, laid, htokens⟩ := laid_weave (([], t) :: ts.map fun t => ([' '], t)) [] gaps
    (by simpa using spelled) (by simp) (by simp [Blank]) there
  refine ⟨ls, laid, ?_⟩
  rw [htokens, List.map_cons, List.map_map]
  exact congrArg (t :: ·) (List.map_id ts)

/-! ## Their positions -/

theorem plain_of_toNat {c : Char} (printable : 32 ≤ c.toNat) (ascii : c.toNat ≤ 127) :
    Position.Plain c := by
  refine ⟨?_, ?_, ?_⟩
  · rintro rfl
    exact absurd printable (by decide)
  · rintro rfl
    exact absurd printable (by decide)
  · exact Char.utf8Size_eq_one_iff.mpr (UInt32.le_iff_toNat_le.mpr ascii)

theorem plain_of_isLetter {c : Char} (h : isLetter c) : Position.Plain c := by
  rw [isLetter_iff] at h
  exact plain_of_toNat (by omega) (by omega)

theorem plain_of_isDigit {c : Char} (h : c.isDigit) : Position.Plain c := by
  rw [isDigit_iff] at h
  exact plain_of_toNat (by omega) (by omega)

theorem plain_of_isMark {kind : Kind} (fixed : kind.isMark) :
    ∀ c ∈ kind.name.toList, Position.Plain c := by
  have all : kind.name.toList.all fun c => 32 ≤ c.toNat ∧ c.toNat ≤ 127 := by
    revert fixed
    cases kind <;> decide
  intro c hc
  have range : 32 ≤ c.toNat ∧ c.toNat ≤ 127 := by simpa using List.all_eq_true.mp all c hc
  exact plain_of_toNat range.1 range.2

theorem Spelled.plain {t : Token} (spelled : Spelled t) (known : t.kind ≠ .illegal) :
    ∀ c ∈ t.literal.toList, Position.Plain c := by
  cases spelled with
  | word letters nonempty all =>
    intro c hc
    rw [String.toList_ofList] at hc
    exact plain_of_isLetter (all c hc)
  | number digits nonempty all =>
    intro c hc
    rw [String.toList_ofList] at hc
    exact plain_of_isDigit (all c hc)
  | mark kind fixed => exact plain_of_isMark fixed
  | stray c shown useless => exact absurd rfl known

theorem plain_spaced {e : Expr} (formed : e.Formed) : ∀ c ∈ spaced e.tokens, Position.Plain c := by
  intro c hc
  rcases mem_spaced hc with rfl | ⟨t, ht, hc⟩
  · exact plain_of_toNat (by decide) (by decide)
  · obtain ⟨spelled, known⟩ := formed.spelled t ht
    exact spelled.plain known c hc

/-! ## Reading them back -/

theorem Expr.tokens_ne_nil (e : Expr) : e.tokens ≠ [] := by
  cases e <;> simp [tokens]

namespace Parser

variable {limit : UInt64} {e : Expr} {ls : List Lexeme}

theorem parsed_of_reads (reads : Reads e ls) (graded : e.Graded) : Parsed .lowest e ls [] :=
  ⟨reads, graded, reads.above_lowest, fun l hl => by cases hl⟩

theorem accepts_of_reads {first : Lexeme} {block : List Lexeme} (reads : Reads e (first :: block))
    (graded : e.Graded) (fits : e.cost ≤ limit.toNat) (eof : Lexeme) :
    Accepts limit eof (first :: block)
      (.expression first.token e (first.span.merge e.span)) [] := by
  have accepts : Accepts limit eof (first :: (block ++ ([] ++ []))) _ [] :=
    .expression (parsed_of_reads reads graded) fits (by simp) (by simp)
  rw [List.append_nil, List.append_nil] at accepts
  exact accepts

theorem items_of_fits (reads : Reads e ls) (graded : e.Graded) (fits : e.cost ≤ limit.toNat)
    (eof : Lexeme) :
    ∃ token span, items limit eof ls = [⟨.accepted (.expression token e span), 0⟩] := by
  obtain ⟨first, block, rfl⟩ := List.exists_cons_of_ne_nil reads.ne_nil
  exact ⟨first.token, first.span.merge e.span,
    items_of_accepts (accepts_of_reads reads graded fits eof)⟩

theorem items_of_tooDeep (reads : Reads e ls) (graded : e.Graded) (short : limit.toNat < e.cost)
    (eof : Lexeme) :
    ∃ span ahead, items limit eof ls = [⟨.rejected (.tooDeep limit span), ahead⟩] := by
  obtain ⟨first, block, rfl⟩ := List.exists_cons_of_ne_nil reads.ne_nil
  have parsed := parsed_of_reads reads graded
  have tooDeep : ∃ span ahead, expression limit eof .lowest limit.toNat (first :: block ++ []) =
      .error ⟨.tooDeep limit span, ahead, pastSemicolon []⟩ :=
    expression_tooDeep reads graded .lowest parsed.above limit.toNat short [] parsed.closed
  obtain ⟨span, ahead, tooDeep⟩ := tooDeep
  rw [List.append_nil] at tooDeep
  refine ⟨span, ahead, ?_⟩
  rw [items_cons, statement_of_reads reads, expressionStatement, tooDeep]
  simp only [pastSemicolon, List.dropWhile_nil, List.tail_nil, items]

end Parser

/-- The text of an expression is read back where the nesting limit allows it, and else given up with
nothing but the diagnostic on the limit. -/
theorem parse_spaced (limit : UInt64) {e : Expr} (formed : e.Formed) (graded : e.Graded) :
    ((spaced e.tokens).length + 1 < UInt32.size →
      (e.cost ≤ limit.toNat → ∃ token e' span,
        parse limit (spaced e.tokens) = .ok (⟨[.expression token e' span]⟩, []) ∧
        e'.bare = e.bare) ∧
      (limit.toNat < e.cost → ∃ span,
        parse limit (spaced e.tokens) = .ok (⟨[]⟩, [.tooDeep limit span]))) ∧
    (UInt32.size ≤ (spaced e.tokens).length + 1 →
      parse limit (spaced e.tokens) = .error .addOverflow) := by
  -- a line of plain characters: one byte and one column for each of them
  have plain := plain_spaced formed
  constructor
  · intro short
    obtain ⟨place, there⟩ : ∃ place, Position.start.advanceAll (spaced e.tokens) = .ok place := by
      apply Position.exists_advanceAll_plain plain
      · change 0 + _ < 18446744073709551616
        change _ < 4294967296 at short
        omega
      · change 1 + _ < UInt32.size
        omega
    obtain ⟨ls, laid, htokens⟩ :=
      laid_spaced e.tokens_ne_nil (fun t ht => (formed.spelled t ht).1) there
    obtain ⟨e', reads, hbare⟩ := exists_reads formed htokens
    have graded' : e'.Graded := by rwa [← Expr.graded_bare, hbare, Expr.graded_bare]
    have hcost : e'.cost = e.cost := by rw [← Expr.cost_bare, hbare, Expr.cost_bare]
    refine ⟨fun fits => ?_, fun short => ?_⟩
    · rw [← hcost] at fits
      obtain ⟨token, span, hitems⟩ := Parser.items_of_fits reads graded' fits (.eofAt place)
      refine ⟨token, e', span, parse_eq_ok_iff.mpr ⟨ls, _, laid, ?_, ?_⟩, hbare⟩
        <;> rw [hitems] <;> rfl
    · rw [← hcost] at short
      obtain ⟨span, ahead, hitems⟩ := Parser.items_of_tooDeep reads graded' short (.eofAt place)
      refine ⟨span, parse_eq_ok_iff.mpr ⟨ls, _, laid, ?_, ?_⟩⟩ <;> rw [hitems] <;> rfl
  · intro long
    apply parse_eq_error
    apply Position.advanceAll_plain_overflow plain
    change UInt32.size ≤ 1 + _
    omega

theorem parse_spaced_difference :
    ∃ e : Expr, (e.Formed ∧ e.Graded ∧ e.cost = 5 ∧ spaced e.tokens = "a - b * 7 - c".toList) ∧
      (∃ token e' span, parse 5 "a - b * 7 - c".toList = .ok (⟨[.expression token e' span]⟩, []) ∧
        e'.bare = e.bare) ∧
      ∃ span, parse 4 "a - b * 7 - c".toList = .ok (⟨[]⟩, [.tooDeep 4 span]) := by
  let name (text : String) : Expr := .identifier ⟨⟨.ident, text⟩, text, .placeholder⟩
  let product : Expr := .binary ⟨.asterisk, "*"⟩ (name "b") "*"
    (.integer ⟨.int, "7"⟩ 7 .placeholder) .placeholder
  let e : Expr := .binary ⟨.minus, "-"⟩ (.binary ⟨.minus, "-"⟩ (name "a") "-" product .placeholder)
    "-" (name "c") .placeholder
  have formed : e.Formed := by decide
  have graded : e.Graded := by decide
  have text : spaced e.tokens = "a - b * 7 - c".toList := rfl
  have fits := (parse_spaced 5 formed graded).1 (by rw [text]; decide)
  have short := (parse_spaced 4 formed graded).1 (by rw [text]; decide)
  rw [text] at fits short
  exact ⟨e, ⟨formed, graded, rfl, text⟩, fits.1 (by decide), short.2 (by decide)⟩

end Frontend

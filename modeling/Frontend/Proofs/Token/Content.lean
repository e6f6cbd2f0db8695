import Frontend.Proofs.Token.Layout

/-!
# The tokens in a text

`Consists text ts` says that a text consists of the tokens `ts` with gaps around them, each token
taken as far as it goes. It says nothing of positions. Where the text has positions, its lexemes
have these tokens (`Consists.exists_laid`). A line of plain characters has positions for as long as
columns can be counted, and no longer (`Position.exists_advanceAll_line`,
`Position.advanceAll_line_overflow`).
-/

set_option autoImplicit false

namespace Frontend

/-- The tokens that a text consists of. -/
inductive Consists : List Char → List Token → Prop
  | ended {gap : List Char} (blank : Blank gap) : Consists gap []
  | found {gap rest : List Char} {t : Token} {ts : List Token} (blank : Blank gap)
      (spelled : Spelled t) (ends : t.kind.EndsAt rest) (tail : Consists rest ts) :
    Consists (gap ++ (t.literal.toList ++ rest)) (t :: ts)

theorem Consists.exists_laid {text : List Char} {ts : List Token} (h : Consists text ts)
    {p place : Position} (there : p.advanceAll text = .ok place) :
    ∃ ls, Laid p text ls (.eofAt place) ∧ ls.map (·.token) = ts := by
  induction h generalizing p with
  | ended blank => exact ⟨[], .ended blank there, rfl⟩
  | @found gap rest t ts blank spelled ends tail ih =>
    rw [Position.advanceAll_append] at there
    obtain ⟨start, first, there⟩ := exists_of_bind_eq_ok there
    rw [Position.advanceAll_append] at there
    obtain ⟨stop, last, there⟩ := exists_of_bind_eq_ok there
    obtain ⟨ls, laid, tokens⟩ := ih there
    exact ⟨⟨t, ⟨start, stop⟩⟩ :: ls,
      .found blank spelled ends first last laid, by rw [List.map_cons, tokens]⟩

/-! ## Token by token -/

theorem Consists.blank {gap text : List Char} (blank : Blank gap) {ts : List Token}
    (h : Consists text ts) :
    Consists (gap ++ text) ts := by
  have joined {more : List Char} (blank' : Blank more) : Blank (gap ++ more) :=
    fun c hc => (List.mem_append.mp hc).elim (blank c) (blank' c)
  cases h with
  | ended blank' => exact .ended (joined blank')
  | found blank' spelled ends tail =>
    rw [← List.append_assoc]
    exact .found (joined blank') spelled ends tail

theorem Consists.token {t : Token} (spelled : Spelled t) {rest : List Char}
    (ends : t.kind.EndsAt rest) {ts : List Token} (h : Consists rest ts) :
    Consists (t.literal.toList ++ rest) (t :: ts) :=
  show Consists ([] ++ (t.literal.toList ++ rest)) (t :: ts) from .found nofun spelled ends h

/-! ## Lines -/

namespace Position

theorem exists_advanceAll_line {cs : List Char} (plain : ∀ c ∈ cs, Plain c)
    (short : cs.length + 1 < UInt32.size) :
    ∃ place, start.advanceAll cs = .ok place := by
  apply exists_advanceAll_plain plain
  · change 0 + _ < 18446744073709551616
    change _ < 4294967296 at short
    omega
  · change 1 + _ < UInt32.size
    omega

theorem advanceAll_line_overflow {cs : List Char} (plain : ∀ c ∈ cs, Plain c)
    (long : UInt32.size ≤ cs.length + 1) :
    start.advanceAll cs = .error .addOverflow := by
  apply advanceAll_plain_overflow plain
  change UInt32.size ≤ 1 + _
  omega

end Position

end Frontend

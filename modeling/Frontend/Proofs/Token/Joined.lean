import Frontend.Proofs.Token.Layout

/-!
# Texts one after the other

The tokens of a text do not depend on the place where the text starts (`Laid.tokens_eq`). If the
last token of a text is a semicolon, or if there is none, then a text that is put after it changes
none of the tokens, and the lexemes of both texts together are those of the first, followed by those
of the second (`Laid.append`).
-/

set_option autoImplicit false

namespace Frontend

theorem Laid.tokens_eq {p q : Position} {text : List Char} {ls ls' : List Lexeme}
    {eof eof' : Lexeme} (h : Laid p text ls eof) (h' : Laid q text ls' eof') :
    ls.map (·.token) = ls'.map (·.token) := by
  rw [← lexemesFrom_eq_ok_iff] at h h'
  induction text using text_induction generalizing p q ls ls' with
  | blank gap blank =>
    rw [lexemesFrom_blank blank] at h h'
    obtain ⟨place, -, h⟩ := exists_of_bind_eq_ok h
    obtain ⟨place', -, h'⟩ := exists_of_bind_eq_ok h'
    cases h
    cases h'
    rfl
  | token gap t rest blank spelled ends ih =>
    rw [lexemesFrom_token blank spelled ends] at h h'
    obtain ⟨start, -, h⟩ := exists_of_bind_eq_ok h
    obtain ⟨stop, -, h⟩ := exists_of_bind_eq_ok h
    obtain ⟨tail, htail, h⟩ := exists_of_bind_eq_ok h
    obtain ⟨start', -, h'⟩ := exists_of_bind_eq_ok h'
    obtain ⟨stop', -, h'⟩ := exists_of_bind_eq_ok h'
    obtain ⟨tail', htail', h'⟩ := exists_of_bind_eq_ok h'
    cases h
    cases h'
    rw [List.map_cons, List.map_cons, ih htail htail']

theorem Laid.of_gap {p q : Position} {gap text : List Char} {ls : List Lexeme} {eof : Lexeme}
    (blank : Blank gap) (there : p.advanceAll gap = .ok q) (h : Laid q text ls eof) :
    Laid p (gap ++ text) ls eof := by
  have joined : ∀ {more : List Char} {r : Position}, Blank more → q.advanceAll more = .ok r →
      Blank (gap ++ more) ∧ p.advanceAll (gap ++ more) = .ok r := by
    intro more r hmore hr
    refine ⟨fun c hc => (List.mem_append.mp hc).elim (blank c) (hmore c), ?_⟩
    rw [Position.advanceAll_append, there]
    exact hr
  cases h with
  | ended hmore last =>
    obtain ⟨both, all⟩ := joined hmore last
    exact .ended both all
  | found hmore spelled ends first last tail =>
    obtain ⟨both, all⟩ := joined hmore first
    rw [← List.append_assoc]
    exact .found both spelled ends all last tail

theorem Laid.eq_nil {p : Position} {ls : List Lexeme} {eof : Lexeme} (h : Laid p [] ls eof) :
    ls = [] := by
  rw [← lexemesFrom_eq_ok_iff, lexemesFrom_blank (by simp [Blank])] at h
  cases h
  rfl

/-- The last lexeme, if there is one, is a semicolon. -/
def Sealed (ls : List Lexeme) : Prop := ∀ l, ls.getLast? = some l → l.kind = .semicolon

theorem Sealed.of_suffix {ls rest : List Lexeme} (h : Sealed ls) (suffix : rest <:+ ls) :
    Sealed rest := by
  intro l hl
  obtain ⟨before, rfl⟩ := suffix
  apply h
  rw [List.getLast?_append, hl]
  rfl

theorem Sealed.exists_semicolon {first : Lexeme} {rest : List Lexeme} (h : Sealed (first :: rest)) :
    ∃ l ∈ first :: rest, l.kind = .semicolon := by
  have last := List.getLast?_eq_some_getLast (List.cons_ne_nil first rest)
  exact ⟨_, List.getLast_mem _, h _ last⟩

theorem Laid.append {p q : Position} {text more : List Char} {ls ls' : List Lexeme}
    {eof eof' : Lexeme} (h : Laid p text ls eof) (closed : Sealed ls)
    (there : p.advanceAll text = .ok q) (h' : Laid q more ls' eof') :
    Laid p (text ++ more) (ls ++ ls') eof' := by
  induction h with
  | ended blank _ => exact h'.of_gap blank there
  | @found p start stop gap rest t ls eof blank spelled ends first last tail ih =>
    have after : stop.advanceAll rest = .ok q := by
      rw [Position.advanceAll_append, first] at there
      replace there : start.advanceAll (t.literal.toList ++ rest) = .ok q := there
      rw [Position.advanceAll_append, last] at there
      exact there
    have ends' : t.kind.EndsAt (rest ++ more) := by
      cases rest with
      | cons c rest =>
        intro d hd
        exact ends d hd
      | nil =>
        -- the token is the last one, so it is a semicolon, and nothing goes on with that
        have only : t.kind = .semicolon := by
          apply closed ⟨t, ⟨start, stop⟩⟩
          rw [tail.eq_nil]
          rfl
        intro d _
        rw [only]
        rfl
    have others := ih (closed.of_suffix (List.suffix_cons _ _)) after
    rw [List.append_assoc, List.append_assoc]
    exact .found blank spelled ends' first last others

end Frontend

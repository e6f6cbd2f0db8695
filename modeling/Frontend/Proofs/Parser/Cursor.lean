import Frontend.Proofs.Parser.Machine
import Frontend.Proofs.Token.Stream

/-!
# The cursor of the parser

The lexemes of a text are all known once its end is, and so is what will be reported of them. A
cursor stands at some of these lexemes (`Setting.Reads`), and to take one is to go on to the next
(`Reads.exists_next`). What is reported on the way from some lexemes to others (`Setting.handed`)
is the piece of the timeline between two statements (`Setting.timeline_cons`). The two loops of the
parser, which skip lexemes or absorb semicolons, are runs of such steps.
-/

set_option autoImplicit false

namespace Frontend.Parser

/-- What stays the same in a run: the limits, all preferences, what will have been counted in the
end, and the end. -/
structure Setting where
  limits : Limits
  preferences : ParserPreferences
  lexical : LexicalPreferences
  totals : Metrics
  eof : Lexeme

namespace Setting

variable (σ : Setting)

/-! ## Lexemes and their reports -/

/-- The reports on a lexeme. -/
def notes (l : Lexeme) : List Event := l.notes σ.limits σ.lexical σ.totals

/-- The lexemes that the lexer has not handed out when the first of some lexemes is in hand and the
second is seen. -/
def pending (ls : List Lexeme) : List Lexeme := (ls ++ [σ.eof]).drop 2

/-- The reports on the lexemes that are handed out on the way from some lexemes to others. -/
def handed (ls ls' : List Lexeme) : List Event :=
  ((σ.pending ls).take (ls.length - ls'.length)).flatMap σ.notes

variable {ls ls' ls'' : List Lexeme}

theorem length_pending (ls : List Lexeme) : (σ.pending ls).length = ls.length - 1 := by
  simp only [pending, List.length_drop, List.length_append, List.length_singleton]
  omega

theorem pending_eq_drop (h : ls' <:+ ls) :
    σ.pending ls' = (σ.pending ls).drop (ls.length - ls'.length) := by
  obtain ⟨front, rfl⟩ := h
  unfold pending
  rw [List.length_append, Nat.add_sub_cancel, List.drop_drop, Nat.add_comm, ← List.drop_drop,
    List.append_assoc, List.drop_left]

theorem handed_self (ls : List Lexeme) : σ.handed ls ls = [] := by
  simp [handed]

theorem handed_trans (h : ls' <:+ ls) (h' : ls'' <:+ ls') :
    σ.handed ls ls' ++ σ.handed ls' ls'' = σ.handed ls ls'' := by
  have le := h.length_le
  have le' := h'.length_le
  have whole : ls.length - ls''.length =
      (ls.length - ls'.length) + (ls'.length - ls''.length) := by omega
  unfold handed
  rw [σ.pending_eq_drop h, ← List.flatMap_append, whole, ← List.take_add]

theorem handed_nil (ls : List Lexeme) : σ.handed ls [] = (σ.pending ls).flatMap σ.notes := by
  have all : (σ.pending ls).length ≤ ls.length - 0 := by
    rw [σ.length_pending]
    omega
  unfold handed
  rw [List.length_nil, List.take_of_length_le all]

/-- One statement in the timeline. It comes out at `ls'`. -/
theorem timeline_cons (h : ls' <:+ ls) (outcome : Outcome) (items : List Item)
    (outcomes : Outcome → List Event) :
    timeline σ.notes outcomes (σ.pending ls) (ls.length - 1)
        (⟨outcome, ls'.length - 1⟩ :: items) =
      σ.handed ls ls' ++ outcomes outcome ++
        timeline σ.notes outcomes (σ.pending ls') (ls'.length - 1) items := by
  have le := h.length_le
  have size := σ.length_pending ls
  rw [timeline, σ.pending_eq_drop h, handed]
  by_cases last : ls' = []
  · -- from the last lexeme on, nothing is pending
    subst last
    have all : (σ.pending ls).length ≤ ls.length - 1 - (([] : List Lexeme).length - 1) := by
      rw [size]
      exact Nat.le_refl _
    have all' : (σ.pending ls).length ≤ ls.length - ([] : List Lexeme).length := by
      rw [size]
      exact Nat.sub_le _ _
    rw [List.take_of_length_le all, List.take_of_length_le all', List.drop_eq_nil_of_le all,
      List.drop_eq_nil_of_le all']
  · have some := List.length_pos_iff.mpr last
    rw [show ls.length - 1 - (ls'.length - 1) = ls.length - ls'.length by omega]

end Setting

/-! ## Where the machine reads -/

/-- The first of some lexemes is in hand, the second is seen, and the lexer has the others. It
stands at the end when the end is in sight. -/
structure Cursor.At (c : Cursor) (ls : List Lexeme) (eof : Lexeme) : Prop where
  current : c.current = ls.headD eof
  peek : c.peek = ls.tail.headD eof
  ready : c.lexer.Ready (ls.drop 2) eof
  ended : c.lexer.ended = decide (ls.length < 2)
  kinds : ∀ l ∈ ls, l.kind ≠ .eof

namespace Setting

variable {σ : Setting}

/-- The cursor is at some lexemes and counts as the setting has it. -/
structure Reads (σ : Setting) (c : Cursor) (ls : List Lexeme) : Prop extends c.At ls σ.eof where
  preferences : c.lexer.preferences = σ.lexical
  counts : c.lexer.counts (ls.drop 2) = σ.totals

variable {c : Cursor} {ls : List Lexeme}

theorem Reads.eof_kind (h : σ.Reads c ls) : σ.eof.kind = .eof := h.ready.kind_eof

theorem Reads.current_cons {l : Lexeme} {rest : List Lexeme} (h : σ.Reads c (l :: rest)) :
    c.current = l := h.current

theorem Reads.notes (h : σ.Reads c ls) :
    c.lexer.notes σ.limits ((ls.drop 2).headD σ.eof) = ((σ.pending ls).take 1).flatMap σ.notes := by
  have ended := h.ended
  have kinds : ∀ l ∈ ls.drop 2, l.kind ≠ .eof := fun l hl => h.kinds l (List.mem_of_mem_drop hl)
  by_cases near : ls.length < 2
  · have none : ls.drop 2 = [] := List.drop_eq_nil_of_le (Nat.le_of_lt near)
    have nothing : σ.pending ls = [] :=
      List.eq_nil_of_length_eq_zero (by rw [σ.length_pending]; omega)
    rw [nothing, none]
    exact if_pos ⟨h.eof_kind, by rw [ended]; exact decide_eq_true near⟩
  · have far : 2 ≤ ls.length := Nat.le_of_not_lt near
    have still : c.lexer.ended = false := ended.trans (decide_eq_false near)
    have split : σ.pending ls = ls.drop 2 ++ [σ.eof] := List.drop_append_of_le_length far
    have counts := h.counts
    rw [split, Lexer.notes, still]
    cases ahead : ls.drop 2 with
    | nil =>
      rw [ahead] at counts
      simp only [List.headD_nil, h.eof_kind, Bool.false_eq_true, and_false, if_false,
        List.nil_append, List.take_succ_cons, List.take_zero, List.flatMap_singleton, Setting.notes,
        ← counts, h.preferences]
      rfl
    | cons l rest =>
      rw [ahead] at kinds
      have kind : l.kind ≠ .eof := kinds l List.mem_cons_self
      simp only [List.headD_cons, Bool.false_eq_true, and_false, if_false, List.cons_append,
        List.take_succ_cons, List.take_zero, List.flatMap_singleton, Setting.notes, h.preferences]
      exact l.notes_of_ne_eof σ.limits σ.lexical kind _ _

/-- One lexeme is taken, and reported if it has not been. -/
theorem Reads.exists_next (h : σ.Reads c ls) :
    ∃ l after, c.lexer.next = .ok (l, after) ∧ σ.Reads ⟨after, c.peek, l⟩ ls.tail ∧
      c.lexer.notes σ.limits l = σ.handed ls ls.tail := by
  obtain ⟨after, taken, passes⟩ := h.ready.exists_next σ.limits
  have ready := passes.ready
  rw [List.length_singleton, List.drop_drop] at ready
  have tail : ls.tail.drop 2 = ls.drop 3 := by rw [← List.drop_one, List.drop_drop]
  have some : (ls.drop 2).headD σ.eof = ls.tail.tail.headD σ.eof := by
    rw [← List.drop_one, ← List.drop_one, List.drop_drop]
  refine ⟨_, after, taken, ⟨⟨h.peek, some, ?_, ?_, ?_⟩, ?_, ?_⟩, ?_⟩
  · rw [tail]
    exact ready
  · rw [passes.ended, h.ended, List.length_singleton, List.length_drop, List.length_tail]
    simp only [← Bool.decide_or, decide_eq_decide]
    omega
  · exact fun l hl => h.kinds l (List.mem_of_mem_tail hl)
  · exact passes.preferences.trans h.preferences
  · rw [tail, Lexer.counts_append passes.preferences passes.metrics, ← h.counts]
    congr 1
    rw [List.length_singleton, show ls.drop 3 = (ls.drop 2).drop 1 by rw [List.drop_drop],
      List.take_append_drop]
  · rw [h.notes, handed]
    cases ls with
    | nil => rfl
    | cons l rest => simp

end Setting

/-! ## Taking lexemes -/

/-- The machine when it has taken some lexemes, which were reported. -/
def Machine.moved (m : Machine) (cursor : Cursor) (events : List Event) (stage : Machine.Stage) :
    Machine :=
  { m with cursor := cursor, events := m.events ++ events, stage := stage }

theorem Machine.moved_self (m : Machine) : m.moved m.cursor [] m.stage = m := by
  simp [moved]

theorem Machine.moved_moved (m : Machine) (c c' : Cursor) (es es' : List Event)
    (stage stage' : Machine.Stage) :
    (m.moved c es stage).moved c' es' stage' = m.moved c' (es ++ es') stage' := by
  simp [moved]

namespace Setting

open Machine (Steps)

variable {σ : Setting} {m : Machine} {ls : List Lexeme}

theorem Reads.exists_take {stage : Machine.Stage} (h : σ.Reads m.cursor ls)
    (next : m.action σ.limits.maxParseDepth = some (.take stage)) :
    ∃ cursor, σ.Reads cursor ls.tail ∧ m.step σ.limits σ.preferences =
      .ok (some (m.moved cursor (σ.handed ls ls.tail) stage)) := by
  obtain ⟨l, after, taken, reads, notes⟩ := h.exists_next
  refine ⟨_, reads, ?_⟩
  rw [Machine.step_eq next, Machine.perform, taken, ← notes]
  rfl

/-- The lexemes from the next semicolon on. -/
def toSemicolon (ls : List Lexeme) : List Lexeme := ls.dropWhile (·.kind ≠ .semicolon)

theorem toSemicolon_cons_of_eq {l : Lexeme} (semicolon : l.kind = .semicolon) (rest : List Lexeme) :
    toSemicolon (l :: rest) = l :: rest :=
  List.dropWhile_cons_of_neg (by simp [semicolon])

theorem toSemicolon_cons_of_ne {l : Lexeme} (other : l.kind ≠ .semicolon) (rest : List Lexeme) :
    toSemicolon (l :: rest) = toSemicolon rest :=
  List.dropWhile_cons_of_pos (by simp [other])

theorem toSemicolon_suffix (ls : List Lexeme) : toSemicolon ls <:+ ls := List.dropWhile_suffix _

theorem stopsSkipping_toSemicolon (ending : σ.eof.kind = .eof) (ls : List Lexeme) :
    stopsSkipping ((toSemicolon ls).headD σ.eof) = true := by
  induction ls with
  | nil => simp [toSemicolon, stopsSkipping, ending]
  | cons l rest ih =>
    by_cases semicolon : l.kind = .semicolon
    · rw [toSemicolon_cons_of_eq semicolon, List.headD_cons, stopsSkipping, semicolon]
      rfl
    · rw [toSemicolon_cons_of_ne semicolon]
      exact ih

/-- At a stage that takes lexemes until a semicolon or the end is in hand, the machine gets
there. -/
theorem Reads.exists_skip {stage : Machine.Stage} (h : σ.Reads m.cursor ls) (here : m.stage = stage)
    (loops : ∀ n : Machine, n.stage = stage → stopsSkipping n.cursor.current = false →
      n.action σ.limits.maxParseDepth = some (.take stage)) :
    ∃ cursor, σ.Reads cursor (toSemicolon ls) ∧ Steps σ.limits σ.preferences m
      (m.moved cursor (σ.handed ls (toSemicolon ls)) stage) := by
  induction ls generalizing m with
  | nil =>
    rw [show toSemicolon [] = [] from rfl, σ.handed_self, ← here]
    exact ⟨m.cursor, h, by rw [m.moved_self]⟩
  | cons l rest ih =>
    by_cases semicolon : l.kind = .semicolon
    · rw [toSemicolon_cons_of_eq semicolon, σ.handed_self, ← here]
      exact ⟨m.cursor, h, by rw [m.moved_self]⟩
    · have kind : l.kind ≠ .eof := h.kinds l List.mem_cons_self
      have onwards : stopsSkipping m.cursor.current = false := by
        rw [h.current_cons]
        simp [stopsSkipping, semicolon, kind]
      obtain ⟨cursor, reads, first⟩ := h.exists_take (loops m here onwards)
      obtain ⟨last, reads', others⟩ :=
        ih (m := m.moved cursor (σ.handed (l :: rest) rest) stage) reads rfl
      rw [Machine.moved_moved] at others
      rw [toSemicolon_cons_of_ne semicolon,
        ← σ.handed_trans (List.suffix_cons l rest) (toSemicolon_suffix rest)]
      exact ⟨last, reads', .head first others⟩

/-- A run of semicolons after the lexeme in hand is taken. -/
theorem Reads.exists_absorb {first : Lexeme} {result : Option Expr} (h : σ.Reads m.cursor ls)
    (here : m.stage = .absorb first result) :
    ∃ cursor ls', σ.Reads cursor ls' ∧ ls' <:+ ls ∧
      ls'.tail = ls.tail.dropWhile (·.kind = .semicolon) ∧
      Steps σ.limits σ.preferences m (m.moved cursor (σ.handed ls ls') (.absorb first result)) := by
  induction ls generalizing m with
  | nil =>
    refine ⟨m.cursor, [], h, List.suffix_rfl, rfl, ?_⟩
    rw [σ.handed_self, ← here, m.moved_self]
  | cons l rest ih =>
    have peek : m.cursor.peek = rest.headD σ.eof := h.peek
    by_cases semicolon : (rest.headD σ.eof).kind = .semicolon
    · have next : m.action σ.limits.maxParseDepth = some (.take (.absorb first result)) := by
        simp only [Machine.action, here, peek, semicolon, if_true]
      obtain ⟨cursor, reads, taken⟩ := h.exists_take next
      obtain ⟨last, ls', reads', suffix, left, others⟩ :=
        ih (m := m.moved cursor (σ.handed (l :: rest) rest) (.absorb first result)) reads rfl
      rw [Machine.moved_moved] at others
      refine ⟨last, ls', reads', suffix.trans (List.suffix_cons l rest), ?_, ?_⟩
      · cases rest with
        | nil =>
          rw [List.headD_nil, h.eof_kind] at semicolon
          cases semicolon
        | cons l' rest =>
          replace semicolon : l'.kind = .semicolon := semicolon
          rw [left, List.tail_cons, List.tail_cons,
            List.dropWhile_cons_of_pos (by simp [semicolon])]
      · rw [← σ.handed_trans (List.suffix_cons l rest) suffix]
        exact .head taken others
    · refine ⟨m.cursor, l :: rest, h, List.suffix_rfl, ?_, ?_⟩
      · cases rest with
        | nil => rfl
        | cons l' rest =>
          rw [List.tail_cons, List.dropWhile_cons_of_neg (by simpa using semicolon)]
      · rw [σ.handed_self, ← here, m.moved_self]

end Setting

end Frontend.Parser

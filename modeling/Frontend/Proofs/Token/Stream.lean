import Mathlib.Data.List.Forall2
import Frontend.Token.Stream
import Frontend.Proofs.Parser.Notes
import Frontend.Proofs.Parser.Window

/-!
# A lexer as a stream

The lexemes of a text, with the end of the text for ever after them, are one stream, and a lexer
hands it out in order whichever way it is pulled. `Lexer.Passes` says what a lexer goes through on
the way: what it hands out, counts and reports. One lexeme is passed by `Lexer.next`
(`Ready.exists_next`), all that are left by `Lexer.drain` (`Ready.exists_drain`), and what is passed
in two parts is passed as a whole (`Passes.trans`).
-/

set_option autoImplicit false

namespace Frontend

/-! ## Lexemes without end -/

/-- The first `n` lexemes of a text, when its end follows for ever. -/
def Lexeme.firsts (ls : List Lexeme) (eof : Lexeme) (n : Nat) : List Lexeme :=
  ls.take n ++ List.replicate (n - ls.length) eof

theorem Lexeme.firsts_add (ls : List Lexeme) (eof : Lexeme) (m n : Nat) :
    firsts ls eof (m + n) = firsts ls eof m ++ firsts (ls.drop m) eof n := by
  unfold firsts
  rw [List.take_add, List.length_drop]
  by_cases h : m ≤ ls.length
  · rw [Nat.sub_eq_zero_of_le h, List.replicate_zero, List.append_nil, List.append_assoc,
      show m + n - ls.length = n - (ls.length - m) by omega]
  · have short : ls.length ≤ m := by omega
    rw [List.drop_eq_nil_of_le short, List.take_nil, List.append_nil, List.nil_append,
      List.append_assoc,
      List.replicate_append_replicate, show m + n - ls.length =
        m - ls.length + (n - (ls.length - m)) by omega]

theorem Lexeme.firsts_append_end (ls : List Lexeme) (eof : Lexeme) (n : Nat) :
    firsts (ls ++ [eof]) eof n = firsts ls eof n := by
  unfold firsts
  rw [List.take_append, List.append_assoc, List.length_append, List.length_singleton]
  congr 1
  cases h : n - ls.length with
  | zero => simp [show n - (ls.length + 1) = 0 by omega]
  | succ k => simp [show n - (ls.length + 1) = k by omega, List.replicate_succ]

theorem Lexeme.filter_notes_tokenized (limits : Limits) (c : LexicalPreferences) (m : Metrics)
    {l : Lexeme} (more : l.kind ≠ .eof) :
    (l.notes limits c m).filter (·.code = .tokenized) = [] := by
  rw [List.filter_eq_nil_iff]
  intro e he
  rcases mem_notes he with ⟨ended, -⟩ | ⟨context, rfl⟩
  · exact absurd ended more
  · simp [show Code.plainDebug ≠ Code.tokenized by decide]

namespace Lexer

/-! ## Passing lexemes -/

/-- A lexer has the lexemes ahead of it, and it stands at the end of the text once it has handed
that out. -/
structure Ready (lexer : Lexer) (ls : List Lexeme) (eof : Lexeme) : Prop where
  faces : lexer.Faces ls eof
  settled : lexer.ended = true → ls = [] ∧ lexer.atEnd [] eof = lexer

/-- On the way from one lexer to another, lexemes out of those ahead are handed out and counted, and
it is reported if the end is among them for the first time. -/
structure Passes (limits : Limits) (eof : Lexeme) (before : Lexer) (ls handed : List Lexeme)
    (events : List Event) (after : Lexer) : Prop where
  firsts : handed = Lexeme.firsts ls eof handed.length
  ready : after.Ready (ls.drop handed.length) eof
  source : after.source = before.source
  preferences : after.preferences = before.preferences
  metrics : after.metrics = before.counts (ls.take handed.length)
  ended : after.ended = (before.ended || decide (ls.length < handed.length))
  reported : events.filter (·.code = .tokenized) =
    if before.ended = false ∧ after.ended = true then [after.metrics.note limits] else []

section

variable {limits : Limits} {eof : Lexeme} {lexer middle after : Lexer}
  {ls handed others : List Lexeme} {events more : List Event}

theorem Ready.kind_eof (h : lexer.Ready ls eof) : eof.kind = .eof := Laid.eof_kind h.faces

theorem Ready.kinds (h : lexer.Ready ls eof) : ∀ l ∈ ls, l.kind ≠ .eof :=
  fun l hl => (Laid.spelled h.faces l hl).kind_ne_eof

theorem Passes.refl (h : lexer.Ready ls eof) : Passes limits eof lexer ls [] [] lexer where
  firsts := by simp [Lexeme.firsts]
  ready := h
  source := rfl
  preferences := rfl
  metrics := rfl
  ended := by simp
  reported := by cases lexer.ended <;> simp

theorem counts_append {xs : List Lexeme} (preferences : after.preferences = lexer.preferences)
    (metrics : after.metrics = lexer.counts xs) (ys : List Lexeme) :
    after.counts ys = lexer.counts (xs ++ ys) := by
  rw [counts, counts, List.foldl_append, metrics, preferences, counts]

theorem Passes.trans (h : Passes limits eof lexer ls handed events middle)
    (h' : Passes limits eof middle (ls.drop handed.length) others more after) :
    Passes limits eof lexer ls (handed ++ others) (events ++ more) after where
  firsts := by
    rw [List.length_append, Lexeme.firsts_add, ← h.firsts, ← h'.firsts]
  ready := by
    rw [List.length_append, ← List.drop_drop]
    exact h'.ready
  source := h'.source.trans h.source
  preferences := h'.preferences.trans h.preferences
  metrics := by
    rw [h'.metrics, counts_append h.preferences h.metrics, List.length_append, List.take_add]
  ended := by
    rw [h'.ended, h.ended, Bool.or_assoc, List.length_drop, List.length_append]
    congr 1
    by_cases past : ls.length < handed.length
    · simp [past, Nat.lt_add_right _ past]
    · simp [show ls.length - handed.length < others.length ↔
        ls.length < handed.length + others.length by omega, past]
  reported := by
    rw [List.filter_append, h.reported, h'.reported]
    cases started : lexer.ended with
    | true =>
      have still : middle.ended = true := by rw [h.ended, started, Bool.true_or]
      simp [still]
    | false =>
      cases halfway : middle.ended with
      | false => simp
      | true =>
        -- the end has been reported with the counts that stay
        have done : after.ended = true := by rw [h'.ended, halfway, Bool.true_or]
        have same : after.metrics = middle.metrics := by
          rw [h'.metrics, (h.ready.settled halfway).1, List.take_nil]
          rfl
        simp [done, same]

/-- Wherever a lexer stands on the way, the end that is ahead of it is the same. -/
theorem Passes.atEnd (h : Passes limits eof lexer ls handed events after) :
    after.atEnd (ls.drop handed.length) eof = lexer.atEnd ls eof := by
  have counted : after.counts (ls.drop handed.length) = lexer.counts ls := by
    rw [counts_append h.preferences h.metrics, List.take_append_drop]
  unfold counts at counted
  unfold Lexer.atEnd
  rw [h.source, counted, h.preferences]

theorem Passes.eq_atEnd (h : Passes limits eof lexer ls handed events after)
    (ended : after.ended = true) :
    after = lexer.atEnd ls eof := by
  obtain ⟨none, still⟩ := h.ready.settled ended
  have ahead := h.atEnd
  rw [none, still] at ahead
  exact ahead

theorem Ready.filter_headD (h : lexer.Ready ls eof) :
    [ls.headD eof].filter (·.kind ≠ .eof) = ls.take 1 := by
  cases ls with
  | nil => simp [h.kind_eof]
  | cons l ls =>
    have kind : l.kind ≠ .eof := h.kinds l List.mem_cons_self
    simp [kind]

theorem Ready.exists_next (limits : Limits) (h : lexer.Ready ls eof) :
    ∃ after, lexer.next = .ok (ls.headD eof, after) ∧
      Passes limits eof lexer ls [ls.headD eof] (lexer.notes limits (ls.headD eof)) after := by
  have ending : eof.kind = .eof := h.kind_eof
  cases ls with
  | nil =>
    obtain ⟨taken, faces⟩ := h.faces.next_nil
    refine ⟨_, taken, by simp [Lexeme.firsts], ⟨faces, fun _ => ⟨rfl, rfl⟩⟩, rfl, rfl,
      rfl, by simp [atEnd], ?_⟩
    cases ended : lexer.ended <;> simp [notes, Lexeme.notes_eof, atEnd, ended, ending]
  | cons l ls =>
    have kind : l.kind ≠ .eof := h.kinds l List.mem_cons_self
    have still : lexer.ended = false := by
      cases ended : lexer.ended with
      | false => rfl
      | true => cases (h.settled ended).1
    obtain ⟨rest, taken, faces⟩ := h.faces.next_cons
    have before : (lexer.past l rest).ended = false := still
    refine ⟨_, taken, by simp [Lexeme.firsts], ⟨faces, fun ended => ?_⟩, rfl, rfl,
      rfl, by simp [before, still], ?_⟩
    · cases before.symm.trans ended
    · simp [notes, kind, before,
        Lexeme.filter_notes_tokenized limits lexer.preferences lexer.metrics kind]

/-! ## Asking for all that is left -/

theorem drain_of_eof {l : Lexeme} (h : lexer.next = .ok (l, after)) (ending : l.kind = .eof) :
    lexer.drain limits = .ok ([], lexer.notes limits l, after) := by
  rw [drain]
  split
  · rename_i failed
    cases h.symm.trans failed
  · rename_i taken
    cases h.symm.trans taken
    rw [dif_pos ending]

theorem drain_of_ne_eof {l : Lexeme} {last : Lexer} (h : lexer.next = .ok (l, after))
    (kind : l.kind ≠ .eof) (rest : after.drain limits = .ok (ls, events, last)) :
    lexer.drain limits = .ok (l :: ls, lexer.notes limits l ++ events, last) := by
  rw [drain]
  split
  · rename_i failed
    cases h.symm.trans failed
  · rename_i taken
    cases h.symm.trans taken
    rw [dif_neg kind, rest]

theorem Ready.exists_drain (limits : Limits) (h : lexer.Ready ls eof) :
    ∃ events after, lexer.drain limits = .ok (ls, events, after) ∧
      Passes limits eof lexer ls (ls ++ [eof]) events after := by
  induction ls generalizing lexer with
  | nil =>
    obtain ⟨after, taken, passes⟩ := h.exists_next limits
    exact ⟨_, after, drain_of_eof taken h.kind_eof, passes⟩
  | cons l ls ih =>
    have kind : l.kind ≠ .eof := h.kinds l List.mem_cons_self
    obtain ⟨middle, taken, first⟩ := h.exists_next limits
    obtain ⟨events, after, drained, rest⟩ := ih first.ready
    exact ⟨_, after, drain_of_ne_eof taken kind drained, first.trans rest⟩

end

end Lexer

/-! ## Questions and answers -/

/-- The lexemes that an answer hands out. Where an item or the last of all items is missing, that is
the end. -/
def Pulled.handed (eof : Lexeme) : Pulled → List Lexeme
  | .lexeme l => [l]
  | .item (some l) => [l]
  | .item none => [eof]
  | .items ls => ls ++ [eof]
  | .counts _ => []

/-- An answer fits a question. The end of a text is no item. -/
inductive Pull.AnsweredBy : Pull → Pulled → Prop where
  | lexeme (l : Lexeme) : AnsweredBy .lexeme (.lexeme l)
  | item {l : Option Lexeme} (kinds : ∀ x ∈ l, x.kind ≠ .eof) : AnsweredBy .item (.item l)
  | items {ls : List Lexeme} (kinds : ∀ x ∈ ls, x.kind ≠ .eof) : AnsweredBy .items (.items ls)
  | counts (m : Metrics) : AnsweredBy .counts (.counts m)

theorem Pull.length_handed (eof : Lexeme) {questions : List Pull} {answers : List Pulled}
    (h : List.Forall₂ AnsweredBy questions answers) :
    questions.countP (· ≠ .counts) ≤ (answers.flatMap (Pulled.handed eof)).length := by
  induction h with
  | nil => exact Nat.le_refl 0
  | @cons question answer questions answers first rest ih =>
    rw [List.countP_cons, List.flatMap_cons, List.length_append, Nat.add_comm]
    apply Nat.add_le_add _ ih
    cases first with
    | lexeme l => simp [Pulled.handed]
    | @item l kinds => cases l <;> simp [Pulled.handed]
    | items kinds => simp [Pulled.handed]
    | counts m => simp

/-- The answer to a question at the end of a text. -/
def Pull.atEnd (eof : Lexeme) (m : Metrics) : Pull → Pulled
  | .lexeme => .lexeme eof
  | .item => .item none
  | .items => .items []
  | .counts => .counts m

namespace Lexer

variable {eof : Lexeme} {lexer : Lexer} {ls : List Lexeme}

theorem Ready.exists_pull (limits : Limits) (h : lexer.Ready ls eof) (question : Pull) :
    ∃ answer events after, lexer.pull limits question = .ok (answer, events, after) ∧
      question.AnsweredBy answer ∧ Passes limits eof lexer ls (answer.handed eof) events after := by
  obtain ⟨after, taken, passes⟩ := h.exists_next limits
  cases question with
  | lexeme =>
    refine ⟨.lexeme (ls.headD eof), _, after, ?_, .lexeme _, passes⟩
    rw [pull, taken]
    rfl
  | item =>
    refine ⟨.item (if (ls.headD eof).kind = .eof then none else some (ls.headD eof)),
      lexer.notes limits (ls.headD eof), after, ?_, .item ?_, ?_⟩
    · rw [pull, taken]
      rfl
    · simp +contextual
    · cases ls with
      | nil => simpa [Pulled.handed, h.kind_eof] using passes
      | cons l ls =>
        have kind : l.kind ≠ .eof := h.kinds l List.mem_cons_self
        simpa [Pulled.handed, kind] using passes
  | items =>
    obtain ⟨events, after, drained, passes⟩ := h.exists_drain limits
    refine ⟨.items ls, events, after, ?_, .items h.kinds, passes⟩
    rw [pull, drained]
    rfl
  | counts => exact ⟨.counts lexer.metrics, [], lexer, rfl, .counts _, .refl h⟩

theorem Ready.exists_pullAll (limits : Limits) (h : lexer.Ready ls eof) (questions : List Pull) :
    ∃ answers events after, lexer.pullAll limits questions = .ok (answers, events, after) ∧
      List.Forall₂ Pull.AnsweredBy questions answers ∧
      Passes limits eof lexer ls (answers.flatMap (Pulled.handed eof)) events after := by
  induction questions generalizing lexer ls with
  | nil => exact ⟨[], [], lexer, rfl, .nil, .refl h⟩
  | cons question questions ih =>
    obtain ⟨answer, events, middle, pulled, fits, first⟩ := h.exists_pull limits question
    obtain ⟨answers, more, after, others, fit, rest⟩ := ih first.ready
    refine ⟨answer :: answers, events ++ more, after, ?_, .cons fits fit, ?_⟩
    · rw [pullAll, pulled]
      simp only [others]
      rfl
    · rw [List.flatMap_cons]
      exact first.trans rest

/-! ## The end -/

theorem Ready.pull_ended (limits : Limits) (h : lexer.Ready ls eof) (ended : lexer.ended = true)
    (question : Pull) :
    lexer.pull limits question = .ok (question.atEnd eof lexer.metrics, [], lexer) := by
  obtain ⟨rfl, still⟩ := h.settled ended
  have ending : eof.kind = .eof := h.kind_eof
  have taken : lexer.next = .ok (eof, lexer) := by
    rw [h.faces.next_nil.1, still]
  have silent : lexer.notes limits eof = [] := if_pos ⟨ending, ended⟩
  cases question with
  | lexeme => simp [pull, taken, silent, Except.map, Pull.atEnd]
  | item => simp [pull, taken, silent, ending, Except.map, Pull.atEnd]
  | items => simp [pull, drain_of_eof taken ending, silent, Except.map, Pull.atEnd]
  | counts => rfl

theorem Ready.pullAll_ended (limits : Limits) (h : lexer.Ready ls eof) (ended : lexer.ended = true)
    (questions : List Pull) :
    lexer.pullAll limits questions =
      .ok (questions.map (Pull.atEnd eof lexer.metrics), [], lexer) := by
  induction questions with
  | nil => rfl
  | cons question questions ih =>
    rw [pullAll, h.pull_ended limits ended question]
    simp only [ih]
    rfl

end Lexer

/-! ## Texts -/

theorem exists_ready (c : LexicalPreferences) {text : List Char} {place : Position}
    (there : Position.start.advanceAll text = .ok place) :
    ∃ ls, tokenize text = .ok (ls ++ [.eofAt place]) ∧
      (Lexer.ofText c text).Ready ls (.eofAt place) := by
  obtain ⟨ls, laid⟩ := exists_laid there
  exact ⟨ls, tokenize_eq_ok_iff.mpr ⟨ls, _, laid, rfl⟩, laid, fun ended => by cases ended⟩

/-- Whatever a lexer is asked for in a row, it hands out the tokens of the text in order, and then
its end for ever. It has counted what it has handed out, and it has reported the end once if that is
handed out. From then on it answers in one way, reports nothing, and does not change. -/
theorem pullAll_stream (limits : Limits) (c : LexicalPreferences) {text : List Char}
    {place : Position} (there : Position.start.advanceAll text = .ok place) :
    ∃ ls, tokenize text = .ok (ls ++ [.eofAt place]) ∧ ∀ questions, ∃ answers events after,
      (Lexer.ofText c text).pullAll limits questions = .ok (answers, events, after) ∧
      List.Forall₂ Pull.AnsweredBy questions answers ∧
      let handed := answers.flatMap (Pulled.handed (.eofAt place))
      handed = Lexeme.firsts (ls ++ [.eofAt place]) (.eofAt place) handed.length ∧
      after.metrics = (Lexer.ofText c text).counts (ls.take handed.length) ∧
      events.filter (·.code = .tokenized) =
        (if ls.length < handed.length then [after.metrics.note limits] else []) ∧
      (ls.length < handed.length → ∀ more,
        after.pullAll limits more =
          .ok (more.map (Pull.atEnd (.eofAt place) after.metrics), [], after)) := by
  obtain ⟨ls, tokenized, ready⟩ := exists_ready c there
  refine ⟨ls, tokenized, fun questions => ?_⟩
  obtain ⟨answers, events, after, pulled, fit, passes⟩ := ready.exists_pullAll limits questions
  have ended : after.ended =
      decide (ls.length < (answers.flatMap (Pulled.handed (.eofAt place))).length) :=
    passes.ended
  refine ⟨answers, events, after, pulled, fit, ?_, passes.metrics, ?_, fun past => ?_⟩
  · rw [Lexeme.firsts_append_end]
    exact passes.firsts
  · rw [passes.reported, ended]
    simp [Lexer.ofText]
  · exact passes.ready.pullAll_ended limits (ended.trans (decide_eq_true past))

/-- White space before the end, and more questions than it takes to get there. -/
theorem pullAll_stream_trailing :
    Position.start.advanceAll "1 @ \n".toList = .ok ⟨5, 2, 1⟩ ∧ ∃ answers events after,
      (Lexer.ofText (.ofEnvironment {}) "1 @ \n".toList).pullAll Build.development.limits
        [.item, .counts, .items, .lexeme, .item] = .ok (answers, events, after) ∧
      events.filter (·.code = .tokenized) = [after.metrics.note Build.development.limits] ∧
      ∀ more, after.pullAll Build.development.limits more =
        .ok (more.map (Pull.atEnd (.eofAt ⟨5, 2, 1⟩) after.metrics), [], after) := by
  have there : Position.start.advanceAll "1 @ \n".toList = .ok ⟨5, 2, 1⟩ := rfl
  have known : (tokenize "1 @ \n".toList).map List.length = .ok 3 := by decide +kernel
  obtain ⟨ls, tokenized, stream⟩ :=
    pullAll_stream Build.development.limits (.ofEnvironment {}) there
  obtain ⟨answers, events, after, pulled, fit, -, -, reported, exhausted⟩ :=
    stream [.item, .counts, .items, .lexeme, .item]
  rw [tokenized] at known
  have two : ls.length + 1 = 3 := by simpa [Except.map] using known
  have most := Pull.length_handed (.eofAt ⟨5, 2, 1⟩) fit
  have past : ls.length < (answers.flatMap (Pulled.handed (.eofAt ⟨5, 2, 1⟩))).length :=
    Nat.lt_of_lt_of_le (by rw [Nat.succ.inj two]; decide) most
  rw [if_pos past] at reported
  exact ⟨there, answers, events, after, pulled, reported, exhausted past⟩

end Frontend

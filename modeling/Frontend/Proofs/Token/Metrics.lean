import Frontend.Proofs.Parser.Pulling
import Frontend.Proofs.Timeline
import Mathlib.Algebra.GroupWithZero.Nat

/-!
# Counts of tokens

The classes of tokens exclude each other and leave nothing out but the end (`Kind.one_class`), so
counting by class is exact: one more token makes one more of its class (`Exact.record`), and so it
is for all tokens of a text (`Lexer.exact_counts`). Operators are also counted by their texts
(`Tally.bump`). A lexer comes to the same counts in whichever way it is brought to the end of the
text.
-/

set_option autoImplicit false

namespace Frontend

namespace Metrics

/-! ## Counts by text -/

/-- How often each of some texts occurs. -/
structure Tally (texts : List String) (usage : List (String × Nat)) : Prop where
  lookup : ∀ text, usage.lookup text = if text ∈ texts then some (texts.count text) else none
  distinct : (usage.map (·.1)).Nodup
  sum : (usage.map (·.2)).sum = texts.length

theorem tally_nil : Tally [] [] := ⟨fun _ => rfl, List.nodup_nil, rfl⟩

theorem lookup_bump (text name : String) (usage : List (String × Nat)) :
    (bump text usage).lookup name =
      if name = text then some ((usage.lookup text).getD 0 + 1) else usage.lookup name := by
  induction usage with
  | nil => exact Event.lookup_pair text 1 name []
  | cons pair usage ih =>
    obtain ⟨other, n⟩ := pair
    unfold bump
    split
    · rename_i same
      subst same
      simp only [Event.lookup_pair, if_true, Option.getD_some]
      split <;> rfl
    · rename_i different
      simp only [Event.lookup_pair, ih, if_neg (Ne.symm different)]
      by_cases h : name = other
      · have notText : ¬name = text := fun same => different (h.symm.trans same)
        rw [if_pos h, if_neg notText, if_pos h]
      · rw [if_neg h, if_neg h]

theorem keys_bump (text : String) (usage : List (String × Nat)) :
    (bump text usage).map (·.1) =
      if text ∈ usage.map (·.1) then usage.map (·.1) else usage.map (·.1) ++ [text] := by
  induction usage with
  | nil => rfl
  | cons pair usage ih =>
    obtain ⟨other, n⟩ := pair
    unfold bump
    by_cases same : other = text
    · simp [same]
    · have different : ¬text = other := Ne.symm same
      rw [if_neg same, List.map_cons, ih]
      simp only [List.map_cons, List.mem_cons, different, false_or]
      split <;> rfl

theorem sum_bump (text : String) (usage : List (String × Nat)) :
    ((bump text usage).map (·.2)).sum = (usage.map (·.2)).sum + 1 := by
  induction usage with
  | nil => rfl
  | cons pair usage ih =>
    obtain ⟨other, n⟩ := pair
    unfold bump
    split
    · simp only [List.map_cons, List.sum_cons]
      omega
    · simp only [List.map_cons, List.sum_cons, ih]
      omega

theorem Tally.bump {texts : List String} {usage : List (String × Nat)} (h : Tally texts usage)
    (text : String) :
    Tally (texts ++ [text]) (bump text usage) where
  lookup name := by
    rw [lookup_bump, h.lookup, h.lookup]
    by_cases same : name = text
    · subst same
      by_cases mem : name ∈ texts
      · simp [mem, List.count_append]
      · simp [mem, List.count_append, List.count_eq_zero_of_not_mem mem]
    · simp [same, List.count_append, Ne.symm same]
  distinct := by
    rw [keys_bump]
    split
    · exact h.distinct
    · rename_i fresh
      refine List.nodup_append.mpr ⟨h.distinct, by simp, fun key hkey other hother => ?_⟩
      rw [List.mem_singleton.mp hother]
      rintro rfl
      exact fresh hkey
  sum := by rw [sum_bump, h.sum, List.length_append, List.length_singleton]

end Metrics

/-! ## Counts by class -/

/-- A token that is not the end belongs to one class. -/
theorem Kind.one_class {kind : Kind} (more : kind ≠ .eof) :
    (if kind.isKeyword then 1 else 0) + (if kind = .ident then 1 else 0) +
    (if kind = .int then 1 else 0) +
      (if kind.isOperator then 1 else 0) + (if kind.isDelimiter then 1 else 0) +
      (if kind = .illegal then 1 else 0) = 1 := by
  cases kind with
  | eof => exact absurd rfl more
  | _ => rfl

namespace Metrics

/-- How many tokens are of a class, if classes are counted at all. -/
def ofClass (c : LexicalPreferences) (p : Kind → Bool) (ts : List Token) : Nat :=
  if c.detailedMetrics then ts.countP fun t => p t.kind else 0

/-- The counts are those of some tokens, as far as preferences ask for them. -/
structure Exact (c : LexicalPreferences) (ts : List Token) (m : Metrics) : Prop where
  total : m.total = ts.length
  keywords : m.keywords = ofClass c Kind.isKeyword ts
  identifiers : m.identifiers = ofClass c (· = .ident) ts
  integers : m.integers = ofClass c (· = .int) ts
  operators : m.operators = ofClass c Kind.isOperator ts
  delimiters : m.delimiters = ofClass c Kind.isDelimiter ts
  illegal : m.illegal = ofClass c (· = .illegal) ts
  classes : c.detailedMetrics = true →
    m.keywords + m.identifiers + m.integers + m.operators + m.delimiters + m.illegal = m.total
  usage : c.detailedMetrics = true ∧ c.trackOperators = true →
    Tally ((ts.filter (·.kind.isOperator)).map (·.literal)) m.operatorUsage ∧
      (m.operatorUsage.map (·.2)).sum = m.operators
  unused : ¬(c.detailedMetrics = true ∧ c.trackOperators = true) → m.operatorUsage = []

theorem record_eq {c : LexicalPreferences} (detailed : c.detailedMetrics = true) (m : Metrics)
    (t : Token) :
    m.record c t =
      { total := m.total + 1
        keywords := m.keywords + if t.kind.isKeyword then 1 else 0
        identifiers := m.identifiers + if t.kind = .ident then 1 else 0
        integers := m.integers + if t.kind = .int then 1 else 0
        operators := m.operators + if t.kind.isOperator then 1 else 0
        delimiters := m.delimiters + if t.kind.isDelimiter then 1 else 0
        illegal := m.illegal + if t.kind = .illegal then 1 else 0
        operatorUsage :=
          if t.kind.isOperator && c.trackOperators then bump t.literal m.operatorUsage
            else m.operatorUsage } := by
  obtain ⟨kind, literal⟩ := t
  unfold record
  rw [detailed]
  cases kind <;> rfl

theorem ofClass_append {c : LexicalPreferences} (detailed : c.detailedMetrics = true)
    (p : Kind → Bool) (ts : List Token) (t : Token) :
    ofClass c p (ts ++ [t]) = ofClass c p ts + if p t.kind then 1 else 0 := by
  rw [ofClass, ofClass, if_pos detailed, if_pos detailed, List.countP_append, List.countP_singleton]

theorem Exact.record_detailed {c : LexicalPreferences} (detailed : c.detailedMetrics = true)
    {ts : List Token} {m : Metrics} (h : Exact c ts m) {t : Token} (more : t.kind ≠ .eof) :
    Exact c (ts ++ [t]) (m.record c t) := by
  have one := Kind.one_class more
  rw [record_eq detailed]
  refine ⟨?_, ?_, ?_, ?_, ?_, ?_, ?_, fun _ => ?_, fun tracked => ?_, fun untracked => ?_⟩
  · simp [h.total]
  · rw [h.keywords, ofClass_append detailed]
  · simp [h.identifiers, ofClass_append detailed]
  · simp [h.integers, ofClass_append detailed]
  · rw [h.operators, ofClass_append detailed]
  · rw [h.delimiters, ofClass_append detailed]
  · simp [h.illegal, ofClass_append detailed]
  · have sum := h.classes detailed
    dsimp only
    omega
  · obtain ⟨tally, sum⟩ := h.usage tracked
    cases operator : t.kind.isOperator with
    | true =>
      have next := tally.bump t.literal
      simpa [operator, tracked.2, sum_bump, sum] using next
    | false => simpa [operator, sum] using tally
  · have off : c.trackOperators = false := by
      simpa [detailed] using untracked
    simp [off, h.unused untracked]

theorem Exact.record {c : LexicalPreferences} {ts : List Token} {m : Metrics} (h : Exact c ts m)
    {t : Token} (more : t.kind ≠ .eof) : Exact c (ts ++ [t]) (m.record c t) := by
  cases detailed : c.detailedMetrics with
  | true => exact h.record_detailed detailed more
  | false =>
    have only : m.record c t = { m with total := m.total + 1 } := by simp [Metrics.record, detailed]
    have none (p : Kind → Bool) : ofClass c p (ts ++ [t]) = ofClass c p ts := by
      simp [ofClass, detailed]
    rw [only]
    refine ⟨?_, ?_, ?_, ?_, ?_, ?_, ?_, fun asked => ?_, fun asked => ?_, h.unused⟩
    · simp [h.total]
    · rw [none, ← h.keywords]
    · rw [none, ← h.identifiers]
    · rw [none, ← h.integers]
    · rw [none, ← h.operators]
    · rw [none, ← h.delimiters]
    · rw [none, ← h.illegal]
    · cases detailed.symm.trans asked
    · cases detailed.symm.trans asked.1

theorem exact_nil (c : LexicalPreferences) : Exact c [] {} := by
  have none (p : Kind → Bool) : ofClass c p [] = 0 := by simp [ofClass]
  exact ⟨rfl, (none _).symm, (none _).symm, (none _).symm, (none _).symm, (none _).symm,
    (none _).symm,
    fun _ => rfl, fun _ => ⟨tally_nil, rfl⟩, fun _ => rfl⟩

theorem Exact.foldl {c : LexicalPreferences} {ts : List Token} {m : Metrics} (h : Exact c ts m)
    {ls : List Lexeme} (kinds : ∀ l ∈ ls, l.kind ≠ .eof) :
    Exact c (ts ++ ls.map (·.token)) (ls.foldl (fun m l => m.record c l.token) m) := by
  induction ls generalizing ts m with
  | nil => simpa using h
  | cons l ls ih =>
    have next :=
      ih (h.record (kinds l List.mem_cons_self)) fun x hx => kinds x (List.mem_cons_of_mem l hx)
    simpa using next

end Metrics

theorem Lexer.exact_counts (c : LexicalPreferences) (text : List Char) {ls : List Lexeme}
    (kinds : ∀ l ∈ ls, l.kind ≠ .eof) : ((ofText c text).counts ls).Exact c (ls.map (·.token)) :=
  (Metrics.exact_nil c).foldl kinds

/-! ## Texts -/

/-- The counts of the tokens of a text are exact, and there is one way only to count them: a lexer
that is drained has them, and so has one that is pulled in any way until it has handed out the end;
a parser leaves them behind, also if it asks for one lexeme at a time, whatever it accepts or
rejects; and they are in the report on the text. -/
theorem metrics_exact (limits : Limits) (c : Preferences) (duration : String) {text : List Char}
    {place : Position} (there : Position.start.advanceAll text = .ok place) :
    ∃ ls m, tokenize text = .ok (ls ++ [.eofAt place]) ∧ (∀ l ∈ ls, l.kind ≠ .eof) ∧
      m.Exact c.lexical (ls.map (·.token)) ∧
      (∃ events after, (Lexer.ofText c.lexical text).drain limits = .ok (ls, events, after) ∧
        after.metrics = m) ∧
      (∀ questions answers events after,
        (Lexer.ofText c.lexical text).pullAll limits questions = .ok (answers, events, after) →
          after.ended = true → after.metrics = m) ∧
      (∃ parser opening pass items last,
        Parser.ofLexer limits c.parser (.ofText c.lexical text) = .ok (parser, opening) ∧
        parser.program limits = .ok pass ∧ pass.parser.lexer.metrics = m ∧
        pass.program = Parser.programOf items ∧
        pass.parser.diagnostics = Parser.diagnosticsOf items ∧
        Parser.TakesAll limits.maxParseDepth (.eofAt place) parser items last ∧
        last.lexer = pass.parser.lexer) ∧
      ∃ report events, process limits c duration text = .ok (report, events) ∧ report.metrics = m ∧
        report.tokenCount = ls.length := by
  obtain ⟨ls, tokenized, ready⟩ := exists_ready c.lexical there
  refine ⟨ls, (Lexer.ofText c.lexical text).counts ls, tokenized, ready.kinds,
    Lexer.exact_counts c.lexical text ready.kinds, ?_, ?_, ?_, ?_⟩
  · obtain ⟨events, after, drained, passes⟩ := ready.exists_drain limits
    have ended : after.ended = true := by
      rw [passes.ended]
      simp
    exact ⟨events, after, drained, congrArg Lexer.metrics (passes.eq_atEnd ended)⟩
  · intro questions answers events after pulled ended
    obtain ⟨answers', events', after', pulled', -, passes⟩ := ready.exists_pullAll limits questions
    cases pulled.symm.trans pulled'
    exact congrArg Lexer.metrics (passes.eq_atEnd ended)
  · obtain ⟨parser, opening, pass, last, made, parsed, hprogram, hdiagnostics, hlexer,
        takes, hlast⟩ :=
      Parser.exists_takesAll limits c.parser ready
    exact ⟨parser, opening, pass, _, last, made, parsed, congrArg Lexer.metrics hlexer, hprogram,
      hdiagnostics, takes, hlast.trans hlexer.symm⟩
  · obtain ⟨front, processed, -⟩ := exists_process_eq limits c duration ready.faces
    exact ⟨_, _, processed, rfl, Report.tokenCount_ofLexemes limits c.lexical text ls _⟩

/-- Three operators, one of them twice, in a statement that is rejected. -/
theorem metrics_exact_operators :
    Position.start.advanceAll "a = b + -c = @ ".toList = .ok ⟨15, 1, 16⟩ ∧
      ∃ report events, process Build.development.limits
          ⟨⟨true, true, true⟩, .ofEnvironment {}, .ofEnvironment {}⟩ "0.00"
            "a = b + -c = @ ".toList =
          .ok (report, events) ∧
        report.metrics.operatorUsage.lookup "=" = some 2 ∧
        report.metrics.operatorUsage.lookup "!" = none ∧
        (report.metrics.operatorUsage.map (·.2)).sum = report.metrics.operators := by
  have there : Position.start.advanceAll "a = b + -c = @ ".toList = .ok ⟨15, 1, 16⟩ := rfl
  have known : (tokenize "a = b + -c = @ ".toList).map (fun tokens =>
      ((tokens.map (·.token)).filter (·.kind.isOperator)).map (·.literal)) =
        .ok ["=", "+", "-", "="] := by decide +kernel
  obtain ⟨ls, m, tokenized, -, counted, -, -, -, report, events, processed, rfl, -⟩ :=
    metrics_exact Build.development.limits ⟨⟨true, true, true⟩, .ofEnvironment {},
      .ofEnvironment {}⟩ "0.00" there
  rw [tokenized] at known
  have texts : ((ls.map (·.token)).filter (·.kind.isOperator)).map (·.literal) =
      ["=", "+", "-", "="] := by
    have none : [(Lexeme.eofAt ⟨15, 1, 16⟩).token].filter (·.kind.isOperator) = [] := rfl
    simpa [Except.map, none] using known
  obtain ⟨tally, sum⟩ := counted.usage ⟨rfl, rfl⟩
  rw [texts] at tally
  exact ⟨there, report, events, processed, tally.lookup "=", tally.lookup "!", sum⟩

end Frontend

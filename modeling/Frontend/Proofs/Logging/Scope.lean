import Frontend.Proofs.Logging.Start
import Frontend.Proofs.Source
import Frontend.Token.Stream

/-!
# The source file in hand

Calls can be made inside of calls that take a source file in hand, to any depth. `Visits` follows
them: it says in which state each call is made, and which path the innermost call around it has.
Every call puts back what was in hand before (`source_run`), so what is in hand at a call is that
path (`Visits.source_eq`).

No report of the lexer, of the parser or on the processing of a text names a source by itself
(`Work.events_unplaced`). If the preferences want it, each one is sent with the path of the
innermost call around it.
-/

set_option autoImplicit false

namespace Frontend

/-! ## Reports name no source -/

/-- The context of an event names no source. -/
def Event.Unplaced (e : Event) : Prop := e.context.lookup "source" = none

theorem Event.unplaced_make (limits : Limits) (level : Level) (code : Code) (message : String) :
    (make limits level code message).Unplaced := rfl

theorem Event.Unplaced.withContexts {e : Event} (h : e.Unplaced) {pairs : List (String × String)}
    (others : "source" ∉ pairs.map (·.1)) : (e.withContexts pairs).Unplaced :=
  (lookup_withContexts_of_not_mem e others).trans h

theorem Event.Unplaced.withContext {e : Event} (h : e.Unplaced) {name : String}
    (other : "source" ≠ name) (value : String) : (e.withContext name value).Unplaced := by
  rw [Unplaced, lookup_withContext, if_neg other]
  exact h

theorem Lexeme.notes_unplaced (limits : Limits) (c : LexicalPreferences) (m : Metrics)
    (l : Lexeme) :
    ∀ e ∈ l.notes limits c m, e.Unplaced := by
  intro e he
  unfold notes at he
  split at he
  · rw [List.mem_singleton.mp he]
    exact (Event.unplaced_make ..).withContexts (by simp)
  · split at he
    · rw [List.mem_singleton.mp he]
      exact (Event.unplaced_make ..).withContexts (by simp)
    · cases he
  · cases he

theorem Lexer.notes_unplaced (limits : Limits) (lexer : Lexer) (l : Lexeme) :
    ∀ e ∈ lexer.notes limits l, e.Unplaced := by
  intro e he
  unfold notes at he
  split at he
  · cases he
  · exact l.notes_unplaced limits _ _ e he

theorem Parser.Outcome.notes_unplaced (limits : Limits) (c : ParserPreferences) (o : Outcome) :
    ∀ e ∈ o.notes limits c, e.Unplaced := by
  intro e he
  cases o with
  | accepted statement =>
    change e ∈ statement.notes limits c at he
    unfold Statement.notes at he
    split at he
    · rw [List.mem_singleton.mp he]
      exact (Event.unplaced_make ..).withContexts (by simp)
    · cases he
  | rejected diagnostic =>
    rcases List.mem_append.mp he with he | he
    · split at he
      · rw [List.mem_singleton.mp he]
        exact (Event.unplaced_make ..).withContexts (by simp)
      · cases he
    · split at he
      · rw [List.mem_singleton.mp he]
        exact Event.unplaced_make limits .error diagnostic.code diagnostic.message
      · cases he

theorem Parser.mem_timeline {lexemeNotes : Lexeme → List Event}
    {outcomeNotes : Outcome → List Event} {e : Event} {pending : List Lexeme} {left : Nat}
    {items : List Item} (h : e ∈ timeline lexemeNotes outcomeNotes pending left items) :
    (∃ l, e ∈ lexemeNotes l) ∨ ∃ o, e ∈ outcomeNotes o := by
  induction items generalizing pending left with
  | nil =>
    obtain ⟨l, -, he⟩ := List.mem_flatMap.mp h
    exact .inl ⟨l, he⟩
  | cons item items ih =>
    rw [timeline, List.mem_append, List.mem_append] at h
    rcases h with (h | h) | h
    · obtain ⟨l, -, he⟩ := List.mem_flatMap.mp h
      exact .inl ⟨l, he⟩
    · exact .inr ⟨_, h⟩
    · exact ih h

theorem SourceError.notes_unplaced (limits : Limits) (path : String) (failure : SourceError) :
    ∀ e ∈ failure.notes limits path, e.Unplaced := by
  intro e he
  cases failure with
  | unreadable cause => cases he
  | tooLarge size limit =>
    rw [List.mem_singleton.mp he]
    exact (Event.unplaced_make ..).withContexts (by simp)
  | _ =>
    rw [List.mem_singleton.mp he]
    exact (Event.unplaced_make ..).withContext (by decide) path

/-! ## Work that is reported on -/

namespace Logging

/-- What is done to a lexer, to a parser, to a text or to a file. -/
inductive Work where
  | pull (lexer : Lexer) (questions : List Pull)
  | takeOver (preferences : ParserPreferences) (lexer : Lexer)
  | program (parser : Parser)
  | text (preferences : Preferences) (duration : String) (source : List Char)
  | file (preferences : Preferences) (duration : String) (files : FileSystem) (path : String)

namespace Work

/-- The path that is taken in hand. -/
def path? : Work → Option String
  | .file _ _ _ path => some path
  | _ => none

/-- What is reported, in this order. -/
def events (limits : Limits) : Work → Except Fault (List Event)
  | .pull lexer questions => (lexer.pullAll limits questions).map fun (_, events, _) => events
  | .takeOver preferences lexer =>
    (Parser.ofLexer limits preferences lexer).map fun (_, events) => events
  | .program parser => (parser.program limits).map fun pass => pass.events
  | .text preferences duration source =>
    (process limits preferences duration source).map fun (_, events) => events
  | .file preferences duration files path =>
    (Frontend.processFile limits preferences duration files path).map fun (_, events) => events

/-- The logging state after it. -/
def run (limits : Limits) (env : Environment) (w : Work) (s : Logging) : Except Fault Logging :=
  match w with
  | .text preferences duration source =>
    (s.processText limits env preferences duration source).map fun (_, t) => t
  | .file preferences duration files path =>
    (s.processFile limits env preferences duration files path).map fun (_, t) => t
  | w => (w.events limits).map fun events => s.noteAll limits env events

theorem run_eq (limits : Limits) (env : Environment) (w : Work) (s : Logging) :
    w.run limits env s = (w.events limits).map fun events =>
      match w.path? with
      | some path =>
        { noteAll limits env events { s with source := some path } with source := s.source }
      | none => s.noteAll limits env events := by
  cases w with
  | pull lexer questions => rfl
  | takeOver preferences lexer => rfl
  | program parser => rfl
  | text preferences duration source =>
    change ((process limits preferences duration source).map _).map _ =
      ((process limits preferences duration source).map _).map _
    cases process limits preferences duration source <;> rfl
  | file preferences duration files path =>
    change ((Frontend.processFile limits preferences duration files path).map _).map _ =
      ((Frontend.processFile limits preferences duration files path).map _).map _
    cases Frontend.processFile limits preferences duration files path <;> rfl

end Work

end Logging

theorem exists_of_map_eq_ok {α β : Type} {x : Except Fault α} {f : α → β} {b : β}
    (h : x.map f = .ok b) :
    ∃ a, x = .ok a ∧ f a = b := by
  cases x with
  | error fault => cases h
  | ok a => exact ⟨a, rfl, Except.ok.inj h⟩

theorem Lexer.drain_unplaced {limits : Limits} {l last : Lexer} {ls : List Lexeme}
    {events : List Event} (h : l.drain limits = .ok (ls, events, last)) :
    ∀ e ∈ events, e.Unplaced := by
  fun_induction drain limits l generalizing ls events with
  | case1 l fault found => cases h
  | case2 l lexeme after found ended =>
    cases h
    exact l.notes_unplaced limits lexeme
  | case3 l lexeme after found more fault failed ih => cases h
  | case4 l lexeme after found more lexemes others final drained ih =>
    cases h
    intro e he
    rcases List.mem_append.mp he with he | he
    · exact l.notes_unplaced limits lexeme e he
    · exact ih drained e he

theorem Lexer.pull_unplaced {limits : Limits} {l last : Lexer} {question : Pull} {answer : Pulled}
    {events : List Event} (h : l.pull limits question = .ok (answer, events, last)) :
    ∀ e ∈ events, e.Unplaced := by
  cases question with
  | lexeme =>
    obtain ⟨⟨lexeme, after⟩, -, found⟩ := exists_of_map_eq_ok h
    cases found
    exact l.notes_unplaced limits lexeme
  | item =>
    obtain ⟨⟨lexeme, after⟩, -, found⟩ := exists_of_map_eq_ok h
    cases found
    exact l.notes_unplaced limits lexeme
  | items =>
    obtain ⟨⟨lexemes, others, after⟩, drained, found⟩ := exists_of_map_eq_ok h
    cases found
    exact drain_unplaced drained
  | counts =>
    cases h
    simp

theorem Lexer.pullAll_unplaced {limits : Limits} {l last : Lexer} {questions : List Pull}
    {answers : List Pulled} {events : List Event}
    (h : l.pullAll limits questions = .ok (answers, events, last)) :
    ∀ e ∈ events, e.Unplaced := by
  induction questions generalizing l answers events with
  | nil =>
    cases h
    simp
  | cons question questions ih =>
    rw [pullAll] at h
    split at h
    · cases h
    · rename_i answer first after pulled
      obtain ⟨⟨others, more, final⟩, rest, found⟩ := exists_of_map_eq_ok h
      cases found
      intro e he
      rcases List.mem_append.mp he with he | he
      · exact pull_unplaced pulled e he
      · exact ih rest e he

namespace Parser

theorem ofLexer_unplaced {limits : Limits} {preferences : ParserPreferences} {lexer : Lexer}
    {p : Parser} {events : List Event} (h : ofLexer limits preferences lexer = .ok (p, events)) :
    ∀ e ∈ events, e.Unplaced := by
  obtain ⟨⟨first, afterFirst⟩, -, h⟩ := exists_of_bind_eq_ok h
  obtain ⟨⟨second, afterSecond⟩, -, h⟩ := exists_of_bind_eq_ok h
  cases h
  intro e he
  rcases List.mem_append.mp he with he | he
  · exact lexer.notes_unplaced limits first e he
  · exact afterFirst.notes_unplaced limits second e he

theorem program_unplaced {limits : Limits} {p : Parser} {pass : Pass}
    (h : p.program limits = .ok pass) :
    ∀ e ∈ pass.events, e.Unplaced := by
  obtain ⟨⟨rest, eof⟩, -, h⟩ := exists_of_bind_eq_ok h
  cases h
  intro e he
  rcases List.mem_append.mp he with he | he
  · rcases mem_timeline he with ⟨l, he⟩ | ⟨o, he⟩
    · exact l.notes_unplaced limits _ _ e he
    · exact o.notes_unplaced limits _ e he
  · rw [List.mem_singleton.mp he]
    exact (Event.unplaced_make ..).withContexts (by simp)

end Parser

theorem process_unplaced {limits : Limits} {c : Preferences} {duration : String} {text : List Char}
    {report : Report} {events : List Event}
    (h : process limits c duration text = .ok (report, events)) : ∀ e ∈ events, e.Unplaced := by
  obtain ⟨⟨parser, opening⟩, made, h⟩ := exists_of_bind_eq_ok h
  obtain ⟨pass, passed, h⟩ := exists_of_bind_eq_ok h
  cases h
  intro e he
  rcases List.mem_append.mp he with he | he
  · rcases List.mem_append.mp he with he | he
    · exact Parser.ofLexer_unplaced made e he
    · exact Parser.program_unplaced passed e he
  · rw [List.mem_singleton.mp he]
    exact (Event.unplaced_make ..).withContexts (by simp)

theorem processFile_unplaced {limits : Limits} {c : Preferences} {duration : String}
    {files : FileSystem} {path : String} {outcome : Except SourceError Report} {events : List Event}
    (h : processFile limits c duration files path = .ok (outcome, events)) :
    ∀ e ∈ events, e.Unplaced := by
  have opening : ((Event.info limits "Processing source file").withContext "file" path).Unplaced :=
    (Event.unplaced_make ..).withContext (by decide) path
  unfold processFile at h
  dsimp only at h
  split at h
  · rename_i failure _
    cases h
    intro e he
    rcases List.mem_cons.mp he with rfl | he
    · exact opening
    · exact failure.notes_unplaced limits path e he
  · obtain ⟨⟨report, others⟩, processed, found⟩ := exists_of_map_eq_ok h
    cases found
    intro e he
    rcases List.mem_cons.mp he with rfl | he
    · exact opening
    · exact process_unplaced processed e he

namespace Logging

theorem Work.events_unplaced {limits : Limits} {w : Work} {events : List Event}
    (h : w.events limits = .ok events) : ∀ e ∈ events, e.Unplaced := by
  cases w with
  | pull lexer questions =>
    obtain ⟨⟨answers, others, last⟩, pulled, rfl⟩ := exists_of_map_eq_ok h
    exact Lexer.pullAll_unplaced pulled
  | takeOver preferences lexer =>
    obtain ⟨⟨parser, others⟩, made, rfl⟩ := exists_of_map_eq_ok h
    exact Parser.ofLexer_unplaced made
  | program parser =>
    obtain ⟨pass, passed, rfl⟩ := exists_of_map_eq_ok h
    exact Parser.program_unplaced passed
  | text preferences duration source =>
    obtain ⟨⟨report, others⟩, processed, rfl⟩ := exists_of_map_eq_ok h
    exact process_unplaced processed
  | file preferences duration files path =>
    obtain ⟨⟨outcome, others⟩, processed, rfl⟩ := exists_of_map_eq_ok h
    exact processFile_unplaced processed

/-! ## Calls inside of calls -/

@[simp] theorem source_deliver (limits : Limits) (service : Service) (e : Event) (s : Logging) :
    (s.deliver limits service e).source = s.source := by
  obtain ⟨console, memory, h⟩ := deliver_eq limits service e s
  rw [h]

@[simp] theorem source_pin (env : Environment) (s : Logging) : (s.pin env).source = s.source := rfl

@[simp] theorem source_fallback (limits : Limits) (code : Code) (message : String) (s : Logging) :
    (s.fallback limits code message).source = s.source := by
  unfold fallback
  split <;> simp

@[simp] theorem source_dispatch (limits : Limits) (env : Environment) (e : Event) (s : Logging) :
    (s.dispatch limits env e).source = s.source := by
  unfold dispatch
  split <;> simp

@[simp] theorem source_trace (limits : Limits) (env : Environment) (e : Event) (s : Logging) :
    (s.trace limits env e).source = s.source := by
  unfold trace
  dsimp only
  split <;> simp

@[simp] theorem source_noteAll (limits : Limits) (env : Environment) (events : List Event)
    (s : Logging) :
    (s.noteAll limits env events).source = s.source := by
  unfold noteAll
  induction events generalizing s with
  | nil => rfl
  | cons e events ih =>
    rw [List.foldl_cons, ih, note]
    split <;> simp

@[simp] theorem source_install (build : Build) (env : Environment) (service : Service)
    (s : Logging) :
    (s.install build env service).2.source = s.source := by
  unfold install fail
  split
  · simp
  · split <;> simp

theorem source_perform (build : Build) (env : Environment) (s : Logging) (call : Call) :
    (s.perform build env call).source = s.source := by
  cases call with
  | setPreferences p =>
    change (s.setPreferences p).2.source = s.source
    unfold setPreferences
    split <;> rfl
  | askPreferences => rfl
  | start => exact source_install build env _ (s.pin env)
  | startWith c =>
    change (s.startWith build env c.logging).2.source = s.source
    unfold startWith setPreferences fail
    split
    · simp
    · cases s.preferences with
      | none => exact source_install build env _ _
      | some p =>
        dsimp only
        split <;> simp
  | startWithService service =>
    change (s.startWithService service).2.source = s.source
    unfold startWithService
    split <;> rfl
  | dispatch e => exact source_dispatch build.limits env e s
  | trace e => exact source_trace build.limits env e s
  | fallback code message => exact source_fallback build.limits code message s

theorem Work.source_run {limits : Limits} {env : Environment} {w : Work} {s t : Logging}
    (h : w.run limits env s = .ok t) : t.source = s.source := by
  rw [w.run_eq] at h
  obtain ⟨events, -, rfl⟩ := exists_of_map_eq_ok h
  split
  · rfl
  · exact source_noteAll limits env events s

/-- Something that is done while logging: a call to the logging state, work that is reported on, or
more of these with a source file in hand. -/
inductive Activity where
  | call (env : Environment) (c : Call)
  | work (env : Environment) (w : Work)
  | within (path : String) (activities : List Activity)

namespace Activity

mutual

/-- The logging state afterwards. A fault goes through all calls around it. -/
def run (build : Build) : Activity → Logging → Except Fault Logging
  | .call env c, s => .ok (s.perform build env c)
  | .work env w, s => w.run build.limits env s
  | .within path activities, s =>
    let result := s.withSource path fun s =>
      match runAll build activities s with
      | .ok t => (none, t)
      | .error fault => (some fault, s)
    match result with
    | (none, t) => .ok t
    | (some fault, _) => .error fault

/-- The logging state after activities one after the other. -/
def runAll (build : Build) : List Activity → Logging → Except Fault Logging
  | [], s => .ok s
  | activity :: activities, s =>
    match activity.run build s with
    | .ok t => runAll build activities t
    | .error fault => .error fault

end

variable {build : Build}

theorem run_within (path : String) (activities : List Activity) (s : Logging) :
    (within path activities).run build s =
      (runAll build activities { s with source := some path }).map fun t =>
        { t with source := s.source } := by
  rw [run, withSource]
  dsimp only
  cases runAll build activities { s with source := some path } <;> rfl

/-- Whatever was in hand before is in hand again. -/
theorem source_run {a : Activity} {s t : Logging} (h : a.run build s = .ok t) :
    t.source = s.source := by
  cases a with
  | call env c =>
    rw [run] at h
    cases h
    exact source_perform build env s c
  | work env w =>
    rw [run] at h
    exact Work.source_run h
  | within path activities =>
    rw [run_within] at h
    obtain ⟨u, -, rfl⟩ := exists_of_map_eq_ok h
    rfl

/-- `Visits build outer activities s inner a t` says that `a` is done in state `t` on the way
through the activities from state `s`, and that the innermost call around it has the path
`inner`. -/
inductive Visits (build : Build) :
    Option String → List Activity → Logging → Option String → Activity → Logging → Prop where
  | here {outer : Option String} {a : Activity} {activities : List Activity} {s : Logging} :
    Visits build outer (a :: activities) s outer a s
  | inside {outer inner : Option String} {path : String} {a : Activity}
      {activities others : List Activity} {s t : Logging}
      (h : Visits build (some path) activities { s with source := some path } inner a t) :
    Visits build outer (.within path activities :: others) s inner a t
  | later {outer inner : Option String} {first a : Activity} {activities : List Activity}
      {s t u : Logging} (done : first.run build s = .ok u)
      (h : Visits build outer activities u inner a t) :
    Visits build outer (first :: activities) s inner a t

theorem Visits.source_eq {outer inner : Option String} {activities : List Activity} {a : Activity}
    {s t : Logging} (h : Visits build outer activities s inner a t) (start : s.source = outer) :
    t.source = inner := by
  induction h with
  | here => exact start
  | inside h ih => exact ih rfl
  | later done h ih => exact ih ((source_run done).trans start)

end Activity

/-- What is reported is sent to the service, from a state with preferences that are pinned for this
if need be. -/
theorem exists_noteAll_eq (limits : Limits) (env : Environment) {s : Logging} {service : Service}
    (installed : s.service = some service) (events : List Event) : ∃ u, (u = s ∨ u = s.pin env) ∧
      s.noteAll limits env events = u.deliverAll limits service (s.sent env events) := by
  cases events with
  | nil => exact ⟨s, .inl rfl, rfl⟩
  | cons e events =>
    exact ⟨s.pin env, .inr rfl, noteAll_eq limits env installed (List.cons_ne_nil e events)⟩

theorem Work.exists_run_eq {limits : Limits} (env : Environment) {w : Work} {events : List Event}
    (h : w.events limits = .ok events) {s : Logging} {service : Service}
    (installed : s.service = some service) :
    ∃ u, (u = s ∨ u = s.pin env) ∧ w.run limits env s =
      .ok (u.deliverAll limits service
        (sent env { s with source := w.path?.or s.source } events)) := by
  rw [run_eq, h]
  change ∃ u, _ ∧ Except.ok _ = _
  cases w.path? with
  | none =>
    obtain ⟨u, pinned, noted⟩ := exists_noteAll_eq limits env installed events
    exact ⟨u, pinned, congrArg Except.ok noted⟩
  | some path =>
    obtain ⟨u, pinned, noted⟩ :=
      exists_noteAll_eq limits env (s := { s with source := some path }) installed events
    -- to put the path before back in hand afterwards or to have it there already makes no
    -- difference to a delivery
    refine ⟨{ u with source := s.source }, ?_, congrArg Except.ok ?_⟩
    · rcases pinned with rfl | rfl
      · exact .inl rfl
      · exact .inr rfl
    · change { noteAll limits env events { s with source := some path } with source := s.source } =
        _
      rw [noted, deliverAll_source]
      rfl

theorem lookup_source_sent {env : Environment} {s : Logging}
    (wanted : (s.active env).includeSource = true) {events : List Event}
    (unplaced : ∀ e ∈ events, e.Unplaced) :
    ∀ e ∈ s.sent env events, e.context.lookup "source" = s.source := by
  intro e he
  obtain ⟨e', he', rfl⟩ := List.mem_map.mp he
  have none_before := unplaced e' (List.mem_of_mem_filter he')
  unfold attach
  cases there : s.source with
  | none => exact none_before
  | some path =>
    dsimp only
    rw [if_pos wanted, Event.lookup_withContext, if_pos rfl]

/-- Calls that take a source file in hand may be made inside of each other and one after the other.
At each of them the path of the innermost call around it is in hand, and the call puts it back if it
returns. With a service installed and preferences that want it, pinned before or by the first
report, what work reports is sent with the path of the innermost call, that of the work itself
included, and names no source if there is none. -/
theorem visits_scoped {build : Build} {activities : List Activity} {s t : Logging}
    {inner : Option String} {a : Activity}
    (visited : Activity.Visits build s.source activities s inner a t) :
    t.source = inner ∧ (∀ u, a.run build t = .ok u → u.source = t.source) ∧
    ∀ env w, a = .work env w → ∀ service, t.service = some service →
      (t.active env).includeSource = true →
      ∀ events, w.events build.limits = .ok events →
        let placed := sent env { t with source := w.path?.or inner } events
        (∃ u, (u = t ∨ u = t.pin env) ∧
          a.run build t = .ok (u.deliverAll build.limits service placed)) ∧
          ∀ e ∈ placed, e.context.lookup "source" = w.path?.or inner := by
  have inHand := visited.source_eq rfl
  refine ⟨inHand, fun u done => Activity.source_run done, ?_⟩
  rintro env w rfl service installed wanted events reported
  constructor
  · rw [Activity.run, ← inHand]
    exact Work.exists_run_eq env reported installed
  · -- which preferences are in force does not depend on what is in hand
    exact lookup_source_sent (s := { t with source := w.path?.or inner }) wanted
      (Work.events_unplaced reported)

/-- Every path leads to a directory, so the first call inside of a call with path `"a"` fails. The
text that comes next is reported on with `"a"` in hand, and the text that comes after all of this
with nothing. -/
theorem visits_scoped_nested :
    let files : FileSystem := ⟨fun _ => .ok .directory⟩
    let s : Logging :=
      { preferences := some ⟨false, false, .debug, true⟩, service := some ⟨.memory, .debug⟩ }
    let failing := Activity.work {} (.file (.ofEnvironment {}) "0.00" files "d")
    let reading := Activity.work {} (.text (.ofEnvironment {}) "0.00" [])
    let activities := [.within "a" [failing, reading], reading]
    (∃ t, Activity.Visits Build.development s.source activities s (some "a") reading t ∧
      t.source = some "a") ∧
      (∃ t, Activity.Visits Build.development s.source activities s none reading t ∧
        t.source = none) ∧
      (Activity.runAll Build.development activities s).map
          (fun t => t.memory.toList.map fun e => e.context.lookup "source") =
        .ok [some "d", some "a", some "a", some "a", none, none, none] := by
  intro files s failing reading activities
  obtain ⟨u, failed⟩ : ∃ u, failing.run Build.development { s with source := some "a" } =
      .ok u := ⟨_, rfl⟩
  have returned : ((Activity.within "a" [failing, reading]).run Build.development s).map source =
      .ok none := by decide +kernel
  obtain ⟨v, done, -⟩ := exists_of_map_eq_ok returned
  have inner : Activity.Visits Build.development s.source activities s (some "a") reading u :=
    .inside (.later failed .here)
  have outer : Activity.Visits Build.development s.source activities s none reading v :=
    .later done .here
  refine ⟨⟨u, inner, (visits_scoped inner).1⟩, ⟨v, outer, (visits_scoped outer).1⟩, ?_⟩
  decide +kernel

end Logging

end Frontend

import Frontend.Logging.State
import Frontend.Proofs.Event

/-!
# What reaches the service

With a service installed, to report events is to deliver some of them, one after the other, with the
source file in hand (`noteAll_eq`). Which ones, and with what, is settled by the preferences that
the first report pins (`sent`).
-/

set_option autoImplicit false

namespace Frontend.Logging

/-! ## Delivering -/

/-- Gives events to a service one after the other. -/
def deliverAll (limits : Limits) (service : Service) (events : List Event) (s : Logging) :
    Logging :=
  events.foldl (fun s e => s.deliver limits service e) s

theorem deliver_eq (limits : Limits) (service : Service) (e : Event) (s : Logging) :
    ∃ console memory, s.deliver limits service e =
      { s with console := console, memory := memory } := by
  unfold deliver
  split
  · split
    · exact ⟨s.console, s.memory, rfl⟩
    · exact ⟨_, s.memory, rfl⟩
    · exact ⟨_, s.memory, rfl⟩
    · exact ⟨s.console, _, rfl⟩
  · exact ⟨s.console, s.memory, rfl⟩

/-- Only the places that events go to are changed by them. -/
theorem deliverAll_eq (limits : Limits) (service : Service) (events : List Event) (s : Logging) :
    ∃ console memory, s.deliverAll limits service events =
      { s with console := console, memory := memory } := by
  unfold deliverAll
  induction events generalizing s with
  | nil => exact ⟨s.console, s.memory, rfl⟩
  | cons e events ih =>
    obtain ⟨console, memory, first⟩ := deliver_eq limits service e s
    obtain ⟨console', memory', rest⟩ := ih (s.deliver limits service e)
    rw [List.foldl_cons, rest, first]
    exact ⟨console', memory', rfl⟩

/-! ## Reporting -/

/-- Whether an event is sent at all under the preferences in force. -/
def wants (env : Environment) (s : Logging) (e : Event) : Bool :=
  e.level ≠ .debug || Level.within .debug (s.active env).minLevel

/-- The events that are sent out of those that are reported, as they are sent. -/
def sent (env : Environment) (s : Logging) (events : List Event) : List Event :=
  (events.filter (s.wants env)).map (s.attach env)

theorem sent_cons (env : Environment) (s : Logging) (e : Event) (events : List Event) :
    s.sent env (e :: events) = s.sent env [e] ++ s.sent env events := by
  rw [sent, sent, sent, ← List.map_append, ← List.filter_append, List.singleton_append]

theorem note_eq (limits : Limits) (env : Environment) {s : Logging} {service : Service}
    (h : s.service = some service) (e : Event) :
    s.note limits env e = (s.pin env).deliverAll limits service (s.sent env [e]) := by
  have dispatched : s.dispatch limits env e =
      (s.pin env).deliver limits service (s.attach env e) := by
    rw [dispatch, h]
  have pinned : (s.pin env).dispatch limits env e =
      (s.pin env).deliver limits service (s.attach env e) := by
    rw [dispatch, show (s.pin env).service = some service from h]
    rfl
  unfold note trace sent wants
  by_cases level : e.level = .debug
  · cases wanted : Level.within .debug ((s.pin env).active env).minLevel
    · have unwanted : Level.within .debug (s.active env).minLevel = false := wanted
      simp [level, wanted, unwanted, deliverAll]
    · have wanted' : Level.within .debug (s.active env).minLevel = true := wanted
      simp [level, wanted, wanted', pinned, deliverAll]
  · simp [level, dispatched, deliverAll]

theorem noteAll_of_pinned (limits : Limits) (env : Environment) {s : Logging} {service : Service}
    (h : s.service = some service) (pinned : s.pin env = s) (events : List Event) :
    s.noteAll limits env events = s.deliverAll limits service (s.sent env events) := by
  induction events generalizing s with
  | nil => rfl
  | cons e events ih =>
    obtain ⟨console, memory, first⟩ := deliverAll_eq limits service (s.sent env [e]) s
    -- the next state sends what this one sends, since it only differs in where events have gone
    have next := ih (s := { s with console := console, memory := memory }) h
      (congrArg (fun s : Logging => { s with console := console, memory := memory }) pinned)
    rw [noteAll, List.foldl_cons, note_eq limits env h, pinned, first]
    rw [sent_cons, deliverAll, List.foldl_append]
    change _ = (s.deliverAll limits service (s.sent env [e])).deliverAll limits service
      (s.sent env events)
    rw [first]
    exact next

/-- The first report pins the preferences, which settle what is sent. -/
theorem noteAll_eq (limits : Limits) (env : Environment) {s : Logging} {service : Service}
    (h : s.service = some service) {events : List Event} (some : events ≠ []) :
    s.noteAll limits env events = (s.pin env).deliverAll limits service (s.sent env events) := by
  cases events with
  | nil => exact absurd rfl some
  | cons e events =>
    have first : s.note limits env e = (s.pin env).note limits env e := by
      rw [note_eq limits env h, note_eq limits env (s := s.pin env) h]
      rfl
    rw [noteAll, List.foldl_cons, first]
    exact noteAll_of_pinned limits env (s := s.pin env) h rfl (e :: events)

/-! ## Looking at what is sent -/

theorem filter_sent (env : Environment) (s : Logging) {p : Event → Bool}
    (same : ∀ e, p (s.attach env e) = p e) (events : List Event) :
    (s.sent env events).filter p = s.sent env (events.filter p) := by
  have same' : p ∘ s.attach env = p := funext same
  rw [sent, sent, List.filter_map, same', List.filter_filter, List.filter_filter]
  simp only [Bool.and_comm]

theorem sent_of_level_ne (env : Environment) (s : Logging) {events : List Event}
    (h : ∀ e ∈ events, e.level ≠ .debug) : s.sent env events = events.map (s.attach env) := by
  rw [sent, List.filter_eq_self.mpr]
  intro e he
  simp [wants, h e he]

theorem countP_sent (env : Environment) {s : Logging} (debug : (s.active env).minLevel = .debug)
    {p : Event → Bool} (same : ∀ e, p (s.attach env e) = p e) (events : List Event) :
    (s.sent env events).countP p = events.countP p := by
  have same' : p ∘ s.attach env = p := funext same
  have all : events.filter (s.wants env) = events := by
    rw [List.filter_eq_self]
    intro e _
    simp [wants, debug, Level.within]
  rw [sent, all, List.countP_map, same']

/-- The source file in hand changes nothing but the context. -/
theorem attach_eq (env : Environment) (s : Logging) (e : Event) :
    ∃ context, s.attach env e = { e with context := context } := by
  unfold attach
  split
  · split
    · exact ⟨_, rfl⟩
    · exact ⟨e.context, rfl⟩
  · exact ⟨e.context, rfl⟩

@[simp] theorem level_attach (env : Environment) (s : Logging) (e : Event) :
    (s.attach env e).level = e.level := by
  obtain ⟨context, h⟩ := s.attach_eq env e
  rw [h]

@[simp] theorem code_attach (env : Environment) (s : Logging) (e : Event) :
    (s.attach env e).code = e.code := by
  obtain ⟨context, h⟩ := s.attach_eq env e
  rw [h]

@[simp] theorem message_attach (env : Environment) (s : Logging) (e : Event) :
    (s.attach env e).message = e.message := by
  obtain ⟨context, h⟩ := s.attach_eq env e
  rw [h]

@[simp] theorem span_attach (env : Environment) (s : Logging) (e : Event) :
    (s.attach env e).span = e.span := by
  obtain ⟨context, h⟩ := s.attach_eq env e
  rw [h]

theorem lookup_attach (env : Environment) (s : Logging) (e : Event) {name : String}
    (other : name ≠ "source") :
    (s.attach env e).context.lookup name = e.context.lookup name := by
  unfold attach
  split
  · split
    · rw [Event.lookup_withContext, if_neg other]
    · rfl
  · rfl

end Frontend.Logging

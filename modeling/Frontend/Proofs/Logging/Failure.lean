import Frontend.Proofs.Logging.Start

/-!
# Failures to start logging

When logging starts, the new service is sent remarks and no errors (`begun_deliver`). When it does
not start, one error tells so: it goes to the service that is there or, without one, is printed
(`answered_fail`). That is so of all ways to start (`answered_install`, `startWith_eq`) with one
exception, which `Unheard` describes.
-/

set_option autoImplicit false

namespace Frontend.Logging

/-! ## Answers to who starts logging -/

/-- One error tells that logging could not be started. The service gets it if there is one, else it
is printed. -/
def Told (limits : Limits) (e : LoggingError) (s t : Logging) : Prop :=
  match s.service with
  | some service => t = s.deliver limits service (.error limits ⟨"ERR002"⟩ e.message)
  | none => t = { s with
      console := s.console.printError (.text ("[ERROR] FALLBACK: [ERR002] " ++ e.message)) }

/-- A service is installed, preferences are pinned, and events are sent, none of them an error. -/
def Begun (limits : Limits) (s t : Logging) : Prop :=
  ∃ service preferences events, (∀ e ∈ events, e.level ≠ .error) ∧
    t = deliverAll limits service events
      { s with service := some service, preferences := some preferences }

/-- Logging has begun, or else the failure is told; preferences may be pinned before that. -/
def Answered (limits : Limits) (s : Logging) : Except LoggingError Unit × Logging → Prop
  | (.ok (), t) => Begun limits s t
  | (.error e, t) => ∃ pinned, Told limits e { s with preferences := pinned } t

theorem answered_fail (limits : Limits) (e : LoggingError) (s : Logging)
    (pinned : Option LoggingPreferences) :
    Answered limits s (fail limits e { s with preferences := pinned }) := by
  refine ⟨pinned, ?_⟩
  unfold fallback Told
  cases s.service with
  | none => rfl
  | some service => rfl

theorem deliver_pin (limits : Limits) (env : Environment) (service : Service) (e : Event)
    (s : Logging) :
    (s.deliver limits service e).pin env = (s.pin env).deliver limits service e := by
  unfold deliver
  split
  · split <;> rfl
  · rfl

theorem begun_deliver (limits : Limits) (env : Environment) (service : Service) (s : Logging)
    (first second : Event) (hfirst : first.level ≠ .error) (hsecond : second.level ≠ .error) :
    Begun limits s
      (((deliver limits service first { s with service := some service }).pin env).deliver limits
        service second) := by
  refine ⟨service, s.active env, [first, second], ?_, ?_⟩
  · intro e he
    rcases List.mem_cons.mp he with rfl | he
    · exact hfirst
    · rw [List.mem_singleton.mp he]
      exact hsecond
  · rw [deliver_pin]
    rfl

/-! ## Ways to start -/

theorem answered_install (build : Build) (env : Environment) (service : Service) {s : Logging}
    (h : s.service = none ∨ build.limits.loggingProblem? ≠ none)
    (pinned : Option LoggingPreferences) :
    Answered build.limits s (install build env service { s with preferences := pinned }) := by
  unfold install
  cases fits : build.limits.loggingProblem? with
  | some problem => exact answered_fail build.limits (.badLimits problem) s pinned
  | none =>
    have free : s.service = none := h.resolve_right (fun problem => problem fits)
    simp only [started, free, Option.isSome_none, Bool.false_eq_true, if_false]
    apply begun_deliver build.limits env service { s with preferences := pinned }
    · simp [Event.success, Event.make, Event.withContext]
    · simp [Event.debug, Event.make]

theorem startWith_eq (build : Build) (env : Environment) (p : LoggingPreferences) (s : Logging) :
    (∃ e, s.startWith build env p = s.fail build.limits e) ∨
    (s.service = none ∧ ∃ pinned, s.startWith build env p =
      install build env (.ofPreferences p) { s with preferences := pinned }) := by
  unfold startWith
  by_cases there : s.service = none
  · have free : s.started = false := by rw [started, there]; rfl
    simp only [free, Bool.false_eq_true, if_false]
    cases pinned : s.preferences with
    | none =>
      refine .inr ⟨there, some p, ?_⟩
      simp only [setPreferences, pinned]
    | some q =>
      simp only [setPreferences, pinned]
      split
      · exact .inr ⟨there, s.preferences, rfl⟩
      · exact .inl ⟨_, rfl⟩
  · have busy : s.started = true := Option.isSome_iff_ne_none.mpr there
    simp only [busy, if_true]
    exact .inl ⟨_, rfl⟩

/-- With which preferences logging is to start: those in force, or given ones. -/
inductive Choice where
  | inForce
  | given (p : LoggingPreferences)
  deriving DecidableEq

def startBy (build : Build) (env : Environment) (choice : Choice) (s : Logging) :
    Except LoggingError Unit × Logging :=
  match choice with
  | .inForce => s.start build env
  | .given p => s.startWith build env p

/-- Logging is to start with the preferences in force, nothing is wrong with the limits, and a
service is there. -/
def Unheard (build : Build) (choice : Choice) (s : Logging) : Prop :=
  choice = .inForce ∧ build.limits.loggingProblem? = none ∧ s.service ≠ none

/-- From every state and under all limits, whoever starts logging is answered: logging begins
without an error, or one error tells of the failure. The exception is a start with the preferences
in force where a service is there already; it fails, and apart from preferences that it pins nothing
happens. -/
theorem startBy_answered (build : Build) (env : Environment) (choice : Choice) (s : Logging) :
    (¬Unheard build choice s → Answered build.limits s (s.startBy build env choice)) ∧
    (Unheard build choice s → s.startBy build env choice =
      (.error .alreadyStarted, s.pin env)) := by
  constructor
  · intro heard
    cases choice with
    | inForce =>
      apply answered_install
      by_cases there : s.service = none
      · exact .inl there
      · exact .inr fun fits => heard ⟨rfl, fits, there⟩
    | given p =>
      change Answered build.limits s (s.startWith build env p)
      rcases startWith_eq build env p s with ⟨e, failed⟩ | ⟨free, pinned, installed⟩
      · rw [failed]
        exact answered_fail build.limits e s s.preferences
      · rw [installed]
        exact answered_install build env (.ofPreferences p) (.inl free) pinned
  · rintro ⟨rfl, fits, there⟩
    exact install_started fits env (.ofPreferences (s.active env)) (s := s.pin env) there

/-- With a memory log installed, a second start is an error in either way. Only the start with given
preferences leaves one in the log. -/
theorem startBy_unheard :
    let s := run Build.development [({}, .startWithService ⟨.memory, .debug⟩)] {}
    let silent := s.startBy Build.development {} .inForce
    let loud := s.startBy Build.development {} (.given (.ofEnvironment {}))
    (silent.1 = .error .alreadyStarted ∧ silent.2.memory.toList = [] ∧
      silent.2.console.errors = #[]) ∧
    (loud.1 = .error .alreadyStarted ∧ loud.2.memory.toList =
      [.error Build.development.limits ⟨"ERR002"⟩ "Global logger already initialized"]) := by
  refine ⟨⟨rfl, rfl, rfl⟩, rfl, ?_⟩
  decide +kernel

end Frontend.Logging

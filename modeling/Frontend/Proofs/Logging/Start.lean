import Frontend.Logging.Start
import Frontend.Proofs.Logging.Dispatch

/-!
# Preferences and services are set once

The logging state has two cells, for preferences and for a service. A call never changes a cell that
is set (`kept_perform`), so it stays as it is over any number of calls in any environments
(`kept_run`). Logging starts with given preferences exactly if no service is installed and no other
preferences are pinned; then both cells are set by them, and otherwise both are left alone
(`startWith_cases`).
-/

set_option autoImplicit false

namespace Frontend

theorem Limits.loggingProblem?_eq_none {limits : Limits} {profile : String}
    (admitted : limits.problem? profile = none) : limits.loggingProblem? = none := by
  have bounds := problem?_eq_none_iff.mp admitted
  rw [loggingProblem?, if_neg (UInt64.not_lt.mpr bounds.buffer_le),
    if_neg (UInt64.not_lt.mpr bounds.le_buffer), if_neg (UInt64.not_lt.mpr bounds.le_message)]

namespace Logging

/-! ## Cells -/

/-- What is set in the first state is set to the same in the second. -/
structure Kept (s t : Logging) : Prop where
  preferences : ∀ p, s.preferences = some p → t.preferences = some p
  service : ∀ v, s.service = some v → t.service = some v

/-- Both cells are the same. -/
structure SameCells (s t : Logging) : Prop where
  preferences : t.preferences = s.preferences
  service : t.service = s.service

theorem SameCells.refl (s : Logging) : SameCells s s := ⟨rfl, rfl⟩

theorem SameCells.kept {s t : Logging} (h : SameCells s t) : Kept s t where
  preferences _ hp := h.preferences.trans hp
  service _ hv := h.service.trans hv

theorem Kept.refl (s : Logging) : Kept s s := (SameCells.refl s).kept

theorem Kept.trans {s t u : Logging} (h : Kept s t) (h' : Kept t u) : Kept s u where
  preferences p hp := h'.preferences p (h.preferences p hp)
  service v hv := h'.service v (h.service v hv)

theorem active_of_some {s : Logging} {p : LoggingPreferences} (h : s.preferences = some p)
    (env : Environment) :
    s.active env = p := by
  rw [active, h, Option.getD_some]

/-! ## Reports -/

theorem sameCells_deliver (limits : Limits) (service : Service) (e : Event) (s : Logging) :
    SameCells s (s.deliver limits service e) := by
  obtain ⟨console, memory, h⟩ := deliver_eq limits service e s
  rw [h]
  exact ⟨rfl, rfl⟩

theorem sameCells_fallback (limits : Limits) (code : Code) (message : String) (s : Logging) :
    SameCells s (s.fallback limits code message) := by
  unfold fallback
  split
  · exact sameCells_deliver ..
  · exact ⟨rfl, rfl⟩

theorem kept_pin (env : Environment) (s : Logging) : Kept s (s.pin env) where
  preferences _ hp := congrArg some (active_of_some hp env)
  service _ hv := hv

theorem kept_dispatch (limits : Limits) (env : Environment) (e : Event) (s : Logging) :
    Kept s (s.dispatch limits env e) := by
  unfold dispatch
  split
  · exact Kept.refl s
  · exact (kept_pin env s).trans (sameCells_deliver ..).kept

theorem kept_trace (limits : Limits) (env : Environment) (e : Event) (s : Logging) :
    Kept s (s.trace limits env e) := by
  have pinned := kept_pin env s
  unfold trace
  dsimp only
  split
  · exact pinned.trans (kept_dispatch limits env e _)
  · exact pinned

/-! ## Starting -/

theorem kept_setPreferences (p : LoggingPreferences) (s : Logging) :
    Kept s (s.setPreferences p).2 := by
  unfold setPreferences
  split
  · exact Kept.refl s
  · rename_i unset
    refine ⟨fun q hq => ?_, fun v hv => hv⟩
    rw [unset] at hq
    cases hq

variable {build : Build}

theorem install_started (fits : build.limits.loggingProblem? = none) (env : Environment)
    (service : Service) {s : Logging} (h : s.service ≠ none) :
    s.install build env service = (.error .alreadyStarted, s) := by
  have there : s.started = true := Option.isSome_iff_ne_none.mpr h
  unfold install
  rw [fits, there]
  rfl

theorem install_fresh (fits : build.limits.loggingProblem? = none) (env : Environment)
    (service : Service) {s : Logging} (h : s.service = none) :
    ∃ t, s.install build env service = (.ok (), t) ∧ t.preferences = some (s.active env) ∧
      t.service = some service := by
  unfold install started
  rw [fits, h]
  refine ⟨_, rfl, ?_, ?_⟩
  · rw [(sameCells_deliver ..).preferences, pin, active, (sameCells_deliver ..).preferences]
    rfl
  · rw [(sameCells_deliver ..).service, pin, (sameCells_deliver ..).service]

theorem kept_install (fits : build.limits.loggingProblem? = none) (env : Environment)
    (service : Service) (s : Logging) : Kept s (s.install build env service).2 := by
  by_cases h : s.service = none
  · obtain ⟨t, installed, preferences, -⟩ := install_fresh fits env service h
    rw [installed]
    refine ⟨fun p hp => ?_, fun v hv => ?_⟩
    · rw [preferences, active_of_some hp env]
    · rw [h] at hv
      cases hv
  · rw [install_started fits env service h]
    exact Kept.refl s

/-- Starting with given preferences has two outcomes, and the cells before it decide which. -/
theorem startWith_cases (fits : build.limits.loggingProblem? = none) (env : Environment)
    (p : LoggingPreferences) (s : Logging) :
    ((s.service = none ∧ (s.preferences = none ∨ s.preferences = some p)) ∧
      ∃ t, s.startWith build env p = (.ok (), t) ∧ t.preferences = some p ∧
        t.service = some (.ofPreferences p)) ∨
    (¬(s.service = none ∧ (s.preferences = none ∨ s.preferences = some p)) ∧
      ∃ e t, s.startWith build env p = (.error e, t) ∧ SameCells s t) := by
  by_cases h : s.service = none
  · have fresh : s.started = false := by rw [started, h]; rfl
    cases unset : s.preferences with
    | none =>
      obtain ⟨t, installed, preferences, service⟩ :=
        install_fresh fits env (.ofPreferences p) (s := { s with preferences := some p }) h
      refine .inl ⟨⟨h, .inl rfl⟩, t, ?_, preferences, service⟩
      simp [startWith, fresh, setPreferences, unset, installed]
    | some q =>
      have inForce := active_of_some unset env
      by_cases same : q = p
      · obtain ⟨t, installed, preferences, service⟩ := install_fresh fits env (.ofPreferences p) h
        rw [inForce, same] at preferences
        refine .inl ⟨⟨h, .inr (congrArg some same)⟩, t, ?_, preferences, service⟩
        simp [startWith, fresh, setPreferences, unset, inForce, same, installed]
      · refine .inr ⟨by simp [same], .pinnedBefore, _, ?_,
          sameCells_fallback build.limits .startFailure (LoggingError.message .pinnedBefore) s⟩
        simp [startWith, fresh, setPreferences, unset, inForce, same, fail]
  · have there : s.started = true := Option.isSome_iff_ne_none.mpr h
    refine .inr ⟨fun allowed => h allowed.1, .alreadyStarted, _, ?_,
      sameCells_fallback build.limits .startFailure (LoggingError.message .alreadyStarted) s⟩
    simp [startWith, there, fail]

theorem kept_startWith (fits : build.limits.loggingProblem? = none) (env : Environment)
    (p : LoggingPreferences) (s : Logging) : Kept s (s.startWith build env p).2 := by
  rcases startWith_cases fits env p s with ⟨⟨noService, others⟩, t, outcome, preferences, -⟩
    | ⟨-, e, t, outcome, same⟩
  · rw [outcome]
    refine ⟨fun q hq => ?_, fun v hv => ?_⟩
    · rcases others with unset | set
      · rw [unset] at hq
        cases hq
      · rw [preferences, ← set, hq]
    · rw [noService] at hv
      cases hv
  · rw [outcome]
    exact same.kept

theorem kept_startWithService (service : Service) (s : Logging) :
    Kept s (s.startWithService service).2 := by
  unfold startWithService
  split
  · exact Kept.refl s
  · rename_i fresh
    refine ⟨fun p hp => hp, fun v hv => ?_⟩
    rw [started, hv] at fresh
    exact absurd rfl fresh

/-! ## Calls -/

/-- A call to the logging state. Whoever asks for preferences pins them. -/
inductive Call where
  | setPreferences (p : LoggingPreferences)
  | askPreferences
  | start
  | startWith (c : Preferences)
  | startWithService (service : Service)
  | dispatch (e : Event)
  | trace (e : Event)
  | fallback (code : Code) (message : String)

/-- The state after a call. -/
def perform (build : Build) (env : Environment) (s : Logging) : Call → Logging
  | .setPreferences p => (s.setPreferences p).2
  | .askPreferences => s.pin env
  | .start => (s.start build env).2
  | .startWith c => (s.startWith build env c.logging).2
  | .startWithService service => (s.startWithService service).2
  | .dispatch e => s.dispatch build.limits env e
  | .trace e => s.trace build.limits env e
  | .fallback code message => s.fallback build.limits code message

/-- The state after calls one after the other, each in its own environment. -/
def run (build : Build) (calls : List (Environment × Call)) (s : Logging) : Logging :=
  calls.foldl (fun s call => s.perform build call.1 call.2) s

theorem kept_perform (fits : build.limits.loggingProblem? = none) (env : Environment) (s : Logging)
    (call : Call) :
    Kept s (s.perform build env call) := by
  cases call with
  | setPreferences p => exact kept_setPreferences p s
  | askPreferences => exact kept_pin env s
  | start => exact (kept_pin env s).trans (kept_install fits env _ _)
  | startWith c => exact kept_startWith fits env c.logging s
  | startWithService service => exact kept_startWithService service s
  | dispatch e => exact kept_dispatch build.limits env e s
  | trace e => exact kept_trace build.limits env e s
  | fallback code message => exact (sameCells_fallback build.limits code message s).kept

theorem kept_run (fits : build.limits.loggingProblem? = none) (calls : List (Environment × Call))
    (s : Logging) :
    Kept s (s.run build calls) := by
  induction calls generalizing s with
  | nil => exact Kept.refl s
  | cons call calls ih => exact (kept_perform fits call.1 s call.2).trans (ih _)

/-- After any calls to a fresh state, what is set stays as it is over any further calls. Starting
with the preferences of a configuration succeeds exactly if no service is installed and no other
preferences are pinned. Then these preferences are pinned and their service is installed, and
otherwise both cells are as before. -/
theorem start_once {build : Build} (admitted : build.limits.problem? build.profile = none)
    (calls : List (Environment × Call)) :
    (∀ more, Kept (run build calls {}) (run build (calls ++ more) {})) ∧
    ∀ (env : Environment) (c : Preferences),
      let s := run build calls {}
      let result := s.startWith build env c.logging
      (result.1 = .ok () ↔ s.service = none ∧
        (s.preferences = none ∨ s.preferences = some c.logging)) ∧
      (result.1 = .ok () → result.2.preferences = some c.logging ∧
        result.2.service = some (.ofPreferences c.logging)) ∧
      ∀ e, result.1 = .error e → result.2.preferences = s.preferences ∧
        result.2.service = s.service := by
  have fits := Limits.loggingProblem?_eq_none admitted
  refine ⟨fun more => ?_, fun env c => ?_⟩
  · rw [run, run, List.foldl_append]
    exact kept_run fits more _
  · dsimp only
    rcases startWith_cases fits env c.logging (run build calls {}) with
      ⟨free, t, outcome, set⟩ | ⟨taken, e, t, outcome, same⟩
    · rw [outcome]
      exact ⟨iff_of_true rfl free, fun _ => set, fun e he => by cases he⟩
    · rw [outcome]
      exact ⟨iff_of_false (by simp) taken, fun he => by simp at he,
        fun _ _ => ⟨same.preferences, same.service⟩⟩

/-- Preferences that were only asked for are pinned: logging starts with the same ones, and with no
others. -/
theorem start_once_asked :
    Build.development.limits.problem? Build.development.profile = none ∧
      let s := run Build.development [({}, .askPreferences)] {}
      (s.startWith Build.development {} (.ofEnvironment {})).1 = .ok () ∧
        ¬(s.startWith Build.development {} ⟨false, false, .debug, true⟩).1 = .ok () := by
  have admitted : Build.development.limits.problem? Build.development.profile = none := by decide
  have starts := (start_once admitted [({}, .askPreferences)]).2 {}
  refine ⟨admitted, ?_, ?_⟩
  · exact (starts (.ofEnvironment {})).1.mpr ⟨rfl, .inr rfl⟩
  · intro started
    have free :=
      (starts ⟨.ofEnvironment {}, .ofEnvironment {}, ⟨false, false, .debug, true⟩⟩).1.mp started
    exact absurd free (by decide)

end Logging

end Frontend

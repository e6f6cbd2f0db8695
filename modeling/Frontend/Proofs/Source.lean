import Frontend.Proofs.Capacity
import Frontend.Proofs.Logging.Process

/-!
# Source files

Either a path gives a text, or there is a first check that it does not pass
(`FileSystem.gives_iff`). A text is then processed as ever, and a failed check is the outcome, with
an error that tells of it (`SourceError.codes_notes`). There is one exception: nothing tells of a
file that is there, is not too large, and can not be read.
-/

set_option autoImplicit false

namespace Frontend

/-! ## Texts in bytes -/

theorem Text.fromUTF8?_eq_some_iff {bytes : ByteArray} {text : String} :
    String.fromUTF8? bytes = some text ↔ text.toUTF8 = bytes := by
  unfold String.fromUTF8?
  constructor
  · intro h
    split at h
    · cases h
      rfl
    · cases h
  · rintro rfl
    exact dif_pos text.isValidUTF8

theorem Text.fromUTF8?_eq_none_iff {bytes : ByteArray} :
    String.fromUTF8? bytes = none ↔ ∀ text : String, text.toUTF8 ≠ bytes := by
  simp only [Option.eq_none_iff_forall_ne_some, ne_eq, fromUTF8?_eq_some_iff]

/-! ## Checks -/

namespace FileSystem

/-- A path leads to something that is not too large, and that is read as the bytes of a text. -/
def Gives (files : FileSystem) (limits : Limits) (path text : String) : Prop :=
  ∃ entry, files.find path = .ok entry ∧ entry.size ≤ limits.maxSourceSize.toNat ∧
    entry.read = .ok text.toUTF8

/-- The first check that a path does not pass. -/
inductive Fails (files : FileSystem) (limits : Limits) (path : String) : SourceError → Prop where
  | notFound (lost : files.find path = .error .notFound) : Fails files limits path (.notFound path)
  | inaccessible {cause : FileError} (lost : files.find path = .error cause)
      (other : cause ≠ .notFound) :
    Fails files limits path (.inaccessible cause)
  | tooLarge {entry : Entry} (found : files.find path = .ok entry)
    (large : limits.maxSourceSize.toNat < entry.size) :
    Fails files limits path (.tooLarge entry.size limits.maxSourceSize.toNat)
  | unreadable {entry : Entry} {cause : FileError} (found : files.find path = .ok entry)
    (fits : entry.size ≤ limits.maxSourceSize.toNat) (unread : entry.read = .error cause) :
    Fails files limits path (.unreadable cause)
  | badEncoding {entry : Entry} {content : ByteArray} (found : files.find path = .ok entry)
    (fits : entry.size ≤ limits.maxSourceSize.toNat) (read : entry.read = .ok content)
    (garbled : ∀ text : String, text.toUTF8 ≠ content) : Fails files limits path (.badEncoding path)

end FileSystem

section

variable {limits : Limits} {files : FileSystem} {path : String}

theorem loadSource_of_gives {text : String} (h : files.Gives limits path text) :
    loadSource limits files path = .ok text.toList := by
  obtain ⟨entry, found, fits, read⟩ := h
  have decoded : String.fromUTF8? text.toUTF8 = some text := Text.fromUTF8?_eq_some_iff.mpr rfl
  simp only [loadSource, found, if_neg (Nat.not_lt.mpr fits), read, decoded]

theorem loadSource_of_fails {e : SourceError} (h : files.Fails limits path e) :
    loadSource limits files path = .error e := by
  cases h with
  | notFound lost => simp only [loadSource, lost]
  | inaccessible lost other => simp only [loadSource, lost]
  | tooLarge found large => simp only [loadSource, found, if_pos large]
  | unreadable found fits unread =>
    simp only [loadSource, found, if_neg (Nat.not_lt.mpr fits), unread]
  | badEncoding found fits read garbled =>
    have undecoded := Text.fromUTF8?_eq_none_iff.mpr garbled
    simp only [loadSource, found, if_neg (Nat.not_lt.mpr fits), read, undecoded]

theorem FileSystem.gives_or_fails (files : FileSystem) (limits : Limits) (path : String) :
    (∃ text, files.Gives limits path text) ∨ ∃ e, files.Fails limits path e := by
  cases found : files.find path with
  | error cause =>
    by_cases lost : cause = .notFound
    · subst lost
      exact .inr ⟨_, .notFound found⟩
    · exact .inr ⟨_, .inaccessible found lost⟩
  | ok entry =>
    by_cases fits : entry.size ≤ limits.maxSourceSize.toNat
    · cases read : entry.read with
      | error cause => exact .inr ⟨_, .unreadable found fits read⟩
      | ok content =>
        cases decoded : String.fromUTF8? content with
        | none =>
          exact .inr ⟨_, .badEncoding found fits read (Text.fromUTF8?_eq_none_iff.mp decoded)⟩
        | some text =>
          rw [← Text.fromUTF8?_eq_some_iff.mp decoded] at read
          exact .inl ⟨text, entry, found, fits, read⟩
    · exact .inr ⟨_, .tooLarge found (Nat.not_le.mp fits)⟩

theorem FileSystem.gives_iff :
    (∃ text, files.Gives limits path text) ↔ ¬∃ e, files.Fails limits path e := by
  constructor
  · rintro ⟨text, gives⟩ ⟨e, fails⟩
    have both := (loadSource_of_gives gives).symm.trans (loadSource_of_fails fails)
    cases both
  · intro passed
    exact (files.gives_or_fails limits path).resolve_right passed

end

/-- The codes of the errors that tell of a failed check. -/
theorem SourceError.codes_notes (limits : Limits) (path : String) (e : SourceError) :
    ((e.notes limits path).filter (·.level = .error)).map (·.code) =
      match e with
      | .unreadable _ => []
      | _ => [e.code] := by
  cases e <;> simp [notes, Event.withContext]

/-! ## Processing -/

theorem exists_process_admitted {limits : Limits} {profile : String}
    (admitted : limits.problem? profile = none) (c : Preferences) (duration : String)
    {text : List Char} (size : Text.byteSize text ≤ limits.maxSourceSize.toNat) :
    ∃ report events, process limits c duration text = .ok (report, events) := by
  obtain ⟨place, there⟩ := Limits.exists_advanceAll admitted size
  obtain ⟨ls, laid⟩ := exists_laid there
  obtain ⟨front, processed, -⟩ := exists_process_eq limits c duration laid
  exact ⟨_, _, processed⟩

theorem process_events_ne_nil {limits : Limits} {c : Preferences} {duration : String}
    {text : List Char} {report : Report} {events : List Event}
    (h : process limits c duration text = .ok (report, events)) :
    events ≠ [] := by
  cases there : Position.start.advanceAll text with
  | error fault =>
    rw [process_eq_error limits c duration there] at h
    cases h
  | ok place =>
    obtain ⟨ls, laid⟩ := exists_laid there
    obtain ⟨front, processed, -⟩ := exists_process_eq limits c duration laid
    rw [processed] at h
    cases h
    simp

namespace Logging

theorem deliver_source (limits : Limits) (service : Service) (e : Event) (source : Option String)
    (s : Logging) :
    { s.deliver limits service e with source := source } =
    deliver limits service e { s with source := source } := by
  unfold deliver
  split
  · split <;> rfl
  · rfl

theorem deliverAll_source (limits : Limits) (service : Service) (events : List Event)
    (source : Option String) (s : Logging) :
    { s.deliverAll limits service events with source := source } =
      deliverAll limits service events { s with source := source } := by
  unfold deliverAll
  induction events generalizing s with
  | nil => rfl
  | cons e events ih =>
    rw [List.foldl_cons, List.foldl_cons, ih, deliver_source]

theorem withSource_noteAll {α : Type} (limits : Limits) (env : Environment) {s : Logging}
    {service : Service} (h : s.service = some service) {events : List Event} (some : events ≠ [])
    (path : String) (result : α) :
    s.withSource path (fun s => (result, s.noteAll limits env events)) =
      (result, deliverAll limits service (sent env { s with source := .some path } events)
        (s.pin env)) := by
  have noted := noteAll_eq limits env (s := { s with source := .some path }) h some
  change (result,
    { noteAll limits env events { s with source := .some path } with source := s.source }) = _
  rw [noted, deliverAll_source]
  rfl

theorem codes_sent_errors (env : Environment) (s : Logging) (events : List Event) :
    ((s.sent env events).filter (·.level = .error)).map (·.code) =
      (events.filter (·.level = .error)).map (·.code) := by
  rw [s.filter_sent env (by simp), s.sent_of_level_ne env (by simp +contextual), List.map_map]
  apply List.map_congr_left
  intro e _
  exact s.code_attach env e

/-- The first event of a file. -/
def opening (limits : Limits) (path : String) : Event :=
  (Event.info limits "Processing source file").withContext "file" path

/-- Whatever the file system is like, a path gives a text or fails a check, and with any service
installed the processing of the file comes out accordingly. After a failed check one error is sent,
which has the code of the check, unless the file could not be read: then none is sent. A text comes
out as it does without a file, and the same events are sent after the first; limits that a build
admits see to it that this happens at all. -/
theorem processFile_settled (limits : Limits) (env : Environment) (c : Preferences)
    (duration : String) (files : FileSystem) (path : String) (s : Logging) :
    ((∃ text, files.Gives limits path text) ↔ ¬∃ e, files.Fails limits path e) ∧
    (∀ e, files.Fails limits path e → ∃ sent,
      (∀ service, processFile limits env c duration files path { s with service := some service } =
        .ok (.error e, deliverAll limits service sent
          (pin env { s with service := some service }))) ∧
      (sent.filter (·.level = .error)).map (·.code) =
        match e with
        | .unreadable _ => []
        | _ => [e.code]) ∧
    (∀ text, files.Gives limits path text →
      (∀ report events, process limits c duration text.toList = .ok (report, events) → ∀ service,
        processText limits env c duration text.toList { s with service := some service } =
          .ok (report, deliverAll limits service (s.sent env events)
            (pin env { s with service := some service })) ∧
        processFile limits env c duration files path { s with service := some service } =
          .ok (.ok report, deliverAll limits service
            (sent env { s with source := some path } (opening limits path :: events))
            (pin env { s with service := some service }))) ∧
      ∀ profile, limits.problem? profile = none → text.toUTF8.size ≤ limits.maxSourceSize.toNat →
        ∃ report events, process limits c duration text.toList = .ok (report, events)) := by
  refine ⟨FileSystem.gives_iff, fun e fails => ?_,
    fun text gives => ⟨fun report events processed service => ?_, ?_⟩⟩
  · refine ⟨sent env { s with source := some path } (opening limits path :: e.notes limits path),
      fun service => ?_, ?_⟩
    · rw [processFile, Frontend.processFile, loadSource_of_fails fails]
      exact congrArg Except.ok
        (withSource_noteAll limits env (s := { s with service := some service }) rfl
        (List.cons_ne_nil _ _) path (Except.error e))
    · have remark : (opening limits path).level ≠ .error := by
        simp [opening, Event.withContext, Event.info, Event.make]
      rw [codes_sent_errors, List.filter_cons_of_neg (by simpa using remark)]
      exact e.codes_notes limits path
  · constructor
    · rw [processText, processed]
      exact congrArg (fun t => Except.ok (report, t))
        (noteAll_eq limits env (s := { s with service := some service }) rfl
          (process_events_ne_nil processed))
    · rw [processFile, Frontend.processFile, loadSource_of_gives gives]
      simp only [processed]
      exact congrArg Except.ok
        (withSource_noteAll limits env (s := { s with service := some service }) rfl
        (List.cons_ne_nil _ _) path (Except.ok report))
  · intro profile admitted size
    rw [← Text.byteSize_toList] at size
    exact exists_process_admitted admitted c duration size

theorem names_letter {path : String} (letter : path ∈ ["d", "e"]) : Files.names path = [path] := by
  rw [Files.names, String.splitOn, if_neg (by decide)]
  simp only [List.mem_cons, List.not_mem_nil, or_false] at letter
  -- one turn of the search passes the letter, and the next one ends with it
  rcases letter with rfl | rfl
  · rw [String.splitOnAux, if_neg (by decide), if_neg (by decide), String.splitOnAux,
      if_pos (by decide)]
    decide
  · rw [String.splitOnAux, if_neg (by decide), if_neg (by decide), String.splitOnAux,
      if_pos (by decide)]
    decide

/-- A directory is not too large and can not be read. With a memory log installed, nothing but the
first event of the file is in the log afterwards, while there is an error after it for a path that
leads nowhere. -/
theorem processFile_silent :
    let files := ({} : Files).makeDirectory "d"
    let s : Logging :=
      { preferences := some ⟨false, false, .debug, true⟩, service := some ⟨.memory, .debug⟩ }
    let processed (path : String) :=
      (processFile Build.development.limits {} (.ofEnvironment {}) "0.00" files path s).map
        fun (outcome, t) =>
        (outcome.map Report.tokenCount, t.memory.toList.map fun e => (e.level, e.code))
    files.system.Fails Build.development.limits "d" (.unreadable .isDirectory) ∧
      processed "d" = .ok (.error (.unreadable .isDirectory), [(.info, .plainInfo)]) ∧
      processed "e" = .ok (.error (.notFound "e"),
        [(.info, .plainInfo), (.error, .sourceNotFound)]) := by
  intro files s processed
  have made : files = ⟨[(["d"], .directory)]⟩ := by
    change Files.makeDirectory {} "d" = _
    rw [Files.makeDirectory, names_letter (by decide)]
    rfl
  have there : files.system.find "d" = .ok .directory := by
    change files.find "d" = _
    rw [made, Files.find, names_letter (by decide)]
    simp only [show "d".startsWith "/" = false by simp]
    rfl
  have lost : files.system.find "e" = .error .notFound := by
    change files.find "e" = _
    rw [made, Files.find, names_letter (by decide)]
    simp only [show "e".startsWith "/" = false by simp]
    rfl
  have unread : files.system.Fails Build.development.limits "d" (.unreadable .isDirectory) :=
    .unreadable there (Nat.zero_le _) rfl
  have missing : files.system.Fails Build.development.limits "e" (.notFound "e") := .notFound lost
  refine ⟨unread, ?_, ?_⟩
  · simp only [processed, processFile, Frontend.processFile, loadSource_of_fails unread]
    decide +kernel
  · simp only [processed, processFile, Frontend.processFile, loadSource_of_fails missing]
    decide +kernel

end Logging

end Frontend

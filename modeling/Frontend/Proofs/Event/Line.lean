import Frontend.Event.Format
import Frontend.Proofs.Event
import Frontend.Proofs.Json.Decoding
import Frontend.Proofs.Json.Printable

/-!
# Events as lines of JSON

An event written as JSON stands on one line. A reader of such lines knows the fields by their names
(`Line.decode`), and gets back everything that was written of the event, in whatever order it asks
(`formatJson_read`).
-/

set_option autoImplicit false

namespace Frontend

/-! ## Records by name -/

namespace Json

theorem map_find?_eq_lookup {α : Type} (name : String) (members : List (String × α)) :
    (members.find? (·.1 == name)).map (·.2) = members.lookup name := by
  induction members with
  | nil => rfl
  | cons m members ih =>
    obtain ⟨key, value⟩ := m
    rw [Event.lookup_pair]
    by_cases h : name = key
    · simp [h]
    · rw [if_neg h, List.find?_cons_of_neg (by simpa using Ne.symm h), ih]

/-- The fields of a record, asked for in any order. -/
theorem fields?_record_lookup (d : Dialect) {members : List (String × Json)}
    (distinct : (members.map (·.1)).Nodup) (names : List String) :
    (record members).fields? d names = some (names.map fun name => members.lookup name) := by
  have once : names.all fun name => (members.filter (·.1 == name)).length ≤ 1 := by
    rw [List.all_eq_true]
    intro name _
    have count := List.nodup_iff_count_le_one.mp distinct name
    rw [List.count, List.countP_map, List.countP_eq_length_filter] at count
    exact decide_eq_true count
  simp only [record, fields?, mapM_named, once, if_true, map_find?_eq_lookup]

end Json

namespace Event

open Json (Decoder Decodes asRecord asText asBool asWord64 asWord32 decodes_record decodes_word64
  decodes_word32 Exact)

/-! ## What a reader of a line gets -/

/-- What a line says of an error. -/
structure Advice where
  description : String
  action : String
  recoverable : Bool
  requiresHalt : Bool
  deriving DecidableEq, Repr

/-- What a line says of an event. -/
structure Line where
  time : String
  level : Level
  code : Code
  message : String
  category : String
  severity : String
  advice : Option Advice
  span : Option Span
  context : Option (List (String × String))
  deriving DecidableEq, Repr

def Advice.decode : Decoder Advice :=
  asRecord ["description", "recommended_action", "recoverable", "requires_halt"] fun room fields =>
    match fields with
    | [some description, some action, some recoverable, some halt] => do
      return ⟨← asText room description, ← asText room action, ← asBool room recoverable,
        ← asBool room halt⟩
    | _ => none

/-- A span from its six coordinates. -/
def decodeCoordinates : Decoder Span :=
  asRecord ["end_column", "end_line", "end_offset", "start_column", "start_line", "start_offset"]
    fun room fields =>
      match fields with
      | [some column', some line', some offset', some column, some line, some offset] => do
        return ⟨⟨← asWord64 room offset, ← asWord32 room line, ← asWord32 room column⟩,
          ⟨← asWord64 room offset', ← asWord32 room line', ← asWord32 room column'⟩⟩
      | _ => none

/-- An object with texts under its keys. -/
def decodeTexts : Decoder (List (String × String))
  | room + 1, .object members =>
    members.mapM fun (key, value) => do return (← key, ← asText room value)
  | _, _ => none

/-- The level with a name. -/
def decodeLevel : Decoder Level := fun room j =>
  (asText room j).bind fun name => Level.all.find? (·.name == name)

/-- A field that may be missing. -/
def decodeIfPresent {α : Type} (decoder : Decoder α) (room : Nat) : Option Json → Option (Option α)
  | some j => (decoder room j).map some
  | none => some none

/-- Reads a line. A line without a time, a level, a code, a message, a category or a severity is
refused. -/
def Line.decode : Decoder Line :=
  asRecord ["timestamp", "level", "code", "message", "category", "severity", "error_metadata",
    "span", "context"]
    fun room fields =>
      match fields with
      | [some time, some level, some code, some message, some category, some severity, advice, span,
          context] => do
        return {
          time := ← asText room time
          level := ← decodeLevel room level
          code := ⟨← asText room code⟩
          message := ← asText room message
          category := ← asText room category
          severity := ← asText room severity
          advice := ← decodeIfPresent Advice.decode room advice
          span := ← decodeIfPresent decodeCoordinates room span
          context := ← decodeIfPresent decodeTexts room context }
      | _ => none

/-! ## Parts of a line -/

/-- An object of plain values takes one level. -/
theorem read_flat {α : Type} {decoder : Decoder α} {members : List (String × Json)} {x : α}
    (h : Decodes decoder (.record members) x) (flat : ∀ m ∈ members, m.2.depth = 0) (room : Nat) :
    decoder (room + 1) (.record members) = some x := by
  have shallow : (Json.record members).depth ≤ room + 1 := by
    rw [Json.depth_record_le_iff]
    intro m hm
    rw [flat m hm]
    exact Nat.zero_le room
  rw [h, if_pos shallow]

theorem read_metadataJson (entry : CodeEntry) (room : Nat) :
    Advice.decode (room + 1) (metadataJson entry) =
    some ⟨entry.description, entry.action, entry.recoverable, entry.requiresHalt⟩ := by
  apply read_flat
  · refine decodes_record rfl (by decide) fun room => ?_
    simp [asText, asBool, Json.text, Json.depth]
  · simp [Json.depth]

theorem read_spanJson (s : Span) (room : Nat) :
    decodeCoordinates (room + 1) (spanJson s) = some s := by
  apply read_flat
  · refine decodes_record rfl (by decide) fun room => ?_
    simp only [List.map, (decodes_word64 _).bind, (decodes_word32 _).bind]
    simp
  · simp

theorem read_texts (context : List (String × String)) (room : Nat) :
    decodeTexts (room + 1) (.record (context.map fun (key, value) => (key, .text value))) =
      some context := by
  rw [Json.record, decodeTexts]
  induction context with
  | nil => rfl
  | cons pair context ih =>
    rw [List.map_cons, List.map_cons, List.mapM_cons, ih]
    rfl

theorem read_levelName (level : Level) (room : Nat) :
    decodeLevel room (.text level.name) = some level := by
  cases level <;> rfl

/-! ## Whole lines -/

theorem exact_toJson (time : String) (e : Event) : Exact (e.toJson time) := by
  have context : Exact (.record (e.context.map fun (key, value) => (key, .text value))) := by
    rw [Json.exact_record]
    intro m hm
    obtain ⟨pair, -, rfl⟩ := List.mem_map.mp hm
    exact Json.exact_text pair.2
  have metadata : Exact (metadataJson e.code.entry) := by
    simp only [metadataJson, Json.exact_record, List.forall_mem_cons]
    exact ⟨.string _, .string _, .bool _, .bool _, by simp⟩
  have span (s : Span) : Exact (spanJson s) := by simp [spanJson]
  cases hc : e.context.isEmpty <;> cases hs : e.span <;> by_cases h : e.level = .error <;>
    simp [toJson, hc, hs, h, context, metadata, span]

/-- The fields that a reader of lines asks for. -/
theorem fields?_toJson (time : String) (e : Event) : (e.toJson time).fields? Json.dialect
      ["timestamp", "level", "code", "message", "category", "severity", "error_metadata",
        "span", "context"] =
    some [some (.text time), some (.text e.level.name), some (.text e.code.name),
      some (.text e.message),
      some (.text e.code.entry.category), some (.text e.code.entry.severity.name),
      if e.level = .error then some (metadataJson e.code.entry) else none, e.span.map spanJson,
      if e.context.isEmpty then none else some
        (.record (e.context.map fun (key, value) => (key, .text value)))] := by
  unfold toJson
  cases e.context.isEmpty <;> cases e.span <;> by_cases h : e.level = .error <;>
    simp [Json.fields?_record_lookup, h, lookup_pair]

/-- An event is written as one line, since no control character below the blank is in it, and the
line says everything of the event: its level, its code and its message, what the register says of
the code if it is an error, the span if there is one, and all named texts if there are any. -/
theorem formatJson_read (time : String) (e : Event) :
    (∀ c ∈ (e.formatJson time).toList, 0x20 ≤ c.toNat) ∧
      Json.decodeText Line.decode (e.formatJson time) = some
        { time := time
          level := e.level
          code := e.code
          message := e.message
          category := e.code.entry.category
          severity := e.code.entry.severity.name
          advice :=
            if e.level = .error then
              some ⟨e.code.entry.description, e.code.entry.action, e.code.entry.recoverable,
                e.code.entry.requiresHalt⟩
            else none
          span := e.span
          context := if e.context.isEmpty then none else some e.context } := by
  have exact := exact_toJson time e
  refine ⟨?_, ?_⟩
  · rw [formatJson, Json.compact, String.toList_ofList]
    exact exact.printable
  · rw [Json.decodeText, formatJson, Json.read_compact exact, Option.bind_some, Line.decode,
      Json.nestingLimit, asRecord, Json.asRecordIn, fields?_toJson, Option.bind_some]
    have text (content : String) : asText 126 (.text content) = some content := rfl
    simp only [text, read_levelName]
    cases e.context.isEmpty <;> cases e.span <;> by_cases h : e.level = .error <;>
      simp [h, decodeIfPresent, read_metadataJson, read_spanJson, read_texts]

end Event

end Frontend

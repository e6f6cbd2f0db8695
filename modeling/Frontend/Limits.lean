/-!
# Limits of a build

A build fixes how large a source may be, how much of a literal is shown, how deep expressions nest,
how many events are kept and how long their messages get. `Limits.problem?` says which limits a
build admits: those with all the bounds in `Limits.Admitted` (`Limits.problem?_eq_none_iff`).
-/

set_option autoImplicit false

namespace Frontend

/-- What a build fixes. -/
structure Limits where
  maxSourceSize : UInt64
  maxLiteralPreview : UInt64
  maxParseDepth : UInt64
  logBufferSize : UInt64
  maxMessageLength : UInt64
  deriving DecidableEq, Repr

/-- Why limits are not admitted. -/
inductive LimitProblem where
  | sourceSizeZero
  | sourceSizeAbsolute
  | previewZero
  | parseDepth
  | bufferSize
  | messageLength
  | sourceSizeProduction
  deriving DecidableEq, Repr

/-- The text of a problem. -/
def LimitProblem.message : LimitProblem → String
  | .sourceSizeZero => "max_source_size must be greater than zero"
  | .sourceSizeAbsolute => "max_source_size exceeds absolute maximum"
  | .previewZero => "max_literal_preview must be greater than zero"
  | .parseDepth => "max_parse_depth must be within 16..=4096"
  | .bufferSize => "log_buffer_size must be within 100..=100000"
  | .messageLength => "max_log_message_length too small (min: 64)"
  | .sourceSizeProduction => "PRODUCTION: max_source_size too high for production"

namespace Limits

/-- The first thing that is wrong with limits under a profile. -/
def problem? (l : Limits) (profile : String) : Option LimitProblem :=
  if l.maxSourceSize = 0 then some .sourceSizeZero
  else if 1000000000 < l.maxSourceSize then some .sourceSizeAbsolute
  else if l.maxLiteralPreview = 0 then some .previewZero
  else if l.maxParseDepth < 16 ∨ 4096 < l.maxParseDepth then some .parseDepth
  else if l.logBufferSize < 100 ∨ 100000 < l.logBufferSize then some .bufferSize
  else if l.maxMessageLength < 64 then some .messageLength
  else if profile = "production" ∧ 50000000 < l.maxSourceSize then some .sourceSizeProduction
  else none

/-- The limits that are admitted under a profile. -/
structure Admitted (l : Limits) (profile : String) : Prop where
  size_pos : 0 < l.maxSourceSize
  size_le : l.maxSourceSize ≤ 1000000000
  preview_pos : 0 < l.maxLiteralPreview
  le_depth : 16 ≤ l.maxParseDepth
  depth_le : l.maxParseDepth ≤ 4096
  le_buffer : 100 ≤ l.logBufferSize
  buffer_le : l.logBufferSize ≤ 100000
  le_message : 64 ≤ l.maxMessageLength
  production_le : profile = "production" → l.maxSourceSize ≤ 50000000

theorem problem?_eq_none_iff {l : Limits} {profile : String} :
    l.problem? profile = none ↔ l.Admitted profile := by
  unfold problem?
  constructor
  · intro passed
    constructor <;> grind
  · rintro ⟨size_pos, size_le, preview_pos, le_depth, depth_le, le_buffer, buffer_le, le_message,
      production_le⟩
    grind

/-- What keeps a logger from being installed under limits; nothing, if a build admits them. -/
def loggingProblem? (l : Limits) : Option String :=
  if 100000 < l.logBufferSize then
    some ("Log buffer size too large: " ++ toString l.logBufferSize.toNat)
  else if l.logBufferSize < 100 then
    some ("Log buffer size too small: " ++ toString l.logBufferSize.toNat)
  else if l.maxMessageLength < 64 then
    some ("Max log message length too small: " ++ toString l.maxMessageLength.toNat)
  else none

end Limits

/-- A build: the name of its profile, the directory of its configuration, and its limits. -/
structure Build where
  profile : String
  configDir : String := "config"
  limits : Limits
  deriving DecidableEq, Repr

namespace Build

/-- The build for development. -/
def development : Build where
  profile := "development"
  limits := ⟨10485760, 64, 256, 10000, 4096⟩

/-- The build for production. -/
def production : Build where
  profile := "production"
  limits := ⟨1048576, 32, 128, 1000, 1024⟩

/-- Where the limits of a build come from. -/
def sourceInfo (b : Build) : String :=
  "Generated from " ++ b.configDir ++ "/" ++ b.profile ++ ".toml"

end Build

end Frontend

import Frontend.Environment
import Frontend.Files
import Frontend.Limits
import Frontend.Toml.Decoder

/-!
# Limits from a profile

The limits of a build are read from a TOML file that the environment chooses: a profile in a
directory of configurations. They are checked, and written out as constants for the build to use.
-/

set_option autoImplicit false

namespace Frontend

open Json (asRecordIn asWord64 Decoder)

/-! ## Reading limits -/

/-- A table with one number in it. -/
def Limits.decodeOne (name : String) : Decoder UInt64 :=
  asRecordIn Toml.dialect [name] fun room fields =>
    match fields with
    | [some value] => asWord64 room value
    | _ => none

/-- A table with two numbers in it. -/
def Limits.decodeTwo (first second : String) : Decoder (UInt64 × UInt64) :=
  asRecordIn Toml.dialect [first, second] fun room fields =>
    match fields with
    | [some value, some other] => do return (← asWord64 room value, ← asWord64 room other)
    | _ => none

/-- Reads limits. All of them must be there. -/
def Limits.decode : Decoder Limits :=
  asRecordIn Toml.dialect ["source", "lexical", "syntax", "logging"] fun room fields =>
    match fields with
    | [some source, some lexical, some syntaxTable, some logging] => do
      let size ← decodeOne "max_source_size" room source
      let preview ← decodeOne "max_literal_preview" room lexical
      let depth ← decodeOne "max_parse_depth" room syntaxTable
      let (buffer, length) ← decodeTwo "log_buffer_size" "max_log_message_length" room logging
      return ⟨size, preview, depth, buffer, length⟩
    | _ => none

/-- The limits in a TOML document. -/
def Limits.ofToml? (text : String) : Option Limits := Toml.decodeText decode text

/-! ## Writing constants -/

/-- A module of constants, each with its name, its type and its value. -/
def Limits.constantModule (name : String) (constants : List (String × String × UInt64)) : String :=
  "    pub mod " ++ name ++ " \x7b\n"
    ++ String.join (constants.map fun (constant, type, value) =>
      "        pub const " ++ constant ++ ": " ++ type ++ " = " ++ toString value.toNat ++ ";\n")
    ++ "    \x7d\n"

/-- Limits as constants, under the name of their profile. -/
def Limits.constants (profile : String) (l : Limits) : String :=
  "\n// Generated compile-time constants from TOML configuration\n// Profile: " ++ profile
    ++ "\n// DO NOT EDIT - Generated by build.rs\n\npub mod compile_time \x7b\n"
    ++ String.intercalate "\n"
      [constantModule "source" [("MAX_SOURCE_SIZE", "u64", l.maxSourceSize)],
        constantModule "lexical" [("MAX_LITERAL_PREVIEW", "usize", l.maxLiteralPreview)],
        constantModule "syntax" [("MAX_PARSE_DEPTH", "usize", l.maxParseDepth)],
        constantModule "logging"
          [("LOG_BUFFER_SIZE", "usize", l.logBufferSize),
            ("MAX_LOG_MESSAGE_LENGTH", "usize", l.maxMessageLength)]]
    ++ "\x7d\n"

/-! ## Profiles -/

/-- Where limits are read from: a profile, in a directory, in a workspace. -/
structure Profile where
  root : String
  directory : String
  name : String
  deriving DecidableEq, Repr

/-- Why there are no constants. -/
inductive ProfileError where
  | missing (profile : Profile)
  | unreadable (profile : Profile) (cause : FileError)
  | malformed (profile : Profile)
  | refused (problem : LimitProblem)
  deriving DecidableEq, Repr

namespace Profile

/-- The profile in a workspace that an environment chooses. -/
def ofEnvironment (root : String) (env : Environment) : Profile where
  root := root
  directory := (env.get? "MONKE_CONFIG_DIR").getD "config"
  name := (env.get? "MONKE_BUILD_PROFILE").getD "development"

/-- The path of a profile's file. -/
def path (p : Profile) : String := Files.join (Files.join p.root p.directory) (p.name ++ ".toml")

/-- What is printed for the build that asks: what the constants depend on. -/
def dependencies (p : Profile) : List String :=
  ["cargo:rerun-if-changed=build.rs", "cargo:rerun-if-env-changed=MONKE_BUILD_PROFILE",
    "cargo:rerun-if-env-changed=MONKE_CONFIG_DIR", "cargo:rerun-if-changed=" ++ p.path]

/-- The constants that a profile gives. -/
def generate (p : Profile) (files : Files) : Except ProfileError String :=
  match files.find p.path with
  | .error _ => .error (.missing p)
  | .ok entry =>
    match entry.readText with
    | .error cause => .error (.unreadable p cause)
    | .ok text =>
      match Limits.ofToml? text with
      | none => .error (.malformed p)
      | some limits =>
        match limits.problem? p.name with
        | some problem => .error (.refused problem)
        | none => .ok (limits.constants p.name)

end Profile

/-- The text of an error. -/
def ProfileError.message : ProfileError → String
  | .missing p =>
    "Configuration file not found: " ++ p.path ++ "\nLooking for: " ++ p.root ++ "/" ++ p.directory
      ++ "/" ++ p.name ++ ".toml"
  | .unreadable p cause => "Failed to read " ++ p.path ++ ": " ++ cause.message
  | .malformed p => "Invalid TOML in " ++ p.path
  | .refused problem => problem.message

end Frontend

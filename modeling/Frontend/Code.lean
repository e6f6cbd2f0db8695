/-!
# Codes

Every error and every success that the library reports has a code. The register says what a code
means; a code that is not in it is answered for by defaults.
-/

set_option autoImplicit false

namespace Frontend

/-- How bad an error is, worst first. -/
inductive Severity where
  | critical
  | high
  | medium
  | low
  deriving DecidableEq, Repr

namespace Severity

/-- The place of a severity in the order from worst to mildest. -/
def rank : Severity → Nat
  | .critical => 0
  | .high => 1
  | .medium => 2
  | .low => 3

/-- The name of a severity. -/
def name : Severity → String
  | .critical => "Critical"
  | .high => "High"
  | .medium => "Medium"
  | .low => "Low"

/-- The worse severity comes first. -/
def order (a b : Severity) : Ordering := compare a.rank b.rank

end Severity

/-- The name of an error or of a success. -/
structure Code where
  name : String
  deriving DecidableEq, Repr

/-- What the register says of a code. -/
structure CodeEntry where
  code : Code
  category : String
  severity : Severity
  recoverable : Bool
  requiresHalt : Bool
  description : String
  action : String
  deriving DecidableEq, Repr

namespace Code

/-! ## The codes in use -/

def internalError : Code := ⟨"ERR001"⟩
def startFailure : Code := ⟨"ERR002"⟩
def sourceNotFound : Code := ⟨"E005"⟩
def sourceTooLarge : Code := ⟨"E007"⟩
def invalidEncoding : Code := ⟨"E010"⟩
def readFailure : Code := ⟨"E011"⟩
def unexpectedToken : Code := ⟨"E050"⟩
def noOperand : Code := ⟨"E051"⟩
def integerRange : Code := ⟨"E052"⟩
def tooDeep : Code := ⟨"E053"⟩
def loggingStarted : Code := ⟨"I004"⟩
def sourceProcessed : Code := ⟨"I006"⟩
def tokenized : Code := ⟨"I020"⟩
def treeBuilt : Code := ⟨"I040"⟩
def plainWarning : Code := ⟨"W000"⟩
def plainInfo : Code := ⟨"I000"⟩
def plainDebug : Code := ⟨"D000"⟩

/-! ## The register -/

/-- What is known of every registered code. -/
def register : List CodeEntry :=
  [⟨internalError, "System", .critical, false, true, "Critical internal system error",
      "File a bug report with the failing input"⟩,
    ⟨startFailure, "System", .critical, false, true, "System initialization failure",
      "Check logging configuration and environment variables"⟩,
    ⟨sourceNotFound, "Source", .high, false, true, "Source file not found",
      "Verify the path exists and is readable"⟩,
    ⟨sourceTooLarge, "Source", .high, false, true, "Source exceeds the configured size limit",
      "Split the program or raise max_source_size in the build profile"⟩,
    ⟨invalidEncoding, "Source", .high, false, true, "Source is not valid UTF-8",
      "Re-encode the file as UTF-8"⟩,
    ⟨readFailure, "Source", .high, false, true, "I/O error while reading source",
      "Check file permissions and disk state"⟩,
    ⟨unexpectedToken, "Syntax", .medium, true, false,
      "Statement structure expected a different token",
      "Check the statement against the expected form, e.g. let <name> = <value>;"⟩,
    ⟨noOperand, "Syntax", .medium, true, false, "Token cannot start an expression",
      "Remove the token or supply an operand before it"⟩,
    ⟨integerRange, "Syntax", .medium, true, false,
      "Integer literal does not fit in a signed 64-bit integer",
      "Use a value between -9223372036854775808 and 9223372036854775807"⟩,
    ⟨tooDeep, "Syntax", .high, true, false,
      "Expression nesting exceeds the configured parse depth",
      "Split the expression or raise max_parse_depth in the build profile"⟩,
    ⟨loggingStarted, "System", .low, true, false, "Logging system initialized", "Continue"⟩,
    ⟨sourceProcessed, "Source", .low, true, false, "Source processed through lexer and parser",
      "Inspect diagnostics before using the tree"⟩,
    ⟨tokenized, "Lexical", .low, true, false, "Tokenization completed", "Continue to parsing"⟩,
    ⟨treeBuilt, "Syntax", .low, true, false, "AST construction completed",
      "Inspect diagnostics before using the tree"⟩]

/-- What the register says of a code. -/
def entry? (c : Code) : Option CodeEntry := register.find? (·.code == c)

/-- What is taken of a code that is not in the register. -/
def unregistered (c : Code) : CodeEntry :=
  ⟨c, "Unknown", .medium, true, false, "Unknown error", "No specific action available"⟩

/-- What the register says of a code, or the defaults. -/
def entry (c : Code) : CodeEntry := c.entry?.getD c.unregistered

end Code

end Frontend

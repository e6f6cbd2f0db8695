/-!
# Kinds of tokens

The closed list of token kinds, their names in diagnostics, the classes they fall into, and the
words and characters that they are read from.
-/

set_option autoImplicit false

namespace Frontend

/-- What a token is. -/
inductive Kind where
  | illegal
  | eof
  | ident
  | int
  | assign
  | plus
  | minus
  | bang
  | asterisk
  | slash
  | lt
  | gt
  | eq
  | notEq
  | comma
  | semicolon
  | lparen
  | rparen
  | lbrace
  | rbrace
  | fnWord
  | letWord
  | trueWord
  | falseWord
  | ifWord
  | elseWord
  | returnWord
  deriving DecidableEq, Repr

namespace Kind

/-- Every kind, once. -/
def all : List Kind :=
  [.illegal, .eof, .ident, .int, .assign, .plus, .minus, .bang, .asterisk, .slash, .lt, .gt, .eq,
    .notEq, .comma, .semicolon, .lparen, .rparen, .lbrace, .rbrace, .fnWord, .letWord, .trueWord,
    .falseWord, .ifWord, .elseWord, .returnWord]

/-- The name of a kind in diagnostics. Operators and delimiters are named by their text. -/
def name : Kind → String
  | .illegal => "ILLEGAL"
  | .eof => "EOF"
  | .ident => "IDENT"
  | .int => "INT"
  | .assign => "="
  | .plus => "+"
  | .minus => "-"
  | .bang => "!"
  | .asterisk => "*"
  | .slash => "/"
  | .lt => "<"
  | .gt => ">"
  | .eq => "=="
  | .notEq => "!="
  | .comma => ","
  | .semicolon => ";"
  | .lparen => "("
  | .rparen => ")"
  | .lbrace => "\x7b"
  | .rbrace => "\x7d"
  | .fnWord => "FUNCTION"
  | .letWord => "LET"
  | .trueWord => "TRUE"
  | .falseWord => "FALSE"
  | .ifWord => "IF"
  | .elseWord => "ELSE"
  | .returnWord => "RETURN"

/-- The tag of a kind in serialized data. -/
def tag : Kind → String
  | .illegal => "Illegal"
  | .eof => "Eof"
  | .ident => "Ident"
  | .int => "Int"
  | .assign => "Assign"
  | .plus => "Plus"
  | .minus => "Minus"
  | .bang => "Bang"
  | .asterisk => "Asterisk"
  | .slash => "Slash"
  | .lt => "Lt"
  | .gt => "Gt"
  | .eq => "Eq"
  | .notEq => "NotEq"
  | .comma => "Comma"
  | .semicolon => "Semicolon"
  | .lparen => "LParen"
  | .rparen => "RParen"
  | .lbrace => "LBrace"
  | .rbrace => "RBrace"
  | .fnWord => "Function"
  | .letWord => "Let"
  | .trueWord => "True"
  | .falseWord => "False"
  | .ifWord => "If"
  | .elseWord => "Else"
  | .returnWord => "Return"

/-- The kind with a given tag. -/
def ofTag? (text : String) : Option Kind := all.find? (·.tag == text)

/-- The kind of a word: a keyword, or else an identifier. Case matters. -/
def ofWord (word : String) : Kind :=
  match word with
  | "fn" => .fnWord
  | "let" => .letWord
  | "true" => .trueWord
  | "false" => .falseWord
  | "if" => .ifWord
  | "else" => .elseWord
  | "return" => .returnWord
  | _ => .ident

/-- The kind of a token that one character makes up by itself. -/
def ofChar? (c : Char) : Option Kind :=
  match c with
  | '=' => some .assign
  | '!' => some .bang
  | '+' => some .plus
  | '-' => some .minus
  | '*' => some .asterisk
  | '/' => some .slash
  | '<' => some .lt
  | '>' => some .gt
  | ',' => some .comma
  | ';' => some .semicolon
  | '(' => some .lparen
  | ')' => some .rparen
  | '{' => some .lbrace
  | '}' => some .rbrace
  | _ => none

/-- Whether the kind is a keyword's. -/
def isKeyword : Kind → Bool
  | .fnWord | .letWord | .trueWord | .falseWord | .ifWord | .elseWord | .returnWord => true
  | _ => false

/-- Whether the kind is an operator's. -/
def isOperator : Kind → Bool
  | .assign | .plus | .minus | .bang | .asterisk | .slash | .lt | .gt | .eq | .notEq => true
  | _ => false

/-- Whether the kind is a delimiter's. -/
def isDelimiter : Kind → Bool
  | .comma | .semicolon | .lparen | .rparen | .lbrace | .rbrace => true
  | _ => false

end Kind

end Frontend

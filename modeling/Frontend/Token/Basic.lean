import Frontend.Span
import Frontend.Token.Kind

/-!
# Tokens and lexemes

A token is a kind with the text it was read from. A lexeme is a token with its place in the source.
-/

set_option autoImplicit false

namespace Frontend

/-- A kind with the text it was read from. -/
structure Token where
  kind : Kind
  literal : String
  deriving DecidableEq, Repr

namespace Token

/-- The token at the end of every text. -/
def eof : Token := ⟨.eof, ""⟩

/-- A token as a diagnostic shows it: with its text where the kind alone does not give it. -/
def render (t : Token) : String :=
  match t.kind with
  | .ident | .int | .illegal => t.kind.name ++ "(" ++ t.literal ++ ")"
  | kind => kind.name

end Token

/-- A token with its place in the source. -/
structure Lexeme where
  token : Token
  span : Span
  deriving DecidableEq, Repr

namespace Lexeme

/-- The kind of a lexeme's token. -/
def kind (l : Lexeme) : Kind := l.token.kind

/-- The text of a lexeme's token. -/
def literal (l : Lexeme) : String := l.token.literal

/-- The end of a text, as an empty lexeme at a position. -/
def eofAt (p : Position) : Lexeme := ⟨.eof, .point p⟩

end Lexeme

end Frontend

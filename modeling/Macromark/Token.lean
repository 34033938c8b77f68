import Macromark.Lexeme
import Macromark.Text.Position
import Macromark.Text.Quoted

/-!
# Tokens

The words of a document in context. The brackets of an argument are tokens of
their own, so the arguments of a document are nested by their openers and
closers; a literal argument holds at most one token, its text.
-/

namespace Macromark

inductive TokenKind where
  | plaintext (text : String)
  | macroName (name : String)
  | paragraphBreak
  | opener (bracket : Bracket)
  | closer (bracket : Bracket)
  | argumentName (name : String)
deriving DecidableEq, Repr

namespace TokenKind

/-- The name of the kind in listings and messages. -/
def label : TokenKind → String
  | plaintext _ => "PLAINTEXT"
  | macroName _ => "MACRO_NAME"
  | paragraphBreak => "PARAGRAPH"
  | opener .positional => "POSITIONAL_ARGUMENT_START"
  | opener .named => "NAMED_ARGUMENT_START"
  | closer .positional => "POSITIONAL_ARGUMENT_END"
  | closer .named => "NAMED_ARGUMENT_END"
  | argumentName _ => "NAMED_ARGUMENT_NAME"

def value? : TokenKind → Option String
  | plaintext text => some text
  | macroName name => some name
  | argumentName name => some name
  | _ => none

end TokenKind

structure Token where
  kind : TokenKind
  position : Position
deriving DecidableEq, Repr

namespace Token

def write (token : Token) : String :=
  let head := s!"{token.position.write} {token.kind.label}"
  match token.kind.value? with
  | some value => s!"{head} {Text.quoted value}"
  | none => head

def writeAll (tokens : List Token) : String :=
  String.join (tokens.map fun token => token.write ++ "\n")

end Token
end Macromark

import Macromark.Outline.Level
import Macromark.Record
import Macromark.Text.Position
import Macromark.Token

/-!
# Diagnostics

What can be wrong with a document. A document is never refused: every stage
reports the problems that it meets and goes on. A problem is a cause with its
data; its category, code, severity and wording are read off the cause.
-/

namespace Macromark

inductive Problem where
  -- of the text
  | surplusNewlines (count : Nat)
  | unterminatedLiteral (bracket : Bracket) (run : Nat)
  -- of the structure
  | missingEquals (argument : String)
  | trailingToken (kind : TokenKind)
  | unknownMacro (name : String)
  | surplusArgument (owner : String) (declared : Nat)
  | unknownArgument (argument owner : String)
  | repeatedArgument (argument owner : String)
  | unterminatedArgument
  | unclosedArgument (bracket : Bracket)
  | strayCloser (found : Bracket)
  | mismatchedCloser (expected found : Bracket)
  | orphanArgument
  | unexpectedToken (kind : TokenKind)
  -- of the meaning
  | duplicateId (id : String) (previous : Site)
  | badLevel (found : String)
  | skippedLevel (previous current : Level)
  | orphanSynonym
  | unresolvedLink (target : String)
  | missingDocument (target : String)
  | unreachableDocument
  /-- A link that has a target but cannot be written. -/
  | brokenLink (fault : LinkFault)
deriving DecidableEq, Repr

inductive Category where
  | lexical
  | syntactic
  | semantic
deriving DecidableEq, Repr

def Category.label : Category → String
  | lexical => "lexical"
  | syntactic => "syntactic"
  | semantic => "semantic"

namespace Problem

def category : Problem → Category
  | surplusNewlines .. | unterminatedLiteral .. => .lexical
  | missingEquals .. | trailingToken .. | unknownMacro .. | surplusArgument ..
  | unknownArgument .. | repeatedArgument .. | unterminatedArgument | unclosedArgument ..
  | strayCloser .. | mismatchedCloser .. | orphanArgument | unexpectedToken .. => .syntactic
  | duplicateId .. | badLevel .. | skippedLevel .. | orphanSynonym | unresolvedLink ..
  | missingDocument .. | unreachableDocument | brokenLink .. => .semantic

/-- Only a document that nothing leads to is a matter for a warning. -/
def isError : Problem → Bool
  | unreachableDocument => false
  | _ => true

/-- A stable name for tools. Problems of a link that has a target have none. -/
def code? : Problem → Option String
  | surplusNewlines .. => some "too-many-newlines"
  | unterminatedLiteral .. => some "unterminated-literal"
  | missingEquals .. => some "missing-equals"
  | trailingToken .. => some "trailing-token"
  | unknownMacro .. => some "unknown-macro"
  | surplusArgument .. => some "too-many-positional"
  | unknownArgument .. => some "unknown-argument"
  | repeatedArgument .. => some "duplicate-argument"
  | unterminatedArgument | unclosedArgument .. => some "unclosed-argument"
  | strayCloser .. => some "stray-closer"
  | mismatchedCloser .. => some "mismatched-closer"
  | orphanArgument => some "orphan-argument"
  | unexpectedToken .. => some "unexpected-token"
  | duplicateId .. => some "duplicate-id"
  | badLevel .. => some "bad-header-level"
  | skippedLevel .. => some "header-level-skipped"
  | orphanSynonym => some "orphan-synonym"
  | unresolvedLink .. | missingDocument .. => some "unresolved-reference"
  | unreachableDocument => some "unreachable-document"
  | brokenLink .. => none

def message : Problem → String
  | surplusNewlines count =>
    s!"paragraphs must be separated by exactly one blank line, found {count} consecutive newlines"
  | unterminatedLiteral bracket run =>
    let closers := String.ofList (List.replicate run bracket.closing)
    s!"unterminated literal argument, expected \"{closers}\" before the end of input"
  | missingEquals argument => s!"expected '=' after named argument name \"{argument}\""
  | trailingToken kind => s!"unexpected {kind.label} after the end of the document"
  | unknownMacro name => s!"unknown macro name: \"{name}\""
  | surplusArgument owner declared =>
    s!"too many positional arguments for macro \"{owner}\": expected at most {declared}"
  | unknownArgument argument owner =>
    s!"unknown named argument \"{argument}\" for macro \"{owner}\""
  | repeatedArgument argument owner =>
    s!"duplicate named argument \"{argument}\" for macro \"{owner}\""
  | unterminatedArgument => "unterminated argument: reached the end of the document"
  | unclosedArgument bracket => s!"unclosed argument: missing {bracket.closing}"
  | strayCloser found => s!"unmatched {found.closing}"
  | mismatchedCloser expected found =>
    s!"mismatched argument closer: expected {expected.closing} but found {found.closing}"
  | orphanArgument => "argument without a macro name"
  | unexpectedToken kind => s!"unexpected {kind.label}"
  | duplicateId id previous => s!"duplicate id \"{id}\", previous definition at {previous.write}"
  | badLevel found => s!"header level must be a positive integer, found \"{found}\""
  | skippedLevel previous current => s!"header level skipped: {previous} -> {current}"
  | orphanSynonym => "synonym header without a previous header"
  | unresolvedLink target => (LinkFault.unknownTarget target).message
  | missingDocument target => s!"included document not found: \"{target}\""
  | unreachableDocument => "document is not reachable from the index document"
  | brokenLink fault => fault.message

end Problem

structure Diagnostic where
  problem : Problem
  position : Position
  /-- Empty for a document without a name. -/
  document : String
deriving DecidableEq, Repr

namespace Diagnostic

def isError (d : Diagnostic) : Bool := d.problem.isError

def site (d : Diagnostic) : Site := ⟨d.document, d.position⟩

def write (d : Diagnostic) : String :=
  let severity := if d.isError then "error" else "warning"
  s!"{d.site.write}: {d.problem.category.label} {severity}: {d.problem.message}"

/-- Names the document of a diagnostic that has none yet. -/
def within (document : String) (d : Diagnostic) : Diagnostic :=
  if d.document = "" then { d with document } else d

end Diagnostic
end Macromark

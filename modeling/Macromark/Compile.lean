import Macromark.Html.Render
import Macromark.Token.Lexer
import Macromark.Tree.Parser
import Macromark.Tree.PlainText

/-!
# Compiling a document

A document is read and assembled without regard to any other one; its links
are resolved against its own identifiers and, where there is a store, against
those of other documents; then it is rendered. Nothing that is wrong with a
document stops its compilation.
-/

namespace Macromark

structure CompileOptions where
  /-- Leave out the page around the document. -/
  bodyOnly : Bool := false
  showTokens : Bool := false
  showTree : Bool := false
  showParse : Bool := false
  /-- The name of the document, by which other documents know it. -/
  document : String := ""
  /-- The file name extension of other documents. -/
  extension : String := "html"
deriving DecidableEq, Repr

structure Listings where
  tokens : Option String
  tree : Option String
  parse : Option String
deriving DecidableEq, Repr

structure Analysis where
  document : String
  tokens : List Token
  tree : Tree
  index : Index
  headers : HeaderTree
  contribution : Contribution
  linkSites : LinkSites
  diagnostics : List Diagnostic
  trace : List String
  aborted : Option Abort
deriving Repr

/-- Why a compilation has no result. -/
inductive CompileFault where
  | registry (fault : Registry.Fault)
  | aborted (why : Abort)
deriving DecidableEq, Repr

structure Compiled where
  output : String
  tokens : List Token
  tree : Tree
  diagnostics : List Diagnostic
  /-- Every identifier that the document defines. -/
  ids : OrderedMap String IdRecord
  headers : HeaderTree
  contribution : Contribution
  listings : Listings
deriving Repr

def Compiled.hasErrors (c : Compiled) : Bool := c.diagnostics.any (·.isError)

def analyze (registry : Registry) (document source : String) : Analysis :=
  let lexed := tokenize source
  let parsed := parse registry lexed.tokens
  let assembled := assemble registry document parsed.tree
  { document, tokens := lexed.tokens
    tree := assembled.tree, index := assembled.index, headers := assembled.headers
    contribution := assembled.contribution, linkSites := assembled.linkSites
    diagnostics := lexed.diagnostics ++ parsed.diagnostics ++ assembled.diagnostics
    trace := parsed.trace, aborted := assembled.aborted }

namespace Analysis

def finished (a : Analysis) : Except CompileFault Analysis :=
  match a.aborted with
  | some why => .error (.aborted why)
  | none => .ok a

def render (a : Analysis) (registry : Registry) (store : Option Store)
    (resolutions : OrderedMap NodeId Resolution) (options : CompileOptions) :
    String × List Diagnostic :=
  RenderContext.renderDocument
    { registry, document := a.document, tree := a.tree, index := a.index, headers := a.headers
      store, resolutions, extension := options.extension }
    options.bodyOnly

/-- Whether an identifier is defined in the document, or elsewhere in the store. -/
def knows (a : Analysis) (store : Option Store) (id : String) : Bool :=
  a.index.contains id || store.any (·.knows id [a.document])

/-- A reference leads somewhere if both its ends are known, or it comes from
nothing that has an identifier. -/
def resolves (a : Analysis) (store : Option Store) (r : Reference) : Bool :=
  (r.source == "" || a.knows store r.source) && a.knows store r.target

def listings (a : Analysis) (options : CompileOptions) : Listings :=
  { tokens := if options.showTokens then some (Token.writeAll a.tokens) else none
    tree := if options.showTree then some (a.tree.draw false) else none
    parse :=
      if options.showParse then some (String.join (a.trace.map (· ++ "\n"))) else none }

/-- Puts an analysis, its output and the later diagnostics together. -/
def finish (a : Analysis) (output : String) (later : List Diagnostic) (options : CompileOptions) :
    Compiled :=
  { output, tokens := a.tokens, tree := a.tree
    diagnostics := (a.diagnostics ++ later).map (·.within a.document)
    ids := a.index.records
    headers := a.headers
    contribution := a.contribution
    listings := a.listings options }

end Analysis

def compile (registry : Option Registry) (store : Option Store) (options : CompileOptions)
    (source : String) : Except CompileFault Compiled := do
  let some registry := registry | throw (.registry .missingRegistry)
  registry.check.mapError .registry
  let analysis ← (analyze registry options.document source).finished
  let references := analysis.contribution.references
  let selection := select (analysis.resolves store) references
  let resolutions := selection.resolutions analysis.document analysis.linkSites references
  let (output, diagnostics) := analysis.render registry store resolutions options
  return analysis.finish output (selection.diagnostics ++ diagnostics) options

end Macromark

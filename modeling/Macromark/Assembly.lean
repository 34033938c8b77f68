import Macromark.Assembly.Arrangement
import Macromark.Diagnostic
import Macromark.Identifier
import Macromark.Identifier.Inflection
import Macromark.Outline.HeaderTree
import Macromark.Record
import Macromark.Reference
import Macromark.Text.Basic
import Macromark.Tree.PlainText

/-!
# From the tree as written to the document

Every macro of the tree is visited once, in reading order. A visit names and
numbers the macro, enters it among the headers, and notes where it leads to;
then the implied containers and paragraphs are put into its arguments, and what
stands in them now is visited in turn.

A scoped header puts its identifier in front of all that are defined below it.
A link tries every scope around it, the innermost first, so that one link may
give several references.
-/

namespace Macromark

/-- The node of the link at each position. -/
abbrev LinkSites := OrderedMap Position NodeId

namespace Assembly

structure State where
  tree : Tree
  index : Index
  headers : HeaderTree
  references : List Reference
  linkSites : LinkSites
  diagnostics : List Diagnostic
  /-- How often each macro has been numbered. -/
  counters : OrderedMap String Nat
  /-- The identifiers of the headers that have one. -/
  headerIds : OrderedMap HeaderId String
  /-- The identifiers of the headers that are scopes. -/
  scopes : OrderedMap HeaderId String
  lastHeader : Option String
  /-- Set where the run breaks off. Nobody sees what the visits behind that come to. -/
  aborted : Option Abort
deriving Repr

/-- What does not change during the assembly of a document. -/
structure Setting where
  registry : Registry
  document : String
deriving Repr

namespace State

def initial (tree : Tree) : State :=
  { tree, index := .empty
    headers := .new (if tree.isEmpty then none else some tree.root)
    references := [], linkSites := [], diagnostics := [], counters := [], headerIds := []
    scopes := [], lastHeader := none, aborted := none }

end State

variable (setting : Setting)

/-- The identifier of the whole document. A document without a name has none. -/
def toplevelId : Option String := if setting.document = "" then none else some setting.document

def site (position : Position) : Site := ⟨setting.document, position⟩

def report (s : State) (position : Position) (problem : Problem) : State :=
  { s with diagnostics := s.diagnostics ++ [⟨problem, position, setting.document⟩] }

def text (s : State) (node : NodeId) (argument : String) : String :=
  s.tree.argumentText setting.registry node argument

def refer (s : State) (references : List Reference) : State :=
  { s with references := s.references ++ references }

-- ----------------------------------------------------------------------------
-- Scopes
-- ----------------------------------------------------------------------------

def scopesOf (s : State) (headers : List HeaderId) : List String :=
  headers.filterMap (s.scopes.get? ·)

def scopesAround (s : State) : List String := scopesOf s s.headers.chain

/-- The scope of a macro that is no header. -/
def innerScope (s : State) : Option String := (scopesAround s).head?

/-- The scope of a header: the last open header does not count. -/
def outerScope (s : State) : Option String := (scopesOf s (s.headers.chain.drop 1)).head?

/-- What a link leads from: the last open header, or else the document. -/
def source (s : State) : String :=
  ((s.headerIds.get? s.headers.current).or (toplevelId setting)).getD ""

-- ----------------------------------------------------------------------------
-- Identifiers and numbers
-- ----------------------------------------------------------------------------

/-- The identifier that a macro asks for, without its scope: the one that the
author gave it, or else that of its title. -/
def localId (s : State) (node : NodeId) (call : MacroCall) (definition : MacroDef) :
    Option String :=
  if !(definition.declares "id" || definition.declares "title") then none
  else
    let id :=
      if call.supplies "id" then text setting s node "id"
      else if call.supplies "title" then
        Identifier.ofTitleWithStem (text setting s node "title") definition.idStem
      else ""
    if id = "" then none else some id

def recordFor (s : State) (node : NodeId) (definition : MacroDef) (id : String) : IdRecord :=
  { IdRecord.define id definition.name (site setting (s.tree.position node)) with
    title := Text.trim (text setting s node "title")
    caption := definition.caption
    linkStyle := definition.linkStyle
    isHeader := definition.name == MacroName.header }

/-- Names a macro, and numbers it among those of its kind. The identifier of an
earlier node is refused. -/
def assignId (s : State) (node : NodeId) (call : MacroCall) (definition : MacroDef)
    (scope : Option String) (numbered : Bool) : Option String × State :=
  match localId setting s node call definition with
  | none => (none, s)
  | some name =>
    let id := Identifier.underScope scope name
    let number := (s.counters.get? definition.name).getD 0 + 1
    let count := if numbered then some number else none
    match s.index.insert node { recordFor setting s node definition id with count } with
    | .error previous =>
      (none, report setting s (s.tree.position node) (.duplicateId id previous.location))
    | .ok index =>
      (some id,
        { s with
          index
          counters := if numbered then s.counters.insert definition.name number else s.counters
          tree := s.tree.modifyCall node fun call => { call with id := some id, count } })

-- ----------------------------------------------------------------------------
-- Headers
-- ----------------------------------------------------------------------------

/-- The level of a header. A header without a proper level is at the top. -/
def levelOf (s : State) (node : NodeId) : Level × State :=
  let written := text setting s node "level"
  match Level.parse? written with
  | some level => (level, s)
  | none => (1, report setting s (s.tree.position node) (.badLevel (Text.trim written)))

/-- A synonym names the last header again. It has no number and opens nothing. -/
def visitSynonym (s : State) (node : NodeId) (call : MacroCall) (definition : MacroDef)
    (level : Level) : Option String × State :=
  match assignId setting s node call definition (outerScope s) false with
  | (none, s) => (none, s)
  | (some id, s) =>
    let position := s.tree.position node
    let s := { s with
      index := s.index.modify id fun record =>
        { record with level := some level, synonymOf := s.lastHeader } }
    match s.lastHeader with
    | some target =>
      (some id, refer s [{ source := id, target, kind := .synonym
                           site := site setting position }])
    | none => (some id, report setting s position .orphanSynonym)

/-- The identifier of what a header stands under, empty if that has none. -/
def parentId (s : State) (parent : HeaderId) : String :=
  let id :=
    if parent = HeaderTree.root then toplevelId setting else s.headerIds.get? parent
  id.getD ""

/-- Links a header, and reports the levels that it leaves out. -/
def linkHeader (s : State) (node : NodeId) (level : Level) : HeaderTree.Entered × State :=
  match s.headers.link node level with
  | .ok (linked, headers) =>
    let s := { s with headers }
    (linked.toEntered, match linked.skipped with
      | some (previous, current) =>
        report setting s (s.tree.position node) (.skippedLevel previous current)
      | none => s)
  | .error why =>
    let (entered, headers) := s.headers.enter node level
    (entered, { s with headers, aborted := some why })

/-- A header is entered in any case. Beyond that it may be reported, or break the run off. -/
theorem linkHeader_eq (s : State) (node : NodeId) (level : Level) :
    ∃ reports aborted, linkHeader setting s node level = ((s.headers.enter node level).1,
        { s with
          headers := (s.headers.enter node level).2
          diagnostics := s.diagnostics ++ reports
          aborted }) ∧
      ∀ d ∈ reports, ∃ previous current,
        d = ⟨.skippedLevel previous current, s.tree.position node, setting.document⟩ := by
  unfold linkHeader HeaderTree.link
  cases HeaderTree.skip? s.headers.previousLevel level with
  | error why => exact ⟨[], some why, by simp [Except.map], by simp⟩
  | ok skipped =>
    cases skipped with
    | none => exact ⟨[], s.aborted, by simp [Except.map], by simp⟩
    | some levels => exact ⟨[⟨_, _, _⟩], s.aborted, rfl, by simp⟩

/-- Names a header that has been linked, and opens it under its name. -/
def nameHeader (s : State) (node : NodeId) (call : MacroCall) (definition : MacroDef)
    (entered : HeaderTree.Entered) (level : Level) : Option String × State :=
  let position := s.tree.position node
  let isScope := Text.isTruthy (text setting s node "scope")
  match assignId setting s node call definition (outerScope s) true with
  | (none, s) => (none, s)
  | (some id, s) =>
    let s := { s with
      index := s.index.modify id fun record => { record with level := some level, isScope }
      headerIds := s.headerIds.insert entered.id id
      scopes := if isScope then s.scopes.insert entered.id id else s.scopes
      lastHeader := some id }
    (some id,
      refer s [{ source := parentId setting s entered.parent, target := id
                 kind := .structuralParent, site := site setting position }])

def visitHeader (s : State) (node : NodeId) (call : MacroCall) (definition : MacroDef) :
    Option String × State :=
  let (level, s) := levelOf setting s node
  if Text.isTruthy (text setting s node "synonym") then
    visitSynonym setting s node call definition level
  else
    let (entered, s) := linkHeader setting s node level
    nameHeader setting s node call definition entered level

-- ----------------------------------------------------------------------------
-- Links and inclusions
-- ----------------------------------------------------------------------------

/-- A target that a link may mean, and whether it is in another number. -/
abbrev Candidate := String × Bool

/-- Keeps the first of several candidates for one target. -/
def distinctCandidates (candidates : List Candidate) : List Candidate :=
  candidates.foldl (fun kept candidate =>
    if kept.any (·.1 == candidate.1) then kept else kept ++ [candidate]) []

/-- In every scope, and at last in none, the target as written and then its
other numbers. -/
def candidates (scopes : List String) (base : String) (variants : List String) :
    List Candidate :=
  if base = "" then [("", false)]
  else
    distinctCandidates <| (scopes.map some ++ [none]).flatMap fun scope =>
      (Identifier.underScope scope base, false) ::
        variants.map fun variant => (Identifier.underScope scope variant, true)

/-- The references of one candidate. In the title of a header a link counts
twice, since its target has to be a header. -/
def candidateReferences (source : String) (inTitle : Bool) (site : Site)
    (candidate : Candidate) : List Reference :=
  let row (kind : ReferenceKind) : Reference :=
    { source, target := candidate.1, kind, site, inflected := candidate.2 }
  if inTitle then [row .crossReference, row .titleInTitle] else [row .crossReference]

def visitLink (s : State) (node : NodeId) (call : MacroCall) (titleOf : Option String) : State :=
  match call.argument? "href" with
  | none => s
  | some href =>
    let written := text setting s node "href"
    let isMagic := Text.isTruthy (text setting s node "magic")
    let base := if isMagic then Identifier.ofTitle written else written
    let variants := if isMagic then Inflection.variants base else []
    let origin := titleOf.getD (source setting s)
    let rows := (candidates (scopesAround s) base variants).flatMap
      (candidateReferences origin titleOf.isSome (site setting href.position))
    { refer s rows with linkSites := s.linkSites.insert href.position node }

def visitInclusion (s : State) (node : NodeId) (call : MacroCall) : State :=
  match call.argument? "href" with
  | none => s
  | some href =>
    refer s [{ source := source setting s, target := Text.trim (text setting s node "href")
               kind := .structuralParent, site := site setting href.position }]

-- ----------------------------------------------------------------------------
-- Visiting the tree
-- ----------------------------------------------------------------------------

structure Visit where
  node : NodeId
  /-- The identifier of the header in whose title the node stands, empty if
  that header has none. -/
  titleOf : Option String
deriving DecidableEq, Repr

/-- Names and notes a macro. The result is the identifier of a header. -/
def visitCall (s : State) (visit : Visit) (call : MacroCall) : Option String × State :=
  match setting.registry.get? call.name with
  | none => (none, s)
  | some definition =>
    if call.name = MacroName.header then visitHeader setting s visit.node call definition
    else
      let s :=
        if call.name = MacroName.crossReference then
          visitLink setting s visit.node call visit.titleOf
        else if call.name = MacroName.inclusion then visitInclusion setting s visit.node call
        else s
      (none, (assignId setting s visit.node call definition (innerScope s) true).2)

/-- Puts the implied containers and paragraphs into one argument. Paragraphs
are implied where there is a paragraph break, and in the text of the document. -/
def arrangeArgument (owner : String) (isRoot : Bool) (argument : Argument) (tree : Tree) :
    List NodeId × Tree :=
  let hasBreak := argument.children.any tree.isParagraphBreak
  let (children, tree) := gather setting.registry owner argument.children tree
  if hasBreak ∨ (isRoot ∧ argument.name = "content") then
    insertParagraphs setting.registry children tree
  else (children, tree)

def arrange (s : State) (node : NodeId) (call : MacroCall) (isRoot : Bool) : State :=
  call.arguments.foldl (fun s argument =>
    let (children, tree) := arrangeArgument setting call.name isRoot argument s.tree
    { s with
      tree := if children = argument.children then tree
        else tree.setChildren node argument.name children }) s

def visitsBelow (visit : Visit) (call : MacroCall) (headerId : Option String) : List Visit :=
  call.arguments.flatMap fun argument =>
    let titleOf :=
      if call.name = MacroName.header ∧ argument.name = "title" then some (headerId.getD "")
      else visit.titleOf
    argument.children.map (⟨·, titleOf⟩)

/-- One visit, and the visits that follow from it. -/
def visitNode (visit : Visit) (s : State) : List Visit × State :=
  match s.tree.call? visit.node with
  | none => ([], s)
  | some call =>
    let isRoot := visit.node = s.tree.root
    let (headerId, s) := if isRoot then (none, s) else visitCall setting s visit call
    let s := match s.tree.call? visit.node with
      | some call => arrange setting s visit.node call isRoot
      | none => s
    match s.tree.call? visit.node with
    | some call => (visitsBelow visit call headerId, s)
    | none => ([], s)

def visitAll : Nat → Visit → State → State
  | 0, _, s => s
  | depth + 1, visit, s =>
    let (below, s) := visitNode setting visit s
    below.foldl (fun s next => visitAll depth next s) s

/-- A paragraph and two containers at most come between a macro and what the
author put into it. -/
def depthBound (tree : Tree) : Nat := 4 * (tree.size + 1)

-- ----------------------------------------------------------------------------
-- The document as a whole
-- ----------------------------------------------------------------------------

/-- The title of the document, or else that of its first header. -/
def documentTitle (registry : Registry) (tree : Tree) (headers : HeaderTree) : String :=
  let own := tree.argumentText registry tree.root "title"
  if Text.isBlank own then
    match headers.headers.filterMap (·.2.node) with
    | first :: _ => tree.argumentText registry first "title"
    | [] => ""
  else own

def registerDocument (s : State) : State :=
  match toplevelId setting with
  | none => s
  | some id =>
    let record := IdRecord.define id MacroName.toplevel (site setting (s.tree.position s.tree.root))
    match s.index.insert s.tree.root record with
    | .ok index =>
      { s with
        index
        tree := s.tree.modifyCall s.tree.root fun call => { call with id := some id } }
    | .error _ => s

/-- The title is known when all headers are. -/
def nameDocument (s : State) : State :=
  match toplevelId setting with
  | none => s
  | some id =>
    let title := Text.trim (documentTitle setting.registry s.tree s.headers)
    { s with index := s.index.modify id fun record => { record with title } }

end Assembly

structure Assembled where
  tree : Tree
  index : Index
  headers : HeaderTree
  contribution : Contribution
  linkSites : LinkSites
  diagnostics : List Diagnostic
  aborted : Option Abort
deriving Repr

def assemble (registry : Registry) (document : String) (tree : Tree) : Assembled :=
  if tree.isEmpty then
    { tree, index := .empty, headers := .new none, contribution := { document }
      linkSites := [], diagnostics := [], aborted := none }
  else
    let setting : Assembly.Setting := ⟨registry, document⟩
    let s := Assembly.registerDocument setting (.initial tree)
    let s := Assembly.visitAll setting (Assembly.depthBound tree) ⟨tree.root, none⟩ s
    let s := Assembly.nameDocument setting s
    { tree := s.tree, index := s.index, headers := s.headers
      contribution := { document, ids := s.index.records, references := s.references }
      linkSites := s.linkSites, diagnostics := s.diagnostics, aborted := s.aborted }

end Macromark

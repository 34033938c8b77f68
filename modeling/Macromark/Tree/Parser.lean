import Macromark.Diagnostic
import Macromark.Record
import Macromark.Registry
import Macromark.Tree

/-!
# From tokens to a tree

One token is read at a time. The arguments that are open form a stack, the
innermost first, and each knows the macro that it belongs to. A macro is
complete when a token follows that opens no further argument of it; then its
missing arguments are filled in and its node is made, after those of its
children.

The last token closes the document. An argument that is still open when it
comes is unclosed, and leaves it to the argument around it.
-/

namespace Macromark

/-- A macro whose argument list may go on. -/
structure OpenCall where
  name : String
  position : Position
  definition : Option MacroDef
  /-- Whether the document begins with it. -/
  isRoot : Bool
  arguments : List Argument
  /-- The number of positional arguments so far, also of those in surplus. -/
  positionals : Nat
deriving Repr

structure OpenArgument where
  /-- An argument list with no macro before it has no owner; what stands in it
  goes to the argument around it. -/
  owner : Option OpenCall
  /-- The name under which the owner takes it, if it does. -/
  name : Option String
  bracket : Bracket
  position : Position
  /-- The text of the document itself, which only the last token closes. -/
  outermost : Bool
  children : List NodeId
deriving Repr

namespace Parser

/-- What the next token may belong to. -/
inductive Expecting where
  /-- The innermost open argument. -/
  | content
  /-- The argument list of a macro. -/
  | arguments (call : OpenCall)
  /-- The name of an argument that a brace has opened. -/
  | argumentName (owner : Option OpenCall) (opener : Position)
deriving Repr

structure State where
  tree : Tree
  diagnostics : List Diagnostic
  /-- One line for each macro, indented by the macros around it. -/
  trace : List String
  stack : List OpenArgument
  expecting : Expecting
deriving Repr

namespace State

def initial : State := ⟨.empty, [], [], [], .content⟩

def report (s : State) (position : Position) (problem : Problem) : State :=
  { s with diagnostics := s.diagnostics ++ [⟨problem, position, ""⟩] }

def content (s : State) : State := { s with expecting := .content }

/-- Hands nodes to the innermost open argument. Without one, the node is the
root of the tree. -/
def deliver (s : State) (nodes : List NodeId) : State :=
  match s.stack with
  | innermost :: below =>
    { s with stack := { innermost with children := innermost.children ++ nodes } :: below }
  | [] => { s with tree := { s.tree with root? := nodes.head? } }

def leaf (s : State) (kind : NodeKind) (position : Position) : State :=
  let (id, tree) := s.tree.push kind position
  { s with tree }.deliver [id]

-- ----------------------------------------------------------------------------
-- Beginning and completing a macro
-- ----------------------------------------------------------------------------

def depth (s : State) : Nat := s.stack.countP (·.owner.isSome)

def traceLine (depth : Nat) (name : String) (position : Position) : String :=
  String.join (List.replicate depth "  ") ++ s!"parse_macro {name} {position.write}"

def beginCall (registry : Registry) (s : State) (name : String) (position : Position)
    (isRoot : Bool) : State :=
  { s with
    trace := s.trace ++ [traceLine s.depth name position]
    expecting := .arguments ⟨name, position, registry.get? name, isRoot, [], 0⟩ }

end State

/-- Takes the first argument of that name out of a list. The last argument
moves into its place. -/
def takeArgument (name : String) (arguments : List Argument) :
    Option (Argument × List Argument) :=
  match arguments.findIdx? (·.name == name), arguments.getLast? with
  | some i, some last => (arguments[i]?).map fun a => (a, (arguments.set i last).dropLast)
  | _, _ => none

/-- The declared arguments in the order of their declaration. One that the
author left out holds an empty text. -/
def fillArguments (position : Position) :
    List String → List Argument → Tree → List Argument × Tree
  | [], _, tree => ([], tree)
  | name :: names, written, tree =>
    match takeArgument name written with
    | some (argument, others) =>
      let (arguments, tree) := fillArguments position names others tree
      (argument :: arguments, tree)
    | none =>
      let (id, tree) := tree.push (.plaintext "") position
      let (arguments, tree) := fillArguments position names written tree
      (⟨name, [id], position, false⟩ :: arguments, tree)

namespace State

def completeCall (s : State) (call : OpenCall) : State :=
  match call.definition with
  | none =>
    let problem := Problem.unknownMacro call.name
    ((s.report call.position problem).leaf (.error problem.message) call.position).content
  | some definition =>
    let (arguments, tree) :=
      fillArguments call.position definition.argumentNames call.arguments s.tree
    let (id, tree) := tree.pushCall { name := call.name, arguments } call.position
    ({ s with tree }.deliver [id]).content

-- ----------------------------------------------------------------------------
-- Opening and closing an argument
-- ----------------------------------------------------------------------------

/-- Whether the argument that `call` opens next is the text of the document. -/
def opensDocument (call : OpenCall) : Bool :=
  call.isRoot && call.positionals == 0 && call.definition.isSome

def enter (s : State) (argument : OpenArgument) : State :=
  { s with stack := argument :: s.stack, expecting := .content }

def openPositional (s : State) (call : OpenCall) (position : Position) : State :=
  let open_ (name : Option String) : OpenArgument :=
    { owner := some { call with positionals := call.positionals + 1 }
      name, bracket := .positional, position
      outermost := opensDocument call, children := [] }
  match call.definition with
  | none => s.enter (open_ none)
  | some definition =>
    match definition.positional[call.positionals]? with
    | some name => s.enter (open_ (some name))
    | none =>
      (s.report position (.surplusArgument definition.name definition.positional.length)).enter
        (open_ none)

def openNamed (s : State) (owner : Option OpenCall) (position : Position) (name : String) :
    State :=
  let open_ (outermost : Bool) (slot : Option String) : OpenArgument :=
    { owner, name := slot, bracket := .named, position, outermost, children := [] }
  match owner with
  | none => s.enter (open_ false none)
  | some call =>
    let outermost := opensDocument call
    match call.definition with
    | none => s.enter (open_ outermost none)
    | some definition =>
      if !definition.named.contains name then
        (s.report position (.unknownArgument name definition.name)).enter (open_ outermost none)
      else if call.arguments.any (·.name == name) then
        (s.report position (.repeatedArgument name definition.name)).enter (open_ outermost none)
      else s.enter (open_ outermost (some name))

/-- Hands a finished argument to its macro, or its children to the argument
around it. -/
def close (s : State) (argument : OpenArgument) (below : List OpenArgument) : State :=
  let s := { s with stack := below }
  match argument.owner with
  | none => (s.deliver argument.children).content
  | some call =>
    let arguments := match argument.name with
      | some name => call.arguments ++ [⟨name, argument.children, argument.position, true⟩]
      | none => call.arguments
    { s with expecting := .arguments { call with arguments } }

/-- Completes the macro whose argument list is not going on. -/
def settle (s : State) : State :=
  match s.expecting with
  | .arguments call => s.completeCall call
  | .argumentName owner opener => s.openNamed owner opener ""
  | .content => s

@[simp] theorem length_stack_deliver (s : State) (nodes : List NodeId) :
    (s.deliver nodes).stack.length = s.stack.length := by
  unfold deliver
  split
  · next h => simp [h]
  · next h => simp [h]

@[simp] theorem length_stack_completeCall (s : State) (call : OpenCall) :
    (s.completeCall call).stack.length = s.stack.length := by
  unfold completeCall
  split <;> simp [content, leaf, report]

theorem length_stack_settle_close (s : State) (argument : OpenArgument)
    (below : List OpenArgument) :
    ((s.close argument below).settle).stack.length = below.length := by
  unfold close
  cases argument.owner <;> simp [settle, content]

/-- The last closer of the document. It is that of the outermost argument, and
every other open argument is unclosed. -/
def closeDocument (s : State) (closer : TokenKind) (position : Position) : State :=
  match _h : s.stack with
  | [] => s.report position (.trailingToken closer)
  | argument :: below =>
    if argument.outermost then s.close argument below
    else
      closeDocument
        (((s.report argument.position (.unclosedArgument argument.bracket)).close
          argument below).settle) closer position
termination_by s.stack.length
decreasing_by
  rw [length_stack_settle_close, ‹s.stack = argument :: below›]
  exact Nat.lt_succ_self _

def finish (s : State) : State :=
  match _h : s.stack with
  | [] => s
  | argument :: below =>
    finish (((s.report argument.position .unterminatedArgument).close argument below).settle)
termination_by s.stack.length
decreasing_by
  rw [length_stack_settle_close, ‹s.stack = argument :: below›]
  exact Nat.lt_succ_self _

-- ----------------------------------------------------------------------------
-- Reading tokens
-- ----------------------------------------------------------------------------

/-- A token in an argument, or behind the document. -/
def readContent (registry : Registry) (s : State) (token : Token) (isLast : Bool) : State :=
  match s.stack with
  | [] => s.report token.position (.trailingToken token.kind)
  | argument :: below =>
    match token.kind with
    | .plaintext text => s.leaf (.plaintext text) token.position
    | .paragraphBreak => s.leaf .paragraphBreak token.position
    | .macroName name => s.beginCall registry name token.position false
    | .argumentName _ => s.report token.position (.unexpectedToken token.kind)
    | .opener .positional =>
      (s.report token.position .orphanArgument).enter
        ⟨none, none, .positional, token.position, false, []⟩
    | .opener .named =>
      { s.report token.position .orphanArgument with
        expecting := .argumentName none token.position }
    | .closer found =>
      if isLast then s.closeDocument token.kind token.position
      else if argument.outermost then s.report token.position (.strayCloser found)
      else if found = argument.bracket then s.close argument below
      else
        (s.report token.position (.mismatchedCloser argument.bracket found)).close argument below

def read (registry : Registry) (s : State) (token : Token) (isLast : Bool) : State :=
  match s.expecting, token.kind with
  | .arguments call, .opener .positional => s.openPositional call token.position
  | .arguments call, .opener .named =>
    { s with expecting := .argumentName (some call) token.position }
  | .argumentName owner opener, .argumentName name => s.openNamed owner opener name
  | _, _ => s.settle.readContent registry token isLast

def readAll (registry : Registry) (s : State) : List Token → State
  | [] => s.settle.finish
  | token :: rest => (s.read registry token rest.isEmpty).readAll registry rest

end State
end Parser

structure Parsed where
  tree : Tree
  diagnostics : List Diagnostic
  trace : List String
deriving Repr

/-- A row of tokens that does not begin with a macro is no document. -/
def parse (registry : Registry) (tokens : List Token) : Parsed :=
  match tokens with
  | ⟨.macroName name, position⟩ :: rest =>
    let s := (Parser.State.initial.beginCall registry name position true).readAll registry rest
    ⟨s.tree, s.diagnostics, s.trace⟩
  | _ =>
    let (root, tree) :=
      Tree.empty.push (.error "document does not start with a macro") .origin
    ⟨{ tree with root? := some root }, [], []⟩

end Macromark

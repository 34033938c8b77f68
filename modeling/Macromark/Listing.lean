import Macromark.Compile
import Macromark.Data
import Macromark.Data.Yaml

/-!
# Listings

The tokens and the tree of a document as data, for tools that read them. A
listing is either the text meant for people or that data in a notation.
-/

namespace Macromark

-- ----------------------------------------------------------------------------
-- Tokens
-- ----------------------------------------------------------------------------

def Position.toData (p : Position) : Data :=
  .record [("line", .nat p.line), ("column", .nat p.column)]

def TokenKind.tag : TokenKind → String
  | plaintext _ => "plaintext"
  | macroName _ => "macro_name"
  | paragraphBreak => "paragraph_break"
  | opener .positional => "positional_argument_start"
  | opener .named => "named_argument_start"
  | closer .positional => "positional_argument_end"
  | closer .named => "named_argument_end"
  | argumentName _ => "named_argument_name"

def Token.toData (t : Token) : Data :=
  let value := t.kind.value?.map fun v => ("value", Data.text v)
  .record ([("kind", .text t.kind.tag), ("position", t.position.toData)] ++ value.toList)

-- ----------------------------------------------------------------------------
-- Trees
-- ----------------------------------------------------------------------------

def Argument.toData (a : Argument) : Data :=
  .record [("name", .text a.name), ("children", .ofList .nat a.children),
    ("position", a.position.toData), ("supplied", .bool a.supplied)]

def MacroCall.toData (c : MacroCall) : Data :=
  .record [("type", .text "macro"), ("name", .text c.name),
    ("args", .ofList Argument.toData c.arguments), ("id", .ofOption .text c.id),
    ("count", .ofOption .nat c.count), ("synthetic", .bool c.synthetic)]

def NodeKind.toData : NodeKind → Data
  | .call c => c.toData
  | .plaintext text => .record [("type", .text "plaintext"), ("text", .text text)]
  | .paragraphBreak => .record [("type", .text "paragraph_break")]
  | .error message => .record [("type", .text "error"), ("message", .text message)]

def Node.toData (n : Node) : Data :=
  .record [("kind", n.kind.toData), ("position", n.position.toData)]

/-- All nodes in the order of their numbers, also those that stand nowhere. -/
def Tree.toData (t : Tree) : Data :=
  .record [("nodes", .ofList Node.toData t.nodes.toList), ("root", .ofOption .nat t.root?)]

-- ----------------------------------------------------------------------------
-- Formats
-- ----------------------------------------------------------------------------

inductive ListingFormat where
  | text
  | json
  | yaml
deriving DecidableEq, Repr

namespace ListingFormat

def all : List ListingFormat := [text, json, yaml]

def name : ListingFormat → String
  | text => "text"
  | json => "json"
  | yaml => "yaml"

def ofName? (name : String) : Option ListingFormat := all.find? (·.name == name)

def write (format : ListingFormat) (text : String) (data : Data) : String :=
  match format with
  | .text => text
  | .json => data.json
  | .yaml => data.yaml

end ListingFormat

/-- The listings that were asked for, one after the other. The trace of the
parser is always text. -/
def Compiled.writeListings (c : Compiled) (format : ListingFormat) : String :=
  let tokens := c.listings.tokens.map fun text =>
    format.write text (.ofList Token.toData c.tokens)
  let tree := c.listings.tree.map fun text => format.write text c.tree.toData
  String.join ([tokens, tree, c.listings.parse].map (·.getD ""))

end Macromark

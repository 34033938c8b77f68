import Macromark.Registry

/-!
# The built-in macros
-/

namespace Macromark.Registry

def builtinMacros : List MacroDef := [
  { name := MacroName.toplevel, rendering := .toplevel
    positional := ["content"], named := ["title"] },
  { name := MacroName.header, rendering := .header
    positional := ["level", "title"], named := ["id", "scope", "synonym"]
    caption := "Section" },
  { name := MacroName.paragraph, rendering := .block "p"
    positional := ["content"], named := ["id"] },
  { name := "b", rendering := .inline "b", positional := ["content"], phrasing := true },
  { name := "i", rendering := .inline "i", positional := ["content"], phrasing := true },
  { name := "c", rendering := .inline "code", positional := ["content"], phrasing := true },
  { name := "br", rendering := .lineBreak, phrasing := true },
  { name := "a", rendering := .link, positional := ["href", "content"], phrasing := true },
  { name := MacroName.crossReference, rendering := .crossReference
    positional := ["href", "content"], named := ["magic", "style"], phrasing := true },
  { name := "C", rendering := .code
    positional := ["content"], named := ["id", "title"]
    idStem := "code", caption := "Code", linkStyle := .full },
  { name := "Q", rendering := .block "blockquote", positional := ["content"], named := ["id"] },
  { name := "Ul", rendering := .block "ul", positional := ["content"], named := ["id"] },
  { name := "Ol", rendering := .block "ol", positional := ["content"], named := ["id"] },
  { name := "L", rendering := .block "li", positional := ["content"], named := ["id"]
    gathering := some ⟨"Ul", ["Ol", "Ul"]⟩ },
  { name := "Table", rendering := .table
    positional := ["content"], named := ["id", "title"]
    idStem := "table", caption := "Table", linkStyle := .full },
  { name := "Tr", rendering := .block "tr", positional := ["content"]
    gathering := some ⟨"Table", ["Table"]⟩ },
  { name := "Th", rendering := .block "th", positional := ["content"]
    gathering := some ⟨"Tr", ["Tr"]⟩ },
  { name := "Td", rendering := .block "td", positional := ["content"]
    gathering := some ⟨"Tr", ["Tr"]⟩ },
  { name := "Image", rendering := .image
    positional := ["src"], named := ["id", "title"]
    idStem := "image", caption := "Figure", linkStyle := .full },
  { name := "Toc", rendering := .contents },
  { name := MacroName.inclusion, rendering := .inclusion, positional := ["href"] }]

def builtin : Registry := ⟨builtinMacros⟩

theorem coherent_builtin : builtin.Coherent := by
  show ∀ d ∈ builtinMacros, d.Coherent
  decide

theorem check_builtin : builtin.check = .ok () := by rfl

end Macromark.Registry

import Macromark.Diagnostic
import Macromark.Lexeme
import Macromark.Record
import Macromark.Token.Literal

/-!
# From text to tokens

The whole document is the first argument of an implicit `toplevel` macro.
Escapes, text and single line ends that follow each other are one plaintext
token. An opening brace is followed by the name of the argument and an equals
sign; a run of openers is followed by literal text.
-/

namespace Macromark

structure Lexed where
  tokens : List Token
  diagnostics : List Diagnostic
deriving Repr

namespace Lexed

def append (first second : Lexed) : Lexed :=
  ⟨first.tokens ++ second.tokens, first.diagnostics ++ second.diagnostics⟩

instance : Append Lexed := ⟨append⟩

@[simp] theorem tokens_append (a b : Lexed) : (a ++ b).tokens = a.tokens ++ b.tokens := rfl

@[simp] theorem diagnostics_append (a b : Lexed) :
    (a ++ b).diagnostics = a.diagnostics ++ b.diagnostics := rfl

end Lexed

/-- Plain text that may still grow. -/
structure PendingText where
  start : Position
  text : List Char
deriving Repr

namespace PendingText

def push (pending : Option PendingText) (here : Position) (more : List Char) : PendingText :=
  match pending with
  | some p => { p with text := p.text ++ more }
  | none => ⟨here, more⟩

def flush : Option PendingText → List Token
  | some p => [⟨.plaintext (.ofList p.text), p.start⟩]
  | none => []

end PendingText

/-- What has been read off a text, and where reading goes on. -/
structure Reading where
  lexed : Lexed
  here : Position
  rest : List Char

namespace Reading

def andThen (r : Reading) (next : Position → List Char → Reading) : Reading :=
  let s := next r.here r.rest
  ⟨r.lexed ++ s.lexed, s.here, s.rest⟩

def argumentName (here : Position) (text : List Char) : Reading :=
  let name := text.takeWhile isNameChar
  let behind := here.after name
  let token : Token := ⟨.argumentName (.ofList name), here⟩
  match text.dropWhile isNameChar with
  | '=' :: rest => ⟨⟨[token], []⟩, behind.next '=', rest⟩
  | rest => ⟨⟨[token], [⟨.missingEquals (.ofList name), behind, ""⟩]⟩, behind, rest⟩

def literal (b : Bracket) (run : Nat) (start here : Position) (text : List Char) : Reading :=
  let found := Literal.scan b run text
  let behind := here.after found.raw
  let tokens : List Token :=
    (if found.text = [] then [] else [⟨.plaintext (.ofList found.text), here⟩]) ++
      [⟨.closer b, behind⟩]
  match found.rest? with
  | some _ => ⟨⟨tokens, []⟩, behind.after (Literal.closeRun b run), found.rest⟩
  | none => ⟨⟨tokens, [⟨.unterminatedLiteral b run, start, ""⟩]⟩, behind, found.rest⟩

/-- Everything that belongs to a run of openers at `start`. -/
def argument (b : Bracket) (run : Nat) (start here : Position) (text : List Char) : Reading :=
  let opened : Reading := ⟨⟨[⟨.opener b, start⟩], []⟩, here, text⟩
  let named := if b = .named then opened.andThen argumentName else opened
  if 1 < run then named.andThen (literal b run start) else named

theorem length_dropWhile_le {α : Type} (p : α → Bool) (l : List α) :
    (l.dropWhile p).length ≤ l.length :=
  (List.dropWhile_sublist p).length_le

theorem length_rest_argumentName_le (here : Position) (text : List Char) :
    (argumentName here text).rest.length ≤ text.length := by
  have h := length_dropWhile_le isNameChar text
  unfold argumentName
  split
  · next heq => rw [heq] at h; simp only [List.length_cons] at h ⊢; omega
  · exact h

theorem length_rest_literal_le (b : Bracket) (run : Nat) (start here : Position)
    (text : List Char) : (literal b run start here text).rest.length ≤ text.length := by
  have h := Literal.length_rest_scan_le b run text
  simp only [literal]
  split <;> exact h

theorem length_rest_argument_le (b : Bracket) (run : Nat) (start here : Position)
    (text : List Char) : (argument b run start here text).rest.length ≤ text.length := by
  have hname := length_rest_argumentName_le here text
  simp only [argument]
  split <;> split <;> simp only [andThen]
  · exact Nat.le_trans (length_rest_literal_le ..) hname
  · exact length_rest_literal_le ..
  · exact hname
  · exact Nat.le_refl _

end Reading

namespace Lexed

/-- Reads `text`, which begins at `here` and has the plain text `pending`
before it. The end of the text closes the document. -/
def ofText (pending : Option PendingText) (here : Position) : List Char → Lexed
  | [] => ⟨PendingText.flush pending ++ [⟨.closer .positional, here⟩], []⟩
  | c :: text =>
    let lexeme := (Lexeme.split c text).1
    let behind := here.after lexeme.text
    match lexeme.kind with
    | .escaped =>
      ofText (some (.push pending here (lexeme.text.drop 1))) behind (Lexeme.split c text).2
    | .text | .newline =>
      ofText (some (.push pending here lexeme.text)) behind (Lexeme.split c text).2
    | .macroName =>
      let name := String.ofList (lexeme.text.drop 1)
      ⟨PendingText.flush pending ++ [⟨.macroName name, here⟩], []⟩ ++
        ofText none behind (Lexeme.split c text).2
    | .paragraphBreak =>
      let count := lexeme.text.length
      let surplus := if 2 < count then [⟨.surplusNewlines count, here, ""⟩] else []
      ⟨PendingText.flush pending ++ [⟨.paragraphBreak, here⟩], surplus⟩ ++
        ofText none behind (Lexeme.split c text).2
    | .closer b =>
      ⟨PendingText.flush pending ++ [⟨.closer b, here⟩], []⟩ ++
        ofText none behind (Lexeme.split c text).2
    | .opener b =>
      let read := Reading.argument b lexeme.text.length here behind (Lexeme.split c text).2
      ⟨PendingText.flush pending ++ read.lexed.tokens, read.lexed.diagnostics⟩ ++
        ofText none read.here read.rest
termination_by text => text.length
decreasing_by
  all_goals first
    | exact Lexeme.length_split_lt c text
    | exact Nat.lt_of_le_of_lt (Reading.length_rest_argument_le ..)
        (Lexeme.length_split_lt c text)

end Lexed

/-- A single line end at the end of a document is not part of it. -/
def documentText (source : String) : List Char := Literal.dropLastNewline source.toList

def tokenize (source : String) : Lexed :=
  ⟨[⟨.macroName MacroName.toplevel, .origin⟩, ⟨.opener .positional, .origin⟩], []⟩ ++
    Lexed.ofText none .origin (documentText source)

end Macromark

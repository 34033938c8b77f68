import Macromark.Proofs.Assembly.Excerpt
import Macromark.Proofs.Mirror
import Macromark.Proofs.Token.Cuts
import Macromark.Proofs.Tree.Footprint
import Macromark.Proofs.Tree.Wrapping

/-!
# Writing the container around a row

Where all of a row of macros is one piece of the source, and the author writes
its container around that piece, the document is compiled to the same output and
its tree is drawn the same (`compile_enclosed`), unless the new container would
be put into another one with what stands beside it.
-/

namespace Macromark

open Passage (Copy HoldsRow Distinct Enclosed)

-- ----------------------------------------------------------------------------
-- No macro twice
-- ----------------------------------------------------------------------------

namespace Tree

variable {registry : Registry} {t : Tree} {a b id : NodeId} {owner : String}

theorem Acyclic.position_mem_of_container? (h : t.Acyclic)
    (htop : ∀ d, registry.get? MacroName.toplevel = some d → d.gathering = none) (ha : a < t.size)
    (hasks : (t.placed a).container? registry owner ≠ none) : t.position a ∈ t.footprint a := by
  obtain ⟨node, hnode⟩ := lt_size_iff.mp ha
  rw [placed, marked, h.passage_of_get? hnode] at hasks
  cases hkind : node.kind with
  | call call =>
    rw [hkind] at hasks
    have hcall : t.call? a = some call := by simp [call?, hnode, Node.call?, hkind]
    rw [footprint_of_call? hcall]
    refine Macromark.position_mem_footprint (fun hname => hasks ?_) _ _
    rw [NodeKind.passage, Passage.container?, hname]
    cases hget : registry.get? MacroName.toplevel with
    | none => rfl
    | some d => simp [htop d hget]
  | _ =>
    rw [hkind] at hasks
    exact absurd rfl hasks

/-- Macros at different positions are read as different passages. -/
theorem Acyclic.distinct_placed (h : t.Acyclic) (hlinked : t.Linked)
    (hunique : ∀ a b p, p ∈ t.footprint a → p ∈ t.footprint b → a = b)
    (htop : ∀ d, registry.get? MacroName.toplevel = some d → d.gathering = none)
    (hid : id < t.size) {slot : Slot (Passage Position)} (hslot : slot ∈ (t.placed id).slots) :
    slot.content.Pairwise fun p q => p = q → ∀ owner, p.container? registry owner = none := by
  obtain ⟨node, hnode⟩ := lt_size_iff.mp hid
  have hbelow := hlinked.distinct id
  rw [placed, marked, h.passage_of_get? hnode] at hslot
  cases hkind : node.kind with
  | call call =>
    rw [hkind] at hslot
    obtain ⟨argument, hargument, rfl⟩ := List.mem_map.mp hslot
    rw [below_of_get? hnode, below_node, hkind] at hbelow
    have hchildren : argument.children.Nodup := (List.nodup_flatMap.mp hbelow).1 argument hargument
    have hinside : ∀ child ∈ argument.children, child < t.size := by
      intro child hchild
      have hmem : child ∈ t.below id := by
        rw [below_of_get? hnode, below_node, hkind]
        exact List.mem_flatMap.mpr ⟨argument, hargument, hchild⟩
      exact h.inside hmem
    refine List.pairwise_map.mpr (hchildren.imp_of_mem fun {a b} ha hb hne heq owner => ?_)
    by_contra hasks
    have hmark := congrArg Passage.mark heq
    rw [h.mark_passage (hinside a ha), h.mark_passage (hinside b hb)] at hmark
    refine hne (hunique a b (t.position a) ?_ ?_)
    · exact h.position_mem_of_container? htop (hinside a ha) hasks
    · rw [heq] at hasks
      rw [show t.position a = t.position b from hmark]
      exact h.position_mem_of_container? htop (hinside b hb) hasks
  | _ =>
    rw [hkind] at hslot
    exact absurd hslot List.not_mem_nil

end Tree
/-- What stands in the text of a document, every passage marked with its position. -/
def placedContent (registry : Registry) (source : String) : List (Passage Position) :=
  let t := (parse registry (tokenize source).tokens).tree
  (t.placed t.root).content

variable {registry : Registry} {container : String}

theorem distinct_placedContent (source : String)
    (htop : ∀ d, registry.get? MacroName.toplevel = some d → d.gathering = none) :
    Distinct registry (placedContent registry source) := by
  let t := (parse registry (tokenize source).tokens).tree
  obtain ⟨hgrown, hrooted, -⟩ := parse_tree registry (tokenize source).tokens
  have hacyclic : t.Acyclic := hgrown.acyclic
  have hunique : ∀ a b p, p ∈ t.footprint a → p ∈ t.footprint b → a = b :=
    fun _ _ _ => footprint_unique registry source
  have hdistinct := fun id (hid : id < t.size) slot (hslot : slot ∈ (t.placed id).slots) =>
    hacyclic.distinct_placed hgrown.toLinked hunique htop hid hslot
  have hcontent : placedContent registry source =
      (((t.placed t.root).slots.find? (·.name == "content")).map (·.content)).getD [] := rfl
  cases hslot : (t.placed t.root).slots.find? (·.name == "content") with
  | none =>
    rw [hcontent, hslot]
    exact ⟨.nil, by simp⟩
  | some slot =>
    have hmem := List.mem_of_find?_eq_some hslot
    rw [hcontent, hslot]
    refine ⟨hdistinct t.root hrooted.root_lt slot hmem, fun p hp => ?_⟩
    have hall : p ∈ (t.placed t.root).all := by
      rw [Passage.all_eq]
      exact List.mem_cons_of_mem _ (List.mem_flatMap.mpr ⟨slot, hmem, hp⟩)
    rw [Tree.placed, Tree.marked, hacyclic.all_passage hrooted.root_lt] at hall
    obtain ⟨id, hid, rfl⟩ := List.mem_map.mp hall
    exact hdistinct id (hacyclic.lt_of_reaches hrooted.root_lt
      (hacyclic.reaches_of_mem_preorder hrooted.root_lt hid))

-- ----------------------------------------------------------------------------
-- The two documents
-- ----------------------------------------------------------------------------

/-- A piece of a text that is read apart from what stands around it: whole macros with all of their
arguments. -/
structure Excerpt (front run back : String) : Prop where
  begins : BeginsMacro run.toList
  front_ends : (Lexed.ofText none .origin front.toList).Ends run.toList
  ends : (Lexed.ofText none .origin run.toList).Ends back.toList
  closed : (Lexed.ofText none .origin run.toList).Ends [']']
  balanced : Balanced ((textTokens .origin run.toList).map (·.kind))
  behind : ∀ kind ∈ (contentKinds back).head?, kind ≠ .opener .positional ∧ kind ≠ .opener .named

instance (front run back : String) : Decidable (Excerpt front run back) :=
  decidable_of_iff (BeginsMacro run.toList ∧
      (Lexed.ofText none .origin front.toList).Ends run.toList ∧
      (Lexed.ofText none .origin run.toList).Ends back.toList ∧
      (Lexed.ofText none .origin run.toList).Ends [']'] ∧
      Balanced ((textTokens .origin run.toList).map (·.kind)) ∧
      ∀ kind ∈ (contentKinds back).head?, kind ≠ .opener .positional ∧ kind ≠ .opener .named)
    ⟨fun ⟨h₁, h₂, h₃, h₄, h₅, h₆⟩ => ⟨h₁, h₂, h₃, h₄, h₅, h₆⟩,
      fun h => ⟨h.begins, h.front_ends, h.ends, h.closed, h.balanced, h.behind⟩⟩

theorem exists_tokenize_eq (source : String) : ∃ last, (tokenize source).tokens =
    ⟨.macroName MacroName.toplevel, .origin⟩ :: ⟨.opener .positional, .origin⟩ ::
      (textTokens .origin (documentText source) ++ [⟨.closer .positional, last⟩]) := by
  obtain ⟨last, hlast⟩ := exists_ofText_eq .origin (documentText source)
  exact ⟨last, by rw [tokenize, Lexed.tokens_append, hlast]; rfl⟩

theorem head?_documentText_mem (back : String) :
    ∀ c ∈ (documentText back).head?, c ∈ back.toList.head? := by
  intro c hc
  have hfront : documentText back <+: back.toList := by
    unfold documentText Literal.dropLastNewline
    split
    · exact List.dropLast_prefix _
    · exact List.prefix_refl _
  obtain ⟨behind, heq⟩ := hfront
  rw [← heq, List.head?_append, Option.mem_def.mp hc]
  rfl

/-- The author writes a macro around a text. -/
def enclose (name text : String) : String := "\\" ++ name ++ "[" ++ text ++ "]"

theorem documentText_enclose (front name text back : String) :
    documentText (front ++ enclose name text ++ back) =
      front.toList ++ (escapeChar :: (name.toList ++ '[' :: (text.toList ++
        ']' :: documentText back))) := by
  have hline : back.toList = [] → (front ++ enclose name text).toList.getLast? ≠ some '\n' :=
    fun _ => by
      rw [enclose, String.toList_append, String.toList_append, ← List.append_assoc,
        List.getLast?_append_of_ne_nil _ (by simp)]
      simp
  rw [documentText, String.toList_append, Literal.dropLastNewline_append hline]
  simp [enclose, documentText, escapeChar]

namespace Excerpt

variable {front run back : String} (h : Excerpt front run back)
include h

theorem documentText_source : documentText (front ++ run ++ back) =
    front.toList ++ (run.toList ++ documentText back) := by
  obtain ⟨c, rest, hrun, -⟩ := h.begins.split
  have hline : back.toList = [] → (front.toList ++ run.toList).getLast? ≠ some '\n' := fun _ => by
    rw [List.getLast?_append_of_ne_nil _ (by simp [hrun])]
    exact h.closed.getLast?_ne
  rw [documentText, String.toList_append, String.toList_append,
    Literal.dropLastNewline_append hline, List.append_assoc]
  rfl

/-- The tokens of the document. -/
theorem tokens_source : textTokens .origin (documentText (front ++ run ++ back)) =
    textTokens .origin front.toList ++ textTokens (.behind front.toList) run.toList ++
      textTokens (.behind (front.toList ++ run.toList)) (documentText back) := by
  obtain ⟨c, rest, hrun, hc⟩ := h.begins.split
  have hbegins : BeginsMacro (run.toList ++ documentText back) := by
    have hbegins := h.begins
    rw [hrun] at hbegins ⊢
    exact hbegins
  have hfront := h.front_ends.of_beginsMacro h.begins hbegins
  have hends := h.closed.of_closed h.ends (head?_documentText_mem back)
  rw [h.documentText_source, textTokens_append _ _ hfront, textTokens_append _ _ hends,
    Position.after_origin, Position.after_behind, List.append_assoc]

theorem tokens_enclosed {container : String} (hne : container ≠ "")
    (hname : ∀ c ∈ container.toList, isNameChar c = true) :
    ∃ here opener inside closer behind,
      textTokens .origin (documentText (front ++ enclose container run ++ back)) =
        textTokens .origin front.toList ++
          ([⟨.macroName container, here⟩, ⟨.opener .positional, opener⟩] ++
            textTokens inside run.toList ++ [⟨.closer .positional, closer⟩]) ++
          textTokens behind (documentText back) := by
  have hletters : container.toList ≠ [] := by simpa using hne
  have hbegins : BeginsMacro (escapeChar :: (container.toList ++ '[' :: (run.toList ++
      ']' :: documentText back))) := by
    obtain ⟨c, rest, heq⟩ := List.exists_cons_of_ne_nil hletters
    rw [heq] at hname ⊢
    exact ⟨rfl, hname c List.mem_cons_self⟩
  have hbracket : (run.toList ++ ']' :: documentText back).head? ≠ some '[' := by
    obtain ⟨c, rest, hrun, -⟩ := h.begins.split
    simp [hrun, escapeChar]
  have hclosed : (Lexed.ofText none .origin run.toList).Ends (']' :: documentText back) :=
    h.closed.of_closed h.closed (by simp)
  rw [documentText_enclose, textTokens_append _ _ (h.front_ends.of_beginsMacro h.begins hbegins),
    textTokens_macro _ hletters hname hbracket, textTokens_append _ _ hclosed, textTokens_closer,
    String.ofList_toList]
  simp only [List.append_assoc, List.cons_append, List.nil_append]
  exact ⟨_, _, _, _, _, rfl⟩

end Excerpt

namespace Passage

variable {α : Type} {name : String}

/-- The argument that is given stands among the others, which do not depend on it. -/
theorem fillSlots_split (fresh : α) {names : List String} (h : name ∈ names) :
    ∃ before after : List (Slot (Passage α)), (∀ slot ∈ before, slot.name ≠ name) ∧
      ∀ ps, fillSlots fresh names [⟨name, true, ps⟩] = before ++ ⟨name, true, ps⟩ :: after := by
  induction names with
  | nil => cases h
  | cons first names ih =>
    by_cases hfirst : name = first
    · subst hfirst
      exact ⟨[], fillSlots fresh names [], by simp, fun ps => by simp [fillSlots, takeSlot]⟩
    · obtain ⟨before, after, hbefore, hslots⟩ := ih ((List.mem_cons.mp h).resolve_left hfirst)
      refine ⟨⟨first, false, [.text fresh ""]⟩ :: before, after, ?_, fun ps => ?_⟩
      · exact List.forall_mem_cons.mpr ⟨Ne.symm hfirst, hbefore⟩
      · simp [fillSlots, takeSlot, hfirst, hslots]

end Passage

/-- The part of a document from behind `front` to the end of `run`. -/
def InSpan (front run : String) (p : Position) : Prop :=
  (Position.behind front.toList).Upto p ∧ p < .behind (front.toList ++ run.toList)

instance (front run : String) (p : Position) : Decidable (InSpan front run p) :=
  inferInstanceAs (Decidable (_ ∧ _))

theorem content_fillSlots {α : Type} (fresh : α) {names : List String} (h : "content" ∈ names)
    (ps : List (Passage α)) :
    (Passage.call fresh MacroName.toplevel false
      (fillSlots fresh names [⟨"content", true, ps⟩])).content = ps := by
  obtain ⟨before, after, hbefore, hslots⟩ := Passage.fillSlots_split fresh h
  have hnone : before.find? (·.name == "content") = none := by simpa using hbefore
  rw [Passage.content, Passage.slots, hslots, List.find?_append, hnone]
  rfl

namespace Excerpt

variable {front run back : String} {d top : MacroDef} (h : Excerpt front run back)

theorem inSpan_of_mem {front run : String} : ∀ token ∈ textTokens (.behind front.toList) run.toList,
    token.kind.MakesNode → InSpan front run token.position := by
  intro token htoken hkind
  obtain ⟨hstart, hstop⟩ := textTokens_position front.toList run.toList token htoken
  exact ⟨hstart, hstop hkind⟩

theorem not_inSpan_of_mem {front run : String} (back : List Char) :
    ∀ token ∈ textTokens .origin front.toList ++
      textTokens (.behind (front.toList ++ run.toList)) back,
      token.kind.MakesNode → ¬ InSpan front run token.position := by
  rintro token htoken hkind ⟨hstart, hstop⟩
  rcases List.mem_append.mp htoken with htoken | htoken
  · exact hstart.not_lt ((textTokens_position [] front.toList token htoken).2 hkind)
  · exact (textTokens_position _ back token htoken).1.not_lt hstop

include h

theorem not_opener (here : Position) : ∀ token ∈ (textTokens here (documentText back)).head?,
    ∀ b, token.kind ≠ .opener b := by
  intro token htoken b
  have hkind : token.kind ∈ (contentKinds back).head? := by
    rw [contentKinds, ← List.map_dropLast, ← textTokens, kinds_textTokens here, List.head?_map,
      Option.mem_def.mp htoken]
    rfl
  cases b with
  | positional => exact (h.behind token.kind hkind).1
  | named => exact (h.behind token.kind hkind).2

/-- What is read with the container is a copy of what is read without it. -/
theorem exists_copy (htop : registry.get? MacroName.toplevel = some top)
    (hcontent : top.positional[0]? = some "content")
    (hget : registry.get? container = some d) (hname : d.positional[0]? = some "content")
    (hne : container ≠ "") (hletters : ∀ c ∈ container.toList, isNameChar c = true) :
    let t := (parse registry (tokenize (front ++ run ++ back)).tokens).tree
    ∃ members ps qs, (∀ p ∈ members, InSpan front run p.mark) ∧
      Copy (Edit.enclosing (InSpan front run) members container d) ps qs ∧
      t.placed t.root = .call .origin MacroName.toplevel false
        (fillSlots .origin top.argumentNames [⟨"content", true, ps⟩]) ∧
      readPassage registry (front ++ run ++ back) = .call () MacroName.toplevel false
        (fillSlots () top.argumentNames [⟨"content", true, ps.map Passage.unmarked⟩]) ∧
      readPassage registry (front ++ enclose container run ++ back) =
        .call () MacroName.toplevel false (fillSlots () top.argumentNames [⟨"content", true, qs⟩]) := by
  obtain ⟨last, hlast⟩ := exists_tokenize_eq (front ++ run ++ back)
  obtain ⟨last', hlast'⟩ := exists_tokenize_eq (front ++ enclose container run ++ back)
  obtain ⟨here, opener, inside, closer, behind, htokens⟩ := h.tokens_enclosed hne hletters
  rw [h.tokens_source] at hlast
  rw [htokens] at hlast'
  rw [readPassage, readPassage, hlast, hlast', parse_opened htop hcontent,
    parse_opened htop hcontent]
  exact Parser.State.exists_copy registry top "content" hget hname rfl (kinds_textTokens _ inside _)
    (kinds_textTokens _ behind _) (h.begins.textTokens _) (kinds_textTokens .origin _ _ ▸ h.balanced)
    (h.not_opener _) inSpan_of_mem (not_inSpan_of_mem _) here opener closer last last'

/-- The container that is written around a piece of the source stands around what is read there. -/
theorem enclosed (htop : registry.get? MacroName.toplevel = some top)
    (hcontent : top.positional[0]? = some "content") (hargument : "content" ∈ top.argumentNames)
    (halone : top.gathering = none) (hget : registry.get? container = some d)
    (hname : d.positional[0]? = some "content") (hnames : "content" ∈ d.argumentNames)
    (hne : container ≠ "") (hletters : ∀ c ∈ container.toList, isNameChar c = true)
    (hrow : HoldsRow registry (InSpan front run) container MacroName.toplevel
      (placedContent registry (front ++ run ++ back))) :
    Enclosed registry () (readPassage registry (front ++ run ++ back))
      (readPassage registry (front ++ enclose container run ++ back)) := by
  have htops : ∀ d, registry.get? MacroName.toplevel = some d → d.gathering = none := by
    intro d hd
    obtain rfl := Option.some.inj (htop.symm.trans hd)
    exact halone
  have hdistinct := distinct_placedContent (front ++ run ++ back) htops
  obtain ⟨members, ps, qs, hmembers, hcopy, hplaced, hsource, henclosed⟩ :=
    h.exists_copy htop hcontent hget hname hne hletters
  have hps : placedContent registry (front ++ run ++ back) = ps :=
    (congrArg Passage.content hplaced).trans (content_fillSlots .origin hargument ps)
  obtain ⟨before, after, -, hslots⟩ := Passage.fillSlots_split () hargument
  rw [hps] at hrow hdistinct
  rw [hsource, henclosed, hslots, hslots]
  exact hrow.enclosed hcopy hget hnames hmembers hdistinct false before after "content" true

end Excerpt

-- ----------------------------------------------------------------------------
-- Built-in macros
-- ----------------------------------------------------------------------------

theorem Passage.HoldsRow.implies {α : Type} {within : α → Prop} {owner : String}
    {ps : List (Passage α)} (h : HoldsRow registry within container owner ps) :
    registry.Implies container := by
  induction h with
  | here hrow =>
    obtain ⟨first, -, -, -, hfirst, -⟩ := hrow.ends
    exact implies_of_container? hfirst
  | inside _ _ _ _ ih => exact ih

/-- The built-in containers are written as a name and one argument. -/
theorem Registry.enclosing_builtin {name : String} (h : Registry.builtin.Implies name) :
    name ≠ "" ∧ (∀ c ∈ name.toList, isNameChar c = true) ∧
      ∃ d, Registry.builtin.get? name = some d ∧ d.positional[0]? = some "content" ∧
        "content" ∈ d.argumentNames := by
  have hcall : ∀ {name}, (Registry.builtin.get? name).any (fun d =>
      d.positional[0]? == some "content" && d.argumentNames.contains "content") = true →
      ∃ d, Registry.builtin.get? name = some d ∧ d.positional[0]? = some "content" ∧
        "content" ∈ d.argumentNames := by
    intro name hany
    cases hget : Registry.builtin.get? name with
    | none => simp [hget] at hany
    | some d => exact ⟨d, rfl, by simpa [hget] using hany⟩
  rcases h with rfl | ⟨other, hother, gathering, hgathering, rfl⟩
  · exact ⟨by decide, List.all_eq_true.mp (by decide), hcall (by decide +kernel)⟩
  · have hcontainers : ∀ d ∈ Registry.builtinMacros, ∀ gathering ∈ d.gathering,
        gathering.container ≠ "" ∧ gathering.container.toList.all isNameChar = true ∧
          (Registry.builtin.get? gathering.container).any (fun d =>
            d.positional[0]? == some "content" && d.argumentNames.contains "content") = true := by
      decide +kernel
    obtain ⟨hne, hletters, hany⟩ := hcontainers other hother gathering hgathering
    exact ⟨hne, List.all_eq_true.mp hletters, hcall hany⟩

/-- Where a row of macros is one piece of a document, and its container would not be put into
another one with what stands beside it, the document is compiled as if the author had written the
container around the row: to the same output, and to a tree that is drawn the same. -/
theorem compile_enclosed (store : Option Store) (options : CompileOptions)
    {front run back container : String} (h : Excerpt front run back)
    (hrow : HoldsRow .builtin (InSpan front run) container MacroName.toplevel
      (placedContent .builtin (front ++ run ++ back))) :
    (compile (some .builtin) store options (front ++ run ++ back)).map
        (fun c => (c.output, c.tree.draw false)) =
      (compile (some .builtin) store options (front ++ enclose container run ++ back)).map
        fun c => (c.output, c.tree.draw false) := by
  obtain ⟨top, htop, hcontent, harguments⟩ := get?_toplevel
  obtain ⟨hne, hletters, d, hget, hname, hnames⟩ := Registry.enclosing_builtin hrow.implies
  have halone : top.gathering = none := by
    have hnone : (Registry.builtin.get? MacroName.toplevel).bind (·.gathering) = none := rfl
    rwa [htop] at hnone
  have henclosed := h.enclosed htop hcontent (by simp [harguments]) halone hget hname hnames hne
    hletters hrow
  exact compile_mirrors Registry.check_builtin Registry.linkable_builtin store options
    (enclosed_gists Registry.coherent_builtin Registry.showing_builtin henclosed options.document)

theorem compile_enclosed_cells :
    Excerpt "" "\\Td[a]\n\\Td[b]" " geese" ∧
      (compile (some .builtin) none {} ("" ++ "\\Td[a]\n\\Td[b]" ++ " geese")).map
          (fun c => (c.output, c.tree.draw false)) =
        (compile (some .builtin) none {} ("" ++ enclose "Tr" "\\Td[a]\n\\Td[b]" ++ " geese")).map
          fun c => (c.output, c.tree.draw false) := by
  have hexcerpt : Excerpt "" "\\Td[a]\n\\Td[b]" " geese" := by decide +kernel
  let cell (line column : Nat) (words : String) : Passage Position :=
    .call ⟨line, column⟩ "Td" false [⟨"content", true, [.text ⟨line, column + 4⟩ words]⟩]
  let row : List (Passage Position) := [cell 1 1 "a", .text ⟨1, 7⟩ "\n", cell 2 1 "b"]
  have hplaced : placedContent .builtin ("" ++ "\\Td[a]\n\\Td[b]" ++ " geese") =
      [] ++ row ++ [.text ⟨2, 7⟩ " geese"] := by
    with_unfolding_all rfl
  have hrow : HoldsRow .builtin (InSpan "" "\\Td[a]\n\\Td[b]") "Tr" MacroName.toplevel
      (placedContent .builtin ("" ++ "\\Td[a]\n\\Td[b]" ++ " geese")) := by
    rw [hplaced]
    refine .here ⟨⟨cell 1 1 "a", [.text ⟨1, 7⟩ "\n"], cell 2 1 "b", rfl, by decide, by decide⟩,
      ?_, by decide, by decide⟩ ?_ ?_ ?_
    · simp only [row, List.forall_mem_cons, List.not_mem_nil, false_imp_iff, implies_true, and_true]
      exact ⟨.inl (by decide), .inr (by decide), .inl (by decide)⟩
    · intro outer _
      have hback : Passage.asked .builtin MacroName.toplevel
          [(.text ⟨2, 7⟩ " geese" : Passage Position)] = none := by decide
      exact ⟨by simp [Passage.asked], by simp [hback]⟩
    · simp only [row, List.forall_mem_cons, List.not_mem_nil, false_imp_iff, implies_true, and_true]
      decide +kernel
    · simp only [List.nil_append, List.mem_singleton, forall_eq]
      intro q hq
      obtain rfl : q = .text ⟨2, 7⟩ " geese" := by simpa [Passage.all] using hq
      decide +kernel
  exact ⟨hexcerpt, compile_enclosed none {} hexcerpt hrow⟩

end Macromark

import Macromark.Proofs.Assembly.Composition
import Macromark.Proofs.Assembly.Quiet
import Macromark.Proofs.Compile
import Macromark.Proofs.Html.Recursion
import Macromark.Proofs.Token.Escape
import Macromark.Proofs.Tree.Acceptance
import Macromark.Registry.Builtin

/-!
# Text comes out as it was written

A document of paragraphs that are nothing but text (`writeParagraphs`) is read
as these texts with breaks between them, each of them is put into a paragraph as
it is (`analyze_paragraphs`), and the paragraphs are all that is written
(`compile_writeParagraphs`).
-/

namespace Macromark

variable {texts : List String} {text : String}

open Grammar (Items)
open Parser.State (Reads reads_plaintext reads_paragraphBreak)

-- ----------------------------------------------------------------------------
-- Reading
-- ----------------------------------------------------------------------------

theorem items_paragraphKinds (registry : Registry) (texts : List String) :
    Items registry (paragraphKinds texts) := by
  induction texts with
  | nil => exact .nil
  | cons text rest ih =>
    cases rest with
    | nil => exact .plaintext _ _ .nil
    | cons next rest => exact .plaintext _ _ (.paragraphBreak _ ih)

def Passage.row (texts : List String) : List (Passage Unit) :=
  (texts.map (.text ())).intersperse (.paragraphBreak ())

theorem reads_paragraphKinds {registry : Registry} (hr : registry.Coherent)
    (texts : List String) : Reads registry (paragraphKinds texts) (Passage.row texts) := by
  induction texts with
  | nil => exact .nil
  | cons text rest ih =>
    cases rest with
    | nil => exact reads_plaintext text
    | cons next rest =>
      have htail := reads_paragraphBreak.append hr (.paragraphBreak [] .nil) ih
      exact (reads_plaintext text).append hr (.plaintext text [] .nil) htail

/-- A row of the grammar is parsed without a report. -/
theorem parse_silent_of_items {registry : Registry} {d : MacroDef} {name source : String}
    (hr : registry.Coherent) (hget : registry.get? MacroName.toplevel = some d)
    (hname : d.positional[0]? = some name) (hitems : Items registry (contentKinds source)) :
    (parse registry (tokenize source).tokens).diagnostics = [] := by
  obtain ⟨content, last, hkinds, hnamed, hparse⟩ := parse_tokenize hget hname source
  rw [← hkinds] at hitems
  rw [hparse]
  exact not_not.mp ((Parser.State.silent_iff_items hr Parser.State.ready_opened rfl rfl rfl rfl
    hnamed last).mpr hitems)

-- ----------------------------------------------------------------------------
-- Paragraphs
-- ----------------------------------------------------------------------------

namespace Passage

def paragraph (text : String) : Passage Unit :=
  .call () MacroName.paragraph true [⟨"content", true, [.text () text]⟩, ⟨"id", false, [.text () ""]⟩]

variable {registry : Registry} {fresh : Unit}

theorem settle_text (depth : Nat) (isRoot : Bool) (text : String) :
    settle registry fresh depth isRoot (.text () text) = .text () text := by
  cases depth <;> rfl

theorem gather_text (owner text : String) (h : registry.isContainer owner = false) :
    gather registry fresh owner [.text () text] = [.text () text] := by
  simp [gather, h, gatherRows, container?]

theorem container_toplevel : Registry.builtin.isContainer MacroName.toplevel = false := by decide

theorem settle_paragraph (depth : Nat) (text : String) :
    settle .builtin () depth false (paragraph text) = paragraph text := by
  cases depth with
  | zero => rfl
  | succ depth =>
    have hcontainer : Registry.builtin.isContainer MacroName.paragraph = false := by decide
    simp [settle, paragraph, tidy, mapContent, Slot.tidy, Slot.map, tidyContent, isBreak,
      gather_text _ _ hcontainer, settle_text]

theorem dropWhile_isNewline {cs : List Char} (h : cs.head? ≠ some '\n') :
    cs.dropWhile isNewline = cs := by
  cases cs with
  | nil => rfl
  | cons c rest => exact List.dropWhile_cons_of_neg (by simpa [isNewline] using h)

theorem trimChunk_text (h : ParagraphText text.toList) :
    trimChunk [.text () text] = [.text () text] := by
  have hfront := dropWhile_isNewline h.head
  have hback : Text.dropEnd isNewline text.toList = text.toList := by
    have hreverse : text.toList.reverse.head? ≠ some '\n' := by
      rw [List.head?_reverse]
      exact h.last
    rw [Text.dropEnd, dropWhile_isNewline hreverse, List.reverse_reverse]
  have hkept : ∀ cut : List Char → List Char, cut text.toList = text.toList →
      trimFront cut [.text () text] = [.text () text] := by
    intro cut hcut
    rw [trimFront, hcut]
    split
    · next hnil => exact absurd hnil h.ne_nil
    · simp
  rw [trimChunk, hkept _ hfront, List.reverse_singleton, hkept _ hback, List.reverse_singleton]

theorem tidyContent_text (h : ParagraphText text.toList) :
    tidyContent .builtin () MacroName.toplevel true "content" [.text () text] = [paragraph text] := by
  have hchunks : chunks [(.text () text : Passage Unit)] = [[.text () text]] := rfl
  rw [tidyContent, gather_text _ _ container_toplevel, if_pos (.inr ⟨rfl, rfl⟩), insertParagraphs, hchunks,
    List.flatMap_singleton, wrapChunk, trimChunk_text h]
  rfl

theorem tidyContent_row (h : ∀ text ∈ texts, ParagraphText text.toList) :
    tidyContent .builtin () MacroName.toplevel true "content" (row texts) = texts.map paragraph := by
  induction texts with
  | nil =>
    simp [row, tidyContent, gather, gatherRows, insertParagraphs, chunks, wrapChunk, trimChunk,
      trimFront]
  | cons text rest ih =>
    have htext := tidyContent_text (h text List.mem_cons_self)
    cases rest with
    | nil => exact htext
    | cons next rest =>
      have hrest := ih fun other hother => h other (List.mem_cons_of_mem _ hother)
      have hsplit : row (text :: next :: rest) =
          [.text () text] ++ .paragraphBreak () :: row (next :: rest) := rfl
      rw [hsplit, tidyContent_append rfl, htext, hrest]
      rfl

end Passage

-- ----------------------------------------------------------------------------
-- The document
-- ----------------------------------------------------------------------------

/-- Each text is in a paragraph of its own, and nothing else is in the document. -/
theorem analyze_paragraphs (h : ∀ text ∈ texts, ParagraphText text.toList) (document : String) :
    (analyze .builtin document (writeParagraphs texts)).passage = .call () MacroName.toplevel false
      [⟨"content", true, texts.map Passage.paragraph⟩, ⟨"title", false, [.text () ""]⟩] := by
  obtain ⟨d, hget, hname, harguments⟩ := get?_toplevel
  have hr := Registry.coherent_builtin
  obtain ⟨-, hkinds⟩ := tokenize_writeParagraphs h
  have hreads := reads_paragraphKinds hr texts
  rw [← hkinds] at hreads
  have hbefore : readPassage .builtin (writeParagraphs texts) = _ := parse_bare hget hname hreads
  have hslots : fillSlots () ["content", "title"] [⟨"content", true, Passage.row texts⟩] =
      [⟨"content", true, Passage.row texts⟩, ⟨"title", false, [.text () ""]⟩] := rfl
  rw [analyze_passage hr document _ (Nat.le_succ _), hbefore, harguments, hslots]
  have hcontent : (texts.map Passage.paragraph).map
      (Passage.settle .builtin () (Assembly.depthBound
        (parse .builtin (tokenize (writeParagraphs texts)).tokens).tree) false) =
        texts.map Passage.paragraph := by
    rw [List.map_map]
    exact List.map_congr_left fun text _ => Passage.settle_paragraph _ text
  have htitle : Passage.tidyContent .builtin () MacroName.toplevel true "title" [.text () ""] =
      [.text () ""] := by
    simp [Passage.tidyContent, Passage.isBreak, Passage.gather_text _ _ Passage.container_toplevel]
  simp only [Passage.settle, Passage.tidy, Passage.mapContent, List.map_cons, List.map_nil, Slot.tidy,
    Slot.map, Passage.tidyContent_row h, hcontent, htitle, Passage.settle_text]

theorem Passage.mem_all_paragraph {p : Passage Unit} (hp : p ∈ (paragraph text).all) :
    p = paragraph text ∨ ∃ words, p = .text () words := by
  simp only [paragraph, all, List.flatMap_cons, List.flatMap_nil, List.append_nil, List.mem_cons,
    List.mem_append, List.not_mem_nil, or_false] at hp
  rcases hp with rfl | rfl | rfl
  · exact .inl rfl
  · exact .inr ⟨_, rfl⟩
  · exact .inr ⟨_, rfl⟩

/-- Nothing but paragraphs and texts stands below the root. -/
theorem Tree.Acyclic.below_paragraphs {t : Tree} (ht : t.Acyclic) (hroot : t.root < t.size)
    (hbare : t.bare t.root = .call () MacroName.toplevel false
      [⟨"content", true, texts.map Passage.paragraph⟩, ⟨"title", false, [.text () ""]⟩])
    {x : NodeId} (hx : t.Reaches t.root x) (hne : x ≠ t.root) :
    (∃ text, t.bare x = Passage.paragraph text) ∨ ∃ words, t.bare x = .text () words := by
  have hmem := ht.mem_preorder hroot hx
  have hall : (t.bare t.root).all = (t.preorder t.root).map t.bare := ht.all_passage hroot
  rw [ht.preorder_eq hroot, List.mem_cons] at hmem
  rw [ht.preorder_eq hroot, List.map_cons, Passage.all_eq] at hall
  have hbelow : t.bare x ∈ ((t.below t.root).flatMap t.preorder).map t.bare :=
    List.mem_map_of_mem (hmem.resolve_left hne)
  rw [← (List.cons.inj hall).2, hbare] at hbelow
  simp only [Passage.slots, List.flatMap_cons, List.flatMap_nil, List.append_nil,
    List.mem_append, List.mem_flatMap, List.mem_map] at hbelow
  rcases hbelow with ⟨_, ⟨text, -, rfl⟩, hp⟩ | hp
  · exact (Passage.mem_all_paragraph hp).imp_left fun h => ⟨text, h⟩
  · exact .inr ⟨"", by simpa [Passage.all] using hp⟩

theorem quiet_paragraph {t : Tree} (ht : t.Acyclic) {x : NodeId} {call : MacroCall}
    (hcall : t.call? x = some call) (hbare : t.bare x = Passage.paragraph text) : call.Quiet := by
  rw [Tree.bare, ht.passage_of_call? hcall, Passage.paragraph] at hbare
  injection hbare with _ hname _ hslots
  refine ⟨fun argument hargument hsupplied => ?_, ?_, ?_, ?_⟩
  · have hslot := List.mem_map_of_mem (f := (·.slot (t.passage fun _ => ()))) hargument
    rw [hslots] at hslot
    simp only [List.mem_cons, List.not_mem_nil, or_false, Argument.slot, Slot.mk.injEq, hsupplied] at hslot
    rcases hslot with ⟨hname, -⟩ | ⟨-, hfalse, -⟩
    · exact hname
    · cases hfalse
  all_goals
    rw [hname]
    decide

-- ----------------------------------------------------------------------------
-- Output
-- ----------------------------------------------------------------------------

theorem get?_paragraph : ∃ d, Registry.builtin.get? MacroName.paragraph = some d ∧
    d.rendering = .block "p" := ⟨_, rfl, rfl⟩

/-- Two lists that agree under `f` and `g` agree under what `f` and `g` decide. -/
theorem map_eq_of_map_eq {α β γ δ : Type} {f : α → γ} {g : β → γ} {f' : α → δ} {g' : β → δ}
    {xs : List α} {ys : List β} (h : xs.map f = ys.map g)
    (hdecide : ∀ x ∈ xs, ∀ y, f x = g y → f' x = g' y) : xs.map f' = ys.map g' := by
  induction xs generalizing ys with
  | nil => simp [List.map_eq_nil_iff.mp h.symm]
  | cons x xs ih =>
    cases ys with
    | nil => simp at h
    | cons y ys =>
      obtain ⟨hfirst, hrest⟩ := List.cons.inj h
      rw [List.map_cons, List.map_cons, hdecide x List.mem_cons_self y hfirst,
        ih hrest fun x hx => hdecide x (List.mem_cons_of_mem _ hx)]

section
variable {ctx : RenderContext} (h : ctx.tree.Acyclic) (hregistry : ctx.registry = .builtin)
variable (hunnamed : ∀ x, ctx.tree.id? x = none)
include h hregistry hunnamed

theorem RenderContext.render_paragraph {x : NodeId} (hx : x < ctx.tree.size)
    (hbare : ctx.tree.bare x = Passage.paragraph text) (title : Bool) :
    ctx.renderAt x title = ⟨[.element "p" [] [.text text], .text "\n"], []⟩ := by
  obtain ⟨d, hd, hrendering⟩ := get?_paragraph
  obtain ⟨call, hcall, hname, hslots⟩ := h.call?_of_passage hx hbare
  obtain ⟨node, hrender⟩ := render_of_call h hcall (by rw [hregistry, hname]; exact hd) title
  have hid : call.id = none := by
    have hid := hunnamed x
    rwa [Tree.id?_eq, hcall, Option.bind_some] at hid
  have hchildren := call.map_children (ctx.tree.passage fun _ => ()) "content"
  rw [hslots] at hchildren
  obtain ⟨y, hy, hwords⟩ := List.map_eq_singleton_iff.mp hchildren
  have hmem : y ∈ ctx.tree.below x := by
    rw [Tree.below_of_call? hcall]
    exact MacroCall.mem_allChildren (hy ▸ List.mem_singleton_self y)
  have htext := render_of_text h (h.inside hmem) hwords title
  rw [hrender, hrendering, Scene.render, Scene.argument, hy]
  simp [Rendered.join, Rendered.within, Scene.idAttribute, hid, htext]

theorem RenderContext.body_paragraphs (hroot : ctx.tree.root < ctx.tree.size)
    (hbare : ctx.tree.bare ctx.tree.root = .call () MacroName.toplevel false
      [⟨"content", true, texts.map Passage.paragraph⟩, ⟨"title", false, [.text () ""]⟩]) :
    ctx.body = ⟨texts.flatMap fun text => [.element "p" [] [.text text], .text "\n"], []⟩ := by
  have hempty : ctx.tree.isEmpty = false := Tree.isEmpty_of_lt hroot
  obtain ⟨d, hd, hrendering⟩ : ∃ d, Registry.builtin.get? MacroName.toplevel = some d ∧
      d.rendering = .toplevel := ⟨_, rfl, rfl⟩
  obtain ⟨call, hcall, hname, hslots⟩ := h.call?_of_passage hroot hbare
  obtain ⟨node, hrender⟩ := render_of_call h hcall (by rw [hregistry, hname]; exact hd) false
  have hchildren := call.map_children (ctx.tree.passage fun _ => ()) "content"
  rw [hslots] at hchildren
  change (call.children "content").map ctx.tree.bare = texts.map Passage.paragraph at hchildren
  have hpieces : (call.children "content").map (ctx.renderAt · false) =
      texts.map fun text => ⟨[.element "p" [] [.text text], .text "\n"], []⟩ := by
    refine map_eq_of_map_eq hchildren fun x hx text hbare => ?_
    have hmem : x ∈ ctx.tree.below ctx.tree.root := by
      rw [Tree.below_of_call? hcall]
      exact MacroCall.mem_allChildren hx
    exact render_paragraph h hregistry hunnamed (h.inside hmem) hbare false
  rw [body, hempty]
  change ctx.renderAt ctx.tree.root false = _
  rw [hrender, hrendering]
  change Rendered.join ((call.children "content").map (ctx.renderAt · false)) = _
  rw [hpieces, Rendered.join, List.flatMap_map, List.flatMap_map]
  simp

end

theorem writeAll_paragraphs (texts : List String) :
    Html.writeAll (texts.flatMap fun text => [.element "p" [] [.text text], .text "\n"]) =
      String.join (texts.map fun text => "<p>" ++ escapeText text ++ "</p>\n") := by
  have hline : escapeText "\n" = "\n" := by decide
  induction texts with
  | nil => rfl
  | cons text rest ih =>
    have hfirst : Html.writeAll [.element "p" [] [.text text], .text "\n"] =
        "<p>" ++ escapeText text ++ "</p>\n" := by
      simp only [Html.writeAll_cons, Html.writeAll_nil, Html.write, Html.openingTag, hline]
      exact String.toList_inj.mp (by simp [toString])
    rw [List.flatMap_cons, Html.writeAll_append, hfirst, ih, List.map_cons, String.join_cons]

/-- Every text comes out in a paragraph of its own, with nothing changed but what HTML needs, and
nothing is reported. -/
theorem compile_writeParagraphs (h : ∀ text ∈ texts, ParagraphText text.toList)
    (store : Option Store) (options : CompileOptions) :
    ∃ c, compile (some .builtin) store { options with bodyOnly := true, document := "" }
        (writeParagraphs texts) = .ok c ∧
      c.diagnostics = [] ∧
      c.output = String.join (texts.map fun text => "<p>" ++ escapeText text ++ "</p>\n") := by
  have hr := Registry.coherent_builtin
  obtain ⟨d, hget, hname, -⟩ := get?_toplevel
  obtain ⟨hlexed, hkinds⟩ := tokenize_writeParagraphs h
  have hparsed := parse_silent_of_items hr hget hname
    (hkinds ▸ items_paragraphKinds .builtin texts)
  have hbare := analyze_paragraphs h ""
  have htree := analyze_settlesTo hr "" (writeParagraphs texts)
  have hroot := htree.root_inside
  obtain ⟨-, hreferences, hdiagnostics, hdone, hunnamed⟩ := analyze_quiet hr (writeParagraphs texts)
    fun x call hx hne hcall => by
      rcases htree.acyclic.below_paragraphs hroot hbare hx hne with ⟨text, hparagraph⟩ | ⟨words, htext⟩
      · exact quiet_paragraph htree.acyclic hcall hparagraph
      · rw [Tree.bare, htree.acyclic.passage_of_call? hcall] at htext
        cases htext
  have hcompiled := compile_ok Registry.check_builtin store
    { options with bodyOnly := true, document := "" } hdone
  generalize ha : analyze .builtin "" (writeParagraphs texts) = a at *
  have hlinks : (a.links store).diagnostics = [] := by
    rw [Analysis.links, hreferences]
    rfl
  have hbody : (a.context .builtin store options.extension).body = _ :=
    RenderContext.body_paragraphs htree.acyclic rfl hunnamed hroot hbare
  refine ⟨_, hcompiled, ?_, ?_⟩
  · simp only [Analysis.finish, RenderContext.renderDocument, hbody, hlinks, hdiagnostics,
      hlexed, hparsed]
    rfl
  · simp only [Analysis.finish, RenderContext.renderDocument, hbody, if_true]
    exact writeAll_paragraphs texts

theorem compile_writeParagraphs_brackets :
    writeParagraphs ["a [\\h] < b", " ", "\x7b\n\x7d"] =
      "a \\[\\\\h\\] < b\n\n \n\n\\\x7b\n\\\x7d" ∧
    ∃ c, compile (some .builtin) none { bodyOnly := true }
        (writeParagraphs ["a [\\h] < b", " ", "\x7b\n\x7d"]) = .ok c ∧ c.diagnostics = [] ∧
      c.output = "<p>a [\\h] &lt; b</p>\n<p> </p>\n<p>\x7b\n\x7d</p>\n" := by
  have htexts : ∀ text ∈ ["a [\\h] < b", " ", "\x7b\n\x7d"], ParagraphText text.toList := by
    simp only [List.forall_mem_cons, List.not_mem_nil, false_imp_iff, implies_true, and_true]
    exact ⟨⟨by decide, by decide, by decide, by decide⟩, ⟨by decide, by decide, by decide, by decide⟩,
      ⟨by decide, by decide, by decide, by decide⟩⟩
  obtain ⟨c, hcompile, hsilent, houtput⟩ := compile_writeParagraphs htexts none {}
  exact ⟨by decide, c, hcompile, hsilent, houtput.trans (by decide)⟩

end Macromark

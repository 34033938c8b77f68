import Macromark.Proofs.Assembly.Synonyms
import Macromark.Proofs.Html.Anchors
import Macromark.Proofs.Html.Titles
import Macromark.Proofs.Marks

/-!
# Where the links of a page lead

In a document without errors every link to an identifier of the same page leads to a node
that has the identifier and was not written as a synonym (`analyze_linksTo`). Whether the page holds
its anchor is another matter: the document itself has none (`document_not_anchored`), and
neither has what the page does not display (`compile_anchors`).
-/

namespace Macromark

namespace Assembly

variable {setting : Setting} {s : State} {t : Tree} {made : List Arrival} {x : NodeId} {id : String}

/-- Only macros that may have an identifier or a title ask for an identifier. -/
theorem exists_declares_of_requestedId (hasked : requestedId setting s x = some id) :
    ∃ call definition, s.tree.call? x = some call ∧
      setting.registry.get? call.name = some definition ∧
      (definition.declares "id" || definition.declares "title") = true := by
  unfold requestedId at hasked
  split at hasked
  · cases hasked
  · simp only [Option.bind_eq_bind, Option.bind_eq_some_iff] at hasked
    obtain ⟨call, hcall, definition, hdefined, name, hlocal, -⟩ := hasked
    refine ⟨call, definition, hcall, hdefined, ?_⟩
    by_contra hnone
    rw [Bool.not_eq_true] at hnone
    simp only [localId, hnone, Bool.not_false, if_true] at hlocal
    cases hlocal

variable (h : Visited setting (registerDocument setting (.initial t)) made s) (ht : Ready setting t)
include h ht

/-- What has been linked as a header was not written as a synonym. -/
theorem Visited.isSynonym_of_node? {header : HeaderId} (hne : header ≠ HeaderTree.root)
    (hnode : s.headers.node? header = some x) (hid : s.tree.id? x = some id) :
    t.isSynonym setting.registry x = false := by
  obtain ⟨arrival, harrival, hlinked, level, hlevel⟩ :=
    (h.chained ht).exists_arrival hne (HeaderTree.lt_of_node? hnode)
  obtain rfl := Option.some.inj (hlinked.symm.trans hnode)
  obtain ⟨hkept, -⟩ := h.kept ht.coherent harrival
  unfold headingLevel? at hlevel
  split at hlevel
  · cases hlevel
  · next hroot =>
    split at hlevel
    · next hheading =>
      obtain ⟨hlt, -⟩ := h.named_of_id? ht harrival (hkept.root_eq ▸ hroot) hid
      obtain ⟨later, earlier, rfl⟩ := List.append_of_mem harrival
      obtain ⟨hvisited, hacyclic, hnot⟩ := h.before
      rw [hvisited.isHeading ht.coherent ht.acyclic hacyclic hlt hnot] at hheading
      simp only [Tree.isHeading, Bool.and_eq_true, Bool.not_eq_true'] at hheading
      simp [Tree.isSynonym, hheading.2]
    · cases hlevel

/-- What has an identifier, but for the document, may have one. -/
theorem Visited.declares_of_id? {arrival : Arrival} (harrival : arrival ∈ made)
    (hroot : arrival.node ≠ s.tree.root) (hid : s.tree.id? arrival.node = some id) :
    ∃ call definition, s.tree.call? arrival.node = some call ∧
      setting.registry.get? call.name = some definition ∧
      (definition.declares "id" || definition.declares "title") = true := by
  obtain ⟨hkept, -⟩ := h.kept ht.coherent harrival
  rw [h.granted ht.coherent ht.indexed harrival hroot] at hid
  obtain ⟨call, definition, hcall, hdefined, hdeclares⟩ :=
    exists_declares_of_requestedId (requestedId_of_granted hid)
  obtain ⟨later, hlater, hname, -⟩ := hkept.call? hcall
  exact ⟨later, definition, hlater, hname ▸ hdefined, hdeclares⟩

end Assembly

-- ----------------------------------------------------------------------------
-- Targets
-- ----------------------------------------------------------------------------

section
variable (document source extension : String)

/-- A macro that may have an identifier makes an element of its own, but for a document. -/
theorem Registry.identifies_builtin : ∀ d ∈ Registry.builtin.macros,
    (d.declares "id" || d.declares "title") = true →
      (d.rendering.identifies = true ↔ d.name ≠ MacroName.toplevel) := by
  show ∀ d ∈ Registry.builtinMacros, _
  decide

example : (Registry.builtin.macros.filter fun d =>
      (d.declares "id" || d.declares "title") && !d.rendering.identifies).map (·.name) =
    [MacroName.toplevel] := by decide +kernel

theorem Registry.rendering_toplevel_builtin : ∀ d ∈ Registry.builtin.macros,
    d.name = MacroName.toplevel → d.rendering = .toplevel := by
  show ∀ d ∈ Registry.builtinMacros, _
  decide

theorem RenderContext.eq_of_href {ctx : RenderContext} {r : IdRecord} {id : String}
    (hown : r.document = ctx.document) (h : ⟨"href", "#" ++ escapeAttribute id⟩ = ctx.href r) :
    id = r.id := by
  rw [href, if_pos hown] at h
  injection h with _ hwritten
  exact escapeAttribute_injective ((String.append_right_inj _).mp hwritten)

/-- An entry of a table of contents stands for a header. -/
theorem analyze_entry {e : ContentsEntry} {id : String} :
    let a := analyze .builtin document source
    e ∈ ContentsEntry.readingAll (Contents.build .builtin a.tree a.headers) → e.id = some id →
      ∃ x r, a.index.entries.get? id = some (x, r) ∧
        (parse .builtin (tokenize source).tokens).tree.isSynonym .builtin x = false := by
  intro a he hid
  obtain ⟨-, hrooted, -, -⟩ := parse_tree .builtin (tokenize source).tokens
  have hready := parse_ready Registry.check_builtin Registry.coherent_builtin document source
  have hindexed := analyze_indexed Registry.coherent_builtin Registry.check_builtin document source
  obtain ⟨rank, final, hvisited, -, -, htree, -, hheaders, -⟩ :=
    analyze_visits Registry.coherent_builtin document source
  have hstacked : a.headers.Stacked := by
    change (analyze .builtin document source).headers.Stacked
    rw [hheaders]
    exact hvisited.stacked hrooted
  have hline := List.mem_map_of_mem (f := ContentsEntry.line) he
  rw [Contents.lines_build hstacked, List.mem_map] at hline
  obtain ⟨header, hheader, heq⟩ := hline
  have hne : header ≠ HeaderTree.root := by
    obtain ⟨hpos, -⟩ := List.mem_range'_1.mp hheader
    exact Nat.ne_of_gt hpos
  have hlabel := congrArg Prod.fst heq
  simp only [Contents.line, ContentsEntry.line, hid] at hlabel
  obtain ⟨x, hnode, hx⟩ := Option.bind_eq_some_iff.mp hlabel
  obtain ⟨r, hentry⟩ := hindexed.entered x id hx
  refine ⟨x, r, hentry, hvisited.isSynonym_of_node? hready hne ?_ (htree ▸ hx)⟩
  rw [← hheaders]
  exact hnode

/-- Where every synonym follows a header, a link of the page leads to a node that is entered and was
not written as a synonym. -/
theorem analyze_linksTo (id : String) :
    let a := analyze .builtin document source
    let ctx := a.context .builtin none extension
    (∀ d ∈ a.diagnostics, d.problem ≠ .orphanSynonym) → ctx.LinksTo id →
      ∃ x r, a.index.entries.get? id = some (x, r) ∧
        (parse .builtin (tokenize source).tokens).tree.isSynonym .builtin x = false := by
  intro a ctx hfollows
  rintro ⟨x, title, call, definition, hreaches, hcall, hdefined, hlink⟩
  have hsound : a.Sound document := analyze_sound .builtin document source
  have hready := parse_ready Registry.check_builtin Registry.coherent_builtin document source
  obtain ⟨rank, final, hvisited, hshape, -, htree, -, hheaders, -⟩ :=
    analyze_visits Registry.coherent_builtin document source
  have hacyclic : ctx.tree.Acyclic := by
    change a.tree.Acyclic
    rw [htree]
    exact hshape.acyclic
  obtain ⟨node, hrender⟩ := RenderContext.render_of_call hacyclic hcall hdefined title
  rw [hrender] at hlink
  rcases hlink with ⟨hrendering, content, hlink⟩ | ⟨hrendering, hlink⟩
  · rw [hrendering] at hlink
    simp only [Scene.render] at hlink
    obtain ⟨target, record, hrecord, hattributes⟩ := Scene.exists_record_of_link hlink
    have hrecords : ctx.record? = a.index.record? := funext fun id => Option.or_none
    rw [hrecords] at hrecord hattributes
    obtain ⟨y, named, hnamed, hentry, hother⟩ := analyze_named Registry.check_builtin
      Registry.coherent_builtin document source hfollows target record hrecord
    have hfound : a.index.record? named.id = some named := by
      rw [Index.record?, hentry, Option.map_some]
    have hown : named.document = ctx.document := (hsound.index.record? hfound).owned
    rw [hnamed] at hattributes
    obtain rfl := RenderContext.eq_of_href hown (List.singleton_inj.mp hattributes)
    exact ⟨y, named, hentry, hother⟩
  · rw [hrendering] at hlink
    obtain ⟨e, he, other, hother, hattributes⟩ := Contents.exists_entry_of_link hlink
    obtain ⟨y, r, hentry, hheading⟩ := analyze_entry document source he hother
    have hsame := congrArg (·.written) (List.singleton_inj.mp hattributes)
    obtain rfl := escapeAttribute_injective (String.append_right_inj _ |>.mp hsame)
    exact ⟨y, r, hentry, hheading⟩

/-- What has an identifier is a document, or may have one. -/
theorem analyze_identifies {x : NodeId} {id : String} {call : MacroCall} {definition : MacroDef} :
    let a := analyze .builtin document source
    a.tree.id? x = some id → a.tree.call? x = some call →
    Registry.builtin.get? call.name = some definition →
      (definition.rendering.identifies = true ↔ call.name ≠ MacroName.toplevel) := by
  intro a hid hcall hdefined
  have hready := parse_ready Registry.check_builtin Registry.coherent_builtin document source
  have hindexed := analyze_indexed Registry.coherent_builtin Registry.check_builtin document source
  obtain ⟨rank, final, hvisited, -, hkept, htree, -, -, -, -, -, horder⟩ :=
    analyze_visits Registry.coherent_builtin document source
  obtain ⟨top, hroot, htop⟩ := parse_toplevel Registry.check_builtin source
  have hname := Registry.name_of_get? hdefined
  have hmem := List.mem_of_find?_eq_some hdefined
  by_cases hx : x = a.tree.root
  · obtain ⟨later, hlater, hsame, -⟩ := hkept.call? hroot
    rw [hx, htree, hkept.root_eq, hlater] at hcall
    have htoplevel : call.name = MacroName.toplevel := by
      rw [← Option.some.inj hcall, hsame, htop]
    have hrendering := Registry.rendering_toplevel_builtin definition hmem (hname.trans htoplevel)
    simp [htoplevel, hrendering, Rendering.identifies]
  · have hvisits : x ∈ a.tree.preorder a.tree.root := by
      by_contra hout
      rw [hindexed.waiting x hout hx] at hid
      cases hid
    rw [← horder] at hvisits
    obtain ⟨arrival, harrival, rfl⟩ := List.mem_map.mp hvisits
    obtain ⟨call', definition', hcall', hdefined', hdeclares⟩ := hvisited.declares_of_id? hready
      (List.mem_reverse.mpr harrival) (htree ▸ hx) (htree ▸ hid)
    obtain rfl := Option.some.inj ((htree ▸ hcall').symm.trans hcall)
    obtain rfl := Option.some.inj (hdefined'.symm.trans hdefined)
    rw [Registry.identifies_builtin _ hmem hdeclares, hname]

/-- A node with an identifier makes an anchor, unless it is a document or a synonym. -/
theorem analyze_bears {x : NodeId} {id : String} :
    let a := analyze .builtin document source
    let ctx := a.context .builtin none extension
    a.tree.id? x = some id → (ctx.Bears x id ↔
      a.tree.name? x ≠ some MacroName.toplevel ∧ a.tree.isSynonym .builtin x = false) := by
  intro a ctx hid
  obtain ⟨rank, final, -, hshape, -, htree, -⟩ :=
    analyze_visits Registry.coherent_builtin document source
  obtain ⟨call, hcall, hgiven⟩ := Tree.exists_call?_of_id? hid
  obtain ⟨d, hd, -⟩ := hshape.declared x call (htree ▸ hcall)
  have hidentifies := analyze_identifies document source hid hcall hd
  have hheader := Registry.rendering_header_builtin call.name d hd
  have hname : a.tree.name? x = some call.name := by rw [Tree.name?, hcall, Option.map_some]
  have htext : ctx.text call "synonym" = a.tree.argumentText .builtin x "synonym" := by
    rw [Tree.argumentText, hcall]
    rfl
  have hbears : ctx.Bears x id ↔ ctx.anchors call d.rendering = true := by
    constructor
    · rintro ⟨call', d', hcall', hd', -, hanchors⟩
      obtain rfl := Option.some.inj (hcall.symm.trans hcall')
      obtain rfl := Option.some.inj (hd.symm.trans hd')
      exact hanchors
    · exact fun hanchors => ⟨call, d, hcall, hd, hgiven, hanchors⟩
  rw [hbears, RenderContext.anchors, htext, Tree.isSynonym, hname]
  simp [hidentifies, hheader, imp_iff_not_or]

end

-- ----------------------------------------------------------------------------
-- Compilation
-- ----------------------------------------------------------------------------

/-- In a document without errors a link to an identifier of the page, from a cross reference or a
table of contents, leads to a node that has the identifier and was not written as a synonym. Its
anchor is on the page exactly if the node is displayed there, is no document, and is no synonym
when it is finished. -/
theorem compile_anchors (options : CompileOptions) (source : String)
    (hdone : (analyze .builtin options.document source).aborted = none) :
    let a := analyze .builtin options.document source
    let written := (parse .builtin (tokenize source).tokens).tree
    let ctx := a.context .builtin none options.extension
    ∃ c, compile (some .builtin) none options source = .ok c ∧
      c.output = (ctx.renderDocument options.bodyOnly).1 ∧
      (c.hasErrors = false → ∀ id, ctx.LinksTo id →
        ∃ x, a.index.node? id = some x ∧ a.tree.id? x = some id ∧
          written.isSynonym .builtin x = false ∧
          (Html.Anchored ctx.body.html id ↔ (∃ title, ctx.Displays x title) ∧
            a.tree.name? x ≠ some MacroName.toplevel ∧ a.tree.isSynonym .builtin x = false)) := by
  intro a written ctx
  refine ⟨_, compile_ok Registry.check_builtin none _ hdone, rfl, fun hsilent id hlink => ?_⟩
  obtain ⟨hown, hlinks, hpage⟩ := analyze_silent options.document source none options.extension
    .builtin options.bodyOnly (List.forall_mem_nil _) (by rwa [List.append_nil])
  have hsound := analyze_sound .builtin options.document source
  have hlinked := analyze_linked Registry.linkable_builtin options.document source
  have hindexed :=
    analyze_indexed Registry.coherent_builtin Registry.check_builtin options.document source
  obtain ⟨rank, final, -, hshape, -, htree, -⟩ :=
    analyze_visits Registry.coherent_builtin options.document source
  have hacyclic : ctx.tree.Acyclic := by
    change (analyze .builtin options.document source).tree.Acyclic
    rw [htree]
    exact hshape.acyclic
  have hroot : ctx.tree.root < ctx.tree.size := by
    change a.tree.root < a.tree.size
    rw [htree]
    exact hshape.root_lt
  have hknown : ∀ scene d, ctx.Visits scene → ctx.registry.get? scene.call.name = some d →
      d.rendering = .crossReference → ∀ target, scene.linkTarget ctx ≠ .unknown target :=
    fun scene d hscene hd hrendering => hlinked.known none options.extension hsound hlinks hscene
      (Registry.linkable_builtin.only _ d hd hrendering)
  obtain ⟨x, r, hentry, hother⟩ := analyze_linksTo options.document source options.extension id
    (by simp [hown]) hlink
  have hid : a.tree.id? x = some id := congrArg Prod.fst (hindexed.carried id x r hentry).1
  refine ⟨x, by rw [Index.node?, hentry, Option.map_some], hid, hother, ?_⟩
  rw [RenderContext.anchored_body hacyclic hknown hroot hpage,
    ← analyze_bears options.document source options.extension hid]
  constructor
  · rintro ⟨y, title, hdisplays, hbears⟩
    obtain ⟨r', hentry'⟩ := hindexed.entered y id hbears.id?
    obtain rfl := (Prod.mk.inj (Option.some.inj (hentry.symm.trans hentry'))).1
    exact ⟨⟨title, hdisplays⟩, hbears⟩
  · rintro ⟨⟨title, hdisplays⟩, hbears⟩
    exact ⟨x, title, hdisplays, hbears⟩

/-- Whether a piece of output is a link to an identifier of the page. -/
def Html.isLinkTo (id : String) : Html → Bool
  | .element tag attributes _ => tag == "a" && attributes == [⟨"href", "#" ++ escapeAttribute id⟩]
  | _ => false

/-- A header, and a paragraph with a link. -/
def geese (target : String) : String := "\\h[1][Geese]\n\n\\x[" ++ target ++ "][here]"

/-- The page is rendered with what the header and the link refer to. -/
def geeseContext (target : String) : RenderContext :=
  let a := analyze .builtin "zoo" (geese target)
  { a.context .builtin none "html" with
    resolutions := (Selection.mk [0, 1] [] []).resolutions a.document a.linkSites
      a.contribution.references }

/-- One computation for both pages: what their references come to, that the paragraph holds the link,
that nothing is reported, and which anchors there are. -/
theorem pages_geese : ∀ target ∈ ["geese", "zoo"],
    let a := analyze .builtin "zoo" (geese target)
    let ctx := geeseContext target
    let page := ctx.renderDocument false
    (Selection.groups a.contribution.references).map (fun (key, members) =>
        Selection.selectGroup (a.resolves none) key members) = [⟨[0], [], []⟩, ⟨[1], [], []⟩] ∧
      (15 ∈ ctx.tree.below ctx.tree.root ∧ 11 ∈ ctx.tree.below 15 ∧
        ∃ call ∈ ctx.tree.call? 11, ∃ d ∈ ctx.registry.get? call.name,
          d.rendering = .crossReference ∧
            (ctx.renderAt 11 false).html.any (Html.isLinkTo target) = true) ∧
      a.aborted = none ∧
      (a.finish page.1 ((Selection.mk [0, 1] [] []).diagnostics ++ page.2)
        { document := "zoo" }).hasErrors = false ∧
      (Html.Anchored ctx.body.html target ↔ target = "geese") := by
  decide +kernel

theorem links_geese {target : String} (h : target ∈ ["geese", "zoo"]) :
    (analyze .builtin "zoo" (geese target)).links none = ⟨[0, 1], [], []⟩ := by
  -- sorting does not compute, and both lists are sorted already
  have hsorted : Selection.sorted [0, 1] = [0, 1] := Selection.sorted_of_pairwise (by decide)
  have hnone : Selection.sorted [] = [] := Selection.sorted_of_pairwise .nil
  obtain ⟨hsingle, -⟩ := pages_geese target h
  rw [Analysis.links, select, hsingle]
  simp [Selection.combine, hsorted, hnone]

theorem context_geese {target : String} (h : target ∈ ["geese", "zoo"]) :
    (analyze .builtin "zoo" (geese target)).context .builtin none "html" = geeseContext target := by
  rw [geeseContext, ← links_geese h]
  rfl

theorem linksTo_geese {target : String} (h : target ∈ ["geese", "zoo"]) :
    (geeseContext target).LinksTo target := by
  obtain ⟨-, ⟨hparagraph, hnode, call, hcall, d, hd, hrendering, hany⟩, -⟩ := pages_geese target h
  obtain ⟨html, hmem, hhtml⟩ := List.any_eq_true.mp hany
  refine ⟨11, false, call, d, .tail (.tail .refl hparagraph) hnode, hcall, hd,
    .inl ⟨hrendering, ?_⟩⟩
  cases html with
  | element tag attributes content =>
    simp only [Html.isLinkTo, Bool.and_eq_true, beq_iff_eq] at hhtml
    obtain ⟨rfl, rfl⟩ := hhtml
    exact ⟨content, hmem⟩
  | _ => cases hhtml

theorem silent_geese {target : String} (h : target ∈ ["geese", "zoo"]) {c : Compiled}
    (hcompile : compile (some .builtin) none { document := "zoo" } (geese target) = .ok c) :
    c.hasErrors = false := by
  obtain ⟨-, -, -, hsilent, -⟩ := pages_geese target h
  obtain ⟨-, hsame⟩ := (compile_eq_ok_iff Registry.check_builtin).mp hcompile
  simp only [context_geese h, links_geese h] at hsame
  rw [← hsame]
  exact hsilent

theorem compile_anchors_geese :
    let options : CompileOptions := { document := "zoo" }
    let a := analyze .builtin options.document (geese "geese")
    let ctx := a.context .builtin none options.extension
    ∃ c, compile (some .builtin) none options (geese "geese") = .ok c ∧
      c.output = (ctx.renderDocument options.bodyOnly).1 ∧
      c.hasErrors = false ∧ ctx.LinksTo "geese" ∧
      ∃ x, a.index.node? "geese" = some x ∧ a.tree.id? x = some "geese" ∧
        (parse .builtin (tokenize (geese "geese")).tokens).tree.isSynonym .builtin x = false ∧
        (Html.Anchored ctx.body.html "geese" ↔ (∃ title, ctx.Displays x title) ∧
          a.tree.name? x ≠ some MacroName.toplevel ∧ a.tree.isSynonym .builtin x = false) := by
  intro options a ctx
  obtain ⟨-, -, hdone, -⟩ := pages_geese "geese" (by decide)
  obtain ⟨c, hcompile, houtput, hanchors⟩ := compile_anchors options (geese "geese") hdone
  have hsilent := silent_geese (by decide) hcompile
  have hlink : ctx.LinksTo "geese" := by
    rw [show ctx = geeseContext "geese" from context_geese (by decide)]
    exact linksTo_geese (by decide)
  exact ⟨c, hcompile, houtput, hsilent, hlink, hanchors hsilent "geese" hlink⟩

/-- The document has a name, which a link leads to, and no element carries it. -/
theorem document_not_anchored : ¬ ∀ (options : CompileOptions) (source : String) c,
    compile (some .builtin) none options source = .ok c → c.hasErrors = false →
      let ctx := (analyze .builtin options.document source).context .builtin none options.extension
      ∀ id, ctx.LinksTo id → Html.Anchored ctx.body.html id := by
  intro hall
  obtain ⟨-, -, hdone, -, hnone⟩ := pages_geese "zoo" (by decide)
  have hcompile := compile_ok Registry.check_builtin none { document := "zoo" } hdone
  have hanchored := hall { document := "zoo" } (geese "zoo") _ hcompile
    (silent_geese (by decide) hcompile) "zoo"
  rw [context_geese (by decide)] at hanchored
  exact absurd (hnone.mp (hanchored (linksTo_geese (by decide)))) (by decide)

end Macromark

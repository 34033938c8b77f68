import Macromark.Proofs.Assembly.Identifiers
import Macromark.Proofs.Assembly.Wording

/-!
# Titles

A macro is entered under the title that was written in it (`Titled`), and what is
shown of the title later is read in the finished tree, where white space may have
gone. So the two agree in all characters but white space, unless a link in the
title loses a blank content with it, and they agree altogether where no white
space goes (`analyze_titled`).
-/

namespace Macromark

-- ----------------------------------------------------------------------------
-- The title of a record
-- ----------------------------------------------------------------------------

namespace Assembly

variable {setting : Setting} {start s u : State} {made : List Arrival} {nodes : List NodeId}
variable {t : Tree} {node : NodeId} {asked given : Option String} {index : Index}

/-- Once `nodes` have been visited, every macro that is entered is one of them, or the root under the
name of the document. Its title is the one that was written. -/
structure Titled (setting : Setting) (t : Tree) (nodes : List NodeId) (index : Index) : Prop where
  document : ∀ id, toplevelId setting = some id → ∃ r, index.entries.get? id = some (t.root, r)
  visited : ∀ id x r, index.entries.get? id = some (x, r) → x ≠ t.root → x ∈ nodes ∧ x < t.size ∧
    r.title = Text.trim (t.argumentText setting.registry x "title")

theorem Titled.mono {more : List NodeId} (h : Titled setting t nodes index) (hmore : nodes ⊆ more) :
    Titled setting t more index := by
  refine ⟨h.document, fun id x r hentry hroot => ?_⟩
  obtain ⟨hx, hrest⟩ := h.visited id x r hentry hroot
  exact ⟨hmore hx, hrest⟩

theorem Naming.titled (h : Naming setting node s asked given u) (hs : Titled setting t nodes s.index)
    (hasked : asked ≠ none → node < t.size ∧
      text setting s node "title" = t.argumentText setting.registry node "title") :
    Titled setting t (node :: nodes) u.index := by
  have hmore := hs.mono (List.subset_cons_self node nodes)
  cases h with
  | nameless hsame => exact hsame.index ▸ hmore
  | refused _ _ hindex => exact hindex ▸ hmore
  | @entered _ id _ r hfree _ _ _ hentries _ _ _ htitle =>
    refine ⟨fun other hother => ?_, fun other x found hentry hroot => ?_⟩
    · obtain ⟨first, hfirst⟩ := hs.document other hother
      have hne : id ≠ other := by
        rintro rfl
        simp [Index.record?, hfirst] at hfree
      exact ⟨first, by rw [hentries, if_neg hne, hfirst]⟩
    · rw [hentries] at hentry
      split at hentry
      · obtain ⟨rfl, rfl⟩ := Prod.mk.inj (Option.some.inj hentry)
        obtain ⟨hlt, htext⟩ := hasked (by simp)
        exact ⟨List.mem_cons_self, hlt, by rw [htitle, htext]⟩
      · exact hmore.visited other x found hentry hroot

theorem registerDocument_titled (setting : Setting) {registry : Registry} (hgrown : t.Grown registry)
    {call : MacroCall} (hroot : t.call? t.root = some call) :
    Titled setting t [] (registerDocument setting (.initial t)).index := by
  obtain ⟨hindexed, -⟩ := registerDocument_indexed setting hgrown hroot
  have hlabeled := registerDocument_labeled setting t
  refine ⟨fun id hid => ?_, fun id x r hentry hne => ?_⟩
  · simp only [registerDocument, hid]
    exact ⟨IdRecord.define id MacroName.toplevel (site setting (t.position t.root)),
      (OrderedMap.get?_insert ..).trans (if_pos rfl)⟩
  · -- only the root has an identifier yet
    have hnone := hindexed.waiting x (by simp) (hlabeled.kept.root_eq ▸ hne)
    rw [Tree.id?, (hindexed.carried id x r hentry).1] at hnone
    cases hnone

theorem Visited.titled (h : Visited setting (registerDocument setting (.initial t)) made s)
    (hr : setting.registry.Coherent) (ht : t.Acyclic)
    (hstart : Titled setting t [] (registerDocument setting (.initial t)).index) :
    Titled setting t (made.map (·.node)) s.index := by
  induction h with
  | start => exact hstart
  | @visit earlier s rank visit hvisited hshape hnot hnode _ ih =>
    obtain ⟨given, named, hnaming, -, hrest, -⟩ := visitNode_naming visit hshape.declared hnode
    have hindex : (visitNode setting visit s).2.index = named.index := by rw [hrest]
    rw [hindex]
    refine hnaming.titled ih fun hasked => ?_
    obtain ⟨id, hid⟩ := Option.ne_none_iff_exists'.mp hasked
    have hlt := hvisited.lt_of_requestedId hr hid
    exact ⟨hlt, (hvisited.written hr ht hshape.acyclic hlt hnot setting.registry).2 "title"⟩

/-- The root alone is entered under the name of the document. -/
theorem Titled.nameDocument (h : Titled setting t nodes s.index) :
    Titled setting t nodes (nameDocument setting s).index := by
  unfold Assembly.nameDocument
  split
  · exact h
  · next id hid =>
    obtain ⟨first, hfirst⟩ := h.document id hid
    simp only [Index.modify]
    refine ⟨fun other hother => ?_, fun other x r hentry hroot => ?_⟩
    · obtain rfl := Option.some.inj (hid.symm.trans hother)
      simp [OrderedMap.get?_modify, hfirst]
    · rw [OrderedMap.get?_modify] at hentry
      split at hentry
      · next heq =>
        rw [← heq, hfirst] at hentry
        exact absurd (Prod.mk.inj (Option.some.inj hentry)).1.symm hroot
      · exact h.visited other x r hentry hroot

end Assembly

-- ----------------------------------------------------------------------------
-- The title of a finished document
-- ----------------------------------------------------------------------------

namespace Passage

variable {α : Type} {registry : Registry} {owner argument : String} {content : List (Passage α)}

/-- No white space goes when the content of an argument is arranged. -/
def Tight (registry : Registry) (owner _argument : String) (content : List (Passage α)) : Prop :=
  ∀ words, Sheds registry owner content words → words = ""

def Worded (registry : Registry) (owner argument : String) (content : List (Passage α)) : Prop :=
  ∀ d, registry.get? owner = some d → d.rendering.links = true → argument = "content" →
    (∀ c ∈ charsOf registry content, Text.isSpace c = true) → charsOf registry content = []

theorem Tight.stable (h : Tight registry owner argument content) :
    Stable (fun _ => true) registry owner argument content := by
  refine ⟨fun words hsheds => ?_, fun d _ _ _ hnone => ?_⟩
  · rw [h words hsheds]
    rfl
  · rwa [List.filter_true] at hnone

theorem Worded.stable (h : Worded registry owner argument content) :
    Stable (!Text.isSpace ·) registry owner argument content := by
  refine ⟨steady_of_space fun c hc => by simp [hc], fun d hd hlinks hname hnone => ?_⟩
  refine h d hd hlinks hname fun c hc => ?_
  simpa using List.filter_eq_nil_iff.mp hnone c hc

end Passage

namespace Tree

variable {registry : Registry} {t u : Tree} {x : NodeId} {argument : String} {keep : Char → Bool}

/-- What holds of an argument of a macro and of all arguments in it. The nodes are marked with their
numbers. -/
def InArgument (t : Tree) (x : NodeId) (argument : String)
    (P : String → String → List (Passage (Option NodeId)) → Prop) : Prop :=
  ∀ slot ∈ (t.passage (Assembly.written t) x).slots, slot.name = argument →
    P (t.passage (Assembly.written t) x).name slot.name slot.content ∧
      ∀ p ∈ slot.content, p.Throughout P

theorem InArgument.mono {P Q : String → String → List (Passage (Option NodeId)) → Prop}
    (h : t.InArgument x argument P) (hPQ : ∀ owner name content, P owner name content → Q owner name content) :
    t.InArgument x argument Q := by
  intro slot hslot hname
  obtain ⟨hown, hbelow⟩ := h slot hslot hname
  exact ⟨hPQ _ _ _ hown, fun p hp q hq slot hslot => hPQ _ _ _ (hbelow p hp q hq slot hslot)⟩

theorem Acyclic.exists_content {α : Type} {label : NodeId → α} (h : t.Acyclic) {y : NodeId} (hy : y < t.size)
    {slot : Slot (Passage α)} (hslot : slot ∈ (t.passage label y).slots) {p : Passage α}
    (hp : p ∈ slot.content) : ∃ z ∈ t.below y, t.passage label z = p := by
  obtain ⟨kind, hface⟩ := exists_face? hy
  rw [h.passage_eq hface] at hslot
  have hmem := List.mem_flatMap.mpr ⟨slot, hslot, hp⟩
  rw [slots_passage, List.mem_map] at hmem
  rwa [below_of_face? hface]

/-- What holds of all arguments of the macros that are reached holds in each of the arguments. -/
theorem Acyclic.inArgument (h : t.Acyclic) (hx : x < t.size)
    {P : String → String → List (Passage (Option NodeId)) → Prop}
    (hP : ∀ y, t.Reaches x y → ∀ slot ∈ (t.passage (Assembly.written t) y).slots,
      P (t.passage (Assembly.written t) y).name slot.name slot.content) :
    t.InArgument x argument P := by
  intro slot hslot _
  refine ⟨hP x .refl slot hslot, fun p hp q hq inner hinner => ?_⟩
  obtain ⟨z, hz, rfl⟩ := h.exists_content hx hslot hp
  rw [h.all_passage (h.inside hz)] at hq
  obtain ⟨y, hy, rfl⟩ := List.mem_map.mp hq
  exact hP y (.head hz (h.reaches_of_mem_preorder (h.inside hz) hy)) inner hinner

/-- Without a break and without a blank text no white space goes. -/
theorem Acyclic.tight (h : t.Acyclic) (hx : x < t.size)
    (hbreak : ∀ y, t.Reaches x y → t.isParagraphBreak y = false)
    (hblank : ∀ y, t.Reaches x y → ∀ words, t.plaintext? y = some words → Text.isBlank words = true →
      words = "") : t.InArgument x argument (Passage.Tight registry) := by
  refine h.inArgument hx fun y hy slot hslot words hsheds => ?_
  have hy' := h.lt_of_reaches hx hy
  rcases hsheds.mem with hany | ⟨mark, htext⟩
  · obtain ⟨b, hb, hbroken⟩ := List.any_eq_true.mp hany
    obtain ⟨z, hz, rfl⟩ := h.exists_content hy' hslot hb
    rw [← Assembly.isParagraphBreak_passage h, hbreak z (hy.tail hz)] at hbroken
    cases hbroken
  · obtain ⟨z, hz, hpassage⟩ := h.exists_content hy' hslot htext
    exact hblank z (hy.tail hz) words (Assembly.plaintext?_of_passage h hpassage) hsheds.isBlank

/-- Without a link there is none that could be without words. -/
theorem Acyclic.worded (h : t.Acyclic) (hx : x < t.size)
    (hlink : ∀ y, t.Reaches x y → ∀ name d, t.name? y = some name → registry.get? name = some d →
      d.rendering.links = false) : t.InArgument x argument (Passage.Worded registry) := by
  refine h.inArgument hx fun y hy slot hslot d hd hlinks => ?_
  obtain ⟨node, hnode⟩ := lt_size_iff.mp (h.lt_of_reaches hx hy)
  rw [h.passage_of_get? hnode] at hslot hd
  cases hkind : node.kind with
  | call call =>
    have hname : t.name? y = some call.name := by simp [name?, call?, hnode, Node.call?, hkind]
    rw [hkind] at hd
    rw [hlink y hy call.name d hname hd] at hlinks
    cases hlinks
  | _ =>
    rw [hkind] at hslot
    cases hslot

/-- The words of an argument keep all characters but those of the white space that may go. -/
theorem SettlesTo.filter_argumentText (h : t.SettlesTo registry u) (hshow : registry.Showing)
    (hx : x < t.size) (hroot : x ≠ u.root) (hreaches : u.Reaches u.root x)
    (hstable : t.InArgument x argument (Passage.Stable keep registry)) :
    (u.argumentText registry x argument).toList.filter keep =
      (t.argumentText registry x argument).toList.filter keep := by
  cases hlater : u.call? x with
  | none =>
    have hnone : t.call? x = none := by
      cases hcall : t.call? x with
      | none => rfl
      | some call =>
        obtain ⟨later, hfound, -⟩ := h.kept.call? hcall
        rw [hlater] at hfound
        cases hfound
    rw [argumentText, argumentText, hlater, hnone]
  | some later =>
    obtain ⟨call, hcall, -⟩ := h.kept.call?_of_lt hx hlater
    obtain ⟨depth, hsettled⟩ := h.settled_at hx hroot hreaches hlater
    have hpassage : t.passage (Assembly.written t) x = _ := h.before.passage_of_call? hcall
    rw [← h.before.charsAt_passage hcall (Assembly.written t),
      ← h.acyclic.charsAt_passage hlater (Assembly.written t), hsettled]
    unfold InArgument at hstable
    rw [hpassage] at hstable ⊢
    refine Passage.filter_charsAt_settle hshow depth fun slot hslot hname => ?_
    obtain ⟨hstable, hcontent⟩ := hstable slot hslot hname
    exact ⟨hstable.steady, hcontent⟩

end Tree

open Assembly (Titled registerDocument_titled)

/-- The title of a macro is recorded as it is written. The finished document shows it in the same
letters if every link in it that has a content has words in it, and altogether in the same words if
no white space goes anywhere in it. -/
theorem analyze_titled (document source : String) {id : String} {x : NodeId} {r : IdRecord}
    (hentry : (analyze .builtin document source).index.entries.get? id = some (x, r))
    (hroot : x ≠ (analyze .builtin document source).tree.root) :
    let t := (parse .builtin (tokenize source).tokens).tree
    let a := analyze .builtin document source
    r.title = Text.trim (t.argumentText .builtin x "title") ∧
      (t.InArgument x "title" (Passage.Worded .builtin) →
        Text.letters r.title = Text.letters (a.tree.argumentText .builtin x "title")) ∧
      (t.InArgument x "title" (Passage.Tight .builtin) →
        r.title = Text.trim (a.tree.argumentText .builtin x "title")) := by
  intro t a
  have hr := Registry.coherent_builtin
  obtain ⟨hgrown, hrooted, -, -⟩ := parse_tree .builtin (tokenize source).tokens
  obtain ⟨rank, final, hvisited, hshape, hkept, htree, hindex, -, -, -, -, horder⟩ :=
    analyze_visits hr document source
  obtain ⟨call, hcall, -⟩ := parse_toplevel Registry.check_builtin source
  have hsettles := analyze_settlesTo hr document source
  have htitled := (hvisited.titled hr hsettles.before
    (registerDocument_titled ⟨.builtin, document⟩ hgrown hcall)).nameDocument
  rw [hindex] at hentry
  obtain ⟨hmem, hlt, htitle⟩ := htitled.visited id x r hentry (hsettles.kept.root_eq ▸ hroot)
  have hreaches : a.tree.Reaches a.tree.root x := by
    rw [List.map_reverse, List.mem_reverse, horder, htree] at hmem
    rw [htree]
    exact (hshape.mem_preorder_iff .refl).mp hmem
  refine ⟨htitle, fun hworded => ?_, fun htight => ?_⟩
  · rw [htitle, Text.letters_trim]
    exact (hsettles.filter_argumentText Registry.showing_builtin hlt hroot hreaches
      (hworded.mono fun _ _ _ h => h.stable)).symm
  · have hkept := hsettles.filter_argumentText Registry.showing_builtin hlt hroot hreaches
      (htight.mono fun _ _ _ h => h.stable)
    rw [List.filter_true, List.filter_true, String.toList_inj] at hkept
    rw [htitle, hkept]

end Macromark

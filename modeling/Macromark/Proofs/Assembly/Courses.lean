import Macromark.Proofs.Assembly.Lockstep

/-!
# Documents that read the same

Two documents whose finished trees hold the same macros and texts, and in which
the same has been read of every macro, come to the same identifiers, numbers and
headers: each visit of one of them has a twin among those of the other one
(`Course.matched`), so that the two assemblies keep in step.
-/

namespace Macromark

open Passage (gistNames)

variable {registry : Registry} {t u : Tree} {x y : NodeId} {call call' : MacroCall}

theorem Tree.argumentText_of_gist (ht : t.Acyclic) (hu : u.Acyclic) (hcall : t.call? x = some call)
    (hcall' : u.call? y = some call') (h : t.gist registry x = u.gist registry y) {name : String}
    (hname : name ∈ gistNames) : t.argumentText registry x name = u.argumentText registry y name := by
  rw [gist, gist, Passage.gist, Passage.gist] at h
  have hchars := congrArg Prod.snd (List.map_inj_left.mp h name hname)
  simp only [bare, ht.charsAt_passage hcall, hu.charsAt_passage hcall'] at hchars
  exact String.toList_inj.mp hchars

/-- A reference without its place. -/
def Reference.unplaced (r : Reference) : Reference := { r with site := ⟨"", .origin⟩ }

namespace MacroCall

variable {later : MacroCall}

/-- Only what the arguments hold has changed. -/
def Framed (call later : MacroCall) : Prop :=
  later.name = call.name ∧
    later.arguments.map ({ · with children := [] }) = call.arguments.map ({ · with children := [] })

theorem Framed.argument? (h : call.Framed later) (name : String) :
    (later.argument? name).map ({ · with children := [] }) =
      (call.argument? name).map ({ · with children := [] }) := by
  have hfind : ∀ arguments : List Argument,
      (arguments.find? (·.name == name)).map (fun a => { a with children := [] }) =
        (arguments.map fun a => { a with children := [] }).find? (·.name == name) := by
    intro arguments
    rw [List.find?_map]
    rfl
  simp only [MacroCall.argument?, hfind, h.2]

theorem Framed.supplies (h : call.Framed later) (name : String) :
    later.supplies name = call.supplies name := by
  have hargument := congrArg (Option.map (·.supplied)) (h.argument? name)
  simp only [Option.map_map, Function.comp_def] at hargument
  simp only [MacroCall.supplies, hargument]

theorem Framed.isSome_argument? (h : call.Framed later) (name : String) :
    (later.argument? name).isSome = (call.argument? name).isSome := by
  simpa using congrArg Option.isSome (h.argument? name)

theorem Like.isSome_argument? {R : NodeId → NodeId → Prop} (h : call.Like R call') (name : String) :
    (call.argument? name).isSome = (call'.argument? name).isSome := by
  have hargument := h.argument? name
  generalize call.argument? name = a at hargument ⊢
  generalize call'.argument? name = b at hargument ⊢
  cases hargument <;> rfl

theorem Like.quiet_iff {R : NodeId → NodeId → Prop} (h : call.Like R call') :
    call.Quiet ↔ call'.Quiet := by
  have hsame : call.arguments.map (fun a => (a.name, a.supplied)) =
      call'.arguments.map fun a => (a.name, a.supplied) :=
    map_eq_of_forall₂ h.arguments fun a _ b hab => by rw [hab.name, hab.supplied]
  have himplied : ∀ {one other : MacroCall}, one.arguments.map (fun a => (a.name, a.supplied)) =
      other.arguments.map (fun a => (a.name, a.supplied)) → one.Implied → other.Implied := by
    intro one other hsame hone argument hargument hsupplied
    obtain ⟨a, ha, heq⟩ := List.mem_map.mp
      (hsame ▸ List.mem_map_of_mem (f := fun a : Argument => (a.name, a.supplied)) hargument)
    injection heq with hname hgiven
    exact hname ▸ hone a ha (hgiven.trans hsupplied)
  constructor
  · exact fun hq => ⟨himplied hsame hq.implied, h.name ▸ hq.header, h.name ▸ hq.link,
      h.name ▸ hq.inclusion⟩
  · exact fun hq => ⟨himplied hsame.symm hq.implied, h.name ▸ hq.header, h.name ▸ hq.link,
      h.name ▸ hq.inclusion⟩

end MacroCall

namespace Assembly

variable {setting : Setting} {made made' : List Arrival} {s s' : State} {a b : Arrival}
variable {R : NodeId → NodeId → Prop}

/-- The assembly of a document, from the tree as written to its end. -/
structure Course (setting : Setting) (t : Tree) (made : List Arrival) (s : State) : Prop where
  written : t.Acyclic
  root_lt : t.root < t.size
  visited : Visited setting (registerDocument setting (.initial t)) made.reverse s
  run : Agenda.Run setting ⟨[⟨t.root, none⟩], registerDocument setting (.initial t)⟩ made ⟨[], s⟩
  acyclic : s.tree.Acyclic
  rooted : s.tree.Rooted
  kept : t.Kept s.tree
  noted : Noted setting [] (registerDocument setting (.initial t))
  reached : ∀ x, s.tree.Reaches s.tree.root x → ∃ arrival ∈ made, arrival.node = x

/-- What a visit finds at a macro: as written if the author wrote it, and else it says nothing. -/
theorem Course.found (h : Course setting t made s) (hr : setting.registry.Coherent)
    (hauthor : AuthorOnly setting.registry) (ha : a ∈ made)
    (hcall : s.tree.call? a.node = some call) :
    ∃ before, a.before.tree.call? a.node = some before ∧ before.Framed call ∧
      (visitNode setting a.toVisit a.before).2.tree.call? a.node = some call ∧
      ((∃ written, t.call? a.node = some written) ∧
        (∀ argument, a.before.tree.argumentText setting.registry a.node argument =
          t.argumentText setting.registry a.node argument) ∨ call.Quiet) := by
  have hmem := List.mem_reverse.mpr ha
  obtain ⟨later, earlier, hsplit⟩ := List.append_of_mem hmem
  have hvisited := h.visited
  rw [hsplit] at hvisited
  obtain ⟨hbefore, hacyclic, hnot⟩ := hvisited.before
  obtain ⟨hkept, hlt⟩ := h.visited.kept hr hmem
  obtain ⟨before, hfound, -⟩ := hkept.call?_of_lt hlt hcall
  obtain ⟨after, hafter, hname, -, harguments⟩ := hkept.call? hfound
  obtain rfl := Option.some.inj (hcall.symm.trans hafter)
  refine ⟨before, hfound, ⟨hname, harguments⟩, (h.visited.call?_eq hr hmem).symm.trans hcall, ?_⟩
  by_cases hold : a.node < t.size
  · obtain ⟨hwritten, htexts⟩ := hbefore.written hr h.written hacyclic hold hnot setting.registry
    rw [hfound] at hwritten
    obtain ⟨written, hcall, -⟩ := Option.map_eq_some_iff.mp hwritten.symm
    exact .inl ⟨⟨written, hcall⟩, htexts⟩
  · have hnew := Nat.le_of_not_lt hold
    have himplies := h.visited.implies hr
      ((registerDocument_labeled setting t).size_eq.symm ▸ hnew) hcall
    have hother : ∀ name ∈ [MacroName.header, MacroName.crossReference, MacroName.inclusion],
        call.name ≠ name := by
      rintro name hname rfl
      exact hauthor _ hname himplies
    exact .inr ⟨h.visited.implied hr hnew hcall, hother _ (by simp), hother _ (by simp),
      hother _ (by simp)⟩

/-- Visits of twins are matched where the same is read of both. -/
theorem Course.matched (h : Course setting t made s) (h' : Course setting u made' s')
    (hr : setting.registry.Coherent) (hauthor : AuthorOnly setting.registry)
    (hlike : s.tree.Likeness s'.tree R)
    (hgists : ∀ x y, R x y → t.gist setting.registry x = u.gist setting.registry y)
    (ha : a ∈ made) (hb : b ∈ made') (hab : R a.node b.node) : a.Matched setting R b := by
  obtain ⟨hkept, hlt⟩ := h.visited.kept hr (List.mem_reverse.mpr ha)
  obtain ⟨hkept', hlt'⟩ := h'.visited.kept hr (List.mem_reverse.mpr hb)
  have hroot : a.node = a.before.tree.root ↔ b.node = b.before.tree.root := by
    rw [← hkept.root_eq, ← hkept'.root_eq]
    constructor
    · intro hroot
      exact hlike.right (hroot ▸ hab) hlike.root
    · intro hroot
      exact hlike.left (hroot ▸ hab) hlike.root
  cases hcall : s.tree.call? a.node with
  | none =>
    have hfound : ∀ {t u : Tree} {x : NodeId}, t.Kept u → u.call? x = none → t.call? x = none := by
      intro t u x hkept hnone
      cases hcall : t.call? x with
      | none => rfl
      | some call =>
        obtain ⟨later, hlater, -⟩ := hkept.call? hcall
        rw [hnone] at hlater
        cases hlater
    have hnone := hlike.call? hab
    rw [hcall] at hnone
    cases hcall' : s'.tree.call? b.node with
    | none => exact .nothing (hfound hkept hcall) (hfound hkept' hcall')
    | some call' =>
      rw [hcall'] at hnone
      cases hnone
  | some call =>
    obtain ⟨call', hcall', hcalls⟩ := hlike.call?_of_some hab hcall
    obtain ⟨before, hfound, hframed, hleft, hspeech⟩ := h.found hr hauthor ha hcall
    obtain ⟨before', hfound', hframed', hleft', hspeech'⟩ := h'.found hr hauthor hb hcall'
    refine .call hfound hfound' hroot ?_ hleft hleft' hcalls
    by_cases hquiet : call.Quiet
    · have hquiet' := hcalls.quiet_iff.mp hquiet
      exact .inl ⟨hquiet.congr hframed.1 hframed.2, hquiet'.congr hframed'.1 hframed'.2⟩
    · obtain ⟨⟨written, hwritten⟩, htexts⟩ := hspeech.resolve_right hquiet
      obtain ⟨⟨written', hwritten'⟩, htexts'⟩ :=
        hspeech'.resolve_right (mt hcalls.quiet_iff.mpr hquiet)
      refine .inr ⟨?_, fun name => ?_, fun name => ?_, fun name hname => ?_⟩
      · rw [← hframed.1, ← hframed'.1, hcalls.name]
      · rw [← hframed.supplies, ← hframed'.supplies, hcalls.supplies]
      · rw [← hframed.isSome_argument?, ← hframed'.isSome_argument?]
        exact hcalls.isSome_argument? name
      · rw [htexts, htexts']
        exact Tree.argumentText_of_gist h.written h'.written hwritten hwritten' (hgists _ _ hab) hname

theorem registerDocument_alike (setting : Setting) (ht : t.root < t.size) (hu : u.root < u.size)
    (hroot : R t.root u.root) :
    (registerDocument setting (.initial t)).Alike R (registerDocument setting (.initial u)) := by
  have hempty : t.isEmpty = false := Tree.isEmpty_of_lt ht
  have hempty' : u.isEmpty = false := Tree.isEmpty_of_lt hu
  have hheaders : HeaderTree.Like R (.new (some t.root)) (.new (some u.root)) := by
    refine ⟨rfl, fun id => ?_, rfl, rfl⟩
    simp only [HeaderTree.get?, HeaderTree.new]
    cases id with
    | zero => exact .some ⟨.some hroot, rfl, rfl, rfl⟩
    | succ id => exact .none
  have hinitial : State.Alike R (.initial t) (.initial u) := by
    simp only [State.initial, hempty, hempty', Bool.false_eq_true, if_false]
    exact ⟨fun _ => .none, hheaders, rfl, rfl, rfl, rfl, rfl⟩
  unfold registerDocument
  cases toplevelId setting with
  | none => exact hinitial
  | some id =>
    have hrecord : IdRecord.Like
        (.define id MacroName.toplevel (site setting ((State.initial t).tree.position t.root)))
        (.define id MacroName.toplevel (site setting ((State.initial u).tree.position u.root))) := rfl
    obtain ⟨_, _, hi, hj⟩ | ⟨_, _, hi, hj, hindex⟩ := hinitial.index.insert hroot hrecord
    · exact absurd hi (by simp [Index.insert, Index.record?, State.initial, Index.empty])
    · have hroots : ∀ t : Tree, (State.initial t).tree = t := fun _ => rfl
      simp only [hroots] at hi hj ⊢
      rw [hi, hj]
      exact ⟨hindex, hinitial.headers, hinitial.counters, hinitial.headerIds, hinitial.scopes,
        hinitial.lastHeader, hinitial.aborted⟩

theorem documentTitle_eq {h h' : HeaderTree} (hlike : t.Likeness u R) (ht : t.Acyclic)
    (hu : u.Acyclic) (hh : h.Like R h') :
    documentTitle registry t h = documentTitle registry u h' := by
  simp only [documentTitle, hlike.argumentText_eq ht hu hlike.root]
  have hfirst := hh.head?_nodes
  congr 1
  generalize h.headers.filterMap (·.2.node) = xs at hfirst
  generalize h'.headers.filterMap (·.2.node) = ys at hfirst
  cases xs with
  | nil =>
    cases ys with
    | nil => rfl
    | cons y ys => cases hfirst
  | cons x xs =>
    cases ys with
    | nil => cases hfirst
    | cons y ys =>
      cases hfirst with
      | some hxy => exact hlike.argumentText_eq ht hu hxy "title"

theorem nameDocument_alike (setting : Setting) (h : s.Alike R s') (hlike : s.tree.Likeness s'.tree R)
    (hs : s.tree.Acyclic) (hs' : s'.tree.Acyclic) :
    (nameDocument setting s).index.Like R (nameDocument setting s').index := by
  unfold nameDocument
  cases toplevelId setting with
  | none => exact h.index
  | some id =>
    rw [documentTitle_eq hlike hs hs' h.headers]
    exact h.index.modify id fun r r' hr => by rw [hr]; rfl

/-- Assemblies of documents that read the same. -/
theorem Course.alike (h : Course setting t made s) (h' : Course setting u made' s')
    (hr : setting.registry.Coherent) (hauthor : AuthorOnly setting.registry)
    (hlike : s.tree.Likeness s'.tree R)
    (hgists : ∀ x y, R x y → t.gist setting.registry x = u.gist setting.registry y) :
    List.Forall₂ (Arrival.Like R) made made' ∧ s.Alike R s' := by
  have hroot : R t.root u.root := by
    rw [← h.kept.root_eq, ← h'.kept.root_eq]
    exact hlike.root
  have hstart := registerDocument_alike setting h.root_lt h'.root_lt hroot
  exact h.run.alike h'.run (.cons ⟨hroot, rfl⟩ .nil) hstart fun a ha b hb =>
    h.matched h' hr hauthor hlike hgists ha hb

-- ----------------------------------------------------------------------------
-- Links
-- ----------------------------------------------------------------------------

/-- Twin links ask for the same targets, wherever they stand. -/
theorem linkRows_unplaced (hab : a.Like R b) (hcall : a.before.tree.call? a.node = some call)
    (hcall' : b.before.tree.call? b.node = some call')
    (hspeech : Says setting.registry a.before.tree b.before.tree a.node b.node call call') :
    (linkRows setting a).map Reference.unplaced = (linkRows setting b).map Reference.unplaced := by
  have hscopes : scopesAround a.before = scopesAround b.before := by
    simp only [scopesAround, scopesOf, hab.before.scopes, hab.before.headers.chain]
  have hsource : source setting a.before = source setting b.before := by
    simp only [source, hab.before.headerIds, HeaderTree.current, hab.before.headers.chain]
  have hcandidates : linkCandidates setting a.before a.node =
      linkCandidates setting b.before b.node := by
    simp only [linkCandidates, hspeech.text "magic" (by decide),
      hspeech.text "href" (by decide), hscopes]
  have hhref := hspeech.declares "href"
  simp only [linkRows, Tree.href?, Tree.name?, hcall, hcall', Option.bind_some, Option.map_some,
    hspeech.name, hcandidates, hab.titleOf, hsource]
  generalize call.argument? "href" = href at hhref ⊢
  generalize call'.argument? "href" = href' at hhref ⊢
  cases href with
  | none =>
    cases href' with
    | none => rfl
    | some href' => cases hhref
  | some href =>
    cases href' with
    | none => cases hhref
    | some href' =>
      simp only [Option.map_some]
      split
      · simp only [List.map_map]
        rfl
      · rfl

theorem Course.linkRows_eq (h : Course setting t made s) (hr : setting.registry.Coherent)
    (hauthor : AuthorOnly setting.registry) (ha : a ∈ made) {position : Position}
    (hname : s.tree.name? a.node = some MacroName.crossReference)
    (hhref : s.tree.href? a.node = some position) :
    s.references.filter (·.groupKey = ⟨setting.document, position, .crossReference⟩) =
      linkRows setting a := by
  rw [h.visited.filter_groupKey hr hauthor h.noted (registerDocument_frame _ _).1
    (List.mem_reverse.mpr ha) hname hhref]
  exact crossReferences_linkNotes setting a

/-- Twin links have the same references, wherever they stand. -/
theorem Course.links (h : Course setting t made s) (h' : Course setting u made' s')
    (hr : setting.registry.Coherent) (hauthor : AuthorOnly setting.registry)
    (hlike : s.tree.Likeness s'.tree R)
    (hgists : ∀ x y, R x y → t.gist setting.registry x = u.gist setting.registry y)
    (hx : s.tree.Reaches s.tree.root x) (hxy : R x y)
    (hname : s.tree.name? x = some MacroName.crossReference) {position position' : Position}
    (hhref : s.tree.href? x = some position) (hhref' : s'.tree.href? y = some position') :
    (s.references.filter (·.groupKey = ⟨setting.document, position, .crossReference⟩)).map
        Reference.unplaced =
      (s'.references.filter (·.groupKey = ⟨setting.document, position', .crossReference⟩)).map
        Reference.unplaced := by
  obtain ⟨a, ha, rfl⟩ := h.reached x hx
  obtain ⟨hmade, -⟩ := h.alike h' hr hauthor hlike hgists
  obtain ⟨i, hi, rfl⟩ := List.mem_iff_getElem.mp ha
  have hi' : i < made'.length := hmade.length_eq ▸ hi
  have hab : made[i].Like R made'[i] := by
    simpa using hmade.get hi hi'
  obtain rfl := hlike.right hxy hab.node
  have hb := List.getElem_mem hi'
  obtain ⟨call, hcall, hlink⟩ := Option.map_eq_some_iff.mp hname
  obtain ⟨call', hcall', hcalls⟩ := hlike.call?_of_some hxy hcall
  have hname' : s'.tree.name? made'[i].node = some MacroName.crossReference := by
    rw [Tree.name?, hcall', Option.map_some, ← hcalls.name, hlink]
  rw [h.linkRows_eq hr hauthor ha hname hhref, h'.linkRows_eq hr hauthor hb hname' hhref']
  obtain ⟨before, hfound, hframed, hleft, -⟩ := h.found hr hauthor ha hcall
  cases h.matched h' hr hauthor hlike hgists ha hb hxy with
  | nothing hnone =>
    rw [hfound] at hnone
    cases hnone
  | call hfound' hother hroot hspeech =>
    obtain rfl := Option.some.inj (hfound.symm.trans hfound')
    rcases hspeech with ⟨hquiet, -⟩ | hspeech
    · exact absurd (hframed.1.symm.trans hlink) hquiet.link
    · exact linkRows_unplaced hab hfound hother hspeech

end Assembly

open Assembly (Course Setting depthBound nameDocument registerDocument visitAll visits
  visits_visited)

theorem analyze_course {registry : Registry} (hr : registry.Coherent) (document source : String) :
    let a := analyze registry document source
    let setting : Setting := ⟨registry, document⟩
    let t := (parse registry (tokenize source).tokens).tree
    ∃ s, Course setting t (visits setting t) s ∧ a.tree = s.tree ∧
      a.index = (nameDocument setting s).index ∧ a.headers = s.headers ∧
      a.contribution.references = s.references ∧ a.aborted = s.aborted := by
  intro a setting t
  obtain ⟨hgrown, hrooted, -, -⟩ := parse_tree registry (tokenize source).tokens
  obtain ⟨rank, hvisited, hrun, hshape, hkept, horder⟩ := visits_visited setting hr hgrown hrooted
  have hassemble := assemble_eq registry document hrooted
  have hcourse : Course setting t (visits setting t)
      (visitAll setting (depthBound t) ⟨t.root, none⟩ (registerDocument setting (.initial t))) :=
    ⟨hgrown.acyclic, hrooted.root_lt, hvisited, hrun, hshape.acyclic, hshape.toRooted, hkept,
      parse_noted registry document source, fun x hx => hshape.exists_arrival horder hx⟩
  exact ⟨_, hcourse, congrArg (·.tree) hassemble, congrArg (·.index) hassemble,
    congrArg (·.headers) hassemble, congrArg (·.contribution.references) hassemble,
    congrArg (·.aborted) hassemble⟩

end Macromark

import Macromark.Proofs.Assembly.Attribution

/-!
# What a synonym stands for

A synonym is recorded with the last header, and every header that got a name is itself the
last one from then on (`Standing`). So the record of a synonym names a header that is none,
and every other record is that of a macro which has not been written as a synonym
(`Visited.led`): the exception, a synonym before all headers, is reported.
-/

namespace Macromark
namespace Assembly

variable {setting : Setting} {s u v : State} {visit : Visit} {node : NodeId} {call : MacroCall}
variable {t : Tree} {id : String} {made : List Arrival} {r : IdRecord}

-- ----------------------------------------------------------------------------
-- One visit
-- ----------------------------------------------------------------------------

structure Enters (s u : State) (node : NodeId) (id : String) (r : IdRecord) : Prop where
  free : s.index.entries.get? id = none
  entries : ∀ other, u.index.entries.get? other =
    if id = other then some (node, r) else s.index.entries.get? other

/-- What a visit of `node` makes of the synonyms: nothing, or it enters a macro of its own, which
may be the last header then, or it enters a synonym of the last header. -/
inductive Entry (setting : Setting) (node : NodeId) (s u : State) : Prop
  | nothing : u.index = s.index → u.lastHeader = s.lastHeader → Entry setting node s u
  | own {id : String} {r : IdRecord} : Enters s u node id r → r.synonymOf = none →
      s.tree.isSynonym setting.registry node = false →
      u.lastHeader = s.lastHeader ∨ u.lastHeader = some id → Entry setting node s u
  | synonym {id : String} {r : IdRecord} : Enters s u node id r → r.synonymOf = s.lastHeader →
      u.lastHeader = s.lastHeader →
      (s.lastHeader = none → ∃ d ∈ u.diagnostics, d.problem = .orphanSynonym) →
      Entry setting node s u

/-- No report is taken back meanwhile. -/
structure Standing (setting : Setting) (node : NodeId) (s u : State) : Prop where
  reports : s.diagnostics <+: u.diagnostics
  entry : Entry setting node s u

theorem Enters.modify (h : Enters s u node id r) (f : IdRecord → IdRecord) :
    Enters s { u with index := u.index.modify id f } node id (f r) := by
  refine ⟨h.free, fun other => ?_⟩
  simp only [Index.modify, OrderedMap.get?_modify, h.entries]
  split <;> rfl

theorem Enters.congr (h : Enters s u node id r) (hindex : v.index = u.index) :
    Enters s v node id r := ⟨h.free, hindex ▸ h.entries⟩

theorem Standing.congr (h : Standing setting node s u) (hindex : v.index = u.index)
    (hlast : v.lastHeader = u.lastHeader) (hreports : v.diagnostics = u.diagnostics) :
    Standing setting node s v := by
  refine ⟨hreports ▸ h.reports, ?_⟩
  cases h.entry with
  | nothing hsame hlast' => exact .nothing (hindex.trans hsame) (hlast.trans hlast')
  | own henters hown hsynonym hlast' =>
    exact .own (henters.congr hindex) hown hsynonym (hlast ▸ hlast')
  | synonym henters hof hlast' horphan =>
    exact .synonym (henters.congr hindex) hof (hlast.trans hlast') (hreports ▸ horphan)

theorem Standing.framed {earlier : State} (h : Standing setting node s u)
    (hnames : SameNames earlier s) (hlast : s.lastHeader = earlier.lastHeader)
    (hreports : earlier.diagnostics <+: s.diagnostics) : Standing setting node earlier u := by
  obtain ⟨htree, hindex, -, -⟩ := hnames
  refine ⟨hreports.trans h.reports, ?_⟩
  cases h.entry with
  | nothing hsame hlast' => exact .nothing (hsame.trans hindex) (hlast'.trans hlast)
  | own henters hown hsynonym hlast' =>
    exact .own ⟨hindex ▸ henters.free, hindex ▸ henters.entries⟩ hown (htree ▸ hsynonym)
      (hlast ▸ hlast')
  | synonym henters hof hlast' horphan =>
    exact .synonym ⟨hindex ▸ henters.free, hindex ▸ henters.entries⟩ (hof.trans hlast)
      (hlast'.trans hlast) fun hnone => horphan (hlast.trans hnone)

theorem assignId_reports (setting : Setting) (s : State) (node : NodeId) (call : MacroCall)
    (definition : MacroDef) (scope : Option String) (numbered : Bool) :
    s.diagnostics <+: (assignId setting s node call definition scope numbered).2.diagnostics := by
  unfold assignId
  split
  · exact List.prefix_rfl
  · simp only
    split
    · exact List.prefix_append ..
    · exact List.prefix_rfl

theorem assignId_enters (setting : Setting) (s : State) (node : NodeId) (call : MacroCall)
    (definition : MacroDef) (scope : Option String) (numbered : Bool) :
    let result := assignId setting s node call definition scope numbered
    (result.1 = none → result.2.index = s.index) ∧
      ∀ id, result.1 = some id → ∃ r, Enters s result.2 node id r ∧ r.synonymOf = none := by
  unfold assignId
  split
  · simp
  · simp only
    split
    · exact ⟨fun _ => rfl, nofun⟩
    · next name _ _ index hindex =>
      refine ⟨nofun, fun id hid => ?_⟩
      obtain rfl := Option.some.inj hid
      let record := { recordFor setting s node definition (Identifier.underScope scope name) with
        count := if numbered then some ((s.counters.get? definition.name).getD 0 + 1) else none }
      refine ⟨record, ⟨?_, fun other => ?_⟩, rfl⟩
      · unfold Index.insert at hindex
        split at hindex
        · cases hindex
        · next hfree => exact Option.map_eq_none_iff.mp hfree
      · rw [Index.insert_ok hindex, OrderedMap.get?_insert]
        rfl

theorem assignId_standing (hsynonym : s.tree.isSynonym setting.registry node = false)
    (call : MacroCall) (definition : MacroDef) (scope : Option String) :
    Standing setting node s (assignId setting s node call definition scope true).2 := by
  obtain ⟨hnone, henters⟩ := assignId_enters setting s node call definition scope true
  have hlast := assignId_lastHeader setting s node call definition scope true
  refine ⟨assignId_reports .., ?_⟩
  generalize assignId setting s node call definition scope true = assigned at hnone henters hlast ⊢
  obtain ⟨given, u⟩ := assigned
  cases given with
  | none => exact .nothing (hnone rfl) hlast
  | some id =>
    obtain ⟨r, henters, hown⟩ := henters id rfl
    exact .own henters hown hsynonym (.inl hlast)

theorem visitSynonym_standing (call : MacroCall) (definition : MacroDef) (level : Level) :
    Standing setting node s (visitSynonym setting s node call definition level).2 := by
  obtain ⟨hnone, henters⟩ :=
    assignId_enters setting s node call definition (outerScope s) false
  have hlast := assignId_lastHeader setting s node call definition (outerScope s) false
  have hreports := assignId_reports setting s node call definition (outerScope s) false
  unfold visitSynonym
  generalize assignId setting s node call definition (outerScope s) false = assigned
    at hnone henters hlast hreports ⊢
  obtain ⟨given, u⟩ := assigned
  cases given with
  | none => exact ⟨hreports, .nothing (hnone rfl) hlast⟩
  | some id =>
    obtain ⟨r, henters, -⟩ := henters id rfl
    have hentered := henters.modify fun record =>
      { record with level := some level, synonymOf := u.lastHeader }
    simp only at hlast hreports hentered ⊢
    split
    · next target htarget =>
      refine ⟨hreports, .synonym (r := { r with level := some level, synonymOf := u.lastHeader })
        (hentered.congr rfl) hlast hlast fun hnone => ?_⟩
      rw [htarget, hnone] at hlast
      cases hlast
    · refine ⟨hreports.trans (List.prefix_append ..),
        .synonym (r := { r with level := some level, synonymOf := u.lastHeader })
          (hentered.congr rfl) hlast hlast fun _ => ?_⟩
      exact ⟨_, List.mem_append_right _ (List.mem_singleton_self _), rfl⟩

theorem nameHeader_standing (hsynonym : s.tree.isSynonym setting.registry node = false)
    (call : MacroCall) (definition : MacroDef) (linked : HeaderTree.Entered) (level : Level) :
    Standing setting node s (nameHeader setting s node call definition linked level).2 := by
  obtain ⟨hnone, henters⟩ := assignId_enters setting s node call definition (outerScope s) true
  have hlast := assignId_lastHeader setting s node call definition (outerScope s) true
  have hreports := assignId_reports setting s node call definition (outerScope s) true
  unfold nameHeader
  simp only
  generalize Text.isTruthy (text setting s node "scope") = isScope
  generalize assignId setting s node call definition (outerScope s) true = assigned
    at hnone henters hlast hreports ⊢
  obtain ⟨given, u⟩ := assigned
  cases given with
  | none => exact ⟨hreports, .nothing (hnone rfl) hlast⟩
  | some id =>
    obtain ⟨r, henters, hown⟩ := henters id rfl
    have hentered := henters.modify fun record => { record with level := some level, isScope }
    exact ⟨hreports, .own (hentered.congr rfl) hown hsynonym (.inr rfl)⟩

theorem visitHeader_standing (call : MacroCall) (definition : MacroDef) :
    Standing setting node s (visitHeader setting s node call definition).2 := by
  obtain ⟨hnames, -⟩ := levelOf_names setting s node
  have hlast := levelOf_lastHeader setting s node
  have hreports : s.diagnostics <+: (levelOf setting s node).2.diagnostics := by
    unfold levelOf
    simp only
    split
    · exact List.prefix_rfl
    · exact List.prefix_append ..
  rw [visitHeader_eq]
  generalize levelOf setting s node = leveled at hnames hlast hreports ⊢
  obtain ⟨level, u⟩ := leveled
  simp only at hnames hlast hreports ⊢
  split
  · exact (visitSynonym_standing call definition level).framed hnames hlast hreports
  · next hsynonym =>
    obtain ⟨hlinked, -⟩ := linkHeader_names setting u node level
    have hother : (linkHeader setting u node level).2.tree.isSynonym setting.registry node =
        false := by
      rw [hlinked.tree]
      simpa [Tree.isSynonym, text] using fun _ => hsynonym
    have hmore : u.diagnostics <+: (linkHeader setting u node level).2.diagnostics := by
      obtain ⟨reports, aborted, heq, -⟩ := linkHeader_eq setting u node level
      rw [heq]
      exact List.prefix_append ..
    exact (nameHeader_standing hother call definition _ level).framed (hnames.trans hlinked)
      ((linkHeader_lastHeader ..).trans hlast) (hreports.trans hmore)

/-- What comes before the assignment of an identifier may note references. -/
theorem assignId_standing_behind (hnames : SameNames s u)
    (hrest : u.lastHeader = s.lastHeader ∧ u.diagnostics = s.diagnostics)
    (hsynonym : s.tree.isSynonym setting.registry node = false) (call : MacroCall)
    (definition : MacroDef) (scope : Option String) :
    Standing setting node s (assignId setting u node call definition scope true).2 :=
  (assignId_standing (hnames.tree ▸ hsynonym) call definition scope).framed hnames hrest.1
    (hrest.2 ▸ List.prefix_rfl)

theorem visitLink_rest (setting : Setting) (s : State) (node : NodeId) (call : MacroCall)
    (titleOf : Option String) :
    (visitLink setting s node call titleOf).lastHeader = s.lastHeader ∧
      (visitLink setting s node call titleOf).diagnostics = s.diagnostics := by
  unfold visitLink
  split <;> exact ⟨rfl, rfl⟩

theorem visitInclusion_rest (setting : Setting) (s : State) (node : NodeId) (call : MacroCall) :
    (visitInclusion setting s node call).lastHeader = s.lastHeader ∧
      (visitInclusion setting s node call).diagnostics = s.diagnostics := by
  unfold visitInclusion
  split <;> exact ⟨rfl, rfl⟩

theorem visitCall_standing (hcall : s.tree.call? visit.node = some call) :
    Standing setting visit.node s (visitCall setting s visit call).2 := by
  have hname : s.tree.name? visit.node = some call.name := by
    rw [Tree.name?, hcall, Option.map_some]
  unfold visitCall
  split
  · exact ⟨List.prefix_rfl, .nothing rfl rfl⟩
  · split
    · exact visitHeader_standing call _
    · next hheader =>
      have hother : s.tree.isSynonym setting.registry visit.node = false := by
        simp [Tree.isSynonym, hname, hheader]
      simp only
      split
      · exact assignId_standing_behind (visitLink_names ..).1 (visitLink_rest ..) hother ..
      · split
        · exact assignId_standing_behind (visitInclusion_names ..).1 (visitInclusion_rest ..)
            hother ..
        · exact assignId_standing hother ..

theorem visitNode_standing (setting : Setting) (visit : Visit) (s : State) :
    Standing setting visit.node s (visitNode setting visit s).2 := by
  cases hcall : s.tree.call? visit.node with
  | none =>
    simp only [visitNode, hcall]
    exact ⟨List.prefix_rfl, .nothing rfl rfl⟩
  | some call =>
    rw [visitNode_rest hcall]
    split
    · exact ⟨List.prefix_rfl, .nothing rfl rfl⟩
    · exact (visitCall_standing hcall).congr rfl rfl rfl

-- ----------------------------------------------------------------------------
-- All visits
-- ----------------------------------------------------------------------------

/-- An identifier is that of a macro which has not been written as a synonym. -/
def Owned (registry : Registry) (t : Tree) (index : Index) (id : String) : Prop :=
  ∃ x r, index.entries.get? id = some (x, r) ∧ t.isSynonym registry x = false

/-- The last header is no synonym, and neither is what a synonym stands for, nor what stands for
nothing else, unless it was reported. -/
structure Led (registry : Registry) (t : Tree) (s : State) : Prop where
  lastHeader : ∀ target, s.lastHeader = some target → Owned registry t s.index target
  synonyms : ∀ id x r target, s.index.entries.get? id = some (x, r) → r.synonymOf = some target →
    Owned registry t s.index target
  others : ∀ id x r, s.index.entries.get? id = some (x, r) → r.synonymOf = none →
    t.isSynonym registry x = false ∨ ∃ d ∈ s.diagnostics, d.problem = .orphanSynonym

theorem Enters.owned {registry : Registry} {target : String} (h : Enters s u node id r)
    (howned : Owned registry t s.index target) : Owned registry t u.index target := by
  obtain ⟨x, found, hfound, hother⟩ := howned
  have hne : id ≠ target := by
    rintro rfl
    simp [h.free] at hfound
  exact ⟨x, found, by rw [h.entries, if_neg hne, hfound], hother⟩

theorem Led.enter {registry : Registry} (h : Led registry t s) (henters : Enters s u node id r)
    (hlast : ∀ target, u.lastHeader = some target → Owned registry t u.index target)
    (hmore : s.diagnostics <+: u.diagnostics)
    (hsynonym : ∀ target, r.synonymOf = some target → Owned registry t u.index target)
    (hother : r.synonymOf = none →
      t.isSynonym registry node = false ∨ ∃ d ∈ u.diagnostics, d.problem = .orphanSynonym) :
    Led registry t u := by
  refine ⟨hlast, fun other x found target hentry hof => ?_, fun other x found hentry hof => ?_⟩
  · rw [henters.entries] at hentry
    split at hentry
    · obtain ⟨rfl, rfl⟩ := Prod.mk.inj (Option.some.inj hentry)
      exact hsynonym target hof
    · exact henters.owned (h.synonyms other x found target hentry hof)
  · rw [henters.entries] at hentry
    split at hentry
    · obtain ⟨rfl, rfl⟩ := Prod.mk.inj (Option.some.inj hentry)
      exact hother hof
    · exact (h.others other x found hentry hof).imp_right
        (Exists.imp fun _ => And.imp_left (hmore.subset ·))

theorem Standing.led {registry : Registry} (h : Standing setting node s u) (hs : Led registry t s)
    (hwritten : s.tree.isSynonym setting.registry node = false →
      t.isSynonym registry node = false) : Led registry t u := by
  obtain ⟨hreports, hentry⟩ := h
  cases hentry with
  | nothing hindex hlast =>
    refine ⟨?_, ?_, fun id x r hfound hof => ?_⟩
    · rw [hlast, hindex]
      exact hs.lastHeader
    · rw [hindex]
      exact hs.synonyms
    · rw [hindex] at hfound
      exact (hs.others id x r hfound hof).imp_right
        (Exists.imp fun _ => And.imp_left (hreports.subset ·))
  | @own id r henters hown hother hlast =>
    have hself : Owned registry t u.index id :=
      ⟨node, r, by rw [henters.entries, if_pos rfl], hwritten hother⟩
    refine hs.enter henters (fun target htarget => ?_) hreports (fun target hof => ?_)
      fun _ => .inl (hwritten hother)
    · rcases hlast with hlast | hlast
      · exact henters.owned (hs.lastHeader target (hlast.symm.trans htarget))
      · exact Option.some.inj (hlast.symm.trans htarget) ▸ hself
    · simp [hown] at hof
  | synonym henters hof hlast horphan =>
    have howned : ∀ target, s.lastHeader = some target → Owned registry t u.index target :=
      fun target htarget => henters.owned (hs.lastHeader target htarget)
    exact hs.enter henters (fun target htarget => howned target (hlast.symm.trans htarget))
      hreports (fun target htarget => howned target (hof.symm.trans htarget))
      fun hnone => .inr (horphan (hof.symm.trans hnone))

theorem Visited.led (h : Visited setting (registerDocument setting (.initial t)) made s)
    (hr : setting.registry.Coherent) (ht : t.Acyclic)
    (hstart : Led setting.registry t (registerDocument setting (.initial t))) :
    Led setting.registry t s := by
  induction h with
  | start => exact hstart
  | @visit earlier s rank visit hvisited hshape hnot _ _ ih =>
    refine (visitNode_standing setting visit s).led ih fun hother => ?_
    by_cases hlt : visit.node < t.size
    · rwa [← hvisited.isSynonym hr ht hshape.acyclic hlt hnot]
    · -- the compiler writes no header
      have hnone : t.name? visit.node = none := by
        rw [Tree.name?, Tree.call?, Tree.get?_eq_none (Nat.le_of_not_lt hlt)]
        rfl
      simp [Tree.isSynonym, hnone]

theorem registerDocument_led (setting : Setting)
    (hroot : t.name? t.root = some MacroName.toplevel) :
    Led setting.registry t (registerDocument setting (.initial t)) := by
  have hother : t.isSynonym setting.registry t.root = false := by
    simp [Tree.isSynonym, hroot, MacroName.toplevel, MacroName.header]
  have hempty : Led setting.registry t (.initial t) := by
    constructor <;> simp [State.initial, Index.empty]
  unfold registerDocument
  split
  · exact hempty
  · simp only
    split
    · next document _ _ index hindex =>
      obtain rfl := Index.insert_ok hindex
      let record := IdRecord.define document MacroName.toplevel (site setting (t.position t.root))
      exact hempty.enter (r := record) ⟨rfl, fun other => OrderedMap.get?_insert ..⟩
        (by simp [State.initial]) List.prefix_rfl (fun _ hof => by cases hof) fun _ => .inl hother
    · exact hempty

theorem Led.nameDocument {registry : Registry} (h : Led registry t s) (setting : Setting) :
    Led registry t (nameDocument setting s) := by
  obtain ⟨title, hentries⟩ := nameDocument_entries setting s
  have hrest := nameDocument_eq setting s
  have howned : ∀ target, Owned registry t s.index target →
      Owned registry t (Assembly.nameDocument setting s).index target := by
    rintro target ⟨x, r, hfound, hother⟩
    rw [Owned, hentries, hfound, Option.map_some]
    split <;> exact ⟨x, _, rfl, hother⟩
  have hbefore : ∀ id x r, (Assembly.nameDocument setting s).index.entries.get? id = some (x, r) →
      ∃ old, s.index.entries.get? id = some (x, old) ∧ old.synonymOf = r.synonymOf := by
    intro id x r hentry
    rw [hentries] at hentry
    obtain ⟨⟨y, old⟩, hold, heq⟩ := Option.map_eq_some_iff.mp hentry
    split at heq <;> obtain ⟨rfl, rfl⟩ := Prod.mk.inj heq <;> exact ⟨old, hold, rfl⟩
  refine ⟨fun target htarget => howned target (h.lastHeader target ?_), ?_, ?_⟩
  · rwa [hrest] at htarget
  · intro id x r target hentry hof
    obtain ⟨old, hold, hsame⟩ := hbefore id x r hentry
    exact howned target (h.synonyms id x old target hold (hsame.trans hof))
  · intro id x r hentry hof
    obtain ⟨old, hold, hsame⟩ := hbefore id x r hentry
    rw [hrest]
    exact h.others id x old hold (hsame.trans hof)

/-- What a record stands for, if every synonym follows a header. -/
theorem Led.owned {registry : Registry} {r : IdRecord} (h : Led registry t s)
    (hfollows : ∀ d ∈ s.diagnostics, d.problem ≠ .orphanSynonym)
    (hrecord : s.index.record? id = some r) : Owned registry t s.index (r.synonymOf.getD id) := by
  obtain ⟨⟨x, r⟩, hentry, rfl⟩ := Option.map_eq_some_iff.mp hrecord
  cases hof : r.synonymOf with
  | none =>
    rcases h.others id x r hentry hof with hother | ⟨d, hd, horphan⟩
    · exact ⟨x, r, hentry, hother⟩
    · exact absurd horphan (hfollows d hd)
  | some target => exact h.synonyms id x r target hentry hof

end Assembly

open Assembly (nameDocument nameDocument_eq registerDocument_led)

/-- What the record of an identifier stands for has not been written as a synonym, if every synonym
follows a header. -/
theorem analyze_named {registry : Registry} (hcheck : registry.check = .ok ())
    (hr : registry.Coherent) (document source : String) :
    let a := analyze registry document source
    (∀ d ∈ a.diagnostics, d.problem ≠ .orphanSynonym) →
    ∀ id record, a.index.record? id = some record → ∃ x named,
      (record.synonymOf.bind a.index.record?).getD record = named ∧
        a.index.entries.get? named.id = some (x, named) ∧
        (parse registry (tokenize source).tokens).tree.isSynonym registry x = false := by
  intro a hfollows id record hrecord
  obtain ⟨rank, final, hvisited, -, -, -, hindex, -, -, hdiagnostics, -⟩ :=
    analyze_visits hr document source
  obtain ⟨call, hroot, hname⟩ := parse_toplevel hcheck source
  have hready := parse_ready hcheck hr document source
  have hled := (hvisited.led hr hready.acyclic (registerDocument_led ⟨registry, document⟩
    (by rw [Tree.name?, hroot, Option.map_some, hname]))).nameDocument ⟨registry, document⟩
  have hfollows : ∀ d ∈ (nameDocument ⟨registry, document⟩ final).diagnostics,
      d.problem ≠ .orphanSynonym := fun d hd => hfollows d (by
    rw [hdiagnostics]
    exact List.mem_append_right _ (by rwa [nameDocument_eq] at hd))
  have hrecord' : (nameDocument ⟨registry, document⟩ final).index.record? id = some record :=
    hindex ▸ hrecord
  obtain ⟨x, named, hentry, hother⟩ := hled.owned hfollows hrecord'
  rw [← hindex] at hentry
  have hnamed : a.index.record? (record.synonymOf.getD id) = some named := by
    rw [Index.record?, hentry, Option.map_some]
  have hkeyed := ((analyze_sound registry document source).index.record? hnamed).keyed
  refine ⟨x, named, ?_, hkeyed ▸ hentry, hother⟩
  cases hof : record.synonymOf with
  | none =>
    rw [hof] at hnamed
    exact Option.some.inj (hrecord.symm.trans hnamed)
  | some target =>
    rw [hof] at hnamed
    exact congrArg (·.getD record) hnamed

end Macromark

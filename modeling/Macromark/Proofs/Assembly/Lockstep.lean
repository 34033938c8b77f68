import Macromark.Proofs.Assembly.Quiet
import Macromark.Proofs.Assembly.Titling
import Macromark.Proofs.Assembly.Twins

/-!
# Two assemblies in lockstep

Where every visit of one assembly finds a macro that says the same as the one
that the other assembly finds at the same time, they come to the same
identifiers, numbers, headers and scopes (`State.Alike`), whatever the numbers
and the positions of the nodes are.
-/

namespace Macromark

variable {R : NodeId → NodeId → Prop}

-- ----------------------------------------------------------------------------
-- Headers
-- ----------------------------------------------------------------------------

structure HeaderNode.Like (R : NodeId → NodeId → Prop) (a b : HeaderNode) : Prop where
  node : Option.Rel R a.node b.node
  parent : a.parent = b.parent
  children : a.children = b.children
  level : a.level = b.level

/-- Trees of headers that differ in the numbers of the nodes. -/
structure HeaderTree.Like (R : NodeId → NodeId → Prop) (h h' : HeaderTree) : Prop where
  size : h.nodes.size = h'.nodes.size
  nodes : ∀ id, Option.Rel (HeaderNode.Like R) (h.get? id) (h'.get? id)
  chain : h.chain = h'.chain
  previousLevel : h.previousLevel = h'.previousLevel

theorem rel_map {α β γ δ : Type} {R : α → β → Prop} {S : γ → δ → Prop} {f : α → γ} {g : β → δ}
    (hfg : ∀ a b, R a b → S (f a) (g b)) {a : Option α} {b : Option β} (h : Option.Rel R a b) :
    Option.Rel S (a.map f) (b.map g) := by
  cases h with
  | none => exact .none
  | some h => exact .some (hfg _ _ h)

theorem map_eq_of_rel {α β γ : Type} {R : α → β → Prop} {f : α → γ} {g : β → γ}
    (hfg : ∀ a b, R a b → f a = g b) {a : Option α} {b : Option β} (h : Option.Rel R a b) :
    a.map f = b.map g := by
  cases h with
  | none => rfl
  | some h => exact congrArg some (hfg _ _ h)

namespace HeaderTree.Like

variable {h h' : HeaderTree} {node node' : NodeId}

theorem level_eq (hh : h.Like R h') (id : HeaderId) : h.level id = h'.level id := by
  unfold level
  rw [map_eq_of_rel (fun _ _ hab => HeaderNode.Like.level hab) (hh.nodes id)]

theorem close_eq (hh : h.Like R h') (level : Level) (ids : List HeaderId) :
    h.close level ids = h'.close level ids := by
  fun_induction h.close level ids with
  | case1 => rfl
  | case2 => rfl
  | case3 id outer hne hle ih => rw [close, ← hh.level_eq, if_pos hle, ih]; exact hne
  | case4 id outer hne hle => rw [close, ← hh.level_eq, if_neg hle]; exact hne

theorem enter (hh : h.Like R h') (hnode : R node node') (level : Level) :
    (h.enter node level).1 = (h'.enter node' level).1 ∧
      (h.enter node level).2.Like R (h'.enter node' level).2 := by
  have hclose := hh.close_eq level h.chain
  rw [hh.chain] at hclose
  simp only [HeaderTree.enter, hh.chain, hclose, hh.size, true_and]
  refine ⟨by simp [hh.size], fun id => ?_, rfl, rfl⟩
  have hold := hh.nodes id
  unfold HeaderTree.get? at hold ⊢
  have hpushed : Option.Rel (HeaderNode.Like R)
      (h.nodes.push ⟨some node, some ((h'.close level h'.chain).head?.getD root), [], level⟩)[id]?
      (h'.nodes.push ⟨some node', some ((h'.close level h'.chain).head?.getD root), [], level⟩)[id]? := by
    rw [Array.getElem?_push, Array.getElem?_push, hh.size]
    split
    · exact .some ⟨.some hnode, rfl, rfl, rfl⟩
    · exact hold
  rw [Array.getElem?_modify, Array.getElem?_modify]
  split
  · exact rel_map (fun a b hab => ⟨hab.node, hab.parent, by rw [hab.children], hab.level⟩) hpushed
  · exact hpushed

theorem headers (hh : h.Like R h') :
    List.Forall₂ (fun a b : HeaderId × HeaderNode => a.1 = b.1 ∧ a.2.Like R b.2)
      h.headers h'.headers := by
  have hnodes : List.Forall₂ (HeaderNode.Like R) h.nodes.toList h'.nodes.toList := by
    refine List.forall₂_iff_get.mpr ⟨hh.size, fun i hi hi' => ?_⟩
    have hnode := hh.nodes i
    rw [HeaderTree.get?, HeaderTree.get?, Array.getElem?_eq_getElem (by simpa using hi),
      Array.getElem?_eq_getElem (by simpa using hi')] at hnode
    cases hnode with
    | some hnode => exact hnode
  have hplaced : ∀ (as bs : List HeaderNode) (first : Nat), List.Forall₂ (HeaderNode.Like R) as bs →
      List.Forall₂ (fun a b : HeaderId × HeaderNode => a.1 = b.1 ∧ a.2.Like R b.2)
        ((as.zipIdx first).map fun entry => (entry.2, entry.1))
        ((bs.zipIdx first).map fun entry => (entry.2, entry.1)) := by
    intro as bs first hall
    induction hall generalizing first with
    | nil => exact .nil
    | cons hab _ ih => exact .cons ⟨rfl, hab⟩ (ih (first + 1))
  exact List.forall₂_drop 1 (hplaced _ _ 0 hnodes)

/-- The first header that stands at a node. -/
theorem head?_nodes (hh : h.Like R h') :
    Option.Rel R (h.headers.filterMap (·.2.node)).head? (h'.headers.filterMap (·.2.node)).head? := by
  have hheaders := hh.headers
  generalize h.headers = as at hheaders
  generalize h'.headers = bs at hheaders
  induction hheaders with
  | nil => exact .none
  | @cons a b as bs hab _ ih =>
    rw [List.filterMap_cons, List.filterMap_cons]
    have hnode := hab.2.node
    generalize a.2.node = x at hnode
    generalize b.2.node = y at hnode
    cases hnode with
    | none => exact ih
    | some hxy => exact .some hxy

end HeaderTree.Like

-- ----------------------------------------------------------------------------
-- Indices
-- ----------------------------------------------------------------------------

/-- Records that differ in where they stand. -/
def IdRecord.Like (r r' : IdRecord) : Prop := r' = { r with location := r'.location }

/-- Indices whose records lead to related nodes. -/
def Index.Like (R : NodeId → NodeId → Prop) (i j : Index) : Prop :=
  ∀ id, Option.Rel (fun e e' : NodeId × IdRecord => R e.1 e'.1 ∧ e.2.Like e'.2)
    (i.entries.get? id) (j.entries.get? id)

namespace Index.Like

variable {i j : Index} {x y : NodeId}

theorem record? (h : i.Like R j) (id : String) :
    Option.Rel IdRecord.Like (i.record? id) (j.record? id) :=
  rel_map (fun _ _ hab => hab.2) (h id)

theorem flip (h : i.Like R j) : j.Like (fun y x => R x y) i := by
  intro id
  have hentry := h id
  generalize i.entries.get? id = a at hentry ⊢
  generalize j.entries.get? id = b at hentry ⊢
  cases hentry with
  | none => exact .none
  | @some e e' hsame =>
    refine .some ⟨hsame.1, ?_⟩
    rw [IdRecord.Like, hsame.2]

theorem insert {r r' : IdRecord} (h : i.Like R j) (hxy : R x y) (hr : r.Like r') :
    (∃ previous previous', i.insert x r = .error previous ∧ j.insert y r' = .error previous') ∨
      ∃ i' j', i.insert x r = .ok i' ∧ j.insert y r' = .ok j' ∧ i'.Like R j' := by
  have hid : r'.id = r.id := by rw [hr]
  have hrecord := h.record? r.id
  unfold Index.insert
  rw [hid]
  generalize i.record? r.id = a at hrecord
  generalize j.record? r.id = b at hrecord
  cases hrecord with
  | some hsame => exact .inl ⟨_, _, rfl, rfl⟩
  | none =>
    refine .inr ⟨_, _, rfl, rfl, fun id => ?_⟩
    simp only [OrderedMap.get?_insert]
    split
    · exact .some ⟨hxy, hr⟩
    · exact h id

theorem modify (h : i.Like R j) (id : String) {f : IdRecord → IdRecord}
    (hf : ∀ r r', r.Like r' → (f r).Like (f r')) : (i.modify id f).Like R (j.modify id f) := by
  intro other
  simp only [Index.modify, OrderedMap.get?_modify]
  split
  · exact rel_map (fun a b hab => ⟨hab.1, hf _ _ hab.2⟩) (h other)
  · exact h other

end Index.Like

-- ----------------------------------------------------------------------------
-- States
-- ----------------------------------------------------------------------------

namespace Assembly

/-- What an assembly knows, without the tree and what it has noted or reported. -/
def State.known (s : State) : Index × HeaderTree × OrderedMap String Nat × OrderedMap HeaderId String ×
    OrderedMap HeaderId String × Option String × Option Abort :=
  (s.index, s.headers, s.counters, s.headerIds, s.scopes, s.lastHeader, s.aborted)

/-- States that know the same, up to the numbers of the nodes and where they stand. -/
structure State.Alike (R : NodeId → NodeId → Prop) (s u : State) : Prop where
  index : s.index.Like R u.index
  headers : s.headers.Like R u.headers
  counters : s.counters = u.counters
  headerIds : s.headerIds = u.headerIds
  scopes : s.scopes = u.scopes
  lastHeader : s.lastHeader = u.lastHeader
  aborted : s.aborted = u.aborted

/-- Macros of one name in two trees, of which a visit reads the same. -/
structure Says (registry : Registry) (t u : Tree) (x y : NodeId) (call call' : MacroCall) : Prop where
  name : call.name = call'.name
  supplies : ∀ name, call.supplies name = call'.supplies name
  declares : ∀ name, (call.argument? name).isSome = (call'.argument? name).isSome
  texts : ∀ name ∈ Passage.gistNames, t.argumentText registry x name = u.argumentText registry y name

section Steps

variable {setting : Setting} {s u : State} {x y : NodeId} {call call' : MacroCall}
variable {definition : MacroDef} {level : Level}

theorem State.Alike.outerScope_eq (h : s.Alike R u) : outerScope s = outerScope u := by
  simp only [outerScope, scopesOf, h.scopes, h.headers.chain]

theorem State.Alike.innerScope_eq (h : s.Alike R u) : innerScope s = innerScope u := by
  simp only [innerScope, scopesAround, scopesOf, h.scopes, h.headers.chain]

theorem Says.text (h : Says setting.registry s.tree u.tree x y call call') (name : String)
    (hname : name ∈ Passage.gistNames) : text setting s x name = text setting u y name :=
  h.texts name hname

theorem Says.localId_eq (h : Says setting.registry s.tree u.tree x y call call')
    (definition : MacroDef) :
    localId setting s x call definition = localId setting u y call' definition := by
  simp only [localId, h.supplies, h.text "id" (by decide),
    h.text "title" (by decide)]

theorem Says.recordFor (h : Says setting.registry s.tree u.tree x y call call')
    (definition : MacroDef) (id : String) (count : Option Nat) :
    IdRecord.Like { recordFor setting s x definition id with count }
      { recordFor setting u y definition id with count } := by
  simp only [IdRecord.Like, Assembly.recordFor, h.text "title" (by decide)]
  rfl

/-- Two steps that give the same, and leave states that are alike. -/
inductive Alike {β : Type} (R : NodeId → NodeId → Prop) : β × State → β × State → Prop
  | intro (value : β) {s u : State} : s.Alike R u → Alike R (value, s) (value, u)

/-- What is reported or referred to is not looked at. -/
theorem State.Alike.frame {s' u' : State} (hs : s.Alike R u) (h : s'.known = s.known)
    (h' : u'.known = u.known) : s'.Alike R u' := by
  simp only [State.known, Prod.mk.injEq] at h h'
  obtain ⟨hindex, hheaders, hcounters, hids, hscopes, hlast, haborted⟩ := h
  obtain ⟨hindex', hheaders', hcounters', hids', hscopes', hlast', haborted'⟩ := h'
  exact ⟨hindex ▸ hindex' ▸ hs.index, hheaders ▸ hheaders' ▸ hs.headers,
    hcounters ▸ hcounters' ▸ hs.counters, hids ▸ hids' ▸ hs.headerIds,
    hscopes ▸ hscopes' ▸ hs.scopes, hlast ▸ hlast' ▸ hs.lastHeader,
    haborted ▸ haborted' ▸ hs.aborted⟩

theorem assignId_alike (hs : s.Alike R u) (hxy : R x y)
    (h : Says setting.registry s.tree u.tree x y call call') (definition : MacroDef)
    (scope : Option String) (numbered : Bool) :
    Alike R (assignId setting s x call definition scope numbered)
      (assignId setting u y call' definition scope numbered) := by
  unfold assignId
  rw [h.localId_eq definition]
  cases localId setting u y call' definition with
  | none => exact .intro none hs
  | some name =>
    have hrecord := h.recordFor definition (Identifier.underScope scope name)
      (if numbered then some ((u.counters.get? definition.name).getD 0 + 1) else none)
    simp only [hs.counters]
    obtain ⟨_, _, hi, hj⟩ | ⟨_, _, hi, hj, hindex⟩ := hs.index.insert hxy hrecord
    · rw [hi, hj]
      exact .intro none (hs.frame rfl rfl)
    · rw [hi, hj]
      exact .intro _ ⟨hindex, hs.headers, rfl, hs.headerIds, hs.scopes, hs.lastHeader, hs.aborted⟩

theorem levelOf_alike (hs : s.Alike R u)
    (h : Says setting.registry s.tree u.tree x y call call') :
    Alike R (levelOf setting s x) (levelOf setting u y) := by
  simp only [levelOf, h.text "level" (by decide)]
  cases Level.parse? (text setting u y "level") with
  | none => exact .intro 1 (hs.frame rfl rfl)
  | some level => exact .intro level hs

theorem visitSynonym_alike (hs : s.Alike R u) (hxy : R x y)
    (h : Says setting.registry s.tree u.tree x y call call') :
    Alike R (visitSynonym setting s x call definition level)
      (visitSynonym setting u y call' definition level) := by
  have hassign := assignId_alike hs hxy h definition (outerScope u) false
  unfold visitSynonym
  rw [hs.outerScope_eq]
  generalize assignId setting s x call definition (outerScope u) false = a at hassign ⊢
  generalize assignId setting u y call' definition (outerScope u) false = b at hassign ⊢
  obtain ⟨id?, hs⟩ := hassign
  rename_i s u
  cases id? with
  | none => exact .intro none hs
  | some id =>
    have hindex := hs.index.modify id
      (f := fun record => { record with level := some level, synonymOf := u.lastHeader })
      fun r r' hr => by rw [hr]; rfl
    simp only [hs.lastHeader]
    cases hlast : u.lastHeader <;> rw [hlast] at hindex <;>
      exact .intro _ ⟨hindex, hs.headers, hs.counters, hs.headerIds, hs.scopes, rfl, hs.aborted⟩

theorem linkHeader_alike (setting : Setting) (level : Level) (hs : s.Alike R u) (hxy : R x y) :
    Alike R (linkHeader setting s x level) (linkHeader setting u y level) := by
  obtain ⟨hentered, hheaders⟩ := hs.headers.enter hxy level
  unfold linkHeader HeaderTree.link
  rw [hs.headers.previousLevel]
  have hnext : State.Alike R { s with headers := (s.headers.enter x level).2 }
      { u with headers := (u.headers.enter y level).2 } :=
    ⟨hs.index, hheaders, hs.counters, hs.headerIds, hs.scopes, hs.lastHeader, hs.aborted⟩
  cases HeaderTree.skip? u.headers.previousLevel level with
  | error why =>
    simp only [Except.map, hentered]
    exact .intro _ ⟨hs.index, hheaders, hs.counters, hs.headerIds, hs.scopes, hs.lastHeader, rfl⟩
  | ok skipped =>
    simp only [Except.map, hentered]
    cases skipped with
    | none => exact .intro _ hnext
    | some levels => exact .intro _ (hnext.frame rfl rfl)

theorem nameHeader_alike {entered : HeaderTree.Entered} (hs : s.Alike R u) (hxy : R x y)
    (h : Says setting.registry s.tree u.tree x y call call') :
    Alike R (nameHeader setting s x call definition entered level)
      (nameHeader setting u y call' definition entered level) := by
  have hassign := assignId_alike hs hxy h definition (outerScope u) true
  simp only [nameHeader, hs.outerScope_eq, h.text "scope" (by decide)]
  generalize assignId setting s x call definition (outerScope u) true = a at hassign ⊢
  generalize assignId setting u y call' definition (outerScope u) true = b at hassign ⊢
  generalize Text.isTruthy (text setting _ y "scope") = isScope
  obtain ⟨id?, hs⟩ := hassign
  cases id? with
  | none => exact .intro none hs
  | some id =>
    have hindex := hs.index.modify id
      (f := fun record => { record with level := some level, isScope })
      fun r r' hr => by rw [hr]; rfl
    refine .intro _ ⟨hindex, hs.headers, hs.counters,
      congrArg (OrderedMap.insert entered.id id) hs.headerIds, ?_, rfl, hs.aborted⟩
    simp only [refer, hs.scopes]

theorem visitHeader_alike (hs : s.Alike R u) (hxy : R x y)
    (h : Says setting.registry s.tree u.tree x y call call') :
    Alike R (visitHeader setting s x call definition) (visitHeader setting u y call' definition) := by
  have hlevel := levelOf_alike hs h
  have htree := tree_levelOf setting s x
  have htree' := tree_levelOf setting u y
  unfold visitHeader
  generalize levelOf setting s x = a at hlevel htree ⊢
  generalize levelOf setting u y = b at hlevel htree' ⊢
  obtain ⟨level, hs⟩ := hlevel
  rename_i s' u'
  simp only at htree htree' ⊢
  rw [← htree, ← htree'] at h
  rw [h.text "synonym" (by decide)]
  split
  · exact visitSynonym_alike hs hxy h
  · have hlink := linkHeader_alike setting level hs hxy
    have htree := tree_linkHeader setting s' x level
    have htree' := tree_linkHeader setting u' y level
    generalize linkHeader setting s' x level = a at hlink htree ⊢
    generalize linkHeader setting u' y level = b at hlink htree' ⊢
    obtain ⟨entered, hs⟩ := hlink
    simp only at htree htree' ⊢
    rw [← htree, ← htree'] at h
    exact nameHeader_alike hs hxy h

/-- A link or an inclusion is noted, and nothing else. -/
theorem known_visitLink (setting : Setting) (s : State) (node : NodeId) (call : MacroCall)
    (titleOf : Option String) : (visitLink setting s node call titleOf).known = s.known := by
  unfold visitLink
  split <;> rfl

theorem known_visitInclusion (setting : Setting) (s : State) (node : NodeId) (call : MacroCall) :
    (visitInclusion setting s node call).known = s.known := by
  unfold visitInclusion
  split <;> rfl

theorem visitCall_alike {visit visit' : Visit} (hs : s.Alike R u) (hxy : R visit.node visit'.node)
    (h : Says setting.registry s.tree u.tree visit.node visit'.node call call') :
    Alike R (visitCall setting s visit call) (visitCall setting u visit' call') := by
  have hassign : ∀ {s' u' : State}, s'.known = s.known → s'.tree = s.tree → u'.known = u.known →
      u'.tree = u.tree → ∀ definition, Alike R
        ((none : Option String),
          (assignId setting s' visit.node call definition (innerScope s') true).2)
        (none, (assignId setting u' visit'.node call' definition (innerScope u') true).2) := by
    intro s' u' hknown htree hknown' htree' definition
    have hnext := hs.frame hknown hknown'
    rw [← htree, ← htree'] at h
    have hassign := assignId_alike hnext hxy h definition (innerScope u') true
    rw [hnext.innerScope_eq]
    generalize assignId setting s' visit.node call definition (innerScope u') true = a at hassign ⊢
    generalize assignId setting u' visit'.node call' definition (innerScope u') true = b at hassign ⊢
    obtain ⟨id?, hs⟩ := hassign
    exact .intro none hs
  unfold visitCall
  rw [h.name]
  cases setting.registry.get? call'.name with
  | none => exact .intro none hs
  | some definition =>
    simp only
    split
    · exact visitHeader_alike hs hxy h
    · split
      · exact hassign (known_visitLink ..) (tree_visitLink ..) (known_visitLink ..)
          (tree_visitLink ..) definition
      · split
        · exact hassign (known_visitInclusion ..) (tree_visitInclusion ..)
            (known_visitInclusion ..) (tree_visitInclusion ..) definition
        · exact hassign rfl rfl rfl rfl definition

end Steps

-- ----------------------------------------------------------------------------
-- Visits
-- ----------------------------------------------------------------------------

structure Visit.Like (R : NodeId → NodeId → Prop) (visit visit' : Visit) : Prop where
  node : R visit.node visit'.node
  titleOf : visit.titleOf = visit'.titleOf

structure Arrival.Like (R : NodeId → NodeId → Prop) (a b : Arrival) : Prop extends
    Visit.Like R a.toVisit b.toVisit where
  before : a.before.Alike R b.before

/-- What two visits find, and what they leave. A macro and its twin may say nothing at all instead of
the same. -/
inductive Arrival.Matched (setting : Setting) (R : NodeId → NodeId → Prop) (a b : Arrival) : Prop
  | nothing : a.before.tree.call? a.node = none → b.before.tree.call? b.node = none →
      Matched setting R a b
  | call {call call' after after' : MacroCall} : a.before.tree.call? a.node = some call →
      b.before.tree.call? b.node = some call' → (a.node = a.before.tree.root ↔
        b.node = b.before.tree.root) → (call.Quiet ∧ call'.Quiet ∨
        Says setting.registry a.before.tree b.before.tree a.node b.node call call') →
      (visitNode setting a.toVisit a.before).2.tree.call? a.node = some after →
      (visitNode setting b.toVisit b.before).2.tree.call? b.node = some after' →
      after.Like R after' → Matched setting R a b

section Visits

variable {setting : Setting} {s t u v : State} {visit visit' : Visit} {call call' : MacroCall}
variable {a b : Arrival}

theorem visitsBelow_alike (h : visit.Like R visit') (hcall : call.Like R call')
    (headerId : Option String) :
    List.Forall₂ (Visit.Like R) (visitsBelow visit call headerId)
      (visitsBelow visit' call' headerId) := by
  unfold visitsBelow
  rw [h.titleOf, hcall.name]
  have harguments := hcall.arguments
  generalize call.arguments = as at harguments
  generalize call'.arguments = bs at harguments
  induction harguments with
  | nil => exact .nil
  | @cons a b as bs hab _ ih =>
    rw [List.flatMap_cons, List.flatMap_cons, hab.name]
    refine List.rel_append ?_ ih
    rw [List.forall₂_map_left_iff, List.forall₂_map_right_iff]
    exact hab.children.imp fun x y hxy => ⟨hxy, rfl⟩

theorem called_alike (hs : s.Alike R u) (hxy : R visit.node visit'.node)
    (h : call.Quiet ∧ call'.Quiet ∨
      Says setting.registry s.tree u.tree visit.node visit'.node call call') :
    Alike R (visitCall setting s visit call) (visitCall setting u visit' call') := by
  rcases h with ⟨hquiet, hquiet'⟩ | hspeech
  · rw [visitCall_quiet hquiet, visitCall_quiet hquiet']
    exact .intro none hs
  · exact visitCall_alike hs hxy hspeech

theorem visitNode_alike (h : a.Like R b) (hmatched : a.Matched setting R b) :
    List.Forall₂ (Visit.Like R) (visitNode setting a.toVisit a.before).1
        (visitNode setting b.toVisit b.before).1 ∧
      (visitNode setting a.toVisit a.before).2.Alike R (visitNode setting b.toVisit b.before).2 := by
  cases hmatched with
  | nothing hcall hcall' =>
    rw [visitNode_of_none hcall, visitNode_of_none hcall']
    exact ⟨.nil, h.before⟩
  | @call call call' after after' hcall hcall' hroot hspeech hafter hafter' hlike =>
    have hcalled : Alike R
        (if a.node = a.before.tree.root then ((none : Option String), a.before)
          else visitCall setting a.before a.toVisit call)
        (if b.node = b.before.tree.root then ((none : Option String), b.before)
          else visitCall setting b.before b.toVisit call') := by
      by_cases htop : a.node = a.before.tree.root
      · rw [if_pos htop, if_pos (hroot.mp htop)]
        exact .intro none h.before
      · rw [if_neg htop, if_neg (mt hroot.mpr htop)]
        exact called_alike h.before h.node hspeech
    rw [visitNode_below hcall hafter, visitNode_below hcall' hafter', visitNode_rest hcall,
      visitNode_rest hcall']
    generalize (if a.node = a.before.tree.root then ((none : Option String), a.before)
      else visitCall setting a.before a.toVisit call) = c at hcalled ⊢
    generalize (if b.node = b.before.tree.root then ((none : Option String), b.before)
      else visitCall setting b.before b.toVisit call') = c' at hcalled ⊢
    obtain ⟨headerId, hs⟩ := hcalled
    exact ⟨visitsBelow_alike h.toLike hlike headerId, hs.frame rfl rfl⟩

/-- Two runs whose visits are matched stay alike to the end. -/
theorem Agenda.Run.alike {waiting waiting' : List Visit} {made made' : List Arrival}
    (h : Agenda.Run setting ⟨waiting, s⟩ made ⟨[], t⟩)
    (h' : Agenda.Run setting ⟨waiting', u⟩ made' ⟨[], v⟩)
    (hwaiting : List.Forall₂ (Visit.Like R) waiting waiting') (hs : s.Alike R u)
    (hmatched : ∀ a ∈ made, ∀ b ∈ made', R a.node b.node → a.Matched setting R b) :
    List.Forall₂ (Arrival.Like R) made made' ∧ t.Alike R v := by
  generalize hfirst : (⟨waiting, s⟩ : Agenda) = first at h
  generalize hlast : (⟨[], t⟩ : Agenda) = last at h
  induction h generalizing waiting waiting' s u made' with
  | done agenda =>
    obtain rfl := hlast
    cases hfirst
    cases hwaiting
    cases h'
    exact ⟨.nil, hs⟩
  | @visit visit rest s made last h ih =>
    cases hfirst
    cases hwaiting with
    | @cons _ visit' _ rest' hvisit hrest =>
      cases h' with
      | @visit _ _ _ made' _ h' =>
        have hlike : Arrival.Like R ⟨visit, s⟩ ⟨visit', u⟩ := ⟨hvisit, hs⟩
        obtain ⟨hbelow, hnext⟩ := visitNode_alike hlike
          (hmatched _ List.mem_cons_self _ List.mem_cons_self hvisit.node)
        obtain ⟨hmade, hfinal⟩ := ih h' (List.rel_append hbelow hrest) hnext
          (fun a ha b hb => hmatched a (List.mem_cons_of_mem _ ha) b (List.mem_cons_of_mem _ hb)) rfl hlast
        exact ⟨.cons hlike hmade, hfinal⟩

end Visits
end Assembly
end Macromark

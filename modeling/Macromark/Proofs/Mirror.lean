import Macromark.Proofs.Assembly.Courses
import Macromark.Proofs.Assembly.Parents
import Macromark.Proofs.Html.Mirror
import Macromark.Proofs.Links

/-!
# Documents of one reading

Two analyses mirror each other if their trees differ in the numbers of the nodes
and in positions alone, and so does everything else that they know
(`Analysis.Mirrors`). They give one output and one drawing
(`Mirrors.output_eq`, `Mirrors.draw_eq`). That is so where the finished trees
hold the same macros and the same has been read of them (`analyze_mirrors`).
-/

namespace Macromark

open Assembly (Indexed)

variable {registry : Registry} {t u : Tree} {x y : NodeId}

/-- Analyses that differ in the numbers of the nodes and in where they stand. -/
structure Analysis.Mirrors (a b : Analysis) : Prop where
  likeness : a.tree.Likeness b.tree (a.tree.Twin b.tree)
  acyclic : a.tree.Acyclic
  acyclic' : b.tree.Acyclic
  document : a.document = b.document
  labels : ∀ x y, a.tree.Twin b.tree x y → a.tree.label x = b.tree.label y
  index : a.index.Like (a.tree.Twin b.tree) b.index
  headers : a.headers.Like (a.tree.Twin b.tree) b.headers
  aborted : a.aborted = b.aborted
  linked : a.Linked
  linked' : b.Linked
  links : ∀ x y, a.tree.Twin b.tree x y → a.tree.name? x = some MacroName.crossReference →
    ∀ position position', a.tree.href? x = some position → b.tree.href? y = some position' →
      (a.group ⟨a.document, position, .crossReference⟩).map Reference.unplaced =
        (b.group ⟨b.document, position', .crossReference⟩).map Reference.unplaced

-- ----------------------------------------------------------------------------
-- Documents that read the same
-- ----------------------------------------------------------------------------

namespace Assembly

variable {setting : Setting} {R : NodeId → NodeId → Prop} {i j : Index} {nodes nodes' : List NodeId}

theorem Indexed.label_of_id? {id : String} (h : Indexed setting nodes i t)
    (h' : Indexed setting nodes' j u) (hindex : i.Like R j) (hright : ∀ {y'}, R x y → R x y' → y = y')
    (hxy : R x y) (hid : t.id? x = some id) : u.label y = t.label x := by
  obtain ⟨r, hr⟩ := h.entered x id hid
  have hentry := hindex id
  rw [hr] at hentry
  cases hother : j.entries.get? id with
  | none =>
    rw [hother] at hentry
    cases hentry
  | some entry =>
    obtain ⟨y', r'⟩ := entry
    rw [hother] at hentry
    cases hentry with
    | some hsame =>
      obtain ⟨hxy', hrecord⟩ := hsame
      obtain rfl := hright hxy hxy'
      have hsame : r' = { r with location := r'.location } := hrecord
      have hcount : r'.count = r.count := by rw [hsame]
      rw [(h'.carried id y r' hother).1, (h.carried id x r hr).1, hcount]

theorem Indexed.label_eq (h : Indexed setting nodes i t) (h' : Indexed setting nodes' j u)
    (hindex : i.Like R j) (hlike : t.Likeness u R) (hxy : R x y) : t.label x = u.label y := by
  cases hid : t.id? x with
  | some id => exact (h.label_of_id? h' hindex hlike.right hxy hid).symm
  | none =>
    cases hid' : u.id? y with
    | some id => exact h'.label_of_id? h hindex.flip (fun hyx hyx' => hlike.left hyx hyx') hxy hid'
    | none => exact Prod.ext (hid.trans hid'.symm) ((h.uncounted x hid).trans (h'.uncounted y hid').symm)

end Assembly

open Assembly (AuthorOnly Course Setting Says nameDocument_alike)

/-- Documents whose finished trees hold the same macros and texts, and in which the same has been read
of every macro. -/
theorem analyze_mirrors (hcheck : registry.check = .ok ()) (hregistry : registry.Linkable)
    (document : String) {source other : String}
    (h : ((analyze registry document source).gists registry source).plain =
      ((analyze registry document other).gists registry other).plain) :
    (analyze registry document source).Mirrors (analyze registry document other) := by
  have hr := hregistry.coherent
  obtain ⟨s, hs, htree, hindex, hheaders, hreferences, haborted⟩ := analyze_course hr document source
  obtain ⟨s', hs', htree', hindex', hheaders', hreferences', haborted'⟩ :=
    analyze_course hr document other
  have hindexed := analyze_indexed hr hcheck document source
  have hindexed' := analyze_indexed hr hcheck document other
  have hlinked := analyze_linked hregistry document source
  have hlinked' := analyze_linked hregistry document other
  have hdocument : (analyze registry document source).document = document := rfl
  have hdocument' : (analyze registry document other).document = document := rfl
  simp only [Analysis.gists] at h hindexed hindexed'
  generalize (parse registry (tokenize source).tokens).tree = t at hs h
  generalize (parse registry (tokenize other).tokens).tree = u at hs' h
  generalize analyze registry document source = a at *
  generalize analyze registry document other = b at *
  rw [htree, htree'] at h
  have hroot : Tree.Same (t.gist registry) (u.gist registry) s.tree s'.tree s.tree.root s'.tree.root :=
    ⟨hs.rooted.root_lt, hs'.rooted.root_lt, h⟩
  have hlike := Tree.likeness_twin hs.acyclic hs.rooted hs'.acyclic hs'.rooted hroot
  have hgists : ∀ x y, s.tree.Twin s'.tree x y → t.gist registry x = u.gist registry y := by
    intro x y hxy
    obtain ⟨_, _, -, -, hgist, -⟩ := (hxy.same hs.acyclic hs'.acyclic hroot).kinds hs.acyclic hs'.acyclic
    exact hgist
  obtain ⟨-, halike⟩ := hs.alike hs' hr hregistry.author hlike hgists
  have hsame := nameDocument_alike ⟨registry, document⟩ halike hlike hs.acyclic
    hs'.acyclic
  rw [← hindex, ← hindex'] at hsame
  rw [htree] at hindexed
  rw [htree'] at hindexed'
  refine ⟨?_, ?_, ?_, hdocument.trans hdocument'.symm, ?_, ?_, ?_, ?_, hlinked, hlinked', ?_⟩ <;>
    simp only [htree, htree', hheaders, hheaders', haborted, haborted']
  · exact hlike
  · exact hs.acyclic
  · exact hs'.acyclic
  · exact fun x y hxy => hindexed.label_eq hindexed' hsame hlike hxy
  · exact hsame
  · exact halike.headers
  · exact halike.aborted
  · intro x y hxy hname position position' hhref hhref'
    simp only [Analysis.group, hreferences, hreferences', hdocument, hdocument']
    exact hs.links hs' hr hregistry.author hlike hgists hxy.reaches.1 hxy hname hhref hhref'

-- ----------------------------------------------------------------------------
-- Links
-- ----------------------------------------------------------------------------

namespace Analysis

variable {a b : Analysis}

/-- What becomes of a link with these references, wherever they stand. -/
theorem outcome_members (a : Analysis) (store : Option Store) (key : GroupKey) :
    Selection.outcome (a.resolves store) (Selection.members a.contribution.references key) =
      Selection.outcome (a.resolves store)
        (((a.group key).map Reference.unplaced).map fun r => (r, 0)) := by
  have hplaced : ((a.group key).map Reference.unplaced).map (fun r => (r, 0)) =
      (Selection.members a.contribution.references key).map fun placed => (placed.1.unplaced, 0) := by
    rw [Analysis.group, ← Selection.map_fst_members, List.map_map, List.map_map]
    rfl
  rw [hplaced]
  exact (Selection.outcome_map (f := fun placed => (placed.1.unplaced, 0)) (fun _ => ⟨rfl, rfl⟩)
    fun _ _ => rfl).symm

namespace Mirrors

variable (h : a.Mirrors b) (store : Option Store) (extension : String)
include h

theorem knows_eq (id : String) : a.knows store id = b.knows store id := by
  have hcontains : a.index.contains id = b.index.contains id := by
    have hentry := h.index id
    unfold Index.contains OrderedMap.contains
    generalize a.index.entries.get? id = e at hentry ⊢
    generalize b.index.entries.get? id = e' at hentry ⊢
    cases hentry <;> rfl
  rw [knows, knows, hcontains, h.document]

theorem resolves_eq : a.resolves store = b.resolves store := by
  funext r
  rw [resolves, resolves, h.knows_eq, h.knows_eq]

/-- Twin links have one target. -/
theorem resolution_eq (hxy : a.tree.Twin b.tree x y)
    (hname : a.tree.name? x = some MacroName.crossReference) :
    (a.context registry store extension).resolutions.get? x =
      (b.context registry store extension).resolutions.get? y := by
  obtain ⟨call, hcall, hlink⟩ := Option.map_eq_some_iff.mp hname
  obtain ⟨call', hcall', hcalls⟩ := h.likeness.call?_of_some hxy hcall
  have hname' : b.tree.name? y = some MacroName.crossReference := by
    rw [Tree.name?, hcall', Option.map_some, ← hcalls.name, hlink]
  obtain ⟨position, hhref, hsite, r, hr, hkey⟩ := h.linked.site x ⟨hxy.reaches.1, hname⟩
  obtain ⟨position', hhref', hsite', r', hr', hkey'⟩ := h.linked'.site y ⟨hxy.reaches.2, hname'⟩
  have hget : ∀ {a : Analysis} {id : NodeId} {position : Position} {r : Reference}, a.Linked →
      a.tree.href? id = some position → a.linkSites.get? position = some id →
      r ∈ a.contribution.references → r.groupKey = ⟨a.document, position, .crossReference⟩ →
      (a.context registry store extension).resolutions.get? id =
        some (Selection.outcome (a.resolves store)
          (Selection.members a.contribution.references ⟨a.document, position, .crossReference⟩)) := by
    intro a id position r hlinked hhref hsite hr hkey
    obtain ⟨place, hplace⟩ := List.mem_iff_getElem?.mp hr
    refine Selection.get?_resolutions (List.ne_nil_of_mem (Selection.mem_members.mpr ⟨hplace, hkey⟩))
      rfl rfl hsite fun other hother => ?_
    exact Option.some.inj ((hlinked.back other id hother).symm.trans hhref)
  rw [hget h.linked hhref hsite hr hkey, hget h.linked' hhref' hsite' hr' hkey', outcome_members,
    outcome_members, h.links x y hxy hname position position' hhref hhref', h.resolves_eq]

end Mirrors
end Analysis

-- ----------------------------------------------------------------------------
-- Drawings
-- ----------------------------------------------------------------------------

namespace Drawing

variable {R : NodeId → NodeId → Prop}

theorem branch_congr {α β : Type} {S : α → β → Prop} {draw : α → String → String × String}
    {draw' : β → String → String × String} {items : List α} {items' : List β}
    (h : List.Forall₂ S items items')
    (hdraw : ∀ a ∈ items, ∀ b, S a b → ∀ indent, draw a indent = draw' b indent) (indent : String) :
    branch draw indent items = branch draw' indent items' := by
  induction h with
  | nil => rfl
  | @cons a b as bs hab hrest ih =>
    have hfirst := hdraw a List.mem_cons_self b hab
    have hlater := ih fun a ha => hdraw a (List.mem_cons_of_mem _ ha)
    cases hrest with
    | nil => simp only [branch, hfirst]
    | cons => simp only [branch, hfirst, hlater]

theorem body_eq {kind kind' : NodeKind} (h : kind.Like R kind')
    (hlabel : ∀ call call', kind = .call call → kind' = .call call' →
      call.id = call'.id ∧ call.count = call'.count) : body kind = body kind' := by
  cases h with
  | @call call call' hcalls =>
    obtain ⟨hid, hcount⟩ := hlabel call call' rfl rfl
    simp only [body, hcalls.name, hid, hcount]
  | _ => rfl

def line (t : Tree) (positions : Bool) (id : NodeId) : String :=
  ((t.get? id).map (label positions)).getD ""

/-- What is drawn under a node, given what is drawn under others. -/
def step (t : Tree) (positions : Bool) (kind : NodeKind) (deeper : NodeId → String → String)
    (indent : String) : String :=
  match kind with
  | .call call =>
    branch (fun (argument : Argument) inner =>
      (s!"≡ {argument.name}",
        branch (fun child innermost => (line t positions child, deeper child innermost)) inner
          argument.children))
      indent (call.arguments.filter (isVisible t))
  | _ => ""

theorem step_like {positions : Bool} {kind kind' : NodeKind} {f g : NodeId → String → String}
    (hkind : kind.Like R kind')
    (hline : ∀ x y, R x y → line t positions x = line u positions y)
    (htext : ∀ x y, R x y → t.plaintext? x = u.plaintext? y)
    (hbelow : ∀ child ∈ kind.below, ∀ child', R child child' → f child = g child') :
    step t positions kind f = step u positions kind' g := by
  funext indent
  cases hkind with
  | @call call call' hcalls =>
    have hvisible : ∀ a b : Argument, a.Like R b → isVisible t a = isVisible u b := by
      intro a b hab
      have htexts := map_eq_of_forall₂ hab.children fun x _ y hxy => htext x y hxy
      have hany : ∀ (t : Tree) (children : List NodeId),
          (children.any fun child => t.plaintext? child != some "") =
            (children.map t.plaintext?).any (· != some "") := by
        intro t children
        rw [List.any_map]
        rfl
      rw [isVisible, isVisible, hab.supplied, hany, hany, htexts]
    refine branch_congr (S := Argument.Like R) ?_ (fun a ha b hab inner => ?_) indent
    · exact List.rel_filter (fun {a b} hab => Bool.eq_iff_iff.mp (hvisible a b hab)) hcalls.arguments
    · simp only [hab.name]
      refine congrArg (Prod.mk _) (branch_congr hab.children (fun x hx y hxy _ => ?_) inner)
      have hx : x ∈ (NodeKind.call call).below :=
        List.mem_flatMap.mpr ⟨a, (List.mem_filter.mp ha).1, hx⟩
      rw [hline x y hxy, hbelow x hx y hxy]
  | _ => rfl

theorem below_of_get? {positions : Bool} (h : t.Acyclic) {node : Node} (hnode : t.get? x = some node) :
    below t positions x = step t positions node.kind (below t positions) := by
  refine h.recurse_eq (fun id node f g hfg => ?_) hnode
  refine step_like (R := Eq) (.refl node.kind) (fun _ _ hxy => by rw [hxy]) (fun _ _ hxy => by rw [hxy])
    fun child hchild _ hsame => ?_
  rw [← hsame, hfg child (Tree.below_node node ▸ hchild)]

end Drawing

namespace Tree.Likeness

variable {R : NodeId → NodeId → Prop} (h : t.Likeness u R)
variable (hlabels : ∀ x y, R x y → t.label x = u.label y)
include h hlabels

theorem line_eq (hxy : R x y) : Drawing.line t false x = Drawing.line u false y := by
  obtain ⟨node, node', hnode, hnode', hkind⟩ := h.kinds hxy
  have hlabel := hlabels x y hxy
  simp only [Drawing.line, hnode, hnode', Option.map_some, Option.getD_some]
  refine Drawing.body_eq hkind fun call call' hcall hcall' => ?_
  have hfound : t.call? x = some call := by simp [Tree.call?, hnode, Node.call?, hcall]
  have hfound' : u.call? y = some call' := by simp [Tree.call?, hnode', Node.call?, hcall']
  rw [label_of_call? hfound, label_of_call? hfound'] at hlabel
  exact ⟨congrArg Prod.fst hlabel, congrArg Prod.snd hlabel⟩

theorem below_eq (ht : t.Acyclic) (hu : u.Acyclic) (hxy : R x y) :
    Drawing.below t false x = Drawing.below u false y := by
  refine h.induction ht (motive := fun x y => Drawing.below t false x = Drawing.below u false y)
    (fun x y hxy ih => ?_) hxy
  obtain ⟨node, node', hnode, hnode', hkind⟩ := h.kinds hxy
  rw [Drawing.below_of_get? ht hnode, Drawing.below_of_get? hu hnode']
  rw [Tree.below_of_get? hnode, below_node] at ih
  exact Drawing.step_like hkind (fun _ _ hxy => h.line_eq hlabels hxy) (fun _ _ hxy => h.plaintext? hxy) ih

/-- Trees that differ in numbers and positions alone are drawn alike. -/
theorem draw_eq (ht : t.Acyclic) (hu : u.Acyclic) : t.draw false = u.draw false := by
  obtain ⟨node, node', hnode, hnode', -⟩ := h.kinds h.root
  have hline := h.line_eq hlabels h.root
  simp only [Drawing.line, hnode, hnode', Option.map_some, Option.getD_some] at hline
  simp only [draw, hnode, hnode', h.below_eq hlabels ht hu h.root, hline]

end Tree.Likeness

-- ----------------------------------------------------------------------------
-- Output
-- ----------------------------------------------------------------------------

namespace Analysis.Mirrors

variable {a b : Analysis}

theorem context (h : a.Mirrors b) (registry : Registry) (store : Option Store) (extension : String) :
    (a.context registry store extension).Mirrors (b.context registry store extension)
      (a.tree.Twin b.tree) :=
  ⟨rfl, h.document, rfl, rfl, h.likeness, h.acyclic, h.acyclic', h.labels, h.index, h.headers,
    fun _ _ hxy hname => h.resolution_eq store extension hxy hname⟩

/-- One output. -/
theorem output_eq (h : a.Mirrors b) (hregistry : registry.Linkable) (store : Option Store)
    (extension : String) (bodyOnly : Bool) :
    ((a.context registry store extension).renderDocument bodyOnly).1 =
      ((b.context registry store extension).renderDocument bodyOnly).1 := by
  obtain ⟨hroot, hroot'⟩ := h.likeness.inside h.likeness.root
  have hbody : (a.context registry store extension).body.html =
      (b.context registry store extension).body.html := by
    have hempty : (a.context registry store extension).tree.isEmpty = false := Tree.isEmpty_of_lt hroot
    have hempty' : (b.context registry store extension).tree.isEmpty = false :=
      Tree.isEmpty_of_lt hroot'
    rw [RenderContext.body, RenderContext.body, hempty, hempty']
    exact (h.context registry store extension).html_eq hregistry.only h.likeness.root false
  have htitle : Assembly.documentTitle registry a.tree a.headers =
      Assembly.documentTitle registry b.tree b.headers :=
    Assembly.documentTitle_eq h.likeness h.acyclic h.acyclic' h.headers
  simp only [RenderContext.renderDocument, hbody]
  exact congrArg (fun title => if bodyOnly then Html.writeAll _ else
    RenderContext.wholePage (Text.trim title) (Html.writeAll _)) htitle

end Analysis.Mirrors

/-- Documents that read the same are compiled to one output, and their trees are drawn alike. -/
theorem compile_mirrors (hcheck : registry.check = .ok ()) (hregistry : registry.Linkable)
    (store : Option Store) (options : CompileOptions) {source other : String}
    (h : ((analyze registry options.document source).gists registry source).plain =
      ((analyze registry options.document other).gists registry other).plain) :
    (compile (some registry) store options source).map (fun c => (c.output, c.tree.draw false)) =
      (compile (some registry) store options other).map fun c => (c.output, c.tree.draw false) := by
  have hmirrors := analyze_mirrors hcheck hregistry options.document h
  have houtput := hmirrors.output_eq hregistry store options.extension options.bodyOnly
  have hdraw := hmirrors.likeness.draw_eq hmirrors.labels hmirrors.acyclic hmirrors.acyclic'
  rw [compile_eq hcheck, compile_eq hcheck, Analysis.finished, Analysis.finished, hmirrors.aborted]
  cases (analyze registry options.document other).aborted with
  | some why => rfl
  | none => exact congrArg Except.ok (Prod.ext houtput hdraw)

end Macromark

import Macromark.Proofs.Tree.Texts

/-!
# Nothing of a document is lost

A macro leaves an argument out only where something is reported. So while
nothing is, every node is in a macro or will be handed to one (`Complete`), and
in the tree that is made every node is reached from the root. The texts of the
tokens are in the tree whether something is reported or not (`parse_lossless`).
-/

namespace Macromark

-- ----------------------------------------------------------------------------
-- Every node is reached
-- ----------------------------------------------------------------------------

/-- A macro is younger than what stands in it, so the way up from a node ends, and it ends at the
only node that stands in no macro. -/
theorem Tree.Grown.reaches {registry : Registry} {t : Tree} (h : t.Grown registry)
    (hheld : ∀ id < t.size, (∃ owner, id ∈ t.below owner) ∨ id = t.root) {id : NodeId}
    (hid : id < t.size) : t.Reaches t.root id := by
  rcases hheld id hid with ⟨owner, howner⟩ | rfl
  · obtain ⟨call, hcall, -⟩ := mem_below.mp howner
    have hlt := lt_of_call? hcall
    have holder := h.older howner
    exact (h.reaches hheld hlt).tail howner
  · exact .refl
termination_by t.size - id
decreasing_by exact Nat.sub_lt_sub_left ‹id < t.size› ‹id < owner›

namespace Parser

variable {registry : Registry}

-- ----------------------------------------------------------------------------
-- The arguments of a macro
-- ----------------------------------------------------------------------------

theorem takeArgument_eq_none {name : String} {written : List Argument}
    (h : takeArgument name written = none) : name ∉ written.map (·.name) := by
  intro hname
  obtain ⟨argument, hargument, hname⟩ := List.mem_map.mp hname
  have hfound : (written.findIdx? (·.name == name)).isSome = true := by
    rw [List.findIdx?_isSome, List.any_eq_true]
    exact ⟨argument, hargument, by simpa using hname⟩
  obtain ⟨i, hi⟩ := Option.isSome_iff_exists.mp hfound
  obtain ⟨hlt, -⟩ := List.findIdx?_eq_some_iff_getElem.mp hi
  have hlast : (written.getLast?).isSome = true := by
    rw [List.getLast?_isSome]
    exact List.ne_nil_of_mem hargument
  obtain ⟨last, hlast⟩ := Option.isSome_iff_exists.mp hlast
  simp [takeArgument, hi, hlast, List.getElem?_eq_getElem hlt] at h

/-- Where all arguments are declared, and none more often than it is declared, every one is taken. -/
theorem fillArguments_all (position : Position) (names : List String) (written : List Argument)
    (t : Tree) (h : (written.map (·.name)).Subperm names) :
    let filled := fillArguments position names written t
    (∀ id ∈ written.flatMap (·.children), id ∈ filled.1.flatMap (·.children)) ∧
      (∀ id < filled.2.size, id < t.size ∨ id ∈ filled.1.flatMap (·.children)) ∧
      (∀ owner, filled.2.below owner = t.below owner) ∧ t.size ≤ filled.2.size := by
  induction names generalizing written t with
  | nil =>
    have hnil := List.map_eq_nil_iff.mp (List.subperm_nil.mp h)
    simp [fillArguments, hnil]
  | cons name names ih =>
    unfold fillArguments
    split
    · next argument others htake =>
      obtain ⟨hperm, rfl⟩ := takeArgument_perm htake
      have hothers : (others.map (·.name)).Subperm names :=
        (List.subperm_cons argument.name).mp ((hperm.map Argument.name).subperm.trans h)
      obtain ⟨hwritten, hnew, hsame⟩ := ih others t hothers
      refine ⟨fun id hid => ?_, fun id hid => ?_, hsame⟩
      · have hid := (hperm.flatMap_right (·.children)).mem_iff.mpr hid
        rw [List.flatMap_cons, List.mem_append] at hid ⊢
        exact hid.imp_right (hwritten id)
      · rw [List.flatMap_cons, List.mem_append]
        exact (hnew id hid).imp_right .inr
    · next htake =>
      have hwritten : (written.map (·.name)).Subperm names := by
        have herased := h.erase name
        rwa [List.erase_of_not_mem (takeArgument_eq_none htake), List.erase_cons_head] at herased
      obtain ⟨hold, hnew, hbelow, hsize⟩ := ih written (t.push (.plaintext "") position).2 hwritten
      rw [Tree.size_push] at hsize
      refine ⟨fun id hid => ?_, fun id hid => ?_, fun owner => ?_, Nat.le_of_succ_le hsize⟩
      · rw [List.flatMap_cons]
        exact List.mem_append_right _ (hold id hid)
      · rw [List.flatMap_cons, List.mem_append, List.mem_singleton]
        rcases hnew id hid with hid | hid
        · rw [Tree.size_push] at hid
          exact (Nat.lt_succ_iff_lt_or_eq.mp hid).imp_right .inl
        · exact .inr (.inr hid)
      · exact (hbelow owner).trans (Tree.below_push (by simp) position owner)

end Parser

/-- The arguments that a macro has got are the first of the positional ones, and named ones of
which none is repeated. -/
def OpenCall.Fits (call : OpenCall) : Prop :=
  ∃ d, call.definition = some d ∧ ∃ named : List String, named.Nodup ∧ named ⊆ d.named ∧
    (call.arguments.map (·.name)).Perm (d.positional.take call.positionals ++ named)

theorem OpenCall.Fits.subperm {call : OpenCall} {d : MacroDef} (h : call.Fits)
    (hd : call.definition = some d) : (call.arguments.map (·.name)).Subperm d.argumentNames := by
  obtain ⟨d', hd', named, hnodup, hnamed, hperm⟩ := h
  obtain rfl := Option.some.inj (hd.symm.trans hd')
  refine hperm.subperm.trans ?_
  exact (List.take_sublist _ _).subperm.append (List.subperm_of_subset hnodup hnamed)

namespace Parser.State

variable {registry : Registry} {s t : State} {a : OpenArgument} {below : List OpenArgument}
variable {call : OpenCall} {nodes : List NodeId} {token : Token}

-- ----------------------------------------------------------------------------
-- Every node is in a macro, or will be
-- ----------------------------------------------------------------------------

/-- Every node but `nodes` is in a macro or is handed to one, and no open argument will be left
out. -/
structure Complete (nodes : List NodeId) (s : State) : Prop where
  held : ∀ id < s.tree.size, (∃ owner, id ∈ s.tree.below owner) ∨ id ∈ nodes ++ s.loose
  fits : ∀ call ∈ s.expecting.calls, call.Fits
  returns : ∀ a ∈ s.stack, ∀ call ∈ a.owner,
    a.name.isSome = true ∧ ∀ children, (returned call a children).Fits

theorem Complete.deliver (h : s.Complete nodes) (hcontent : s.expecting = .content)
    (hstack : s.stack ≠ []) : (s.deliver nodes).Complete [] := by
  obtain ⟨innermost, below, hstack⟩ := List.exists_cons_of_ne_nil hstack
  have hdeliver : s.deliver nodes =
      { s with stack := { innermost with children := innermost.children ++ nodes } :: below } := by
    simp [State.deliver, hstack]
  have hreturns := h.returns
  rw [hstack] at hreturns
  obtain ⟨hinnermost, hbelow⟩ := List.forall_mem_cons.mp hreturns
  rw [hdeliver]
  refine ⟨fun id hid => (h.held id hid).imp_right fun hid => ?_, h.fits, ?_⟩
  · simp only [State.loose, hcontent, hstack, Expecting.calls_content, List.flatMap_nil,
      List.nil_append, List.flatMap_cons, List.mem_append] at hid ⊢
    tauto
  · exact List.forall_mem_cons.mpr ⟨hinnermost, hbelow⟩

theorem Complete.leaf (h : s.Complete []) (hcontent : s.expecting = .content)
    (hstack : s.stack ≠ []) {kind : NodeKind} (hkind : ∀ call, kind ≠ .call call)
    (position : Position) : (s.leaf kind position).Complete [] := by
  refine Complete.deliver (s := { s with tree := (s.tree.push kind position).2 })
    ⟨fun id hid => ?_, h.fits, h.returns⟩ hcontent hstack
  rw [Tree.size_push] at hid
  simp only [Tree.below_push hkind]
  rcases Nat.lt_succ_iff_lt_or_eq.mp hid with hid | rfl
  · exact (h.held id hid).imp_right (List.mem_append_right _)
  · exact .inr (by simp)

theorem Complete.pushCall (h : s.Complete []) (hcall : s.expecting = .arguments call)
    {d : MacroDef} (hd : call.definition = some d) :
    let filled := fillArguments call.position d.argumentNames call.arguments s.tree
    Complete [filled.2.size] { s with
      tree := (filled.2.pushCall { name := call.name, arguments := filled.1 } call.position).2
      expecting := .content } := by
  have hfits : call.Fits := h.fits call (by simp [hcall, Expecting.calls])
  obtain ⟨hwritten, hnew, hbelow, hsize⟩ :=
    fillArguments_all call.position d.argumentNames call.arguments s.tree (hfits.subperm hd)
  generalize fillArguments call.position d.argumentNames call.arguments s.tree = filled at *
  refine ⟨fun id hid => ?_, by simp, h.returns⟩
  rw [Tree.size_pushCall] at hid
  simp only [Tree.below_pushCall, hbelow]
  have hmade : id ∈ filled.1.flatMap (·.children) →
      ∃ owner, id ∈ if owner = filled.2.size then filled.1.flatMap (·.children)
        else s.tree.below owner := fun hid => ⟨filled.2.size, by simpa using hid⟩
  rcases Nat.lt_succ_iff_lt_or_eq.mp hid with hid | rfl
  · rcases hnew id hid with hold | hfilled
    · rcases h.held id hold with ⟨owner, howner⟩ | hloose
      · obtain ⟨other, hother, -⟩ := Tree.mem_below.mp howner
        have hlt := Nat.lt_of_lt_of_le (Tree.lt_of_call? hother) hsize
        exact .inl ⟨owner, by rwa [if_neg (Nat.ne_of_lt hlt)]⟩
      · simp only [State.loose, hcall, Expecting.calls, OpenCall.children, List.flatMap_cons,
          List.flatMap_nil, List.append_nil, List.nil_append, List.mem_append] at hloose ⊢
        rcases hloose with hloose | hloose
        · exact .inl (hmade (hwritten id hloose))
        · exact .inr (.inr hloose)
    · exact .inl (hmade hfilled)
  · exact .inr (by simp)

theorem Complete.completeCall (h : s.Complete []) (hcall : s.expecting = .arguments call)
    {d : MacroDef} (hd : call.definition = some d) (hstack : s.stack ≠ []) :
    (s.completeCall call).Complete [] := by
  have hpushed := (h.pushCall hcall hd).deliver rfl hstack
  unfold State.completeCall
  rw [hd]
  simp only
  rw [content_deliver, content_eq (expecting_deliver _ _)]
  exact hpushed

theorem Complete.enter (h : s.Complete []) (hempty : a.children = [])
    (howner : a.owner.toList.flatMap (·.children) = s.expecting.calls.flatMap (·.children))
    (hreturns : ∀ call ∈ a.owner, a.name.isSome = true ∧ ∀ children, (returned call a children).Fits) :
    (s.enter a).Complete [] := by
  refine ⟨fun id hid => (h.held id hid).imp_right fun hid => ?_, by simp [State.enter],
    List.forall_mem_cons.mpr ⟨hreturns, h.returns⟩⟩
  simpa [State.loose, State.enter, hempty, howner] using hid

-- ----------------------------------------------------------------------------
-- Something is reported, or will be
-- ----------------------------------------------------------------------------

/-- Something has been reported, or a macro that is not complete has no definition. -/
def Doomed (s : State) : Prop := s.Reported ∨ ∃ call ∈ s.calls, call.definition = none

theorem calls_deliver (s : State) (nodes : List NodeId) : (s.deliver nodes).calls = s.calls := by
  unfold State.deliver
  split
  · next hstack => simp [State.calls, hstack]
  · rfl

theorem Doomed.deliver (h : s.Doomed) (nodes : List NodeId) : (s.deliver nodes).Doomed := by
  unfold Doomed at *
  rw [calls_deliver]
  exact h.imp_left fun h => by simpa [Reported] using h

theorem Doomed.content (h : s.Doomed) (hcalls : s.expecting.calls = []) : s.content.Doomed := by
  simpa [Doomed, State.calls, hcalls, State.content, Reported] using h

theorem Doomed.completeCall (h : s.Doomed) (hcall : s.expecting = .arguments call) :
    (s.completeCall call).Doomed := by
  cases hd : call.definition with
  | none =>
    refine .inl ?_
    simp [State.completeCall, hd, Reported, State.content, report]
  | some d =>
    have hothers : s.content.Doomed := by
      refine h.imp id ?_
      rintro ⟨other, hother, hnone⟩
      rcases List.mem_append.mp hother with hother | hother
      · rw [hcall] at hother
        obtain rfl := List.mem_singleton.mp hother
        simp [hd] at hnone
      · exact ⟨other, List.mem_append_right _ hother, hnone⟩
    unfold State.completeCall
    rw [hd]
    simp only
    rw [content_deliver]
    refine Doomed.content (Doomed.deliver ?_ _) (by rw [expecting_deliver]; rfl)
    exact hothers

theorem Doomed.enter (h : s.Doomed)
    (hcalls : ∀ call ∈ s.expecting.calls, call.definition = none →
      ∃ owner ∈ a.owner, owner.definition = none) : (s.enter a).Doomed := by
  refine h.imp id ?_
  rintro ⟨call, hcall, hnone⟩
  rcases List.mem_append.mp hcall with hcall | hcall
  · obtain ⟨owner, howner, hnone⟩ := hcalls call hcall hnone
    refine ⟨owner, ?_, hnone⟩
    simp only [State.calls, State.enter, List.flatMap_cons, List.mem_append, Option.mem_toList]
    exact .inr (.inl howner)
  · refine ⟨call, ?_, hnone⟩
    simp only [State.calls, State.enter, List.flatMap_cons, List.mem_append]
    exact .inr (.inr hcall)

theorem Doomed.openPositional (h : s.Doomed) (hcall : s.expecting = .arguments call)
    (position : Position) : (s.openPositional call position).Doomed := by
  have hcalls : ∀ other ∈ s.expecting.calls, other.definition = none →
      ∃ owner ∈ some { call with positionals := call.positionals + 1 }, owner.definition = none := by
    simp [hcall, Expecting.calls]
  unfold State.openPositional
  simp only
  split
  · exact h.enter hcalls
  · split
    · exact h.enter hcalls
    · exact .inl (reported_report s position _)

theorem Doomed.openNamed {owner : Option OpenCall} {opener : Position} (h : s.Doomed)
    (hexpecting : s.expecting = .argumentName owner opener) (position : Position) (name : String) :
    (s.openNamed owner position name).Doomed := by
  have hcalls : ∀ other ∈ s.expecting.calls, other.definition = none →
      ∃ call ∈ owner, call.definition = none := by
    intro other hother hnone
    exact ⟨other, by simpa [hexpecting, Expecting.calls] using hother, hnone⟩
  unfold State.openNamed
  simp only
  split
  · exact h.enter hcalls
  · split
    · exact h.enter hcalls
    · split
      · exact .inl (reported_report s position _)
      · split
        · exact .inl (reported_report s position _)
        · exact h.enter hcalls

theorem Doomed.close (h : s.Doomed) (hstack : s.stack = a :: below)
    (hcontent : s.expecting = .content) : (s.close a below).Doomed := by
  have hcalls : ∀ call ∈ s.calls, call ∈ a.owner ∨ call ∈ below.flatMap (·.owner.toList) := by
    simp [State.calls, hcontent, hstack]
  cases howner : a.owner with
  | none =>
    have hbelow : Doomed (State.content { s with stack := below }) := by
      refine h.imp id ?_
      rintro ⟨call, hcall, hnone⟩
      exact ⟨call, (hcalls call hcall).resolve_left (by simp [howner]), hnone⟩
    simp only [State.close, howner]
    rw [content_deliver]
    refine (hbelow.deliver _).content ?_
    rw [expecting_deliver]
    rfl
  | some owner =>
    rw [close_owned howner]
    refine h.imp id ?_
    rintro ⟨call, hcall, hnone⟩
    rcases hcalls call hcall with hcall | hcall
    · obtain rfl := Option.some.inj (howner.symm.trans hcall)
      exact ⟨returned owner a a.children, List.mem_append_left _ (List.mem_singleton_self _), hnone⟩
    · exact ⟨call, List.mem_append_right _ hcall, hnone⟩

-- ----------------------------------------------------------------------------
-- Reading
-- ----------------------------------------------------------------------------

/-- Nothing is left out without a report. -/
def Whole (s : State) : Prop := s.Complete [] ∨ s.Doomed

theorem Whole.leaf (h : s.Whole) (hcontent : s.expecting = .content) (hstack : s.stack ≠ [])
    {kind : NodeKind} (hkind : ∀ call, kind ≠ .call call) (position : Position) :
    (s.leaf kind position).Whole := by
  rcases h with h | h
  · exact .inl (h.leaf hcontent hstack hkind position)
  · exact .inr (Doomed.deliver (s := { s with tree := (s.tree.push kind position).2 }) h _)

theorem Whole.beginCall (h : s.Whole) (hcontent : s.expecting = .content) (name : String)
    (position : Position) (isRoot : Bool) : (s.beginCall registry name position isRoot).Whole := by
  cases hd : registry.get? name with
  | none => exact .inr (.inr ⟨_, List.mem_append_left _ (List.mem_singleton_self _), hd⟩)
  | some d =>
    rcases h with h | h
    · refine .inl ⟨fun id hid => (h.held id hid).imp_right fun hid => ?_, ?_, h.returns⟩
      · simpa [State.loose, State.beginCall, hcontent, Expecting.calls, OpenCall.children] using hid
      · rintro _ (_ | ⟨_, ⟨⟩⟩)
        exact ⟨d, hd, [], by simp, by simp, by simp⟩
    · refine .inr (h.imp id ?_)
      rintro ⟨call, hcall, hnone⟩
      refine ⟨call, List.mem_append_right _ ?_, hnone⟩
      simpa [State.calls, State.beginCall, hcontent, Expecting.calls] using hcall

theorem Whole.completeCall (h : s.Whole) (hcall : s.expecting = .arguments call)
    (hstack : s.stack ≠ []) : (s.completeCall call).Whole := by
  rcases h with h | h
  · obtain ⟨d, hd, -⟩ := h.fits call (by simp [hcall, Expecting.calls])
    exact .inl (h.completeCall hcall hd hstack)
  · exact .inr (h.completeCall hcall)

theorem Whole.openPositional (h : s.Whole) (hcall : s.expecting = .arguments call)
    (position : Position) : (s.openPositional call position).Whole := by
  rcases h with h | h
  · obtain ⟨d, hd, named, hnodup, hnamed, hperm⟩ := h.fits call (by simp [hcall, Expecting.calls])
    unfold State.openPositional
    simp only
    split
    · next hnone => simp [hd] at hnone
    · next d' hd' =>
      obtain rfl := Option.some.inj (hd.symm.trans hd')
      split
      · next name hname =>
        refine .inl (h.enter rfl (by simp [hcall, Expecting.calls, OpenCall.children]) ?_)
        rintro _ ⟨⟩
        refine ⟨rfl, fun children => ⟨d, hd, named, hnodup, hnamed, ?_⟩⟩
        simp only [returned, List.map_append, List.map_cons, List.map_nil, List.take_add_one, hname,
          Option.toList_some]
        refine (hperm.append_right [name]).trans ?_
        rw [List.append_assoc, List.append_assoc]
        exact List.perm_append_comm.append_left _
      · exact .inr (.inl (reported_report s position _))
  · exact .inr (h.openPositional hcall position)

theorem Whole.openNamed {owner : Option OpenCall} {opener : Position} (h : s.Whole)
    (hexpecting : s.expecting = .argumentName owner opener) (position : Position) (name : String) :
    (s.openNamed owner position name).Whole := by
  rcases h with h | h
  · have howner : owner.toList.flatMap (·.children) = s.expecting.calls.flatMap (·.children) := by
      simp [hexpecting, Expecting.calls]
    unfold State.openNamed
    simp only
    split
    · exact .inl (h.enter rfl howner (by simp))
    · next call =>
      obtain ⟨d, hd, named, hnodup, hnamed, hperm⟩ :=
        h.fits call (by simp [hexpecting, Expecting.calls])
      split
      · next hnone => simp [hd] at hnone
      · next d' hd' =>
        obtain rfl := Option.some.inj (hd.symm.trans hd')
        split
        · exact .inr (.inl (reported_report s position _))
        · next hdeclared =>
          simp only [Bool.not_eq_true', List.contains_eq_mem, decide_eq_false_iff_not,
            not_not] at hdeclared
          split
          · exact .inr (.inl (reported_report s position _))
          · next hnew =>
            refine .inl (h.enter rfl howner ?_)
            rintro _ ⟨⟩
            have hfresh : name ∉ named := by
              intro hmem
              have hused := hperm.mem_iff.mpr (List.mem_append_right _ hmem)
              simp only [List.any_eq_true, beq_iff_eq] at hnew
              exact hnew (List.mem_map.mp hused)
            refine ⟨rfl, fun children => ⟨d, hd, named ++ [name], ?_, ?_, ?_⟩⟩
            · exact List.nodup_append.mpr ⟨hnodup, List.pairwise_singleton _ _, by
                rintro other hother _ hname rfl
                exact hfresh (List.mem_singleton.mp hname ▸ hother)⟩
            · exact List.append_subset.mpr ⟨hnamed, by simpa using hdeclared⟩
            · simp only [returned, List.map_append, List.map_cons, List.map_nil]
              rw [← List.append_assoc]
              exact hperm.append_right [name]
  · exact .inr (h.openNamed hexpecting position name)

theorem Whole.close (h : s.Whole) (hstack : s.stack = a :: below)
    (hcontent : s.expecting = .content) (hbelow : a.owner = none → below ≠ []) :
    (s.close a below).Whole := by
  rcases h with h | h
  · left
    have hreturns := h.returns
    rw [hstack] at hreturns
    obtain ⟨ha, hothers⟩ := List.forall_mem_cons.mp hreturns
    cases howner : a.owner with
    | none =>
      have hdropped : Complete a.children (State.content { s with stack := below }) := by
        refine ⟨fun id hid => (h.held id hid).imp_right fun hid => ?_, by simp [State.content], hothers⟩
        simpa [State.loose, State.content, hcontent, hstack, howner] using hid
      simp only [State.close, howner]
      rw [content_deliver, content_eq (expecting_deliver _ _)]
      exact hdropped.deliver rfl (hbelow howner)
    | some owner =>
      obtain ⟨hname, hfits⟩ := ha owner howner
      obtain ⟨name, hname⟩ := Option.isSome_iff_exists.mp hname
      rw [close_owned howner]
      refine ⟨fun id hid => (h.held id hid).imp_right fun hid => ?_, ?_, hothers⟩
      · simpa [State.loose, hcontent, hstack, howner, Expecting.calls, OpenCall.children,
          returned, hname] using hid
      · simpa [Expecting.calls] using hfits a.children
  · exact .inr (h.close hstack hcontent)

theorem Whole.settle (h : s.Whole) (hstack : s.stack ≠ []) : s.settle.Whole := by
  unfold State.settle
  split
  · next call hcall => exact h.completeCall hcall hstack
  · next owner opener hexpecting => exact h.openNamed hexpecting _ _
  · exact h

section
variable {bottom : OpenArgument} {texts : List Token} {root : OpenCall}
variable (hholding : s.Holding bottom texts) (howner : bottom.owner = some root)
include hholding howner

/-- An argument of no macro stands in another argument. -/
theorem Holding.below_ne_nil (hstack : s.stack = a :: below) (hnone : a.owner = none) :
    below ≠ [] := by
  rintro rfl
  obtain ⟨inner, children, hsplit, -⟩ := hholding.stack
  have hlast := congrArg List.getLast? (hstack.symm.trans hsplit)
  simp only [List.getLast?_singleton, List.getLast?_concat, Option.some.injEq] at hlast
  simp [hlast, howner] at hnone

theorem Whole.closeDocument (h : s.Whole) (hcontent : s.expecting = .content)
    (closer : TokenKind) (position : Position) : (s.closeDocument closer position).Whole := by
  unfold State.closeDocument
  split
  · exact .inr (.inl (reported_report s position _))
  · next a below hstack =>
    split
    · exact h.close hstack hcontent (hholding.below_ne_nil howner hstack)
    · refine .inr (.inl (Reported.closeDocument (Reported.settle (Reported.close ?_ _ _)) _ _))
      exact reported_report s _ _

theorem Whole.readContent (h : s.Whole) (hcontent : s.expecting = .content) (isLast : Bool) :
    (s.readContent registry token isLast).Whole := by
  unfold State.readContent
  split
  · exact .inr (.inl (reported_report s _ _))
  · next a below hstack =>
    have hne : s.stack ≠ [] := hholding.stack_ne_nil
    split
    · exact h.leaf hcontent hne (by simp) _
    · exact h.leaf hcontent hne (by simp) _
    · exact h.beginCall hcontent _ _ _
    · exact .inr (.inl (reported_report s _ _))
    · exact .inr (.inl (reported_report s _ _))
    · exact .inr (.inl (reported_report s _ _))
    · split
      · exact h.closeDocument hholding howner hcontent _ _
      · split
        · exact .inr (.inl (reported_report s _ _))
        · split
          · exact h.close hstack hcontent (hholding.below_ne_nil howner hstack)
          · exact .inr (.inl ((reported_report s _ _).close _ _))

theorem Whole.read (h : s.Whole) (isLast : Bool) : (s.read registry token isLast).Whole := by
  unfold State.read
  split
  · next call hexpecting _ => exact h.openPositional hexpecting _
  · next call hexpecting _ =>
    rcases h with h | h
    · refine .inl ⟨fun id hid => (h.held id hid).imp_right fun hid => ?_, ?_, h.returns⟩
      · simpa [State.loose, hexpecting, Expecting.calls] using hid
      · simpa [hexpecting, Expecting.calls] using h.fits
    · refine .inr (h.imp id ?_)
      simp [State.calls, hexpecting, Expecting.calls]
  · next owner opener name hexpecting _ => exact h.openNamed hexpecting _ _
  · exact (h.settle hholding.stack_ne_nil).readContent hholding.settle howner (expecting_settle s) isLast

end

theorem Whole.readOn {bottom : OpenArgument} {root : OpenCall} {tokens : List Token} (h : s.Whole)
    (howner : bottom.owner = some root)
    (hholding : ∀ front, front <+: tokens → ∃ texts, (s.readOn registry front).Holding bottom texts) :
    (s.readOn registry tokens).Whole := by
  induction tokens using List.reverseRecOn with
  | nil => exact h
  | append_singleton front token ih =>
    obtain ⟨texts, hfront⟩ := hholding front (List.prefix_append _ _)
    rw [readOn_append]
    refine Whole.read hfront howner (ih fun less hless => hholding less ?_) false
    exact hless.trans (List.prefix_append _ _)

/-- Where the root is complete, every node is in a macro or is the root. -/
theorem Complete.readAll (h : s.Complete []) (hcall : s.expecting = .arguments call)
    {d : MacroDef} (hd : call.definition = some d) (hstack : s.stack = []) :
    let t := (s.readAll registry []).tree
    ∀ id < t.size, (∃ owner, id ∈ t.below owner) ∨ id = t.root := by
  have hheld := (h.pushCall hcall hd).held
  rw [readAll_nil hstack hcall, State.completeCall, hd]
  simp only [State.content, State.deliver, hstack]
  intro id hid
  refine (hheld id hid).imp_right fun hid => ?_
  simpa [State.loose, hstack, Tree.root, Tree.pushCall_fst] using hid

-- ----------------------------------------------------------------------------
-- The whole document
-- ----------------------------------------------------------------------------

/-- The document takes the token in: an argument is open, or the token opens one of a macro. -/
def TakesIn (s : State) (token : Token) : Prop :=
  s.stack ≠ [] ∨ ∃ call b, s.expecting = .arguments call ∧ token.kind = .opener b

/-- The document takes in every token behind its name, and the last one ends it. -/
def Consumes (registry : Registry) (tokens : List Token) : Prop :=
  ∃ name position content last, tokens = ⟨.macroName name, position⟩ :: (content ++ [last]) ∧
    let after (front : List Token) :=
      (initial.beginCall registry name position true).readOn registry front
    (∀ front token rest, content ++ [last] = front ++ token :: rest → (after front).TakesIn token) ∧
      let ended := (after content).read registry last true
      ended.stack = [] ∧ ∃ call, ended.expecting = .arguments call ∧ call.isRoot = true

/-- The state behind the name of the root and its first opener. -/
def begun (registry : Registry) (d : MacroDef) : State :=
  (initial.beginCall registry MacroName.toplevel .origin true).openPositional
    ⟨MacroName.toplevel, .origin, some d, true, [], 0⟩ .origin

theorem holding_enter (hstack : s.stack = []) (htexts : s.tree.texts = [])
    (hquiet : ∀ d ∈ s.diagnostics, d.problem.breaksOff = false) : (s.enter a).Holding a [] := by
  refine ⟨⟨[], a.children, ?_, by simp⟩, by simp [State.enter], htexts, hquiet⟩
  simp [State.enter, hstack]

theorem begun_holding (registry : Registry) (d : MacroDef) :
    ∃ bottom root, bottom.outermost = true ∧ bottom.owner = some root ∧ root.isRoot = true ∧
      root.definition = some d ∧ (begun registry d).Holding bottom [] := by
  unfold begun State.openPositional
  simp only
  split
  · exact ⟨_, _, rfl, rfl, rfl, rfl, holding_enter rfl rfl (by simp [State.beginCall, initial])⟩
  · refine ⟨_, _, rfl, rfl, rfl, rfl, holding_enter rfl rfl ?_⟩
    simp [State.report, State.beginCall, initial, Problem.breaksOff]

section
variable {d : MacroDef} {content : List Token} {bottom : OpenArgument} {root : OpenCall}
variable {last : Position} (hget : registry.get? MacroName.toplevel = some d)

include hget in
theorem begun_whole : (begun registry d).Whole := by
  have hinitial : initial.Whole :=
    .inl ⟨by simp [initial, Tree.empty, Tree.size], by simp [initial], by simp [initial]⟩
  refine (hinitial.beginCall rfl _ _ _).openPositional ?_ _
  simp [State.beginCall, hget]

def documentTokens (content : List Token) (last : Position) : List Token :=
  ⟨.macroName MacroName.toplevel, .origin⟩ :: ⟨.opener .positional, .origin⟩ ::
    (content ++ [⟨.closer .positional, last⟩])

include hget in
theorem readOn_opener (front : List Token) :
    (initial.beginCall registry MacroName.toplevel .origin true).readOn registry
        (⟨.opener .positional, .origin⟩ :: front) = (begun registry d).readOn registry front := by
  rw [readOn_cons, begun, ← hget]
  rfl

include hget in
theorem parse_documentTokens : parse registry (documentTokens content last) =
    let s := (((begun registry d).readOn registry content).read registry
      ⟨.closer .positional, last⟩ true).readAll registry []
    ⟨s.tree, s.diagnostics, s.trace⟩ := by
  have hread : (initial.beginCall registry MacroName.toplevel .origin true).readAll registry
      (⟨.opener .positional, .origin⟩ :: content ++ [⟨.closer .positional, last⟩]) =
      ((initial.beginCall registry MacroName.toplevel .origin true).readOn registry
        (⟨.opener .positional, .origin⟩ :: content)).readAll registry [⟨.closer .positional, last⟩] :=
    readAll_append _ (by simp)
  rw [List.cons_append, readOn_opener hget] at hread
  simp only [documentTokens, parse, hread]
  rfl

variable (hbottom : bottom.outermost = true) (howner : bottom.owner = some root)
variable (hbegun : (begun registry d).Holding bottom [])
variable (hregular : Token.Regular (documentTokens content last))
include hbottom hbegun hregular

theorem holding_begun {front : List Token} (hfront : front <+: content) :
    ((begun registry d).readOn registry front).Holding bottom (front.filter (·.isText)) := by
  obtain ⟨rest, rfl⟩ := hfront
  have hchain : (⟨.opener .positional, .origin⟩ :: front : List Token).IsChain fun a b =>
      ∀ name, b.kind = .argumentName name → a.kind = .opener .named := by
    refine hregular.chain.tail.prefix ⟨rest ++ [⟨.closer .positional, last⟩], ?_⟩
    simp [documentTokens]
  refine hbegun.readOn hbottom ?_ hchain.tail fun token htoken => hregular.text token ?_
  · intro token htoken name hname
    obtain ⟨others, rfl⟩ := List.head?_eq_some_iff.mp htoken
    exact absurd ((List.isChain_cons_cons.mp hchain).1 name hname) (by simp)
  · simp [documentTokens, htoken]

include howner hget in
theorem consumes_begun (hroot : root.isRoot = true) :
    Consumes registry (documentTokens content last) := by
  refine ⟨_, _, ⟨.opener .positional, .origin⟩ :: content, ⟨.closer .positional, last⟩, rfl, ?_, ?_⟩
  · intro front token rest hsplit
    cases front with
    | nil =>
      obtain ⟨rfl, -⟩ := List.cons.inj hsplit
      exact .inr ⟨_, _, rfl, rfl⟩
    | cons first front =>
      obtain ⟨rfl, hrest⟩ := List.cons.inj hsplit
      have hfront : front <+: content := by
        refine List.prefix_of_prefix_length_le ⟨token :: rest, hrest.symm⟩ (List.prefix_append _ _) ?_
        have hlength := congrArg List.length hrest
        simp only [List.append_eq, List.length_append, List.length_cons, List.length_nil] at hlength
        omega
      simp only [readOn_opener hget]
      exact .inl (holding_begun hbottom hbegun hregular hfront).stack_ne_nil
  · have hholding := holding_begun hbottom hbegun hregular (List.prefix_refl content)
    have hended := hholding.read_last hbottom howner registry .positional last
    obtain ⟨children, hexpecting⟩ := hended.expecting
    simp only [readOn_opener hget]
    exact ⟨hended.stack, _, hexpecting, hroot⟩

include howner hget in
theorem parse_begun (hdef : root.definition = some d) :
    let parsed := parse registry (documentTokens content last)
    (∀ d ∈ parsed.diagnostics, d.problem.breaksOff = false) ∧
      parsed.tree.texts = content.filter (·.isText) ∧
      (parsed.diagnostics = [] → ∀ id < parsed.tree.size,
        (∃ owner, id ∈ parsed.tree.below owner) ∨ id = parsed.tree.root) := by
  have hholding := holding_begun hbottom hbegun hregular (List.prefix_refl content)
  have hended := hholding.read_last hbottom howner registry .positional last
  have hbegan := (begun_whole hget).readOn howner fun front hfront =>
    ⟨_, holding_begun hbottom hbegun hregular hfront⟩
  have hwhole : (((begun registry d).readOn registry content).read registry
      ⟨.closer .positional, last⟩ true).Whole := hbegan.read hholding howner true
  obtain ⟨htexts, hquiet⟩ := hended.readAll hdef registry
  rw [parse_documentTokens hget]
  refine ⟨hquiet, htexts, fun hsilent => ?_⟩
  obtain ⟨children, hexpecting⟩ := hended.expecting
  rcases hwhole with hcomplete | hreported | ⟨call, hcall, hnone⟩
  · exact hcomplete.readAll hexpecting hdef hended.stack
  · exact absurd hsilent (hreported.readAll registry [])
  · simp only [State.calls, hexpecting, hended.stack, Expecting.calls, List.flatMap_nil,
      List.append_nil, List.mem_singleton] at hcall
    subst hcall
    exact absurd (hnone.symm.trans hdef) (by simp)

end

end Parser.State

/-- No text of a document is lost, whatever stands in it and whatever is reported. -/
theorem parse_lossless (registry : Registry)
    (hdefined : registry.contains MacroName.toplevel = true) (source : String) :
    let tokens := (tokenize source).tokens
    let parsed := parse registry tokens
    (∃ call, parsed.tree.call? parsed.tree.root = some call ∧ call.name = MacroName.toplevel) ∧
      (∀ d ∈ parsed.diagnostics, d.problem.breaksOff = false) ∧
      Parser.State.Consumes registry tokens ∧
      parsed.tree.texts = tokens.filter (·.isText) ∧
      (parsed.diagnostics = [] →
        ∀ id < parsed.tree.size, parsed.tree.Reaches parsed.tree.root id) := by
  obtain ⟨d, hget⟩ := Option.isSome_iff_exists.mp hdefined
  obtain ⟨content, last, htokens, -⟩ := tokens_tokenize source
  have hdocument : (tokenize source).tokens = Parser.State.documentTokens content last := htokens
  have hregular := hdocument ▸ regular_tokenize source
  obtain ⟨bottom, root, hbottom, howner, hroot, hdef, hbegun⟩ :=
    Parser.State.begun_holding registry d
  obtain ⟨hquiet, htexts, hheld⟩ :=
    Parser.State.parse_begun hget hbottom howner hbegun hregular hdef
  rw [hdocument]
  refine ⟨parse_root registry _ _ _ hdefined, hquiet,
    Parser.State.consumes_begun hget hbottom howner hbegun hregular hroot, ?_,
    fun hsilent id hid => ?_⟩
  · rw [htexts]
    simp [Parser.State.documentTokens, List.filter_append, Token.isText]
  · exact (parse_tree registry _).1.reaches (hheld hsilent) hid

theorem parse_lossless_geese :
    let tokens := (tokenize "see]\n\n\\b[\\x\x7bto=geese] \x7d").tokens
    let parsed := parse .builtin tokens
    Registry.builtin.contains MacroName.toplevel = true ∧
      (∃ call, parsed.tree.call? parsed.tree.root = some call ∧ call.name = MacroName.toplevel) ∧
      (∀ d ∈ parsed.diagnostics, d.problem.breaksOff = false) ∧
      Parser.State.Consumes .builtin tokens ∧
      parsed.tree.texts = tokens.filter (·.isText) ∧
      (parsed.diagnostics = [] →
        ∀ id < parsed.tree.size, parsed.tree.Reaches parsed.tree.root id) :=
  ⟨by decide, parse_lossless .builtin (by decide) _⟩

end Macromark

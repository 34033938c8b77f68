import Macromark.Proofs.Assembly.Targets

/-!
# Which scope a link finds

Of the identifiers that a link may mean the longest one that is known wins, since
it is that in the innermost scope. A magic link also looks for its target in
another number, and then the longest one may be a plural in the scope around
(`innermost_scope_loses`). But it passes over one scope at most, and over none
whose name has more than two characters (`analyze_innermost`).
-/

namespace Macromark

open Assembly (Nested Within around length_under prefixLength under within_or_longer)

namespace Tree

variable {registry : Registry} {t : Tree} {x : NodeId} {v w : String}

/-- Only the number of a word may differ. -/
theorem near_linkWords (hv : v ∈ t.linkWords registry x) (hw : w ∈ t.linkWords registry x) :
    v.length ≤ w.length ∨ t.isMagic registry x = true ∧ v.length ≤ w.length + 3 := by
  unfold linkWords at hv hw
  simp only at hv hw
  split at hv
  · next hmagic =>
    rw [if_pos hmagic] at hw
    exact .inr ⟨hmagic, (Inflection.near_of_mem hv hw).1⟩
  · next hplain =>
    rw [if_neg hplain] at hw
    rw [List.mem_singleton.mp hv, List.mem_singleton.mp hw]
    exact .inl (Nat.le_refl _)

/-- A candidate of an inner scope is longer, unless that has a short name and the word may stand in
another number. -/
theorem longer_or_short {front back : List (Option String)} {inner scope : Option String}
    (hnested : (front ++ scope :: back).IsChain Within) (hinner : inner ∈ front)
    (hv : v ∈ t.candidatesIn registry x inner) (hw : w ∈ t.candidatesIn registry x scope)
    (hle : v.length ≤ w.length) :
    t.isMagic registry x = true ∧ ∃ name, inner = some (under scope name) ∧ name.length ≤ 2 := by
  obtain ⟨word, hword, rfl⟩ := List.mem_map.mp hv
  obtain ⟨other, hother, rfl⟩ := List.mem_map.mp hw
  rw [length_under, length_under] at hle
  have hnear := near_linkWords (List.mem_of_mem_filter hother) (List.mem_of_mem_filter hword)
  rcases within_or_longer hnested hinner with hwithin | hlonger
  · obtain ⟨name, hname, hlength, hpos⟩ := hwithin.length
    rcases hnear with hplain | ⟨hmagic, hnear⟩
    · omega
    · exact ⟨hmagic, name, hname, by omega⟩
  · omega

end Tree

namespace Analysis

variable {a : Analysis} {store : Option Store} {x : NodeId} {position : Position} {r : Reference}

def Keeps (a : Analysis) (store : Option Store) (x : NodeId) (r : Reference) : Prop :=
  ∃ position place, a.tree.href? x = some position ∧ place ∈ (a.links store).selected ∧
    a.contribution.references[place]? = some r ∧
    r.groupKey = ⟨a.document, position, .crossReference⟩

theorem keeps_iff (hhref : a.tree.href? x = some position) : a.Keeps store x r ↔ ∃ place,
    Selection.winner? (a.resolves store) (Selection.members a.contribution.references
      ⟨a.document, position, .crossReference⟩) = some (r, place) := by
  refine Iff.trans ?_ Selection.exists_selected
  constructor
  · rintro ⟨other, place, hother, hplace, hr, hkey⟩
    obtain rfl := Option.some.inj (hhref.symm.trans hother)
    exact ⟨place, hplace, hr, hkey⟩
  · rintro ⟨place, hplace, hr, hkey⟩
    exact ⟨position, place, hhref, hplace, hr, hkey⟩

/-- What a link leads from is known, so that it leads somewhere if its target is. -/
theorem Sound.resolves_eq {document : String} (h : a.Sound document)
    (hr : r ∈ a.contribution.references) : a.resolves store r = a.knows store r.target := by
  rcases (h.references r hr).2 with hsource | hsource
  · simp [resolves, hsource]
  · simp [resolves, knows, hsource]

end Analysis

/-- If an identifier that a link may mean is known, one reference is kept. No scope inside that of its
target has a candidate that is known, except that a magic link may pass over the scope directly inside
it, if that has a name of two characters at most. -/
theorem analyze_innermost {registry : Registry} (hcheck : registry.check = .ok ())
    (hregistry : registry.Linkable) (document source : String) (store : Option Store) :
    let a := analyze registry document source
    let written := (parse registry (tokenize source).tokens).tree
    ∀ x, a.tree.IsLink x →
      let scopes := around (a.scopes registry written x).reverse
      let candidates := written.candidatesIn registry x
      (∃ scope ∈ scopes, ∃ id ∈ candidates scope, a.knows store id = true) →
      ∃ r, (∀ r', a.Keeps store x r' ↔ r' = r) ∧ a.knows store r.target = true ∧
        ∃ front scope back, scopes = front ++ scope :: back ∧ r.target ∈ candidates scope ∧
          ∀ inner ∈ front, ∀ id ∈ candidates inner, a.knows store id = true →
            written.isMagic registry x = true ∧
              ∃ name, inner = some (under scope name) ∧ name.length ≤ 2 := by
  intro a written x hx scopes candidates hknown
  obtain ⟨position, hhref, hnested, htargets⟩ := analyze_targets hcheck hregistry document source x hx
  have hsound : a.Sound document := analyze_sound registry document source
  have hkeeps : ∀ r, a.Keeps store x r ↔ _ := fun r => Analysis.keeps_iff hhref
  -- what is known is a reference of the link that leads somewhere
  have hmember : ∀ scope ∈ scopes, ∀ id ∈ candidates scope, a.knows store id = true →
      ∃ placed ∈ Selection.members a.contribution.references
        ⟨a.document, position, .crossReference⟩,
        a.resolves store placed.1 = true ∧ placed.1.target = id := by
    intro scope hscope id hid hknown
    obtain ⟨r, hr, hkey, rfl⟩ := (htargets id).mpr ⟨scope, hscope, hid⟩
    obtain ⟨place, hplace⟩ := List.mem_iff_getElem?.mp hr
    exact ⟨(r, place), Selection.mem_members.mpr ⟨hplace, hkey⟩,
      (hsound.resolves_eq hr).trans hknown, rfl⟩
  generalize hgroup : Selection.members a.contribution.references
    ⟨a.document, position, .crossReference⟩ = group at hkeeps hmember
  cases hwinner : Selection.winner? (a.resolves store) group with
  | none =>
    obtain ⟨scope, hscope, id, hid, hknown⟩ := hknown
    obtain ⟨placed, hplaced, hresolves, -⟩ := hmember scope hscope id hid hknown
    simp [Selection.winner?_eq_none_iff.mp hwinner placed hplaced] at hresolves
  | some winner =>
    obtain ⟨r, place⟩ := winner
    obtain ⟨hwon, hresolves⟩ := Selection.winner?_eq_some hwinner
    rw [← hgroup] at hwon
    obtain ⟨hplace, hkey⟩ := Selection.mem_members.mp hwon
    have hr := List.mem_of_getElem? hplace
    obtain ⟨scope, hscope, htarget⟩ := (htargets r.target).mp ⟨r, hr, hkey, rfl⟩
    obtain ⟨front, back, hsplit⟩ := List.append_of_mem hscope
    change scopes = front ++ scope :: back at hsplit
    change scopes.IsChain Within at hnested
    rw [hsplit] at hnested hmember
    refine ⟨r, fun r' => ?_, (hsound.resolves_eq hr).symm.trans hresolves, front, scope, back, hsplit,
      htarget, fun inner hinner id hid hknown => ?_⟩
    · rw [hkeeps, hwinner]
      simp [eq_comm]
    · obtain ⟨placed, hplaced, hresolves', rfl⟩ :=
        hmember inner (List.mem_append_left _ hinner) id hid hknown
      have hlongest := Selection.winner?_longest hwinner hplaced hresolves'
      exact Tree.longer_or_short hnested hinner hid htarget hlongest

theorem analyze_innermost_brent :
    let source := "\\h[1][Brent]\n\n\\h[1][Geese]{scope=1}\n\n\\h[2][Brent]\n\n\\x[brent]"
    let a := analyze .builtin "zoo" source
    let written := (parse .builtin (tokenize source).tokens).tree
    let scopes := around (a.scopes .builtin written 25).reverse
    let candidates := written.candidatesIn .builtin 25
    Registry.builtin.check = .ok () ∧ Registry.builtin.Linkable ∧ a.tree.IsLink 25 ∧
      (∃ scope ∈ scopes, ∃ id ∈ candidates scope, a.knows none id = true) ∧
      ∃ r, (∀ r', a.Keeps none 25 r' ↔ r' = r) ∧ a.knows none r.target = true ∧
        ∃ front scope back, scopes = front ++ scope :: back ∧ r.target ∈ candidates scope ∧
          ∀ inner ∈ front, ∀ id ∈ candidates inner, a.knows none id = true →
            written.isMagic .builtin 25 = true ∧
              ∃ name, inner = some (under scope name) ∧ name.length ≤ 2 := by
  intro source a written scopes candidates
  have hfacts : 29 ∈ a.tree.below a.tree.root ∧ 25 ∈ a.tree.below 29 ∧
      a.tree.name? 25 = some MacroName.crossReference ∧ some "geese" ∈ scopes ∧
      "geese/brent" ∈ candidates (some "geese") ∧ a.knows none "geese/brent" = true := by
    decide +kernel
  obtain ⟨hparagraph, hbelow, hname, hscope, hid, hknows⟩ := hfacts
  have hlink : a.tree.IsLink 25 := ⟨.tail (.tail .refl hparagraph) hbelow, hname⟩
  have hknown : ∃ scope ∈ scopes, ∃ id ∈ candidates scope, a.knows none id = true :=
    ⟨_, hscope, _, hid, hknows⟩
  exact ⟨by decide, Registry.linkable_builtin, hlink, hknown,
    analyze_innermost (by decide) Registry.linkable_builtin "zoo" source none 25 hlink hknown⟩

/-- A plural in the scope around is longer than the singular in a scope with a short name. -/
theorem innermost_scope_loses :
    let source := "\\h[1][A]{id=a}{scope=1}\n\n\\h[2][Children]\n\n\\h[2][B]{id=b}{scope=1}\n\n" ++
      "\\h[3][Child]\n\n\\x[child]{magic=1}"
    let a := analyze .builtin "zoo" source
    let written := (parse .builtin (tokenize source).tokens).tree
    let candidates := written.candidatesIn .builtin 32
    a.tree.IsLink 32 ∧ around (a.scopes .builtin written 32).reverse = [some "a/b", some "a", none] ∧
      "a/b/child" ∈ candidates (some "a/b") ∧ a.knows none "a/b/child" = true ∧
      ∃ r, a.Keeps none 32 r ∧ r.target = "a/children" ∧ r.target ∉ candidates (some "a/b") := by
  intro source a written candidates
  let kept : Reference :=
    { source := "a/b/child", target := "a/children", kind := .crossReference
      site := ⟨"zoo", ⟨9, 3⟩⟩, inflected := true }
  let group := Selection.members a.contribution.references ⟨a.document, ⟨9, 3⟩, .crossReference⟩
  have hfacts : 36 ∈ a.tree.below a.tree.root ∧ 32 ∈ a.tree.below 36 ∧
      a.tree.name? 32 = some MacroName.crossReference ∧ a.tree.href? 32 = some ⟨9, 3⟩ ∧
      around (a.scopes .builtin written 32).reverse = [some "a/b", some "a", none] ∧
      "a/b/child" ∈ candidates (some "a/b") ∧ a.knows none "a/b/child" = true ∧
      kept.target ∉ candidates (some "a/b") := by
    decide +kernel
  obtain ⟨hparagraph, hbelow, hname, hhref, hscopes, hcandidate, hknown, hother⟩ := hfacts
  have hgroup : (kept, 7) ∈ group ∧ a.resolves none kept = true ∧
      ∀ other ∈ group, a.resolves none other.1 = true →
        kept.targetLength ≤ other.1.targetLength → other = (kept, 7) := by
    decide +kernel
  obtain ⟨hplaced, hresolves, hunique⟩ := hgroup
  have hkept : a.Keeps none 32 kept :=
    (Analysis.keeps_iff hhref).mpr ⟨7, Selection.winner?_of_unique hplaced hresolves hunique⟩
  exact ⟨⟨.tail (.tail .refl hparagraph) hbelow, hname⟩, hscopes, hcandidate, hknown, kept, hkept,
    rfl, hother⟩

end Macromark

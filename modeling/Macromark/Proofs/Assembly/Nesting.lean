import Macromark.Proofs.Assembly.Scopes
import Mathlib.Data.List.Chain

/-!
# Scopes within scopes

A header is named within the scope around it, and so is the scope that it opens.
So each open scope is named within the next one (`Visited.nested`), and is longer
by its name and a slash. Of two scopes one is named directly within the other or
is longer by four characters (`within_or_longer`).
-/

namespace Macromark.Assembly

variable {setting : Setting} {s u : State} {node : NodeId} {given : Option String} {level : Level}
variable {t : Tree} {made : List Arrival}
variable {scope inner outer : Option String} {scopes : List String} {name : String}

-- ----------------------------------------------------------------------------
-- Nested scopes
-- ----------------------------------------------------------------------------

/-- A scope is named within another one, or within none. -/
def Within (inner outer : Option String) : Prop :=
  ∃ name, name ≠ "" ∧ inner = some (under outer name)

/-- The given scopes and, at last, none. -/
def around (scopes : List String) : List (Option String) := scopes.map some ++ [none]

/-- Each scope is named within the next one. -/
def Nested (scopes : List String) : Prop := (around scopes).IsChain Within

theorem nested_nil : Nested [] := .singleton none

theorem head?_around (scopes : List String) : (around scopes).head? = some scopes.head? := by
  cases scopes <;> rfl

theorem nested_cons {first : String} :
    Nested (first :: scopes) ↔ Within (some first) scopes.head? ∧ Nested scopes := by
  change (some first :: around scopes).IsChain Within ↔ _
  rw [List.isChain_cons, head?_around]
  simp [Nested]

theorem Nested.suffix {rest : List String} (h : Nested scopes) (hsuffix : rest <:+ scopes) :
    Nested rest := by
  obtain ⟨front, rfl⟩ := hsuffix
  refine List.IsChain.suffix h ⟨front.map some, ?_⟩
  rw [around, around, List.map_append, List.append_assoc]

theorem under_ne_empty (hname : name ≠ "") (scope : Option String) : under scope name ≠ "" := by
  cases scope with
  | none => exact hname
  | some scope => simp [under, hname]

theorem Nested.ne_empty (h : Nested scopes) : "" ∉ scopes := by
  induction scopes with
  | nil => simp
  | cons first scopes ih =>
    obtain ⟨⟨name, hname, hfirst⟩, hrest⟩ := nested_cons.mp h
    rw [List.mem_cons, not_or, Option.some.inj hfirst]
    exact ⟨(under_ne_empty hname _).symm, ih hrest⟩

-- ----------------------------------------------------------------------------
-- Lengths
-- ----------------------------------------------------------------------------

/-- The length of what a scope puts in front of a name. -/
def prefixLength (scope : Option String) : Nat := (under scope "").length

theorem length_under (scope : Option String) (name : String) :
    (under scope name).length = prefixLength scope + name.length := by
  cases scope <;> simp [under, prefixLength]

theorem Within.length (h : Within inner outer) : ∃ name, inner = some (under outer name) ∧
    prefixLength inner = prefixLength outer + name.length + 1 ∧ 0 < name.length := by
  obtain ⟨name, hname, rfl⟩ := h
  refine ⟨name, rfl, ?_, ?_⟩
  · rw [← length_under]
    simp [prefixLength, under, show "/".length = 1 from rfl]
  · rw [Nat.pos_iff_ne_zero]
    simpa using hname

/-- A scope is named directly within another one, or is longer by two names at least. -/
theorem within_or_longer {front back : List (Option String)}
    (h : (front ++ scope :: back).IsChain Within) (hinner : inner ∈ front) :
    Within inner scope ∨ prefixLength scope + 4 ≤ prefixLength inner := by
  induction front generalizing inner with
  | nil => simp at hinner
  | cons first front ih =>
    rw [List.cons_append, List.isChain_cons] at h
    obtain ⟨hfirst, hrest⟩ := h
    rcases List.mem_cons.mp hinner with rfl | hinner
    · cases front with
      | nil => exact .inl (hfirst scope rfl)
      | cons next front =>
        obtain ⟨_, -, hlength, hpos⟩ := (hfirst next rfl).length
        right
        rcases ih hrest List.mem_cons_self with hnext | hnext
        · obtain ⟨_, -, hlength', hpos'⟩ := hnext.length
          omega
        · omega
    · exact ih hrest hinner

-- ----------------------------------------------------------------------------
-- Open scopes
-- ----------------------------------------------------------------------------

theorem suffix_close (h : HeaderTree) (level : Level) (ids : List HeaderId) :
    h.close level ids <:+ ids := by
  induction ids with
  | nil => exact List.suffix_refl _
  | cons id ids ih =>
    cases ids with
    | nil => exact List.suffix_refl _
    | cons next ids =>
      rw [HeaderTree.close]
      split
      · exact ih.trans (List.suffix_cons id _)
      · exact List.suffix_refl _
      · simp

/-- A header closes some scopes, and may open one. -/
theorem Chained.scopes_opened (h : Chained setting t made s)
    (hopened : Opened setting node level given s u) :
    Assembly.scopesAround u =
      (if Text.isTruthy (text setting s node "scope") then given else none).toList ++
        scopesOf s (s.headers.close level s.headers.chain) := by
  have hold : ∀ header ∈ s.headers.close level s.headers.chain,
      u.scopes.get? header = s.scopes.get? header := by
    intro header hheader
    have hlt := h.inside header ((suffix_close _ _ _).subset hheader)
    rw [hopened.scopes, if_neg fun hnew => Nat.lt_irrefl _ (hnew.1 ▸ hlt)]
  have hchain : u.headers.chain =
      s.headers.nodes.size :: s.headers.close level s.headers.chain := by
    rw [hopened.headers]
    rfl
  have hnew : u.scopes.get? s.headers.nodes.size =
      if Text.isTruthy (text setting s node "scope") then given else none := by
    rw [hopened.scopes, h.fresh _ (Nat.le_refl _)]
    cases given <;> simp
  rw [Assembly.scopesAround, hchain, scopesOf, List.filterMap_cons, hnew, List.filterMap_congr hold]
  split <;> simp_all [scopesOf]

theorem scopeAt_heading (h : s.tree.isHeading setting.registry node = true) :
    scopeAt setting s node =
      (scopesOf s (s.headers.close (levelOf setting s node).1 s.headers.chain)).head? := by
  have hsynonym : s.tree.isSynonym setting.registry node = false := by
    simp_all [Tree.isHeading, Tree.isSynonym]
  rw [scopeAt, hsynonym, h]
  rfl

theorem Visited.nested (h : Visited setting (registerDocument setting (.initial t)) made s)
    (ht : Ready setting t) : Nested (scopesAround s) := by
  induction h with
  | start =>
    obtain ⟨ids, hchain, hids⟩ := ht.chained.chain
    rw [scopesAround, hchain, scopesOf_eq, List.map_append, List.filterMap_append, hids]
    simpa [Outline.enclosing, State.heading, ht.chained.top] using nested_nil
  | @visit earlier s rank visit hvisited hshape hnot hnode _ ih =>
    obtain ⟨given, named, hnaming, hopening, hrest, -⟩ :=
      visitNode_naming visit hshape.declared hnode
    have hsame : scopesAround (visitNode setting visit s).2 = scopesAround named := by rw [hrest]; rfl
    rw [hsame]
    cases hopening with
    | aside _ hsame =>
      rwa [scopesAround, scopesOf, hsame.headers, hsame.scopes]
    | opened hroot hheading hopened =>
      have hchained := hvisited.chained ht
      rw [hchained.scopes_opened hopened]
      generalize hclose : s.headers.close (levelOf setting s visit.node).1 s.headers.chain = closed
      have hclosed : Nested (scopesOf s closed) :=
        ih.suffix (hclose ▸ (suffix_close _ _ _).filterMap _)
      split
      · cases given with
        | none => exact hclosed
        | some id =>
          obtain ⟨_, _, _, _, hid, hname⟩ := requestedId_eq hnaming.asked_of_given
          refine nested_cons.mpr ⟨⟨_, hname, ?_⟩, hclosed⟩
          have hscope : (scopesOf s closed).head? ≠ some "" := fun hempty =>
            hclosed.ne_empty (List.mem_of_head? hempty)
          rw [hid, scopeAt_heading hheading, hclose, underScope_eq hscope]
          rfl
      · exact hclosed

end Macromark.Assembly

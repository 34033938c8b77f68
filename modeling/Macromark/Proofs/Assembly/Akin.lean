import Macromark.Proofs.Assembly.Composition
import Macromark.Proofs.Assembly.Origin
import Mathlib.Data.List.Forall2

/-!
# Passages that settle alike

Two passages are `Akin` if they differ in who wrote a macro, and in an argument
that holds the same once its rows are put into their containers. A visit keeps
that for whatever stands in the argument then (`Akin.tidyContent`), and where
nothing is left to be put in the passages are the same (`Akin.plain_settle`).
-/

namespace Macromark
namespace Passage

variable {α : Type} {registry : Registry} {fresh : α} {owner container : String}
variable {p q r : Passage α} {ps qs : List (Passage α)}

/-- A passage that does not say which macros the compiler has written. -/
def plain (p : Passage α) : Passage α :=
  match p with
  | .call mark name _ slots =>
    .call mark name false (slots.map fun slot => ⟨slot.name, slot.supplied, slot.content.map plain⟩)
  | p => p
termination_by sizeOf p
decreasing_by
  rename_i hslot _ hp
  exact sizeOf_lt_of_slot hslot hp ..

theorem plain_call (mark : α) (name : String) (synthetic : Bool) (slots : List (Slot (Passage α))) :
    (call mark name synthetic slots).plain = .call mark name false (slots.map (·.map plain)) := by
  rw [plain]
  rfl

-- ----------------------------------------------------------------------------
-- Passages that become the same
-- ----------------------------------------------------------------------------

/-- Two passages are the same, but for who wrote a macro and for one argument of it that holds
the same once its rows are put into their containers. -/
inductive Akin (registry : Registry) (fresh : α) : Passage α → Passage α → Prop
  | refl (p : Passage α) : Akin registry fresh p p
  | call {mark : α} {owner name : String} {synthetic synthetic' supplied : Bool}
      {before after : List (Slot (Passage α))} {content content' : List (Passage α)} :
      content'.any isBreak = content.any isBreak →
      List.Forall₂ (Akin registry fresh) (gather registry fresh owner content)
        (gather registry fresh owner content') →
      Akin registry fresh
        (.call mark owner synthetic (before ++ ⟨name, supplied, content⟩ :: after))
        (.call mark owner synthetic' (before ++ ⟨name, supplied, content'⟩ :: after))

namespace Akin

theorem refls (ps : List (Passage α)) : List.Forall₂ (Akin registry fresh) ps ps :=
  List.forall₂_same.mpr fun p _ => .refl p

theorem isBlank (h : Akin registry fresh p q) : q.isBlank = p.isBlank := by cases h <;> rfl

theorem isBreak (h : Akin registry fresh p q) : q.isBreak = p.isBreak := by cases h <;> rfl

theorem isPhrasing (h : Akin registry fresh p q) : q.isPhrasing registry = p.isPhrasing registry := by
  cases h <;> rfl

theorem container? (h : Akin registry fresh p q) (owner : String) :
    q.container? registry owner = p.container? registry owner := by
  cases h <;> rfl

theorem any_isBreak (h : List.Forall₂ (Akin registry fresh) ps qs) :
    qs.any Passage.isBreak = ps.any Passage.isBreak := by
  induction h with
  | nil => rfl
  | cons hp _ ih => simp [hp.isBreak, ih]

theorem filter (keep : Passage α → Bool)
    (hkeep : ∀ p q, Akin registry fresh p q → keep q = keep p)
    (h : List.Forall₂ (Akin registry fresh) ps qs) :
    List.Forall₂ (Akin registry fresh) (ps.filter keep) (qs.filter keep) :=
  List.rel_filter (fun p q hpq => by simp [hkeep p q hpq]) h

theorem takeWhile (keep : Passage α → Bool)
    (hkeep : ∀ p q, Akin registry fresh p q → keep q = keep p)
    (h : List.Forall₂ (Akin registry fresh) ps qs) :
    List.Forall₂ (Akin registry fresh) (ps.takeWhile keep) (qs.takeWhile keep) := by
  induction h with
  | nil => exact .nil
  | @cons p q _ _ hp _ ih =>
    simp only [List.takeWhile_cons, hkeep p q hp]
    split
    · exact .cons hp ih
    · exact .nil

theorem dropWhile (keep : Passage α → Bool)
    (hkeep : ∀ p q, Akin registry fresh p q → keep q = keep p)
    (h : List.Forall₂ (Akin registry fresh) ps qs) :
    List.Forall₂ (Akin registry fresh) (ps.dropWhile keep) (qs.dropWhile keep) := by
  induction h with
  | nil => exact .nil
  | @cons p q _ _ hp hrest ih =>
    simp only [List.dropWhile_cons, hkeep p q hp]
    split
    · exact ih
    · exact .cons hp hrest

end Akin

-- ----------------------------------------------------------------------------
-- New macros
-- ----------------------------------------------------------------------------

/-- The content of a new macro stands in one of its arguments. -/
theorem impliedSlots_split (fresh : α) {names : List String} (h : "content" ∈ names) :
    ∃ before after, ∀ content : List (Passage α), content ≠ [] →
      impliedSlots fresh names (some content) = before ++ ⟨"content", true, content⟩ :: after := by
  induction names with
  | nil => cases h
  | cons name names ih =>
    by_cases hname : name = "content"
    · refine ⟨[], impliedSlots fresh names none, fun content hcontent => ?_⟩
      obtain ⟨p, ps, rfl⟩ := List.exists_cons_of_ne_nil hcontent
      rw [impliedSlots, hname]
      rfl
    · obtain ⟨before, after, hsplit⟩ := ih ((List.mem_cons.mp h).resolve_left (Ne.symm hname))
      refine ⟨⟨name, false, [.text fresh ""]⟩ :: before, after, fun content hcontent => ?_⟩
      rw [impliedSlots, if_neg hname, if_neg hname, hsplit content hcontent]
      rfl

/-- A macro is akin to one with the same name and content, whoever wrote it. -/
theorem akin_impliedSlots {names : List String} (hnames : "content" ∈ names) {mark : α}
    {synthetic synthetic' : Bool} (hps : ps ≠ []) (hqs : qs ≠ [])
    (hbreak : qs.any isBreak = ps.any isBreak)
    (h : List.Forall₂ (Akin registry fresh) (gather registry fresh owner ps)
      (gather registry fresh owner qs)) :
    Akin registry fresh (.call mark owner synthetic (impliedSlots fresh names (some ps)))
      (.call mark owner synthetic' (impliedSlots fresh names (some qs))) := by
  obtain ⟨before, after, hsplit⟩ := impliedSlots_split fresh hnames
  rw [hsplit ps hps, hsplit qs hqs]
  exact .call hbreak h

theorem akin_implied {name : String} (hps : ps ≠ []) (hqs : qs ≠ [])
    (hbreak : qs.any isBreak = ps.any isBreak)
    (h : List.Forall₂ (Akin registry fresh) (gather registry fresh name ps)
      (gather registry fresh name qs)) :
    Option.Rel (Akin registry fresh) (implied? registry fresh name ps)
      (implied? registry fresh name qs) := by
  unfold implied?
  split
  · exact .none
  · split
    · next hdeclares =>
      exact .some (akin_impliedSlots (MacroDef.declares_iff.mp hdeclares) hps hqs hbreak h)
    · exact .none

-- ----------------------------------------------------------------------------
-- Containers
-- ----------------------------------------------------------------------------

theorem gatherRows_of_none (h : ∀ p ∈ ps, p.container? registry owner = none) :
    gatherRows registry fresh owner ps = ps := by
  induction ps with
  | nil => simp [gatherRows]
  | cons p rest ih =>
    simp only [List.forall_mem_cons] at h
    simp [gatherRows_none h.1, ih h.2]

theorem container?_container (h : p.container? registry owner = some container) :
    p.container? registry container = none := by
  obtain ⟨mark, name, synthetic, slots, d, gathering, rfl, hd, hgathering, rfl⟩ :=
    gathering_of_container? h
  simp [Passage.container?, hd, hgathering]

theorem isContainer_of_container? (h : p.container? registry owner = some container) :
    registry.isContainer container = true := by
  obtain ⟨mark, name, synthetic, slots, d, gathering, rfl, hd, hgathering, rfl⟩ :=
    gathering_of_container? h
  simp only [Registry.isContainer, List.any_eq_true]
  exact ⟨d, List.mem_of_find?_eq_some hd, by simp [hgathering]⟩

/-- The members of a container stay as they are in it. -/
theorem gather_members (h : ∀ p ∈ ps, p.container? registry owner = some container) :
    gather registry fresh container ps = ps := by
  have hsolid : ps.filter (!·.isBlank) = ps :=
    List.filter_eq_self.mpr fun p hp => by simp [isBlank_of_container? (h p hp)]
  have hnone : ∀ p ∈ ps, p.container? registry container = none :=
    fun p hp => container?_container (h p hp)
  rw [gather, hsolid, ite_self, gatherRows_of_none hnone]

theorem any_isBreak_row
    (h : ∀ p ∈ ps, p.container? registry owner = some container ∨ p.isBlank = true) :
    ps.any isBreak = false := by
  simp only [List.any_eq_false]
  intro p hp hbreak
  obtain ⟨mark, rfl⟩ := eq_paragraphBreak hbreak
  cases h _ hp with
  | inl hasks => cases hasks
  | inr hblank => cases hblank

namespace Akin

theorem members (hps : ∀ p ∈ ps, p.container? registry owner = some container)
    (h : List.Forall₂ (Akin registry fresh) ps qs) :
    ∀ q ∈ qs, q.container? registry owner = some container := by
  induction h with
  | nil => simp
  | @cons p q _ _ hp _ ih =>
    simp only [List.forall_mem_cons] at hps ⊢
    exact ⟨(hp.container? owner).trans hps.1, ih hps.2⟩

theorem rowOf (owner container : String) (h : List.Forall₂ (Akin registry fresh) ps qs) :
    List.Forall₂ (Akin registry fresh) (rowOf registry owner container ps)
      (Passage.rowOf registry owner container qs) := by
  have htaken := takeWhile (fun p => p.container? registry owner == some container || p.isBlank)
    (fun p q hpq => by simp [hpq.container?, hpq.isBlank]) h
  exact List.rel_reverse
    (dropWhile _ (fun p q hpq => by simp [hpq.container?]) (List.rel_reverse htaken))

theorem wrapRow (hp : p.container? registry owner = some container)
    (h : List.Forall₂ (Akin registry fresh) (p :: ps) (q :: qs)) :
    List.Forall₂ (Akin registry fresh) (wrapRow registry fresh owner container (p :: ps))
      (Passage.wrapRow registry fresh owner container (q :: qs)) := by
  have hfilter := filter (·.container? registry owner == some container)
    (fun p q hpq => by simp [hpq.container?]) h
  have hmembers : ∀ q ∈ (p :: ps).filter (·.container? registry owner == some container),
      q.container? registry owner = some container := by
    intro q hq
    simpa using (List.mem_filter.mp hq).2
  have hmembers' := members hmembers hfilter
  have hne : (p :: ps).filter (·.container? registry owner == some container) ≠ [] := by simp [hp]
  have hne' : (q :: qs).filter (·.container? registry owner == some container) ≠ [] := by
    intro hnil
    rw [hnil, List.forall₂_nil_right_iff] at hfilter
    exact hne hfilter
  have himplied : Option.Rel (Akin registry fresh) (implied? registry fresh container _)
      (implied? registry fresh container _) := akin_implied hne hne'
    (by simp [any_isBreak_row fun p hp => .inl (hmembers p hp),
      any_isBreak_row fun p hp => .inl (hmembers' p hp)])
    (by simpa [gather_members hmembers, gather_members hmembers'] using hfilter)
  unfold Passage.wrapRow
  generalize implied? registry fresh container _ = made at himplied ⊢
  generalize implied? registry fresh container _ = made' at himplied ⊢
  cases himplied with
  | some hmade => exact .cons hmade .nil
  | none => exact h

theorem gatherRows (h : List.Forall₂ (Akin registry fresh) ps qs) :
    List.Forall₂ (Akin registry fresh) (gatherRows registry fresh owner ps)
      (Passage.gatherRows registry fresh owner qs) := by
  induction hlength : ps.length using Nat.strong_induction_on generalizing ps qs with
  | _ length ih =>
    cases h with
    | nil => simp [Passage.gatherRows]
    | @cons p q ps qs hp hrest =>
      have hrest' := ih ps.length (by simp only [← hlength, List.length_cons]; omega) hrest rfl
      cases hasks : p.container? registry owner with
      | none =>
        have hasks' := (hp.container? owner).trans hasks
        simp [gatherRows_none hasks, gatherRows_none hasks', hp, hrest']
      | some container =>
        have hasks' := (hp.container? owner).trans hasks
        have hrow := rowOf owner container hrest
        by_cases hnil : Passage.rowOf registry owner container ps = []
        · rw [hnil, List.forall₂_nil_left_iff] at hrow
          simp [gatherRows_alone hasks hnil, gatherRows_alone hasks' hrow, hp, hrest']
        · have hnil' : Passage.rowOf registry owner container qs ≠ [] := by
            intro hnil'
            rw [hnil', List.forall₂_nil_right_iff] at hrow
            exact hnil hrow
          rw [gatherRows_row hasks hnil, gatherRows_row hasks' hnil', hrow.length_eq]
          apply List.rel_append (wrapRow hasks (.cons hp hrow))
          apply ih _ _ (List.forall₂_drop _ hrest) rfl
          simp only [← hlength, List.length_drop, List.length_cons]
          omega

theorem gather (h : List.Forall₂ (Akin registry fresh) ps qs) :
    List.Forall₂ (Akin registry fresh) (gather registry fresh owner ps)
      (Passage.gather registry fresh owner qs) := by
  unfold Passage.gather
  split
  · exact gatherRows (filter _ (fun p q hpq => by simp [hpq.isBlank]) h)
  · exact gatherRows h

-- ----------------------------------------------------------------------------
-- Paragraphs
-- ----------------------------------------------------------------------------

theorem chunks (h : List.Forall₂ (Akin registry fresh) ps qs) :
    List.Forall₂ (List.Forall₂ (Akin registry fresh)) (chunks ps) (Passage.chunks qs) := by
  induction h with
  | nil => exact .cons .nil .nil
  | cons hp hrest ih =>
    simp only [Passage.chunks, hp.isBreak]
    split
    · exact .cons .nil ih
    · generalize Passage.chunks _ = parted at ih ⊢
      generalize Passage.chunks _ = parted' at ih ⊢
      cases ih with
      | nil => exact .cons (.cons hp .nil) .nil
      | cons hchunk hothers => exact .cons (.cons hp hchunk) hothers

theorem trimFront (cut : List Char → List Char) (h : List.Forall₂ (Akin registry fresh) ps qs) :
    List.Forall₂ (Akin registry fresh) (trimFront cut ps) (Passage.trimFront cut qs) := by
  induction h with
  | nil => exact .nil
  | @cons p q _ _ hp hrest ih =>
    cases hp with
    | call hbreak hgathered => exact .cons (.call hbreak hgathered) hrest
    | refl =>
      cases p with
      | text mark words =>
        simp only [Passage.trimFront]
        split
        · exact ih
        · exact .cons (.refl _) hrest
      | _ => exact .cons (.refl _) hrest

theorem trimChunk (h : List.Forall₂ (Akin registry fresh) ps qs) :
    List.Forall₂ (Akin registry fresh) (trimChunk ps) (Passage.trimChunk qs) :=
  List.rel_reverse (trimFront _ (List.rel_reverse (trimFront _ h)))

theorem wrapChunk (h : List.Forall₂ (Akin registry fresh) ps qs) :
    List.Forall₂ (Akin registry fresh) (wrapChunk registry fresh ps)
      (Passage.wrapChunk registry fresh qs) := by
  have htrimmed := trimChunk h
  unfold Passage.wrapChunk
  generalize Passage.trimChunk ps = chunk at htrimmed ⊢
  generalize Passage.trimChunk qs = chunk' at htrimmed ⊢
  cases htrimmed with
  | nil => exact .nil
  | @cons p q ps qs hp hrest =>
    have hparagraph : Option.Rel (Akin registry fresh)
        (implied? registry fresh MacroName.paragraph (p :: ps))
        (implied? registry fresh MacroName.paragraph (q :: qs)) :=
      akin_implied (by simp) (by simp) (any_isBreak (.cons hp hrest)) (gather (.cons hp hrest))
    simp only [hp.isPhrasing]
    split
    · generalize implied? registry fresh MacroName.paragraph (p :: ps) = made at hparagraph ⊢
      generalize implied? registry fresh MacroName.paragraph (q :: qs) = made' at hparagraph ⊢
      cases hparagraph with
      | some hmade => exact .cons hmade .nil
      | none => exact .cons hp hrest
    · exact .cons hp hrest

theorem tidyContent {content content' : List (Passage α)} (isRoot : Bool) (name : String)
    (hbreak : content'.any Passage.isBreak = content.any Passage.isBreak)
    (h : List.Forall₂ (Akin registry fresh) (Passage.gather registry fresh owner content)
      (Passage.gather registry fresh owner content')) :
    List.Forall₂ (Akin registry fresh) (tidyContent registry fresh owner isRoot name content)
      (Passage.tidyContent registry fresh owner isRoot name content') := by
  simp only [Passage.tidyContent, hbreak]
  split
  · exact List.rel_flatMap (chunks h) fun _ _ hchunk => wrapChunk hchunk
  · exact h

end Akin

-- ----------------------------------------------------------------------------
-- All visits
-- ----------------------------------------------------------------------------

/-- Where a macro has settled, so has all that stands in it. -/
theorem settled_below {mark : α} {synthetic isRoot : Bool} {slots : List (Slot (Passage α))}
    {bound : Nat}
    (h : ∀ depth ≥ bound, (call mark owner synthetic slots).settle registry fresh depth isRoot = r)
    {slot : Slot (Passage α)} (hslot : slot ∈ slots)
    (hp : p ∈ tidyContent registry fresh owner isRoot slot.name slot.content) :
    ∀ depth ≥ bound, p.settle registry fresh depth false = p.settle registry fresh bound false := by
  intro depth hdepth
  have hsame := (h (depth + 1) (Nat.le_succ_of_le hdepth)).trans (h (bound + 1) (Nat.le_succ bound)).symm
  simp only [settle_call, Passage.call.injEq, true_and] at hsame
  have hcontent := congrArg Slot.content (List.map_inj_left.mp hsame slot hslot)
  exact List.map_inj_left.mp hcontent p hp

/-- Akin passages are the same once they have settled. -/
theorem Akin.plain_settle {isRoot : Bool} {bound : Nat} (h : Akin registry fresh p q)
    (hp : ∀ depth ≥ bound, p.settle registry fresh depth isRoot = p.settle registry fresh bound isRoot)
    (hq : ∀ depth ≥ bound, q.settle registry fresh depth isRoot = q.settle registry fresh bound isRoot) :
    (p.settle registry fresh bound isRoot).plain = (q.settle registry fresh bound isRoot).plain := by
  induction hsize : sizeOf (p.settle registry fresh bound isRoot) using Nat.strong_induction_on
    generalizing p q isRoot with
  | _ size ih =>
    cases h with
    | refl => rfl
    | @call mark owner name _ _ supplied before after content content' hbreak hgathered =>
      have htidied := Akin.tidyContent isRoot name hbreak hgathered
      rw [← hp (bound + 1) (Nat.le_succ bound), settle_call] at hsize ⊢
      rw [← hq (bound + 1) (Nat.le_succ bound), settle_call]
      let tidied (content : List (Passage α)) :=
        Passage.tidyContent registry fresh owner isRoot name content
      have hmem : ∀ content : List (Passage α), (⟨name, supplied, content⟩ : Slot (Passage α)) ∈
          before ++ ⟨name, supplied, content⟩ :: after := by simp
      have hsame : List.Forall₂ (fun p q : Passage α => (p.settle registry fresh bound false).plain =
          (q.settle registry fresh bound false).plain) (tidied content) (tidied content') := by
        refine List.forall₂_iff_zip.mpr ⟨htidied.length_eq, fun hxy => ?_⟩
        obtain ⟨hx, hy⟩ := List.of_mem_zip hxy
        refine ih _ ?_ (List.forall₂_zip htidied hxy) (settled_below hp (hmem _) hx)
          (settled_below hq (hmem _) hy) rfl
        rw [← hsize]
        exact sizeOf_lt_of_slot (List.mem_map_of_mem (hmem _)) (List.mem_map_of_mem hx) ..
      have hmap : (tidied content).map (fun p => (p.settle registry fresh bound false).plain) =
          (tidied content').map fun p => (p.settle registry fresh bound false).plain := by
        rw [← List.forall₂_eq_eq_eq, List.forall₂_map_left_iff, List.forall₂_map_right_iff]
        exact hsame
      simpa [plain_call, Slot.map, Slot.tidy, Function.comp_def, tidied] using hmap

end Passage
end Macromark

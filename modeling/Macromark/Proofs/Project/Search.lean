import Macromark.Project
import Mathlib.Logic.Relation
import Mathlib.Tactic.ByContra

/-!
# Searching the documents

Documents may include each other and themselves. The search goes on from every
document that it reaches, and keeps that it knows all that is included where it
has been (`Search.Sound`). When no document waits any more, it has reached what
chains of inclusions lead to, and nothing else (`mem_reach_iff`).
-/

namespace Macromark.Project

variable {edges : List Edge} {names : List String} {start name source target : String}

def Leads (edges : List Edge) : String → String → Prop :=
  Relation.ReflTransGen fun source target => (source, target) ∈ edges

namespace Search

variable {s : Search}

theorem mem_reached_find {other : String} :
    other ∈ (s.find name).reached ↔ other ∈ s.reached ∨ other = name := by
  unfold find
  split
  · next hknown =>
    rw [List.contains_iff_mem] at hknown
    exact ⟨.inl, fun h => h.elim id fun heq => heq ▸ hknown⟩
  · simp

theorem mem_waiting_find {other : String} :
    other ∈ (s.find name).waiting ↔ other ∈ s.waiting ∨ other = name ∧ other ∉ s.reached := by
  unfold find
  split
  · next hknown =>
    rw [List.contains_iff_mem] at hknown
    exact ⟨.inl, fun h => h.elim id fun hnew => absurd (hnew.1 ▸ hknown) hnew.2⟩
  · next hnew =>
    rw [List.contains_iff_mem] at hnew
    simp only [List.mem_append, List.mem_singleton]
    exact or_congr_right ⟨fun heq => ⟨heq, heq ▸ hnew⟩, fun h => h.1⟩

theorem mem_reached_foldl :
    name ∈ (names.foldl find s).reached ↔ name ∈ s.reached ∨ name ∈ names := by
  induction names generalizing s with
  | nil => simp
  | cons first names ih => rw [List.foldl_cons, ih, mem_reached_find, List.mem_cons, or_assoc]

theorem mem_waiting_foldl :
    name ∈ (names.foldl find s).waiting ↔
      name ∈ s.waiting ∨ name ∈ names ∧ name ∉ s.reached := by
  induction names generalizing s with
  | nil => simp
  | cons first names ih =>
    rw [List.foldl_cons, ih, mem_waiting_find, mem_reached_find, List.mem_cons]
    grind

/-- What a search from `start` knows: only what chains lead to, and all that is
included where it has been. -/
structure Sound (edges : List Edge) (start : String) (s : Search) : Prop where
  begun : start ∈ s.reached
  waiting : ∀ name ∈ s.waiting, name ∈ s.reached
  led : ∀ name ∈ s.reached, Leads edges start name
  closed : ∀ source ∈ s.reached, source ∉ s.waiting → ∀ target, (source, target) ∈ edges →
    target ∈ s.reached

theorem sound_start (edges : List Edge) (start : String) : Sound edges start ⟨[start], [start]⟩ :=
  ⟨List.mem_cons_self, fun _ h => h, fun _ h => List.mem_singleton.mp h ▸ .refl,
    fun _ h hnot => absurd h hnot⟩

theorem Sound.next {reached waiting : List String} {document : String}
    (h : Sound edges start ⟨reached, document :: waiting⟩) :
    Sound edges start ((included edges document).foldl find ⟨reached, waiting⟩) := by
  have hdocument : document ∈ reached := h.waiting document List.mem_cons_self
  refine ⟨mem_reached_foldl.mpr (.inl h.begun), fun name hname => ?_, fun name hname => ?_,
    fun source hsource hbeen target hedge => ?_⟩
  · rw [mem_reached_foldl]
    exact (mem_waiting_foldl.mp hname).imp
      (fun hwaits => h.waiting name (List.mem_cons_of_mem _ hwaits)) (·.1)
  · rcases mem_reached_foldl.mp hname with hold | hnew
    · exact h.led name hold
    · exact (h.led document hdocument).tail (mem_included.mp hnew)
  · rw [mem_waiting_foldl, not_or] at hbeen
    rw [mem_reached_foldl]
    have hold : source ∈ reached := by
      rcases mem_reached_foldl.mp hsource with hold | hnew
      · exact hold
      · by_contra hout
        exact hbeen.2 ⟨hnew, hout⟩
    by_cases heq : source = document
    · exact .inr (mem_included.mpr (heq ▸ hedge))
    · have hwaits : source ∉ document :: waiting := List.not_mem_cons_of_ne_of_not_mem heq hbeen.1
      exact .inl (h.closed source hold hwaits target hedge)

/-- Where nothing waits, all that chains lead to is reached. -/
theorem Sound.mem_iff {reached : List String} (h : Sound edges start ⟨reached, []⟩) :
    name ∈ reached ↔ Leads edges start name := by
  refine ⟨h.led name, fun hleads => ?_⟩
  induction hleads with
  | refl => exact h.begun
  | tail _ hedge ih => exact h.closed _ ih List.not_mem_nil _ hedge

end Search

theorem mem_reach_of_sound {reached waiting : List String}
    (h : Search.Sound edges start ⟨reached, waiting⟩) :
    name ∈ reach edges reached waiting ↔ Leads edges start name := by
  fun_induction reach edges reached waiting with
  | case1 reached => exact h.mem_iff
  | case2 reached document waiting _ ih => exact ih h.next

/-- A search reaches all that chains of edges lead to, and nothing else. -/
theorem mem_reach_iff : name ∈ reach edges [start] [start] ↔ Leads edges start name :=
  mem_reach_of_sound (Search.sound_start edges start)

/-- The order of the edges does not matter for what they reach. -/
theorem mem_reach_congr {edges' : List Edge} (h : ∀ edge, edge ∈ edges ↔ edge ∈ edges')
    (start name : String) :
    name ∈ reach edges [start] [start] ↔ name ∈ reach edges' [start] [start] := by
  have hleads : Leads edges = Leads edges' := by
    unfold Leads
    simp only [h]
  rw [mem_reach_iff, mem_reach_iff, hleads]

end Macromark.Project

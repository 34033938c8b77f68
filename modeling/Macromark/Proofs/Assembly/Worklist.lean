import Macromark.Proofs.Assembly.Naming

/-!
# The assembly comes to an end

The assembly goes down the tree to a depth that is fixed in advance. Without any
depth it is a loop over an agenda, to which every visit adds what follows from
it. The tree grows under the visits, and a container may itself be put into
another one, or into one of its own kind; still the agenda is empty at last, with
the very state that the assembly arrives at, and until then it has gone through
the finished tree in reading order (`analyze_exhausts`).
-/

namespace Macromark
namespace Assembly
namespace Agenda

variable {setting : Setting} {a b : Agenda} {made : List Arrival}

def start (setting : Setting) (t : Tree) : Agenda :=
  ⟨[⟨t.root, none⟩], registerDocument setting (.initial t)⟩

def after (setting : Setting) : Nat → Agenda → Agenda
  | 0, agenda => agenda
  | n + 1, agenda => after setting n (agenda.next setting)

def visited (setting : Setting) : Nat → Agenda → List NodeId
  | 0, _ => []
  | n + 1, agenda =>
    (agenda.waiting.head?.map (·.node)).toList ++ visited setting n (agenda.next setting)

theorem after_of_done (h : a.waiting = []) (n : Nat) : a.after setting n = a := by
  have hnext : a.next setting = a := by
    unfold next
    rw [h]
  induction n with
  | zero => rfl
  | succ n ih =>
    rw [after, hnext]
    exact ih

theorem after_add (setting : Setting) (n m : Nat) :
    a.after setting (n + m) = (a.after setting n).after setting m := by
  induction n generalizing a with
  | zero => rw [Nat.zero_add]; rfl
  | succ n ih => rw [Nat.add_right_comm, after, after, ih]

theorem aborted_of_after (n : Nat) (h : (a.after setting n).state.aborted = none) :
    a.state.aborted = none := by
  induction n generalizing a with
  | zero => exact h
  | succ n ih =>
    have hnext := ih h
    unfold next at hnext
    split at hnext
    · exact hnext
    · exact visitNode_aborted hnext

theorem Run.after (h : Run setting a made b) : a.after setting made.length = b := by
  induction h with
  | done _ => rfl
  | visit _ ih => exact ih

theorem Run.visited (h : Run setting a made b) :
    a.visited setting made.length = made.map (·.node) := by
  induction h with
  | done _ => rfl
  | visit _ ih => exact congrArg (_ :: ·) ih

/-- The agenda is empty when a run to its end is over, and not before. -/
theorem Run.done_iff (h : Run setting a made b) (hdone : b.waiting = []) (n : Nat) :
    (a.after setting n).waiting = [] ↔ made.length ≤ n := by
  induction h generalizing n with
  | done agenda => simp [after_of_done hdone, hdone]
  | visit _ ih =>
    cases n with
    | zero => simp [Agenda.after]
    | succ n => exact (ih hdone n).trans Nat.succ_le_succ_iff.symm

end Agenda
end Assembly

open Assembly (Setting Agenda nameDocument registerDocument visitAll depthBound visits
  visits_visited)

/-- After `n` visits, and not before, nothing waits any more. What has come about then is what the
analysis tells of the document. The visits have gone through its tree from the root on, to each node
before its children, and through nothing twice. If the analysis goes through, no visit breaks off. -/
theorem analyze_exhausts {registry : Registry} (hcoherent : registry.Coherent)
    (document source : String) (hdone : (analyze registry document source).aborted = none) :
    let setting : Setting := ⟨registry, document⟩
    let written := (parse registry (tokenize source).tokens).tree
    let agenda := Agenda.start setting written
    let a := analyze registry document source
    ∃ n, (∀ k, (agenda.after setting k).waiting = [] ↔ n ≤ k) ∧
      (∀ k, (agenda.after setting k).state.aborted = none) ∧
      (a.tree = (agenda.after setting n).state.tree ∧
        a.headers = (agenda.after setting n).state.headers ∧
        a.contribution.references = (agenda.after setting n).state.references ∧
        a.index = (nameDocument setting (agenda.after setting n).state).index) ∧
      agenda.visited setting n = a.tree.preorder a.tree.root ∧
      (∀ id, a.tree.Reaches a.tree.root id →
        a.tree.preorder id = id :: (a.tree.below id).flatMap a.tree.preorder) ∧
      (agenda.visited setting n).Nodup ∧
      ∀ id, id ∈ agenda.visited setting n ↔ a.tree.Reaches a.tree.root id := by
  intro setting written agenda a
  obtain ⟨hgrown, hrooted, -, -⟩ := parse_tree registry (tokenize source).tokens
  obtain ⟨rank, -, hrun, hshape, -, horder⟩ := visits_visited setting hcoherent hgrown hrooted
  have hassemble := assemble_eq registry document hrooted
  let final := visitAll setting (depthBound written) ⟨written.root, none⟩
    (registerDocument setting (.initial written))
  have htree : a.tree = final.tree := congrArg (·.tree) hassemble
  have hafter : agenda.after setting _ = ⟨[], final⟩ := hrun.after
  have hvisited : agenda.visited setting _ = a.tree.preorder a.tree.root :=
    hrun.visited.trans (htree ▸ horder)
  have hgoes : ∀ k, (agenda.after setting k).state.aborted = none := by
    have hend : final.aborted = none := (congrArg (·.aborted) hassemble).symm.trans hdone
    intro k
    rcases Nat.le_total k ((visits setting written).length) with hle | hle
    · obtain ⟨m, hm⟩ := Nat.exists_eq_add_of_le hle
      rw [hm, Agenda.after_add] at hafter
      exact Agenda.aborted_of_after m ((congrArg (·.state.aborted) hafter).trans hend)
    · obtain ⟨m, rfl⟩ := Nat.exists_eq_add_of_le hle
      rw [Agenda.after_add, hafter, Agenda.after_of_done rfl]
      exact hend
  refine ⟨_, hrun.done_iff rfl, hgoes, ?_, hvisited, fun id hid => ?_, ?_, fun id => ?_⟩
  · rw [hafter]
    exact ⟨htree, congrArg (·.headers) hassemble, congrArg (·.contribution.references) hassemble,
      congrArg (·.index) hassemble⟩
  · rw [htree] at hid ⊢
    exact hshape.acyclic.preorder_eq (hid.lt hshape.toLinked hshape.root_lt)
  · rw [hvisited, htree]
    exact hshape.acyclic.nodup_preorder hshape.toLinked hshape.root_lt
  · rw [hvisited, htree]
    exact hshape.mem_preorder_iff .refl

/-- A flock is put into a flight, a flight into a flock, and a paragraph into a paragraph. -/
theorem analyze_exhausts_flocks :
    let registry : Registry := ⟨[
      { name := "toplevel", rendering := .toplevel, positional := ["content"] },
      { name := "p", rendering := .block "p", positional := ["content"], gathering := some ⟨"p", []⟩ },
      { name := "flock", rendering := .block "ul", positional := ["content"], phrasing := true,
        gathering := some ⟨"flight", []⟩ },
      { name := "flight", rendering := .block "ol", positional := ["content"],
        gathering := some ⟨"flock", []⟩ }]⟩
    let setting : Setting := ⟨registry, "sky"⟩
    let source := "\\flock[\\flight[geese]\n\nswans]"
    let agenda := Agenda.start setting (parse registry (tokenize source).tokens).tree
    registry.Coherent ∧ ∃ n, 0 < n ∧ (agenda.after setting n).waiting = [] ∧
      (agenda.visited setting n).Nodup := by
  intro registry setting source agenda
  have hcoherent : registry.Coherent := by
    show ∀ d ∈ registry.macros, d.Coherent
    decide
  obtain ⟨n, hends, -, -, -, -, hnodup, -⟩ :=
    analyze_exhausts hcoherent "sky" source (by decide +kernel)
  refine ⟨hcoherent, n, Nat.pos_of_ne_zero fun hzero => ?_, (hends n).mpr (Nat.le_refl n), hnodup⟩
  exact List.cons_ne_nil _ _ ((hends 0).mpr (Nat.le_of_eq hzero))

end Macromark

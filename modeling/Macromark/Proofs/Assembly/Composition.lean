import Macromark.Proofs.Assembly.Outcome
import Macromark.Proofs.Assembly.Thinning
import Macromark.Proofs.Tree.Rows

/-!
# Documents compose at blank lines

A row ends where no container is asked for on both sides
(`Passage.gatherRows_apart`). A paragraph break stands in no container and in no
paragraph, so what is around it is settled on its own
(`Passage.tidyContent_append`). With a blank line between them two documents are
read as they are alone, and so the content of both together is that of the first
and then that of the second (`analyze_append`).
-/

namespace Macromark

namespace Passage

variable {α : Type} {registry : Registry} {fresh : α} {owner container : String} {p b : Passage α}
variable {ps front back : List (Passage α)}

-- ----------------------------------------------------------------------------
-- Seams between rows
-- ----------------------------------------------------------------------------

/-- The container that the first of some passages asks for, blank texts aside. -/
def asked (registry : Registry) (owner : String) (ps : List (Passage α)) : Option String :=
  (ps.find? (!·.isBlank)).bind (container? registry owner)

theorem isBlank_of_container? (h : p.container? registry owner = some container) :
    p.isBlank = false := by
  cases p <;> simp [container?, isBlank] at h ⊢

theorem asked_append (h : asked registry owner front = some container) :
    asked registry owner (front ++ back) = some container := by
  obtain ⟨p, hfound, hp⟩ := Option.bind_eq_some_iff.mp h
  simp [asked, List.find?_append, hfound, hp]

/-- What a row asks for is asked by whatever comes first in it. -/
theorem asked_of_row (hrow : ∀ p ∈ ps, p.container? registry owner = some container ∨ p.isBlank = true)
    (hp : p ∈ ps) (hsolid : p.isBlank = false) : asked registry owner ps = some container := by
  cases hfound : ps.find? (!·.isBlank) with
  | none => simpa [hsolid] using List.find?_eq_none.mp hfound p hp
  | some first =>
    have hfirst : first.isBlank = false := by simpa using List.find?_some hfound
    have hasks := (hrow first (List.mem_of_find?_eq_some hfound)).resolve_right (by simp [hfirst])
    simp [asked, hfound, hasks]

def Apart (registry : Registry) (owner : String) (front back : List (Passage α)) : Prop :=
  ∀ container, asked registry owner front.reverse = some container →
    asked registry owner back ≠ some container

theorem Apart.behind (before : List (Passage α))
    (h : Apart registry owner (before ++ front) back) :
    Apart registry owner front back := by
  intro container hasked
  refine h container ?_
  rw [List.reverse_append]
  exact asked_append hasked

theorem dropEnd_append (xs : List (Passage α)) {ys : List (Passage α)} {f : Passage α → Bool}
    (h : ∀ y ∈ ys, f y = true) : Text.dropEnd f (xs ++ ys) = Text.dropEnd f xs := by
  rw [Text.dropEnd, List.reverse_append, List.dropWhile_append_of_pos (by simpa using h),
    Text.dropEnd]

/-- The other members of `container` in a row, and the blank texts between them. -/
def rowOf (registry : Registry) (owner container : String) (rest : List (Passage α)) :
    List (Passage α) :=
  rowBehind (·.container? registry owner == some container) isBlank rest

/-- A row in its container, if there is one. -/
def wrapRow (registry : Registry) (fresh : α) (owner container : String) (row : List (Passage α)) :
    List (Passage α) :=
  match implied? registry fresh container
    (row.filter (·.container? registry owner == some container)) with
  | some wrapper => [wrapper]
  | none => row

theorem gatherRows_none (h : p.container? registry owner = none) :
    gatherRows registry fresh owner (p :: ps) = p :: gatherRows registry fresh owner ps := by
  simp [gatherRows, h]

theorem gatherRows_alone (h : p.container? registry owner = some container)
    (hrow : rowOf registry owner container ps = []) :
    gatherRows registry fresh owner (p :: ps) = p :: gatherRows registry fresh owner ps := by
  unfold rowOf at hrow
  simp [gatherRows, h, hrow]

theorem gatherRows_row (h : p.container? registry owner = some container)
    (hrow : rowOf registry owner container ps ≠ []) :
    gatherRows registry fresh owner (p :: ps) =
      wrapRow registry fresh owner container (p :: rowOf registry owner container ps) ++
        gatherRows registry fresh owner (ps.drop (rowOf registry owner container ps).length) := by
  unfold rowOf at hrow ⊢
  simp only [gatherRows, h, wrapRow, List.isEmpty_iff, hrow, if_false, List.filter_cons, beq_self_eq_true,
    if_true]
  split <;> simp [*]

theorem length_rowOf_le (ps : List (Passage α)) :
    (rowOf registry owner container ps).length ≤ ps.length :=
  (rowBehind_front _ _ ps).1.length_le

/-- A row does not go on across a seam. -/
theorem Apart.rowOf (h : Apart registry owner (p :: front) back)
    (hp : p.container? registry owner = some container) :
    rowOf registry owner container (front ++ back) = rowOf registry owner container front := by
  simp only [Passage.rowOf, rowBehind, List.takeWhile_append]
  split
  · next hall =>
    have hfront := (List.takeWhile_prefix _).eq_of_length hall
    have hasked : asked registry owner (p :: front).reverse = some container := by
      refine asked_of_row (p := p) (fun q hq => ?_) (by simp) (isBlank_of_container? hp)
      rcases List.mem_cons.mp (List.mem_reverse.mp hq) with rfl | hq
      · exact .inl hp
      · rw [← hfront] at hq
        simpa using List.mem_takeWhile_imp hq
    have hblanks : ∀ q ∈ back.takeWhile fun q =>
        q.container? registry owner == some container || q.isBlank,
        q.container? registry owner ≠ some container := by
      intro q hq hasks
      obtain ⟨behind, hbehind⟩ := List.takeWhile_prefix (l := back)
        fun q : Passage α => q.container? registry owner == some container || q.isBlank
      apply h container hasked
      rw [← hbehind]
      exact asked_append (asked_of_row (fun r hr => by simpa using List.mem_takeWhile_imp hr) hq
        (isBlank_of_container? hasks))
    rw [dropEnd_append _ (by simpa using hblanks), hfront]
  · rfl

/-- What stands on the sides of a seam is gathered on its own. -/
theorem gatherRows_apart (h : Apart registry owner front back) :
    gatherRows registry fresh owner (front ++ back) =
      gatherRows registry fresh owner front ++ gatherRows registry fresh owner back := by
  induction hlength : front.length using Nat.strong_induction_on generalizing front with
  | _ length ih =>
    cases front with
    | nil => simp [gatherRows]
    | cons p front =>
      have hrest := ih front.length (by simp only [← hlength, List.length_cons]; omega) (h.behind [p]) rfl
      cases hp : p.container? registry owner with
      | none => simp [gatherRows_none hp, hrest]
      | some container =>
        have hover := h.rowOf hp
        by_cases hrow : rowOf registry owner container front = []
        · simp [gatherRows_alone hp hrow, gatherRows_alone hp (hover.trans hrow), hrest]
        · let row := rowOf registry owner container front
          have hle : row.length ≤ front.length := length_rowOf_le front
          have hbehind : Apart registry owner (front.drop row.length) back :=
            Apart.behind (p :: front.take row.length) (by simpa using h)
          have hshorter : (front.drop row.length).length < length := by
            simp only [← hlength, List.length_drop, List.length_cons]
            omega
          have hafter := ih _ hshorter hbehind rfl
          rw [List.cons_append, gatherRows_row hp (hover ▸ hrow), hover,
            List.drop_append_of_le_length hle, hafter, gatherRows_row hp hrow, List.append_assoc]

-- ----------------------------------------------------------------------------
-- Breaks
-- ----------------------------------------------------------------------------

theorem eq_paragraphBreak (h : b.isBreak = true) : ∃ mark, b = .paragraphBreak mark := by
  cases b <;> simp_all [isBreak]

theorem isBlank_break (h : b.isBreak = true) : b.isBlank = false := by
  obtain ⟨mark, rfl⟩ := eq_paragraphBreak h
  rfl

theorem gatherRows_append (h : b.isBreak = true) (xs ys : List (Passage α)) :
    gatherRows registry fresh owner (xs ++ b :: ys) =
      gatherRows registry fresh owner xs ++ b :: gatherRows registry fresh owner ys := by
  obtain ⟨mark, rfl⟩ := eq_paragraphBreak h
  have hasked : asked registry owner (.paragraphBreak mark :: ys) = none := rfl
  rw [gatherRows_apart fun container _ => by simp [hasked], gatherRows]
  rfl

theorem chunks_ne_nil (xs : List (Passage α)) : chunks xs ≠ [] := by
  cases xs with
  | nil => simp [chunks]
  | cons p xs =>
    rw [chunks]
    split
    · simp
    · split <;> simp

theorem chunks_append (h : b.isBreak = true) (xs ys : List (Passage α)) :
    chunks (xs ++ b :: ys) = chunks xs ++ chunks ys := by
  induction xs with
  | nil => simp [chunks, h]
  | cons p xs ih =>
    rw [List.cons_append, chunks, chunks, ih]
    split
    · rfl
    · obtain ⟨first, others, hchunks⟩ := List.exists_cons_of_ne_nil (chunks_ne_nil xs)
      rw [hchunks]
      rfl

theorem gather_append (h : b.isBreak = true) (xs ys : List (Passage α)) :
    gather registry fresh owner (xs ++ b :: ys) =
      gather registry fresh owner xs ++ b :: gather registry fresh owner ys := by
  unfold gather
  split
  · rw [List.filter_append, List.filter_cons_of_pos (by simp [isBlank_break h])]
    exact gatherRows_append h _ _
  · exact gatherRows_append h xs ys

/-- What stands around a break in the text of the document is arranged on its own. -/
theorem tidyContent_append (h : b.isBreak = true) (xs ys : List (Passage α)) :
    tidyContent registry fresh owner true "content" (xs ++ b :: ys) =
      tidyContent registry fresh owner true "content" xs ++
        tidyContent registry fresh owner true "content" ys := by
  have hroot : ∀ content : List (Passage α),
      tidyContent registry fresh owner true "content" content =
        insertParagraphs registry fresh (gather registry fresh owner content) :=
    fun content => if_pos (.inr ⟨rfl, rfl⟩)
  rw [hroot, hroot, hroot, gather_append h, insertParagraphs, chunks_append h, List.flatMap_append]
  rfl

/-- What stands in the argument `content` of a macro. -/
def content (p : Passage α) : List (Passage α) :=
  ((p.slots.find? (·.name == "content")).map (·.content)).getD []

theorem content_settle (mark : α) (name : String) (synthetic supplied : Bool)
    (ps : List (Passage α))
    (slots : List (Slot (Passage α))) (depth : Nat) :
    ((call mark name synthetic (⟨"content", supplied, ps⟩ :: slots)).settle registry fresh (depth + 1)
      true).content =
        (tidyContent registry fresh name true "content" ps).map
          (settle registry fresh depth false) := rfl

end Passage

def Tree.content (t : Tree) : List (Passage Unit) :=
  (((t.call? t.root).map (·.children "content")).getD []).map t.bare

theorem Tree.Acyclic.content_eq {t : Tree} (h : t.Acyclic) :
    t.content = (t.bare t.root).content := by
  unfold Tree.content
  cases hcall : t.call? t.root with
  | some call =>
    have hbare : t.bare t.root = .call () call.name call.synthetic (call.arguments.map (·.slot t.bare)) :=
      h.passage_of_call? hcall
    rw [hbare]
    simp only [Passage.content, Passage.slots, List.find?_map, Option.map_some, Option.getD_some,
      MacroCall.children, MacroCall.argument?]
    cases hargument : call.arguments.find? (·.name == "content") <;>
      simp [hargument, Function.comp_def, Argument.slot]
  | none =>
    have hslots : (t.bare t.root).slots = [] := by
      cases hnode : t.get? t.root with
      | none =>
        rw [Tree.bare, Tree.passage_of_none hnode]
        rfl
      | some node =>
        rw [Tree.bare, h.passage_of_get? hnode]
        cases hkind : node.kind with
        | call call => simp [Tree.call?, hnode, Node.call?, hkind] at hcall
        | _ => rfl
    simp [Passage.content, hslots]

def readPassage (registry : Registry) (source : String) : Passage Unit :=
  let t := (parse registry (tokenize source).tokens).tree
  t.bare t.root

/-- What a document holds once it is analyzed. -/
def Analysis.passage (a : Analysis) : Passage Unit := a.tree.bare a.tree.root

theorem analyze_passage {registry : Registry} (hr : registry.Coherent) (document source : String)
    {depth : Nat} (hdepth : Assembly.depthBound (parse registry (tokenize source).tokens).tree ≤ depth) :
    (analyze registry document source).passage =
      (readPassage registry source).settle registry () depth true := by
  have hsettles := analyze_settlesTo hr document source
  have hpassage := hsettles.passage (fun _ => ()) (fun _ _ => rfl) hdepth
  rw [Analysis.passage, hsettles.kept.root_eq]
  exact hpassage

open Grammar (Items)
open Parser.State (Reads items_reads reads_paragraphBreak)

theorem get?_toplevel : ∃ d, Registry.builtin.get? MacroName.toplevel = some d ∧
    d.positional[0]? = some "content" ∧ d.argumentNames = ["content", "title"] :=
  ⟨_, rfl, rfl, rfl⟩

/-- What a silent document holds once it is analyzed, by what its row says. -/
theorem content_analyze {source : String} (document : String) {ps : List (Passage Unit)}
    (hreads : Reads .builtin (contentKinds source) ps) {depth : Nat}
    (hdepth : Assembly.depthBound (parse .builtin (tokenize source).tokens).tree ≤ depth + 1) :
    (analyze .builtin document source).tree.content =
      (Passage.tidyContent .builtin () MacroName.toplevel true "content" ps).map
        (Passage.settle .builtin () depth false) := by
  obtain ⟨d, hget, hname, harguments⟩ := get?_toplevel
  have hsettles := analyze_settlesTo Registry.coherent_builtin document source
  have hbefore : readPassage .builtin source = _ := parse_bare hget hname hreads
  rw [hsettles.acyclic.content_eq, ← Analysis.passage,
    analyze_passage Registry.coherent_builtin document source hdepth, hbefore, harguments]
  exact Passage.content_settle ..

/-- With a blank line between them, two documents hold together what they hold alone. -/
theorem analyze_append {first second : String} (hlexed : (tokenize first).diagnostics = [])
    (hparsed : (parse .builtin (tokenize first).tokens).diagnostics = [])
    (hparsed' : (parse .builtin (tokenize second).tokens).diagnostics = [])
    (hend : first.toList.getLast? ≠ some '\n') (hbegin : second.toList.head? ≠ some '\n')
    (hsecond : second ≠ "") (document document' both : String) :
    (analyze .builtin both (first ++ "\n\n" ++ second)).tree.content =
      (analyze .builtin document first).tree.content ++
        (analyze .builtin document' second).tree.content := by
  obtain ⟨d, hget, hname, -⟩ := get?_toplevel
  have hr := Registry.coherent_builtin
  have hitems := items_of_parse hr hget hname hparsed
  obtain ⟨ps, hps⟩ := items_reads hr hitems
  obtain ⟨qs, hqs⟩ := items_reads hr (items_of_parse hr hget hname hparsed')
  have hboth : Reads .builtin (contentKinds (first ++ "\n\n" ++ second))
      (ps ++ .paragraphBreak () :: qs) := by
    rw [contentKinds_seam hlexed hend hbegin hsecond]
    exact hps.append hr hitems (reads_paragraphBreak.append hr (.paragraphBreak [] .nil) hqs)
  -- one depth that is enough for the three documents
  have hdepth : ∃ depth, ∀ source ∈ [first, second, first ++ "\n\n" ++ second],
      Assembly.depthBound (parse .builtin (tokenize source).tokens).tree ≤ depth + 1 := by
    let bound (source : String) := Assembly.depthBound (parse .builtin (tokenize source).tokens).tree
    refine ⟨bound first + bound second + bound (first ++ "\n\n" ++ second), ?_⟩
    simp only [List.forall_mem_cons, List.not_mem_nil, false_imp_iff, implies_true, and_true, bound]
    omega
  obtain ⟨depth, hdepth⟩ := hdepth
  rw [content_analyze both hboth (hdepth _ (by simp)), content_analyze document hps (hdepth _ (by simp)),
    content_analyze document' hqs (hdepth _ (by simp)), Passage.tidyContent_append rfl, List.map_append]

theorem analyze_append_geese :
    ((tokenize "\\h[1][Geese]\n\\L[greylag]").diagnostics = [] ∧
      (parse .builtin (tokenize "\\h[1][Geese]\n\\L[greylag]").tokens).diagnostics = [] ∧
      (parse .builtin (tokenize "\\L[brent]\n\nswans").tokens).diagnostics = []) ∧
    (analyze .builtin "both" ("\\h[1][Geese]\n\\L[greylag]" ++ "\n\n" ++ "\\L[brent]\n\nswans")).tree.content =
      (analyze .builtin "geese" "\\h[1][Geese]\n\\L[greylag]").tree.content ++
        (analyze .builtin "swans" "\\L[brent]\n\nswans").tree.content := by
  have hlexed : (tokenize "\\h[1][Geese]\n\\L[greylag]").diagnostics = [] := by decide +kernel
  have hparsed : (parse .builtin (tokenize "\\h[1][Geese]\n\\L[greylag]").tokens).diagnostics = [] := by decide +kernel
  have hparsed' : (parse .builtin (tokenize "\\L[brent]\n\nswans").tokens).diagnostics = [] := by decide +kernel
  exact ⟨⟨hlexed, hparsed, hparsed'⟩,
    analyze_append hlexed hparsed hparsed' (by decide) (by decide) (by decide) _ _ _⟩

end Macromark

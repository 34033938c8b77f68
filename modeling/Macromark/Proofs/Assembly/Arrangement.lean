import Macromark.Proofs.Assembly.Regrouping

/-!
# The visit of an argument

What waits for the visit of its macro is gathered into containers
(`gather_regroups`) and parted into paragraphs (`insertParagraphs_regroups`).
No paragraph break is left then, and what is new waits for its own visit
(`arrangeArgument_regroups`).
-/

namespace Macromark.Assembly

variable {registry : Registry} {rank : NodeId → Nat} {t : Tree} {owner : String}
variable {nodes : List NodeId} {height bound : Nat} {node : NodeId}

-- ----------------------------------------------------------------------------
-- Containers
-- ----------------------------------------------------------------------------

/-- In a container none of its members asks for a container. -/
theorem containerFor_container {container : String}
    (h : containerFor registry t owner node = some container) :
    registry.Implies container ∧ containerFor registry t container node = none ∧
      ∃ call, t.call? node = some call := by
  unfold containerFor at h ⊢
  obtain ⟨call, hcall, h⟩ := Option.bind_eq_some_iff.mp h
  obtain ⟨d, hd, h⟩ := Option.bind_eq_some_iff.mp h
  obtain ⟨gathering, hgathering, h⟩ := Option.bind_eq_some_iff.mp h
  split at h
  · simp at h
  · cases h
    refine ⟨.inr ⟨d, List.mem_of_find?_eq_some hd, gathering, hgathering, rfl⟩, ?_, call, hcall⟩
    simp [hcall, hd, hgathering]

theorem isParagraphBreak_of_call? {call : MacroCall} (h : t.call? node = some call) :
    t.isParagraphBreak node = false := by
  obtain ⟨written, hget, hcall⟩ := Option.bind_eq_some_iff.mp h
  cases hkind : written.kind <;>
    simp [Node.call?, hkind, Tree.isParagraphBreak, hget, Node.isParagraphBreak] at hcall ⊢

theorem rowBehind_front (isMember isBlank : NodeId → Bool) (rest : List NodeId) :
    rowBehind isMember isBlank rest <+: rest := by
  refine List.IsPrefix.trans ?_ (List.takeWhile_prefix fun node => isMember node || isBlank node)
  rw [← List.reverse_suffix, rowBehind, Text.dropEnd, List.reverse_reverse]
  exact List.dropWhile_suffix _

/-- The nodes of a list are regrouped, and stay below a rank. -/
def Lifts (registry : Registry) (rank : NodeId → Nat) (t : Tree) (nodes : List NodeId)
    (bound : Nat) (result : List NodeId × Tree) : Prop :=
  ∃ later, Regroups registry rank t nodes later result.2 result.1 ∧
    ∀ id ∈ result.1, later id ≤ bound

theorem Lifts.refl (hrow : Row t nodes) (hbound : ∀ id ∈ nodes, rank id ≤ bound) :
    Lifts registry rank t nodes bound (nodes, t) := ⟨rank, .refl hrow, hbound⟩

/-- A step at the front of a list, and the next steps behind it. -/
theorem Lifts.next {u v : Tree} {first second front back : List NodeId} {limit : Nat}
    (h : Lifts registry rank t first bound (front, u)) (hrow : Row t (first ++ second))
    (hlimit : ∀ id ∈ second, rank id ≤ limit)
    (hnext : ∀ later : NodeId → Nat, Row u second → (∀ id ∈ second, later id ≤ limit) →
      Lifts registry later u second bound (back, v)) :
    Lifts registry rank t (first ++ second) bound (front ++ back, v) := by
  obtain ⟨later, hfront, hfrontBound⟩ := h
  have hsecond : Row t second := hrow.sublist (List.sublist_append_right _ _)
  have hkept : Row u second := ⟨hsecond.nodup, fun id hid =>
    Nat.lt_of_lt_of_le (hsecond.inside id hid) hfront.kept.size_le⟩
  obtain ⟨last, hback, hbackBound⟩ := hnext later hkept fun id hid => by
    rw [hfront.ranks id (hsecond.inside id hid)]
    exact hlimit id hid
  have hfirst : Regroups registry rank t (first ++ second) later u (front ++ second) := by
    simpa using hfront.around [] second (by simpa using hrow)
  have hrest : Regroups registry later u (front ++ second) last v (front ++ back) := by
    simpa using hback.around front [] (by simpa using hfirst.row)
  refine ⟨last, hfirst.trans hrest, fun id hid => ?_⟩
  rcases List.mem_append.mp hid with hid | hid
  · rw [hback.ranks id (hfront.row.inside id hid)]
    exact hfrontBound id hid
  · exact hbackBound id hid

/-- A row of members of one container is put into it. -/
theorem synthesize_row {container : String} {position : Position} {row : List NodeId} {u : Tree}
    {wrapper : NodeId} (hrow : Row t row) (himplied : registry.Implies container) (hbound : ∀ id ∈ row, rank id ≤ bound)
    (hmembers : ∀ id ∈ row, containerFor registry t owner id = some container)
    (hmade : synthesize registry container row position t = some (wrapper, u)) :
    Lifts registry rank t row (bound + 1) ([wrapper], u) := by
  have hadmits : ∀ id ∈ row,
      Stage.container.Admits registry rank t container (bound + 1) id := by
    intro id hid
    obtain ⟨-, hnone, call, hcall⟩ := containerFor_container (hmembers id hid)
    exact ⟨Nat.succ_le_succ (hbound id hid), fun _ => isParagraphBreak_of_call? hcall,
      fun _ => hnone⟩
  obtain ⟨later, hregroups, hlater⟩ :=
    synthesize_regroups hrow himplied (Nat.succ_le_succ (Nat.zero_le bound)) hadmits hmade
  exact ⟨later, hregroups, by simp [hlater]⟩

theorem Lifts.drop {others : List NodeId} {result : List NodeId × Tree} (hrow : Row t nodes)
    (hsub : others.Sublist nodes) (h : Lifts registry rank t others bound result) :
    Lifts registry rank t nodes bound result := by
  obtain ⟨later, hregroups, hbound⟩ := h
  exact ⟨later, (Regroups.drop hrow hsub).trans hregroups, hbound⟩

theorem gatherRows_lifts (hrow : Row t nodes) (hbound : ∀ id ∈ nodes, rank id ≤ bound) :
    Lifts registry rank t nodes (bound + 1) (gatherRows registry owner nodes t) := by
  fun_induction gatherRows registry owner nodes t generalizing rank with
  | case1 t => exact .refl hrow (by simp)
  | case2 node rest t hnone gathered u heq ih =>
    have hfirst : Row t [node] := hrow.sublist (by simp)
    have hnode : rank node ≤ bound := hbound node (by simp)
    refine (Lifts.refl hfirst (by simpa using Nat.le_succ_of_le hnode)).next hrow
      (fun id hid => hbound id (by simp [hid])) fun later hrest hlimit => ?_
    exact heq ▸ ih hrest hlimit
  | case3 node rest t container hsome isMember row hempty gathered u heq =>
    rename_i ih
    have hfirst : Row t [node] := hrow.sublist (by simp)
    have hnode : rank node ≤ bound := hbound node (by simp)
    refine (Lifts.refl hfirst (by simpa using Nat.le_succ_of_le hnode)).next hrow
      (fun id hid => hbound id (by simp [hid])) fun later hrest hlimit => ?_
    exact heq ▸ ih hrest hlimit
  | case4 node rest t container hsome isMember row hne wrapper u hmade gathered v heq =>
    rename_i ih
    obtain ⟨behind, hbehind⟩ := rowBehind_front isMember (isBlankNode t) rest
    have hdrop : rest.drop row.length = behind := by rw [← hbehind]; exact List.drop_left
    rw [hdrop] at heq ih
    have hsplit : node :: rest = (node :: row) ++ behind := by rw [List.cons_append, hbehind]
    rw [hsplit] at hrow hbound ⊢
    have hfirst : Row t (node :: row) := hrow.sublist (List.sublist_append_left _ _)
    have hsub : (node :: row.filter isMember).Sublist (node :: row) :=
      List.filter_sublist.cons_cons node
    have hmembers : ∀ id ∈ node :: row.filter isMember,
        containerFor registry t owner id = some container := by
      intro id hid
      rcases List.mem_cons.mp hid with rfl | hid
      · exact hsome
      · simpa [isMember] using (List.mem_filter.mp hid).2
    have hwrapped := synthesize_row (hfirst.sublist hsub) (containerFor_container hsome).1
      (fun id hid => hbound id (List.mem_append_left _ (hsub.subset hid))) hmembers hmade
    refine (hwrapped.drop hfirst hsub).next hrow
      (fun id hid => hbound id (List.mem_append_right _ hid)) fun later hrest hlimit => ?_
    exact heq ▸ ih hrest hlimit
  | case5 node rest t container hsome isMember row hne hmade gathered v heq =>
    rename_i ih
    obtain ⟨behind, hbehind⟩ := rowBehind_front isMember (isBlankNode t) rest
    have hdrop : rest.drop row.length = behind := by rw [← hbehind]; exact List.drop_left
    rw [hdrop] at heq ih
    have hsplit : node :: rest = (node :: row) ++ behind := by rw [List.cons_append, hbehind]
    rw [hsplit] at hrow hbound ⊢
    have hfirst : Row t (node :: row) := hrow.sublist (List.sublist_append_left _ _)
    refine (Lifts.refl hfirst fun id hid => Nat.le_succ_of_le
      (hbound id (List.mem_append_left _ hid))).next hrow
      (fun id hid => hbound id (List.mem_append_right _ hid)) fun later hrest hlimit => ?_
    exact heq ▸ ih hrest hlimit

theorem gather_lifts (hrow : Row t nodes) (hbound : ∀ id ∈ nodes, rank id ≤ bound) :
    Lifts registry rank t nodes (bound + 1) (gather registry owner nodes t) := by
  unfold gather
  split
  · exact .drop hrow List.filter_sublist (gatherRows_lifts (hrow.sublist List.filter_sublist)
      fun id hid => hbound id (List.mem_of_mem_filter hid))
  · exact gatherRows_lifts hrow hbound

/-- Nothing asks for a container, so that there is nothing to gather. -/
theorem gatherRows_of_none (h : ∀ id ∈ nodes, containerFor registry t owner id = none) :
    gatherRows registry owner nodes t = (nodes, t) := by
  induction nodes with
  | nil => rw [gatherRows]
  | cons node rest ih =>
    rw [gatherRows, h node List.mem_cons_self]
    simp only [ih fun id hid => h id (List.mem_cons_of_mem _ hid)]

-- ----------------------------------------------------------------------------
-- Paragraphs
-- ----------------------------------------------------------------------------

theorem flatten_chunks (t : Tree) (nodes : List NodeId) :
    (chunks t nodes).flatten = nodes.filter (!t.isParagraphBreak ·) := by
  induction nodes with
  | nil => rfl
  | cons node rest ih =>
    unfold chunks
    cases hbreak : t.isParagraphBreak node with
    | true => simp [hbreak, ih]
    | false =>
      cases hchunks : chunks t rest <;> simp [hchunks, hbreak] at ih ⊢ <;> exact ih

theorem retexted_setKind {text new : String} (h : t.plaintext? node = some text) :
    Retexted t (t.setKind node (.plaintext new)) := by
  obtain ⟨written, hget, hkind⟩ := Option.map_eq_some_iff.mp (Tree.kind?_of_plaintext? h)
  have hset : ∀ id, (t.setKind node (.plaintext new)).get? id =
      if node = id then some { written with kind := .plaintext new } else t.get? id := by
    intro id
    rw [Tree.setKind, Tree.get?_modify]
    split
    · next heq => rw [← heq, hget]; rfl
    · rfl
  refine ⟨⟨by simp [Tree.setKind], rfl, fun id _ => ?_⟩, by simp [Tree.setKind], fun id => ?_,
    fun id => ?_⟩
  · simp only [Tree.shape?, hset]
    split
    · next heq => simp [← heq, hget, hkind, NodeKind.shape]
    · rfl
  · simp only [Tree.call?, hset]
    split
    · next heq => simp [← heq, hget, hkind, Node.call?]
    · rfl
  · simp only [Tree.parent?, hset]
    split
    · next heq => simp [← heq, hget]
    · rfl

theorem trimFront_retexted (cut : List Char → List Char) (nodes : List NodeId) (t : Tree) :
    Retexted t (trimFront cut nodes t).2 ∧ (trimFront cut nodes t).1.Sublist nodes := by
  fun_induction trimFront cut nodes t with
  | case1 => exact ⟨.refl _, .refl _⟩
  | case2 => exact ⟨.refl _, .refl _⟩
  | case3 node rest t text _ _ ih => exact ⟨ih.1, ih.2.cons node⟩
  | case4 node rest t text htext => exact ⟨retexted_setKind htext, .refl _⟩

theorem trimChunk_retexted (chunk : List NodeId) (t : Tree) :
    Retexted t (trimChunk chunk t).2 ∧ (trimChunk chunk t).1.Sublist chunk := by
  unfold trimChunk
  obtain ⟨hfront, hfrontSub⟩ := trimFront_retexted (·.dropWhile isNewline) chunk t
  obtain ⟨hback, hbackSub⟩ := trimFront_retexted (Text.dropEnd isNewline)
    (trimFront (·.dropWhile isNewline) chunk t).1.reverse (trimFront (·.dropWhile isNewline) chunk t).2
  refine ⟨hfront.trans hback, List.Sublist.trans ?_ hfrontSub⟩
  simpa using hbackSub.reverse

theorem wrapChunk_lifts (hrow : Row t nodes) (hbound : ∀ id ∈ nodes, rank id ≤ bound)
    (hwhole : ∀ id ∈ nodes, t.isParagraphBreak id = false) :
    Lifts registry rank t nodes (bound + 2) (wrapChunk registry nodes t) := by
  obtain ⟨htrimmed, hsub⟩ := trimChunk_retexted nodes t
  have hregroups : Regroups registry rank t nodes rank (trimChunk nodes t).2 (trimChunk nodes t).1 :=
    htrimmed.regroups hrow hsub
  have hbound' : ∀ id ∈ (trimChunk nodes t).1, rank id ≤ bound := fun id hid => hbound id (hsub.subset hid)
  have hwhole' := hregroups.breakless hrow hwhole
  generalize htrim : trimChunk nodes t = trimmed at hregroups hbound' hwhole'
  obtain ⟨chunk, u⟩ := trimmed
  have hstays : Lifts registry rank t nodes (bound + 2) (chunk, u) :=
    ⟨rank, hregroups, fun id hid => Nat.le_add_right_of_le (hbound' id hid)⟩
  unfold wrapChunk
  rw [htrim]
  cases chunk with
  | nil => exact hstays
  | cons first rest =>
    simp only
    split
    · split
      · next paragraph v hmade =>
        have hadmits : ∀ id ∈ first :: rest,
            Stage.paragraph.Admits registry rank u MacroName.paragraph (bound + 2) id :=
          fun id hid => ⟨Nat.add_le_add_right (hbound' id hid) 2, fun _ => hwhole' id hid, by simp⟩
        obtain ⟨later, hwrapped, hlater⟩ :=
          synthesize_regroups hregroups.row (.inl rfl) (Nat.le_add_left 2 bound) hadmits hmade
        exact ⟨later, hregroups.trans hwrapped, by simp [hlater]⟩
      · exact hstays
    · exact hstays

theorem wrapChunks_lifts (rows : List (List NodeId)) (hrow : Row t rows.flatten)
    (hbound : ∀ id ∈ rows.flatten, rank id ≤ bound)
    (hwhole : ∀ id ∈ rows.flatten, t.isParagraphBreak id = false) :
    Lifts registry rank t rows.flatten (bound + 2) (wrapChunks registry rows t) := by
  induction rows generalizing t rank with
  | nil => exact .refl hrow (by simp)
  | cons chunk others ih =>
    rw [List.flatten_cons] at hrow hbound hwhole ⊢
    have hchunk : Row t chunk := hrow.sublist (List.sublist_append_left _ _)
    have hwrapped : Lifts registry rank t chunk (bound + 2) (wrapChunk registry chunk t) :=
      wrapChunk_lifts hchunk (fun id hid => hbound id (List.mem_append_left _ hid))
        fun id hid => hwhole id (List.mem_append_left _ hid)
    rw [wrapChunks]
    generalize wrapChunk registry chunk t = wrapped at hwrapped ⊢
    obtain ⟨front, u⟩ := wrapped
    obtain ⟨middle, hregroups, -⟩ := id hwrapped
    refine hwrapped.next hrow (fun id hid => hbound id (List.mem_append_right _ hid))
      fun later hrest hlimit => ih hrest hlimit fun id hid => ?_
    have hmem : id ∈ chunk ++ others.flatten := List.mem_append_right _ hid
    rw [hregroups.kept.isParagraphBreak (hrow.inside id hmem)]
    exact hwhole id hmem

theorem insertParagraphs_lifts (hrow : Row t nodes) (hbound : ∀ id ∈ nodes, rank id ≤ bound) :
    Lifts registry rank t nodes (bound + 2) (insertParagraphs registry nodes t) ∧
      ∀ id ∈ (insertParagraphs registry nodes t).1,
        (insertParagraphs registry nodes t).2.isParagraphBreak id = false := by
  have hsub : (chunks t nodes).flatten.Sublist nodes := by
    rw [flatten_chunks]
    exact List.filter_sublist
  have hwhole : ∀ id ∈ (chunks t nodes).flatten, t.isParagraphBreak id = false := by
    rw [flatten_chunks]
    intro id hid
    simpa using (List.mem_filter.mp hid).2
  have hlifts : Lifts registry rank t (chunks t nodes).flatten (bound + 2)
      (insertParagraphs registry nodes t) :=
    wrapChunks_lifts _ (hrow.sublist hsub) (fun id hid => hbound id (hsub.subset hid)) hwhole
  obtain ⟨later, hregroups, -⟩ := id hlifts
  exact ⟨hlifts.drop hrow hsub, hregroups.breakless (hrow.sublist hsub) hwhole⟩

-- ----------------------------------------------------------------------------
-- One argument
-- ----------------------------------------------------------------------------

/-- Where nothing asks for a container, blank texts may go. -/
theorem gather_of_none (hrow : Row t nodes)
    (h : ∀ id ∈ nodes, containerFor registry t owner id = none)
    (hbound : ∀ id ∈ nodes, rank id ≤ bound) :
    Lifts registry rank t nodes bound (gather registry owner nodes t) := by
  unfold gather
  split
  · rw [gatherRows_of_none fun id hid => h id (List.mem_of_mem_filter hid)]
    exact .drop hrow List.filter_sublist (.refl (hrow.sublist List.filter_sublist)
      fun id hid => hbound id (List.mem_of_mem_filter hid))
  · rw [gatherRows_of_none h]
    exact .refl hrow hbound

theorem arrangeArgument_regroups {setting : Setting} {argument : Argument} {isRoot : Bool}
    {stage : Stage} (hrow : Row t argument.children) (hroom : stage.room ≤ height)
    (hadmits : ∀ id ∈ argument.children, stage.Admits setting.registry rank t owner height id)
    (hroot : isRoot = true → stage = .written) :
    ∃ later, Regroups setting.registry rank t argument.children later
        (arrangeArgument setting owner isRoot argument t).2
        (arrangeArgument setting owner isRoot argument t).1 ∧
      Arranged later (arrangeArgument setting owner isRoot argument t).2 height
        (arrangeArgument setting owner isRoot argument t).1 := by
  obtain ⟨bound, ⟨middle, hgathered, hbound⟩, hbelow, hparagraph⟩ : ∃ bound,
      Lifts setting.registry rank t argument.children bound
        (gather setting.registry owner argument.children t) ∧
      bound < height ∧ (stage = .written → bound + 2 < height) := by
    have hranks : ∀ id ∈ argument.children, rank id ≤ height - stage.room :=
      fun id hid => Nat.le_sub_of_add_le (hadmits id hid).room
    cases stage with
    | written =>
      simp only [Stage.room] at hranks hroom
      exact ⟨_, gather_lifts hrow hranks, by omega, fun _ => by omega⟩
    | paragraph =>
      simp only [Stage.room] at hranks hroom
      exact ⟨_, gather_lifts hrow hranks, by omega, by simp⟩
    | container =>
      simp only [Stage.room] at hranks hroom
      have hnone := gather_of_none hrow (fun id hid => (hadmits id hid).gathered rfl) hranks
      exact ⟨_, hnone, by omega, by simp⟩
  unfold arrangeArgument
  simp only
  generalize gather setting.registry owner argument.children t = result at hgathered hbound ⊢
  obtain ⟨gathered, u⟩ := result
  split
  · next hbreak =>
    have hwritten : stage = .written := by
      by_contra hstage
      rcases hbreak with hbreak | ⟨hisRoot, -⟩
      · obtain ⟨id, hid, hbreak⟩ := List.any_eq_true.mp hbreak
        simp [(hadmits id hid).whole hstage] at hbreak
      · exact hstage (hroot hisRoot)
    have hinserted : Lifts setting.registry middle u gathered (bound + 2)
        (insertParagraphs setting.registry gathered u) ∧ _ :=
      insertParagraphs_lifts hgathered.row hbound
    obtain ⟨⟨later, hparagraphs, hlater⟩, hwhole⟩ := hinserted
    refine ⟨later, hgathered.trans hparagraphs, fun id hid => ⟨?_, hwhole id hid⟩⟩
    exact Nat.lt_of_le_of_lt (hlater id hid) (hparagraph hwritten)
  · next hnone =>
    have hwhole : ∀ id ∈ argument.children, t.isParagraphBreak id = false := by
      intro id hid
      by_contra hbreak
      exact hnone (.inl (List.any_eq_true.mpr ⟨id, hid, by simpa using hbreak⟩))
    exact ⟨middle, hgathered, fun id hid =>
      ⟨Nat.lt_of_le_of_lt (hbound id hid) hbelow, hgathered.breakless hrow hwhole id hid⟩⟩

end Macromark.Assembly

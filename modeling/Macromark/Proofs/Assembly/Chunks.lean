import Macromark.Proofs.Assembly.Arrangement
import Macromark.Proofs.Text.Trimming
import Macromark.Registry.Builtin

/-!
# What becomes of the chunks

Paragraph breaks split a list of children (`chunks_eq`), and a chunk loses the
texts at its edges that consist of line ends, and the line ends at the edges of
the texts that are left (`trimChunk_cut`). What is left of it is a paragraph
(`wrapChunk_contributes`) if its first child that is not blank belongs into one,
but also if it begins with blank text, whatever stands behind that
(`insertParagraphs_chunks`).
-/

namespace Macromark

variable {registry : Registry} {t u v : Tree} {id : NodeId} {chunk nodes : List NodeId}

-- ----------------------------------------------------------------------------
-- Line ends at the edges of a text
-- ----------------------------------------------------------------------------

/-- The line ends at the front, and those at the back, are taken off. -/
def cutLines (front back : Bool) (cs : List Char) : List Char :=
  let cs := bif front then cs.dropWhile isNewline else cs
  bif back then Text.dropEnd isNewline cs else cs

theorem cutLines_cutLines (front back front' back' : Bool) (cs : List Char) :
    cutLines front' back' (cutLines front back cs) = cutLines (front || front') (back || back') cs := by
  cases front <;> cases back <;> cases front' <;> cases back' <;>
    simp [cutLines, Text.dropEnd_eq_rdropWhile, Text.rdropWhile_dropWhile, List.rdropWhile_idempotent,
      List.dropWhile_idempotent]

theorem all_dropWhile {α : Type} {p q : α → Bool} (h : ∀ x, p x = true → q x = true) (xs : List α) :
    (xs.dropWhile p).all q = xs.all q := by
  induction xs with
  | nil => rfl
  | cons x rest ih =>
    rw [List.dropWhile_cons]
    split
    · next hx => rw [ih, List.all_cons, h x hx, Bool.true_and]
    · rfl

/-- Line ends count neither for nor against what a text consists of. -/
theorem all_cutLines {q : Char → Bool} (h : q '\n' = true) (front back : Bool) (cs : List Char) :
    (cutLines front back cs).all q = cs.all q := by
  have hline : ∀ c, isNewline c = true → q c = true := by
    intro c hc
    rwa [beq_iff_eq.mp hc]
  have hback : ∀ cs : List Char, (Text.dropEnd isNewline cs).all q = cs.all q := by
    intro cs
    rw [Text.dropEnd, List.all_reverse, all_dropWhile hline, List.all_reverse]
  cases front <;> cases back <;> simp only [cutLines, cond_true, cond_false]
  · exact hback cs
  · exact all_dropWhile hline cs
  · exact (hback _).trans (all_dropWhile hline cs)

theorem cutLines_eq_nil {front back : Bool} (h : (front || back) = true) {cs : List Char} :
    cutLines front back cs = [] ↔ cs.all isNewline = true := by
  constructor
  · intro hnil
    rw [← all_cutLines (by decide) front back, hnil]
    rfl
  · intro hall
    have hfront : cs.dropWhile isNewline = [] := by
      rw [List.dropWhile_eq_nil_iff]
      exact List.all_eq_true.mp hall
    have hback : cs.rdropWhile isNewline = [] :=
      List.rdropWhile_eq_nil_iff.mpr (List.all_eq_true.mp hall)
    cases front <;> cases back <;> simp [cutLines, hfront, hback, Text.dropEnd_eq_rdropWhile] at h ⊢

def NodeKind.cutLines (front back : Bool) : NodeKind → NodeKind
  | .plaintext text => .plaintext (.ofList (Macromark.cutLines front back text.toList))
  | kind => kind

@[simp] theorem NodeKind.cutLines_false (kind : NodeKind) : kind.cutLines false false = kind := by
  cases kind <;> simp [NodeKind.cutLines, Macromark.cutLines]

theorem NodeKind.cutLines_cutLines (front back front' back' : Bool) (kind : NodeKind) :
    (kind.cutLines front back).cutLines front' back' =
      kind.cutLines (front || front') (back || back') := by
  cases kind <;> simp [NodeKind.cutLines, Macromark.cutLines_cutLines]

-- ----------------------------------------------------------------------------
-- Line ends at the edges of texts of a tree
-- ----------------------------------------------------------------------------

namespace Tree

/-- From `t` to `u` the nodes that `front` and `back` name have lost line ends, and there may be new
nodes. -/
structure CutLines (t : Tree) (front back : NodeId → Bool) (u : Tree) : Prop where
  size_le : t.size ≤ u.size
  kinds : ∀ id < t.size, u.kind? id = (t.kind? id).map (·.cutLines (front id) (back id))

namespace CutLines

variable {front back front' back' : NodeId → Bool}

theorem refl (t : Tree) : t.CutLines (fun _ => false) (fun _ => false) t :=
  ⟨Nat.le_refl _, fun id _ => by simp⟩

theorem trans (h : t.CutLines front back u) (h' : u.CutLines front' back' v) :
    t.CutLines (fun id => front id || front' id) (fun id => back id || back' id) v := by
  refine ⟨Nat.le_trans h.size_le h'.size_le, fun id hid => ?_⟩
  rw [h'.kinds id (Nat.lt_of_lt_of_le hid h.size_le), h.kinds id hid, Option.map_map]
  simp only [Function.comp_def, NodeKind.cutLines_cutLines]

theorem congr (h : t.CutLines front back u) (hfront : ∀ id < t.size, front' id = front id)
    (hback : ∀ id < t.size, back' id = back id) : t.CutLines front' back' u := by
  refine ⟨h.size_le, fun id hid => ?_⟩
  rw [hfront id hid, hback id hid]
  exact h.kinds id hid

variable (h : t.CutLines front back u) (hid : id < t.size)
include h hid

theorem isPhrasing (registry : Registry) :
    isPhrasing registry u id = isPhrasing registry t id := by
  unfold Macromark.isPhrasing
  rw [h.kinds id hid]
  cases t.kind? id with
  | none => rfl
  | some kind => cases kind <;> rfl

theorem plaintext? : u.plaintext? id =
    (t.plaintext? id).map fun text => .ofList (cutLines (front id) (back id) text.toList) := by
  rw [plaintext?_eq, plaintext?_eq, h.kinds id hid]
  cases t.kind? id with
  | none => rfl
  | some kind => cases kind <;> rfl

theorem any_plaintext? {q : Char → Bool} (hq : q '\n' = true) :
    (u.plaintext? id).any (·.toList.all q) = (t.plaintext? id).any (·.toList.all q) := by
  rw [h.plaintext? hid]
  cases t.plaintext? id with
  | none => rfl
  | some text => simp [all_cutLines hq]

end CutLines
end Tree

-- ----------------------------------------------------------------------------
-- Trimming
-- ----------------------------------------------------------------------------

/-- A text that consists of line ends, if of anything. -/
def isLineEnds (t : Tree) (node : NodeId) : Bool :=
  (t.plaintext? node).any (·.toList.all isNewline)

def trimmed (t : Tree) (chunk : List NodeId) : List NodeId :=
  Text.dropEnd (isLineEnds t) (chunk.dropWhile (isLineEnds t))

theorem Tree.CutLines.isLineEnds {front back : NodeId → Bool} (h : t.CutLines front back u)
    (hid : id < t.size) : isLineEnds u id = isLineEnds t id := h.any_plaintext? hid (by decide)

/-- What is left begins where the texts of line ends are over, and there the text is cut. -/
theorem trimFront_cut (front back : Bool) (h : (front || back) = true) (nodes : List NodeId)
    (t : Tree) :
    let kept := nodes.dropWhile (isLineEnds t)
    (trimFront (cutLines front back) nodes t).1 = kept ∧
      t.CutLines (fun id => front && kept.head? == some id) (fun id => back && kept.head? == some id)
        (trimFront (cutLines front back) nodes t).2 := by
  intro kept
  fun_induction trimFront (cutLines front back) nodes t with
  | case1 t => exact ⟨rfl, (Tree.CutLines.refl t).congr (by simp [kept]) (by simp [kept])⟩
  | case2 node rest t hnone =>
    have hkept : kept = node :: rest := by simp [kept, isLineEnds, hnone]
    refine ⟨hkept.symm, Nat.le_refl _, fun id _ => ?_⟩
    by_cases hid : node = id
    · subst hid
      rw [Tree.plaintext?_eq] at hnone
      cases hkind : t.kind? node with
      | none => rfl
      | some kind => cases kind <;> simp [hkind, NodeKind.cutLines] at hnone ⊢
    · have hother : (node == id) = false := beq_eq_false_iff_ne.mpr hid
      simp [hkept, hother]
  | case3 node rest t text htext hempty ih =>
    have hends : isLineEnds t node = true := by
      simpa [isLineEnds, htext] using (cutLines_eq_nil h).mp hempty
    have hkept : kept = rest.dropWhile (isLineEnds t) := by simp [kept, hends]
    rw [hkept]
    exact ih
  | case4 node rest t text htext hne =>
    have hends : isLineEnds t node = false := by
      rw [← Bool.not_eq_true]
      intro hends
      exact hne ((cutLines_eq_nil h).mpr (by simpa [isLineEnds, htext] using hends))
    have hkept : kept = node :: rest := by simp [kept, hends]
    refine ⟨hkept.symm, by simp [Tree.setKind], fun id _ => ?_⟩
    rw [Tree.kind?_setKind, hkept]
    by_cases hid : node = id
    · subst hid
      simp [Tree.kind?_of_plaintext? htext, NodeKind.cutLines]
    · have hother : (node == id) = false := beq_eq_false_iff_ne.mpr hid
      simp [hid, hother]

theorem dropWhile_congr {α : Type} {p q : α → Bool} {xs : List α} (h : ∀ x ∈ xs, p x = q x) :
    xs.dropWhile p = xs.dropWhile q := by
  induction xs with
  | nil => rfl
  | cons x rest ih =>
    rw [List.dropWhile_cons, List.dropWhile_cons, h x List.mem_cons_self,
      ih fun y hy => h y (List.mem_cons_of_mem x hy)]

theorem trimmed_congr (h : ∀ id ∈ chunk, isLineEnds u id = isLineEnds t id) :
    trimmed u chunk = trimmed t chunk := by
  unfold trimmed Text.dropEnd
  rw [dropWhile_congr h, dropWhile_congr fun id hid => h id ?_]
  exact (List.dropWhile_sublist _).subset (List.mem_reverse.mp hid)

theorem trimChunk_cut (h : ∀ id ∈ chunk, id < t.size) :
    (trimChunk chunk t).1 = trimmed t chunk ∧
      t.CutLines (fun id => (trimmed t chunk).head? == some id)
        (fun id => (trimmed t chunk).getLast? == some id) (trimChunk chunk t).2 := by
  obtain ⟨hkept, hfront⟩ := trimFront_cut true false rfl chunk t
  have hcut : (·.dropWhile isNewline) = cutLines true false := rfl
  have hcut' : Text.dropEnd isNewline = cutLines false true := rfl
  unfold trimChunk
  rw [hcut, hcut']
  generalize trimFront (cutLines true false) chunk t = result at hkept hfront ⊢
  obtain ⟨kept, u⟩ := result
  simp only at hkept hfront ⊢
  obtain ⟨hleft, hback⟩ := trimFront_cut false true rfl kept.reverse u
  have hlines : kept.reverse.dropWhile (isLineEnds u) = kept.reverse.dropWhile (isLineEnds t) := by
    refine dropWhile_congr fun id hid => hfront.isLineEnds (h id ?_)
    rw [List.mem_reverse, hkept] at hid
    exact (List.dropWhile_sublist _).subset hid
  rw [hlines] at hleft hback
  have htrimmed : kept.reverse.dropWhile (isLineEnds t) = (trimmed t chunk).reverse := by
    rw [hkept, trimmed, Text.dropEnd, List.reverse_reverse]
  rw [htrimmed] at hleft hback
  refine ⟨by rw [hleft, List.reverse_reverse], (hfront.trans hback).congr (fun id _ => ?_) fun id _ => ?_⟩
  · simp [trimmed, Text.dropEnd_eq_rdropWhile, Text.head?_rdropWhile_dropWhile]
  · simp [List.head?_reverse]

-- ----------------------------------------------------------------------------
-- Paragraphs
-- ----------------------------------------------------------------------------

/-- What is left of a chunk is a paragraph if its first child that is not blank belongs into one, and
in any case if it begins with blank text. -/
def IsParagraph (registry : Registry) (t : Tree) (chunk : List NodeId) : Prop :=
  (chunk.find? (!isBlankNode t ·)).any (isPhrasing registry t) = true ∨
    chunk.head?.any (isBlankNode t) = true

theorem isPhrasing_of_isBlankNode (registry : Registry) (h : isBlankNode t id = true) :
    isPhrasing registry t id = true := by
  unfold isBlankNode at h
  cases htext : t.plaintext? id with
  | none => simp [htext] at h
  | some text => simp [isPhrasing, Tree.kind?_of_plaintext? htext]

theorem isParagraph_cons {first : NodeId} {rest : List NodeId} :
    IsParagraph registry t (first :: rest) ↔ isPhrasing registry t first = true := by
  unfold IsParagraph
  cases hblank : isBlankNode t first with
  | true => simp [hblank, isPhrasing_of_isBlankNode registry hblank]
  | false => simp [hblank]

theorem isParagraph_congr
    (hphrasing : ∀ id ∈ chunk, isPhrasing registry u id = isPhrasing registry t id) :
    IsParagraph registry u chunk ↔ IsParagraph registry t chunk := by
  cases chunk with
  | nil => exact Iff.rfl
  | cons first rest =>
    rw [isParagraph_cons, isParagraph_cons, hphrasing first List.mem_cons_self]

/-- A macro above the nodes of a chunk that is new in `u`, where `t` was the tree. -/
structure ParagraphOf (t u : Tree) (chunk : List NodeId) (node : NodeId) : Prop where
  fresh : t.size ≤ node
  inside : node < u.size
  call : ∃ call, u.kind? node = some (.call call) ∧ call.name = MacroName.paragraph ∧
    call.synthetic = true ∧ call.children "content" = chunk

theorem synthesizeArguments_kind? (position : Position) (names : List String)
    (content : Option (List NodeId)) (t : Tree) :
    let u := (synthesizeArguments position names content t).2
    t.size ≤ u.size ∧ ∀ id < t.size, u.kind? id = t.kind? id := by
  induction names generalizing content t with
  | nil => exact ⟨Nat.le_refl _, fun _ _ => rfl⟩
  | cons name names ih =>
    unfold synthesizeArguments
    simp only
    split
    · exact ih _ t
    · obtain ⟨hsize, hkinds⟩ := ih (if name = "content" then none else content)
        (t.push (.plaintext "") position).2
      rw [Tree.size_push] at hsize hkinds
      refine ⟨Nat.le_of_succ_le hsize, fun id hid => ?_⟩
      rw [hkinds id (Nat.lt_succ_of_lt hid), Tree.kind?_push, if_neg (Nat.ne_of_lt hid)]

/-- The first argument named `content` is given its nodes. -/
theorem synthesizeArguments_content (position : Position) {names : List String}
    (h : "content" ∈ names) (first : NodeId) (rest : List NodeId) (t : Tree) :
    ((synthesizeArguments position names (some (first :: rest)) t).1.find?
      (·.name == "content")).map (·.children) = some (first :: rest) := by
  induction names generalizing t with
  | nil => simp at h
  | cons name names ih =>
    unfold synthesizeArguments
    by_cases hname : name = "content"
    · simp [hname]
    · have hmem : "content" ∈ names := (List.mem_cons.mp h).resolve_left (Ne.symm hname)
      simpa [hname] using ih hmem (t.push (.plaintext "") position).2

theorem synthesize_paragraph
    (h : (registry.get? MacroName.paragraph).any (·.declares "content") = true) (first : NodeId)
    (rest : List NodeId) (position : Position) (t : Tree) :
    ∃ node u, synthesize registry MacroName.paragraph (first :: rest) position t = some (node, u) ∧
      t.CutLines (fun _ => false) (fun _ => false) u ∧ ParagraphOf t u (first :: rest) node := by
  cases hget : registry.get? MacroName.paragraph with
  | none => simp [hget] at h
  | some d =>
    have hdeclares : d.declares "content" = true := by simpa [hget] using h
    obtain ⟨hsize, hkinds⟩ := synthesizeArguments_kind? position d.argumentNames
      (some (first :: rest)) t
    have hcontent := synthesizeArguments_content position
      (MacroDef.declares_iff.mp hdeclares) first rest t
    simp only [synthesize, hget, hdeclares, if_true]
    generalize synthesizeArguments position d.argumentNames (some (first :: rest)) t = result
      at hsize hkinds hcontent ⊢
    obtain ⟨arguments, p⟩ := result
    simp only at hsize hkinds hcontent
    let made : MacroCall := { name := MacroName.paragraph, arguments, synthetic := true }
    have hchildren : made.children "content" = first :: rest := by
      rw [MacroCall.children, MacroCall.argument?, hcontent]
      rfl
    have hlast : p.size < (p.pushCall made position).2.size := by
      rw [Tree.size_pushCall]
      exact Nat.lt_succ_self _
    refine ⟨p.size, (p.pushCall made position).2, rfl,
      ⟨Nat.le_trans hsize (Nat.le_of_lt hlast), fun id hid => ?_⟩, hsize, hlast, made, ?_, rfl, rfl,
      hchildren⟩
    · rw [Tree.kind?_pushCall, if_neg (Nat.ne_of_lt (Nat.lt_of_lt_of_le hid hsize)), hkinds id hid]
      simp
    · rw [Tree.kind?_pushCall, if_pos rfl]

/-- What a chunk without the line ends at its edges contributes to the list. -/
inductive Contributes (registry : Registry) (t u : Tree) : List NodeId → List NodeId → Prop
  | nothing : Contributes registry t u [] []
  | paragraph {chunk : List NodeId} {node : NodeId} : IsParagraph registry t chunk →
      ParagraphOf t u chunk node → Contributes registry t u chunk [node]
  | unwrapped {chunk : List NodeId} : chunk ≠ [] → ¬IsParagraph registry t chunk →
      Contributes registry t u chunk chunk

theorem ParagraphOf.later {front back : NodeId → Bool} {node : NodeId} (h : ParagraphOf t u chunk node)
    (hlater : u.CutLines front back v) : ParagraphOf t v chunk node := by
  obtain ⟨call, hkind, hcall⟩ := h.call
  refine ⟨h.fresh, Nat.lt_of_lt_of_le h.inside hlater.size_le, call, ?_, hcall⟩
  rw [hlater.kinds node h.inside, hkind]
  rfl

theorem ParagraphOf.earlier {node : NodeId} (h : ParagraphOf u v chunk node)
    (hsize : t.size ≤ u.size) : ParagraphOf t v chunk node :=
  ⟨Nat.le_trans hsize h.fresh, h.inside, h.call⟩

namespace Contributes

variable {part : List NodeId}

theorem mem (h : Contributes registry t u chunk part) (hid : id ∈ part) :
    id ∈ chunk ∨ t.size ≤ id ∧ id < u.size := by
  cases h with
  | nothing => exact .inl hid
  | paragraph _ hparagraph =>
    obtain rfl := List.mem_singleton.mp hid
    exact .inr ⟨hparagraph.fresh, hparagraph.inside⟩
  | unwrapped => exact .inl hid

theorem later {front back : NodeId → Bool} (h : Contributes registry t u chunk part)
    (hlater : u.CutLines front back v) : Contributes registry t v chunk part := by
  cases h with
  | nothing => exact .nothing
  | paragraph hwrapped hparagraph => exact .paragraph hwrapped (hparagraph.later hlater)
  | unwrapped hne hnot => exact .unwrapped hne hnot

theorem earlier {front back : NodeId → Bool} (hearlier : t.CutLines front back u)
    (hchunk : ∀ id ∈ chunk, id < t.size) (h : Contributes registry u v chunk part) :
    Contributes registry t v chunk part := by
  have hsame : IsParagraph registry u chunk ↔ IsParagraph registry t chunk :=
    isParagraph_congr fun id hid => hearlier.isPhrasing (hchunk id hid) registry
  cases h with
  | nothing => exact .nothing
  | paragraph hwrapped hparagraph =>
    exact .paragraph (hsame.mp hwrapped) (hparagraph.earlier hearlier.size_le)
  | unwrapped hne hnot => exact .unwrapped hne fun hwrapped => hnot (hsame.mpr hwrapped)

end Contributes

theorem mem_of_mem_trimmed (h : id ∈ trimmed t chunk) : id ∈ chunk := by
  have hmem : id ∈ chunk.dropWhile (isLineEnds t) := (List.rdropWhile_prefix _ _).subset h
  exact (List.dropWhile_sublist _).subset hmem

def isFirst (rows : List (List NodeId)) (id : NodeId) : Bool := rows.any (·.head? == some id)

def isLast (rows : List (List NodeId)) (id : NodeId) : Bool := rows.any (·.getLast? == some id)

section
variable (hparagraph : (registry.get? MacroName.paragraph).any (·.declares "content") = true)
include hparagraph

theorem wrapChunk_contributes (h : ∀ id ∈ chunk, id < t.size) :
    t.CutLines (isFirst [trimmed t chunk]) (isLast [trimmed t chunk]) (wrapChunk registry chunk t).2 ∧
      Contributes registry t (wrapChunk registry chunk t).2 (trimmed t chunk)
        (wrapChunk registry chunk t).1 := by
  obtain ⟨hkept, htrimmed⟩ := trimChunk_cut h
  have hinside : ∀ id ∈ trimmed t chunk, id < t.size := fun id hid => h id (mem_of_mem_trimmed hid)
  have hcut : t.CutLines (isFirst [trimmed t chunk]) (isLast [trimmed t chunk]) (trimChunk chunk t).2 :=
    htrimmed.congr (by simp [isFirst]) (by simp [isLast])
  unfold wrapChunk
  generalize trimChunk chunk t = result at hkept hcut ⊢
  obtain ⟨kept, u⟩ := result
  simp only at hkept hcut
  rw [← hkept] at hcut hinside ⊢
  cases kept with
  | nil => exact ⟨hcut, .nothing⟩
  | cons first rest =>
    have hphrasing := hcut.isPhrasing (hinside first List.mem_cons_self) registry
    simp only
    split
    · next hwrapped =>
      obtain ⟨node, v, hmade, hnew, hnode⟩ :=
        synthesize_paragraph hparagraph first rest (u.position first) u
      rw [hmade]
      refine ⟨(hcut.trans hnew).congr (by simp) (by simp),
        .paragraph ?_ (hnode.earlier hcut.size_le)⟩
      rw [isParagraph_cons, ← hphrasing]
      exact hwrapped
    · next hnot =>
      refine ⟨hcut, .unwrapped (List.cons_ne_nil _ _) fun hwrapped => hnot ?_⟩
      rw [hphrasing]
      exact isParagraph_cons.mp hwrapped

theorem wrapChunks_contributes (rows : List (List NodeId)) (h : ∀ id ∈ rows.flatten, id < t.size) :
    let u := (wrapChunks registry rows t).2
    t.CutLines (isFirst (rows.map (trimmed t))) (isLast (rows.map (trimmed t))) u ∧
      ∃ parts, (wrapChunks registry rows t).1 = parts.flatten ∧
        List.Forall₂ (Contributes registry t u) (rows.map (trimmed t)) parts ∧
        (∀ part ∈ parts, ∀ id ∈ part, id ∈ rows.flatten ∨ t.size ≤ id ∧ id < u.size) ∧
        parts.Pairwise fun part other => ∀ id ∈ part, id ∈ other → id < t.size := by
  induction rows generalizing t with
  | nil =>
    have hcut : t.CutLines (isFirst []) (isLast []) t :=
      (Tree.CutLines.refl t).congr (fun _ _ => rfl) fun _ _ => rfl
    exact ⟨hcut, [], rfl, .nil, by simp, .nil⟩
  | cons chunk others ih =>
    have hchunk : ∀ id ∈ chunk, id < t.size := fun id hid =>
      h id (List.mem_append_left _ hid)
    have hothers : ∀ id ∈ others.flatten, id < t.size := fun id hid =>
      h id (List.mem_append_right _ hid)
    obtain ⟨hcut, hpart⟩ := wrapChunk_contributes hparagraph hchunk
    unfold wrapChunks
    generalize wrapChunk registry chunk t = wrapped at hcut hpart ⊢
    obtain ⟨part, u⟩ := wrapped
    simp only at hcut hpart ⊢
    obtain ⟨hcut', parts, hparts, hcontributes, hmem, hapart⟩ := ih fun id hid =>
      Nat.lt_of_lt_of_le (hothers id hid) hcut.size_le
    have htrimmed : others.map (trimmed u) = others.map (trimmed t) := by
      refine List.map_congr_left fun row hrow => ?_
      refine trimmed_congr fun id hid => hcut.isLineEnds (hothers id ?_)
      exact List.mem_flatten.mpr ⟨row, hrow, hid⟩
    rw [htrimmed] at hcut' hcontributes
    -- what the other chunks contribute is read in the first tree
    have hrest : List.Forall₂ (Contributes registry t (wrapChunks registry others u).2)
        (others.map (trimmed t)) parts := by
      have hrows : ∀ row ∈ others.map (trimmed t), ∀ id ∈ row, id < t.size := by
        intro row hrow id hid
        obtain ⟨written, hwritten, rfl⟩ := List.mem_map.mp hrow
        exact hothers id (List.mem_flatten.mpr ⟨written, hwritten, mem_of_mem_trimmed hid⟩)
      refine ((List.forall₂_and_left _ _).mpr ⟨hrows, hcontributes⟩).imp ?_
      rintro row part ⟨hrow, hpart⟩
      exact hpart.earlier hcut hrow
    refine ⟨(hcut.trans hcut').congr (by simp [isFirst]) (by simp [isLast]), part :: parts, ?_,
      .cons (hpart.later hcut') hrest, ?_, .cons ?_ ?_⟩
    · rw [hparts, List.flatten_cons]
    · intro other hother id hid
      rw [List.flatten_cons, List.mem_append]
      rcases List.mem_cons.mp hother with rfl | hother
      · rcases hpart.mem hid with hmem | ⟨hnew, hinside⟩
        · exact .inl (.inl (mem_of_mem_trimmed hmem))
        · exact .inr ⟨hnew, Nat.lt_of_lt_of_le hinside hcut'.size_le⟩
      · rcases hmem other hother id hid with hmem | ⟨hnew, hinside⟩
        · exact .inl (.inr hmem)
        · exact .inr ⟨Nat.le_trans hcut.size_le hnew, hinside⟩
    · intro other hother id hid hid'
      rcases hpart.mem hid with hmem' | ⟨-, hinside⟩
      · exact hchunk id (mem_of_mem_trimmed hmem')
      · rcases hmem other hother id hid' with hmem' | ⟨hnew, -⟩
        · exact hothers id hmem'
        · exact absurd hinside (Nat.not_lt_of_le hnew)
    · refine hapart.imp_of_mem fun {first second} hfirst _ hshared id hid hid' => ?_
      have hold := hshared id hid hid'
      rcases hmem first hfirst id hid with hmem' | ⟨hnew, -⟩
      · exact hothers id hmem'
      · exact absurd hold (Nat.not_lt_of_le hnew)

end

/-- The breaks are where the list is split. -/
theorem chunks_eq (t : Tree) (nodes : List NodeId) :
    chunks t nodes = nodes.splitOnP t.isParagraphBreak := by
  induction nodes with
  | nil => rfl
  | cons node rest ih =>
    rw [chunks, List.splitOnP_cons_eq_if_modifyHead, ih]
    split
    · rfl
    · cases hrest : rest.splitOnP t.isParagraphBreak with
      | nil => exact absurd hrest (List.splitOnP_ne_nil _ _)
      | cons first others => rfl

/-- A list is split at its breaks, and the line ends at the edges of every chunk go. Every chunk then
contributes nothing, one paragraph of its own, or what it holds; the nodes themselves lose line ends
at those edges, and are what they were. -/
theorem insertParagraphs_chunks
    (hparagraph : (registry.get? MacroName.paragraph).any (·.declares "content") = true)
    (h : ∀ id ∈ nodes, id < t.size) :
    let rows := (nodes.splitOnP t.isParagraphBreak).map (trimmed t)
    let u := (insertParagraphs registry nodes t).2
    t.CutLines (isFirst rows) (isLast rows) u ∧
      ∃ parts, (insertParagraphs registry nodes t).1 = parts.flatten ∧
        List.Forall₂ (Contributes registry t u) rows parts ∧
        parts.Pairwise fun part other => ∀ id ∈ part, id ∈ other → id < t.size := by
  have hinside : ∀ id ∈ (chunks t nodes).flatten, id < t.size := by
    intro id hid
    rw [Assembly.flatten_chunks] at hid
    exact h id (List.mem_of_mem_filter hid)
  obtain ⟨hcut, parts, hparts, hcontributes, -, hapart⟩ :=
    wrapChunks_contributes hparagraph (chunks t nodes) hinside
  intro rows u
  have hrows : rows = (chunks t nodes).map (trimmed t) := by rw [chunks_eq]
  rw [hrows]
  exact ⟨hcut, parts, hparts, hcontributes, hapart⟩

theorem insertParagraphs_chunks_geese :
    let t : Tree := ⟨#[⟨.plaintext "\ngeese", .origin, none⟩, ⟨.paragraphBreak, .origin, none⟩,
      ⟨.call { name := MacroName.header, arguments := [] }, .origin, none⟩,
      ⟨.plaintext "\n", .origin, none⟩], none⟩
    let result := insertParagraphs .builtin [0, 1, 2, 3] t
    (Registry.builtin.get? MacroName.paragraph).any (·.declares "content") = true ∧
      (∀ id ∈ [0, 1, 2, 3], id < t.size) ∧ ∃ parts, result.1 = parts.flatten ∧
        List.Forall₂ (Contributes .builtin t result.2) [[0], [2]] parts := by
  intro t result
  have hparagraph : (Registry.builtin.get? MacroName.paragraph).any (·.declares "content") = true := by
    decide
  have hinside : ∀ id ∈ [0, 1, 2, 3], id < t.size := by decide
  have hrows : (([0, 1, 2, 3] : List NodeId).splitOnP t.isParagraphBreak).map (trimmed t) =
      [[0], [2]] := by decide
  obtain ⟨-, parts, hparts, hcontributes, -⟩ := insertParagraphs_chunks hparagraph hinside
  exact ⟨hparagraph, hinside, parts, hparts, hrows ▸ hcontributes⟩

/-- A header behind a blank is put into a paragraph with it, though it does not belong into one. -/
theorem insertParagraphs_blank_header :
    let t : Tree := ⟨#[⟨.plaintext " ", .origin, none⟩,
      ⟨.call { name := MacroName.header, arguments := [] }, .origin, none⟩], none⟩
    let result := insertParagraphs .builtin [0, 1] t
    ([0, 1].find? (!isBlankNode t ·) = some 1 ∧ isPhrasing .builtin t 1 = false) ∧
      result.1 = [3] ∧ (result.2.call? 3).map (·.children "content") = some [0, 1] := by
  decide

end Macromark

import Macromark.Proofs.Assembly.Chars
import Macromark.Proofs.Assembly.Origin
import Macromark.Proofs.Text.Trimming

/-!
# What settling does to what is read

The characters of a passage are those of its words. Settling takes nothing off
them but white space that stands at a break, in a container or in a row
(`Passage.Sheds`), so the characters that none of it has are all kept, as long as
no link loses its words with it (`Passage.filter_chars_settle`).
-/

namespace Macromark

variable {α : Type} {registry : Registry} {fresh : α} {keep : Char → Bool}

/-- What the compiler writes on its own is read as what it holds. -/
def Registry.Showing (registry : Registry) : Prop :=
  ∀ name d, registry.Implies name → registry.get? name = some d → d.rendering.showsContent = true

theorem Registry.showing_builtin : Registry.builtin.Showing := by
  have hcontainers : ∀ d ∈ Registry.builtinMacros, ∀ gathering ∈ d.gathering,
      (Registry.builtin.get? gathering.container).all (·.rendering.showsContent) = true := by
    decide
  rintro name d (rfl | ⟨other, hother, gathering, hgathering, rfl⟩) hd
  · obtain rfl := Option.some.inj hd
    rfl
  · have hshown := hcontainers other hother gathering hgathering
    rwa [hd] at hshown

namespace Passage

variable {p q : Passage α} {ps qs content members : List (Passage α)} {owner container : String}
variable {words : String}

theorem charsAt_impliedSlots {names : List String} (h : "content" ∈ names) :
    charsAt registry (impliedSlots fresh names (some content)) "content" = charsOf registry content := by
  rw [charsAt_eq]
  induction names with
  | nil => cases h
  | cons name names ih =>
    rw [impliedSlots]
    by_cases hname : name = "content"
    · cases content <;> simp [hname]
    · simp only [hname, if_false, List.find?_cons, beq_eq_false_iff_ne.mpr hname]
      exact ih ((List.mem_cons.mp h).resolve_left (Ne.symm hname))

theorem chars_implied (hshow : registry.Showing) {name : String} (himplies : registry.Implies name)
    (h : implied? registry fresh name members = some p) :
    p.chars registry = charsOf registry members := by
  obtain ⟨d, hd, hdeclares, rfl⟩ := implied?_eq h
  rw [chars_call, hd]
  exact (Rendering.chars_of_showsContent (hshow name d himplies hd)).trans
    (charsAt_impliedSlots hdeclares)

-- ----------------------------------------------------------------------------
-- White space
-- ----------------------------------------------------------------------------

/-- White space that may go when the content of an argument of `owner` is arranged: what stands at a
break, in a container or between two members of a row. -/
inductive Sheds (registry : Registry) (owner : String) (content : List (Passage α)) : String → Prop
  | atBreak {b : Passage α} {words : String} : b ∈ content → b.isBreak = true →
      Text.isBlank words = true → Sheds registry owner content words
  | inContainer {mark : α} {words : String} : registry.isContainer owner = true →
      .text mark words ∈ content → Text.isBlank words = true → Sheds registry owner content words
  | inRow {front row back : List (Passage α)} {first last : Passage α} {container : String} {mark : α}
      {words : String} : content = front ++ first :: row ++ last :: back →
      first.container? registry owner = some container →
      last.container? registry owner = some container →
      (∀ p ∈ row, p.isBlank = true ∨ p.container? registry owner = some container) →
      .text mark words ∈ row → Text.isBlank words = true → Sheds registry owner content words

theorem Sheds.isBlank (h : Sheds registry owner content words) : Text.isBlank words = true := by
  cases h <;> assumption

/-- Without a break only a text of its own goes. -/
theorem Sheds.mem (h : Sheds registry owner content words) :
    content.any isBreak = true ∨ ∃ mark, .text mark words ∈ content := by
  cases h with
  | atBreak hb hbreak _ => exact .inl (List.any_eq_true.mpr ⟨_, hb, hbreak⟩)
  | inContainer _ htext _ => exact .inr ⟨_, htext⟩
  | @inRow _ _ _ _ _ _ mark _ hcontent _ _ _ htext _ =>
    refine .inr ⟨mark, ?_⟩
    rw [hcontent]
    exact List.mem_append_left _ (List.mem_append_right _ (List.mem_cons_of_mem _ htext))

theorem Sheds.behind (h : Sheds registry owner content words) (before : List (Passage α)) :
    Sheds registry owner (before ++ content) words := by
  cases h with
  | atBreak hb hbreak hblank => exact .atBreak (List.mem_append_right _ hb) hbreak hblank
  | inContainer howner htext hblank => exact .inContainer howner (List.mem_append_right _ htext) hblank
  | @inRow front row back first last container mark _ hcontent hfirst hlast hrow htext hblank =>
    have hsplit : before ++ content = (before ++ front) ++ first :: row ++ last :: back := by
      simp [hcontent]
    exact .inRow hsplit hfirst hlast hrow htext hblank

/-- None of the white space that may go has a character that counts. -/
def Steady (keep : Char → Bool) (registry : Registry) (owner : String) (content : List (Passage α)) :
    Prop :=
  ∀ words, Sheds registry owner content words → words.toList.filter keep = []

theorem filter_of_isBlank (hspace : ∀ c, Text.isSpace c = true → keep c = false)
    (h : Text.isBlank words = true) : words.toList.filter keep = [] := by
  rw [List.filter_eq_nil_iff]
  intro c hc
  simp [hspace c (List.all_eq_true.mp h c hc)]

theorem steady_of_space (hspace : ∀ c, Text.isSpace c = true → keep c = false) :
    Steady keep registry owner content := fun _ h => filter_of_isBlank hspace h.isBlank

/-- Next to a break no white space counts. -/
theorem Steady.space (h : Steady keep registry owner content) (hbreak : content.any isBreak = true)
    (c : Char) (hc : Text.isSpace c = true) : keep c = false := by
  obtain ⟨b, hb, hbreak⟩ := List.any_eq_true.mp hbreak
  have hnone := h (String.singleton c) (.atBreak hb hbreak (by simpa [Text.isBlank] using hc))
  simpa using hnone

theorem Steady.behind (before : List (Passage α))
    (h : Steady keep registry owner (before ++ content)) : Steady keep registry owner content :=
  fun words hsheds => h words (hsheds.behind before)

theorem Idle.filter_chars (hspace : ∀ c, Text.isSpace c = true → keep c = false) (h : p.Idle) :
    (p.chars registry).filter keep = [] := by
  have hline : keep '\n' = false := hspace _ isSpace_newline
  cases p with
  | text mark words =>
    rw [chars_text]
    exact filter_of_isBlank hspace (h.resolve_left (by simp [isBreak]))
  | paragraphBreak mark =>
    rw [chars]
    simp [hline]
  | _ => simp [Idle, isBreak, Passage.isBlank] at h

-- ----------------------------------------------------------------------------
-- Containers
-- ----------------------------------------------------------------------------

/-- The blanks of a row stand between two of its members. -/
theorem sheds_of_row {rest row behind : List (Passage α)} {isMember : Passage α → Bool} {mark : α}
    (hmember : ∀ p, isMember p = true → p.container? registry owner = some container)
    (hp : p.container? registry owner = some container) (hrow : row = rowBehind isMember isBlank rest)
    (hrest : row ++ behind = rest) (htext : .text mark words ∈ row)
    (hblank : Text.isBlank words = true) : Sheds registry owner (p :: rest) words := by
  obtain ⟨-, hkinds⟩ := rowBehind_front isMember isBlank rest
  have hne : row ≠ [] := List.ne_nil_of_mem htext
  have hlast : (row.getLast hne).container? registry owner = some container := by
    subst hrow
    have hstop := List.rdropWhile_last_not _ _ hne
    rw [Bool.not_eq_true, Bool.not_eq_false'] at hstop
    exact hmember _ hstop
  obtain ⟨front, last, hfront⟩ := (List.eq_nil_or_concat' row).resolve_left hne
  subst hfront
  rw [List.getLast_concat] at hlast
  have hsplit : p :: rest = [] ++ p :: front ++ last :: behind := by simp [← hrest]
  have hmem : .text mark words ∈ front := by
    refine (List.mem_append.mp htext).resolve_right fun hmem => ?_
    rw [← List.mem_singleton.mp hmem] at hlast
    cases hlast
  refine .inRow hsplit hp hlast (fun q hq => ?_) hmem hblank
  have hrow : q ∈ rowBehind isMember isBlank rest := hrow ▸ List.mem_append_left _ hq
  exact (hkinds q hrow).symm.imp_right (hmember q)

theorem filter_chars_blank (h : Steady keep registry owner content) (hblank : p.isBlank = true)
    (hsheds : ∀ mark words, p = .text mark words → Text.isBlank words = true →
      Sheds registry owner content words) : (p.chars registry).filter keep = [] := by
  cases p with
  | text mark words =>
    rw [chars_text]
    exact h words (hsheds mark words rfl hblank)
  | _ => cases hblank

theorem filter_chars_gatherRows (hshow : registry.Showing) (h : Steady keep registry owner ps) :
    (charsOf registry (gatherRows registry fresh owner ps)).filter keep =
      (charsOf registry ps).filter keep := by
  fun_induction gatherRows registry fresh owner ps with
  | case1 => rfl
  | case2 p rest _ ih =>
    rw [charsOf_cons, charsOf_cons, List.filter_append, List.filter_append,
      ih (h.behind [p])]
  | case3 p rest _ _ _ _ _ ih =>
    rw [charsOf_cons, charsOf_cons, List.filter_append, List.filter_append,
      ih (h.behind [p])]
  | case4 p rest container hasks isMember row _ wrapper hwrapper ih =>
    obtain ⟨⟨behind, hbehind⟩, hrow⟩ := rowBehind_front isMember isBlank rest
    have hdrop : rest.drop row.length = behind := by rw [← hbehind]; exact List.drop_left
    have hsplit : p :: rest = (p :: row) ++ behind := by rw [List.cons_append, hbehind]
    rw [hdrop] at ih ⊢
    have hmembers : (charsOf registry (row.filter isMember)).filter keep =
        (charsOf registry row).filter keep := by
      refine filter_charsOf_filter fun q hq hnot => ?_
      refine filter_chars_blank h ((hrow q hq).resolve_left (by simp [hnot])) ?_
      rintro mark words rfl hblank
      exact sheds_of_row (fun q hq => by simpa [isMember] using hq) hasks rfl hbehind hq hblank
    rw [charsOf_cons, chars_implied hshow (implies_of_container? hasks) hwrapper, hsplit,
      charsOf_append, charsOf_cons, charsOf_cons, List.filter_append, List.filter_append,
      List.filter_append, List.filter_append, hmembers, ih ((hsplit ▸ h).behind (p :: row))]
  | case5 p rest container _ isMember row _ _ ih =>
    obtain ⟨⟨behind, hbehind⟩, -⟩ := rowBehind_front isMember isBlank rest
    have hdrop : rest.drop row.length = behind := by rw [← hbehind]; exact List.drop_left
    have hsplit : p :: rest = (p :: row) ++ behind := by rw [List.cons_append, hbehind]
    rw [hdrop] at ih ⊢
    rw [hsplit, charsOf_append, charsOf_append, List.filter_append, List.filter_append,
      ih ((hsplit ▸ h).behind (p :: row))]

theorem Sheds.of_filter (h : Sheds registry owner (content.filter (!·.isBlank)) words) :
    Sheds registry owner content words := by
  rcases h.mem with hbreak | ⟨mark, htext⟩
  · obtain ⟨b, hb, hbreak⟩ := List.any_eq_true.mp hbreak
    exact .atBreak (List.mem_filter.mp hb).1 hbreak h.isBlank
  · -- the blanks are gone
    have hkept := (List.mem_filter.mp htext).2
    simp [Passage.isBlank, h.isBlank] at hkept

theorem filter_chars_gather (hshow : registry.Showing) (h : Steady keep registry owner content) :
    (charsOf registry (gather registry fresh owner content)).filter keep =
      (charsOf registry content).filter keep := by
  unfold gather
  split
  · next howner =>
    have hblanks : (charsOf registry (content.filter (!·.isBlank))).filter keep =
        (charsOf registry content).filter keep := by
      refine filter_charsOf_filter fun p hp hblank => ?_
      refine filter_chars_blank h (by simpa using hblank) ?_
      rintro mark words rfl hblank
      exact .inContainer howner hp hblank
    rw [← hblanks]
    exact filter_chars_gatherRows hshow fun words hsheds => h words hsheds.of_filter
  · exact filter_chars_gatherRows hshow h

-- ----------------------------------------------------------------------------
-- Paragraphs
-- ----------------------------------------------------------------------------

section
variable (hspace : ∀ c, Text.isSpace c = true → keep c = false)
include hspace

theorem filter_of_trimmed {written kept : String} (h : Trimmed written kept) :
    kept.toList.filter keep = written.toList.filter keep := by
  obtain ⟨front, back, hends, hwritten⟩ := h
  have hnone : ∀ cs ⊆ front ++ back, cs.filter keep = [] := by
    intro cs hcs
    rw [List.filter_eq_nil_iff]
    intro c hc
    simp [hends c (hcs hc), hspace _ isSpace_newline]
  rw [hwritten, List.filter_append, List.filter_append, hnone front (List.subset_append_left _ _),
    hnone back (List.subset_append_right _ _), List.nil_append, List.append_nil]

theorem filter_chars_idle (h : ∀ p ∈ ps, p.Idle) : (charsOf registry ps).filter keep = [] := by
  rw [charsOf, List.filter_flatMap, List.flatMap_eq_nil_iff]
  exact fun p hp => (h p hp).filter_chars hspace

/-- Cutting a row at its front, or at its back where the row is read backwards. -/
theorem filter_chars_trimFront {cut : List Char → List Char} (hcut : CutsLines cut)
    (ps : List (Passage α)) :
    (charsOf registry (trimFront cut ps)).filter keep = (charsOf registry ps).filter keep ∧
      (charsOf registry (trimFront cut ps).reverse).filter keep =
        (charsOf registry ps.reverse).filter keep := by
  obtain ⟨dropped, rest, rfl, hidle, hresult⟩ := trimFront_cases hcut ps
  have hfront : (charsOf registry dropped).filter keep = [] := filter_chars_idle hspace hidle
  have hback : (charsOf registry dropped.reverse).filter keep = [] :=
    filter_chars_idle hspace fun p hp => hidle p (List.mem_reverse.mp hp)
  rcases hresult with hresult | ⟨mark, written, kept, others, htrimmed, rfl, hresult⟩
  · simp [hresult, List.filter_append, hfront, hback]
  · have htext := filter_of_trimmed hspace htrimmed
    simp [hresult, List.filter_append, hfront, hback, htext]

theorem filter_chars_trimChunk (ps : List (Passage α)) :
    (charsOf registry (trimChunk ps)).filter keep = (charsOf registry ps).filter keep := by
  rw [← (filter_chars_trimFront hspace cutsLines_dropWhile ps).1, trimChunk,
    (filter_chars_trimFront hspace cutsLines_dropEnd _).2, List.reverse_reverse]

theorem filter_chars_wrapChunk (hshow : registry.Showing) (ps : List (Passage α)) :
    (charsOf registry (wrapChunk registry fresh ps)).filter keep =
      (charsOf registry ps).filter keep := by
  rw [← filter_chars_trimChunk hspace ps]
  unfold wrapChunk
  split
  · next hnil => rw [hnil]
  · next first rest hchunk =>
    rw [hchunk]
    split
    · split
      · next paragraph himplied => simp [chars_implied hshow (.inl rfl) himplied]
      · rfl
    · rfl

theorem filter_chars_insertParagraphs (hshow : registry.Showing) (ps : List (Passage α)) :
    (charsOf registry (insertParagraphs registry fresh ps)).filter keep =
      (charsOf registry ps).filter keep := by
  have hbreaks : (charsOf registry (chunks ps).flatten).filter keep =
      (charsOf registry ps).filter keep := by
    rw [flatten_chunks]
    refine filter_charsOf_filter fun p _ hbreak => ?_
    exact Idle.filter_chars hspace (.inl (by simpa using hbreak))
  rw [← hbreaks, insertParagraphs, charsOf, charsOf, List.flatMap_assoc, List.flatten_eq_flatMap,
    List.flatMap_assoc, List.filter_flatMap, List.filter_flatMap]
  exact List.flatMap_congr fun chunk _ => filter_chars_wrapChunk hspace hshow chunk

end

-- ----------------------------------------------------------------------------
-- Arguments
-- ----------------------------------------------------------------------------

theorem filter_chars_tidyContent (hshow : registry.Showing) (h : Steady keep registry owner content)
    (name : String) :
    (charsOf registry (tidyContent registry fresh owner false name content)).filter keep =
      (charsOf registry content).filter keep := by
  unfold tidyContent
  simp only [Bool.false_eq_true, false_and, or_false]
  split
  · next hbreak =>
    rw [filter_chars_insertParagraphs (h.space hbreak) hshow, filter_chars_gather hshow h]
  · exact filter_chars_gather hshow h

/-- An argument in which nothing is read stays so. -/
theorem charsOf_tidyContent_eq_nil (hshow : registry.Showing) (h : charsOf registry content = [])
    (name : String) : charsOf registry (tidyContent registry fresh owner false name content) = [] := by
  have hnone := charsOf_eq_nil.mp h
  have hsteady : Steady (fun _ => true) registry owner content := by
    intro words hsheds
    rcases hsheds.mem with hbreak | ⟨mark, htext⟩
    · obtain ⟨b, hb, hbreak⟩ := List.any_eq_true.mp hbreak
      have hread := hnone b hb
      cases b with
      | paragraphBreak => simp at hread
      | _ => cases hbreak
    · simpa using hnone _ htext
  rw [← List.filter_true (charsOf registry (tidyContent registry fresh owner false name content)),
    filter_chars_tidyContent hshow hsteady, h, List.filter_nil]

-- ----------------------------------------------------------------------------
-- Passages
-- ----------------------------------------------------------------------------

def name : Passage α → String
  | .call _ name _ _ => name
  | _ => ""

/-- What holds of every argument of the macros that are read in a passage. -/
def Throughout (P : String → String → List (Passage α) → Prop) (p : Passage α) : Prop :=
  ∀ q ∈ p.all, ∀ slot ∈ q.slots, P q.name slot.name slot.content

/-- When the content of an argument is arranged nothing goes that counts, and it has words that count
if it's the content of a link and has any. -/
structure Stable (keep : Char → Bool) (registry : Registry) (owner argument : String)
    (content : List (Passage α)) : Prop where
  steady : Steady keep registry owner content
  link : ∀ d, registry.get? owner = some d → d.rendering.links = true → argument = "content" →
    (charsOf registry content).filter keep = [] → charsOf registry content = []

theorem Throughout.of_slot {P : String → String → List (Passage α) → Prop} {mark : α} {name : String}
    {synthetic : Bool} {slots : List (Slot (Passage α))}
    (h : Throughout P (.call mark name synthetic slots)) {slot : Slot (Passage α)} (hslot : slot ∈ slots) :
    P name slot.name slot.content ∧ ∀ p ∈ slot.content, p.Throughout P := by
  refine ⟨h _ (mem_all_self _) slot hslot, fun p hp q hq => h q ?_⟩
  rw [all_eq]
  exact List.mem_cons_of_mem _ (List.mem_flatMap.mpr ⟨slot, hslot, mem_reading.mpr ⟨p, hp, hq⟩⟩)

/-- In what is put into a new macro no white space goes that counts. -/
theorem Steady.wrappable {name : String} (h : Steady keep registry owner content)
    (hfits : Wrappable registry owner False content members) : Steady keep registry name members := by
  rcases hfits with hbreak | hfalse | hasking
  · exact steady_of_space (h.space hbreak)
  · exact hfalse.elim
  · intro words hsheds
    rcases hsheds.mem with hbreak | ⟨mark, htext⟩
    · obtain ⟨b, hb, hbreak⟩ := List.any_eq_true.mp hbreak
      obtain ⟨container, hasks⟩ := hasking b hb
      cases b with
      | paragraphBreak => simp [container?] at hasks
      | _ => cases hbreak
    · obtain ⟨container, hasks⟩ := hasking _ htext
      cases hasks

theorem throughout_tidyContent (hshow : registry.Showing) (h : Steady keep registry owner content)
    (hcontent : ∀ p ∈ content, p.Throughout (Stable keep registry)) {name : String}
    (hp : p ∈ tidyContent registry fresh owner false name content) :
    p.Throughout (Stable keep registry) := by
  intro q hq slot hslot
  cases tidyContent_origin (mem_reading.mpr ⟨p, hp, hq⟩) with
  | written hq =>
    obtain ⟨first, hfirst, hq⟩ := mem_reading.mp hq
    exact hcontent first hfirst q hq slot hslot
  | text mark words => cases hslot
  | implied himplies himplied hfits =>
    obtain ⟨d, hd, -, rfl⟩ := implied?_eq himplied
    refine ⟨?_, fun d' hd' hlinks => ?_⟩
    · rcases mem_impliedSlots hslot with hempty | ⟨-, hmembers⟩
      · -- an empty text is all that may go
        rw [hempty]
        intro words hsheds
        rcases hsheds.mem with hbreak | ⟨mark, htext⟩
        · cases hbreak
        · cases List.mem_singleton.mp htext
          rfl
      · rw [Option.some.inj hmembers]
        exact h.wrappable (by simpa [Wrappable] using hfits)
    · rw [Rendering.links_of_showsContent (hshow _ d' himplies hd')] at hlinks
      cases hlinks

/-- An argument of a macro, and what stands in it when the macro is settled. -/
theorem charsAt_settled (registry : Registry) (fresh : α) (name : String) (depth : Nat)
    (slots : List (Slot (Passage α))) (argument : String) :
    let settled := slots.map fun slot =>
      (slot.tidy registry fresh name false).map (settle registry fresh depth false)
    charsAt registry slots argument = [] ∧ charsAt registry settled argument = [] ∨
      ∃ slot ∈ slots, slot.name = argument ∧
        charsAt registry slots argument = charsOf registry slot.content ∧
        charsAt registry settled argument =
          charsOf registry ((tidyContent registry fresh name false slot.name slot.content).map
            (settle registry fresh depth false)) := by
  intro settled
  rw [charsAt_eq, charsAt_eq, List.find?_map]
  cases hfound : slots.find? (·.name == argument) with
  | none =>
    have hnone : slots.find? ((·.name == argument) ∘ fun slot =>
        (slot.tidy registry fresh name false).map (settle registry fresh depth false)) = none := hfound
    rw [hnone]
    exact .inl ⟨rfl, rfl⟩
  | some slot =>
    have hsome : slots.find? ((·.name == argument) ∘ fun slot =>
        (slot.tidy registry fresh name false).map (settle registry fresh depth false)) = some slot := hfound
    rw [hsome]
    exact .inr ⟨slot, List.mem_of_find?_eq_some hfound, by simpa using List.find?_some hfound, rfl, rfl⟩

/-- Where nothing is read in an argument, nothing is read in what it becomes. -/
theorem charsOf_settled_eq_nil (hshow : registry.Showing) {f : Passage α → Passage α}
    (hf : ∀ q, q.chars registry = [] → (f q).chars registry = [])
    (h : charsOf registry content = []) (name : String) :
    charsOf registry ((tidyContent registry fresh owner false name content).map f) = [] := by
  have htidied : charsOf registry (tidyContent registry fresh owner false name content) = [] :=
    charsOf_tidyContent_eq_nil hshow h name
  exact charsOf_eq_nil.mpr (List.forall_mem_map.mpr fun q hq => hf q (charsOf_eq_nil.mp htidied q hq))

theorem chars_settle_eq_nil (hshow : registry.Showing) (depth : Nat) (h : p.chars registry = []) :
    (p.settle registry fresh depth false).chars registry = [] := by
  induction depth generalizing p with
  | zero => exact h
  | succ depth ih =>
    cases p with
    | call mark name synthetic slots =>
      rw [settle_call, chars_call]
      rw [chars_call] at h
      cases hd : registry.get? name with
      | none => rfl
      | some d =>
        rw [hd] at h
        refine Rendering.chars_eq_nil h fun argument hargument => ?_
        rcases charsAt_settled registry fresh name depth slots argument with
          ⟨-, hnone⟩ | ⟨slot, -, -, hread, hsettled⟩
        · exact hnone
        · rw [hsettled]
          exact charsOf_settled_eq_nil hshow (fun q => ih) (hread ▸ hargument) slot.name
    | _ => exact h

/-- An argument keeps all characters that count if they are kept in all that stands in it. -/
theorem filter_charsOf_settled (hshow : registry.Showing) {f : Passage α → Passage α}
    (hf : ∀ q, q.Throughout (Stable keep registry) →
      ((f q).chars registry).filter keep = (q.chars registry).filter keep)
    (h : Steady keep registry owner content)
    (hcontent : ∀ p ∈ content, p.Throughout (Stable keep registry)) (name : String) :
    (charsOf registry ((tidyContent registry fresh owner false name content).map f)).filter keep =
      (charsOf registry content).filter keep := by
  have htidied : (charsOf registry (tidyContent registry fresh owner false name content)).filter keep =
      (charsOf registry content).filter keep := filter_chars_tidyContent hshow h name
  rw [← htidied]
  exact filter_charsOf_congr fun q hq => hf q (throughout_tidyContent hshow h hcontent hq)

/-- Settling keeps all characters but those of the white space that may go. -/
theorem filter_chars_settle (hshow : registry.Showing) (depth : Nat)
    (h : p.Throughout (Stable keep registry)) :
    ((p.settle registry fresh depth false).chars registry).filter keep =
      (p.chars registry).filter keep := by
  induction depth generalizing p with
  | zero => rfl
  | succ depth ih =>
    cases p with
    | call mark name synthetic slots =>
      rw [settle_call, chars_call, chars_call]
      cases hd : registry.get? name with
      | none => rfl
      | some d =>
        have hslots : ∀ slot ∈ slots, (charsOf registry
            ((tidyContent registry fresh name false slot.name slot.content).map
              (settle registry fresh depth false))).filter keep =
              (charsOf registry slot.content).filter keep := by
          intro slot hslot
          obtain ⟨hstable, hcontent⟩ := h.of_slot hslot
          exact filter_charsOf_settled hshow (fun q => ih) hstable.steady hcontent slot.name
        refine Rendering.filter_chars (fun argument => ?_) fun hlinks => ?_
        · rcases charsAt_settled registry fresh name depth slots argument with
            ⟨hread, hsettled⟩ | ⟨slot, hslot, -, hread, hsettled⟩
          · rw [hread, hsettled]
          · rw [hread, hsettled]
            exact hslots slot hslot
        · rcases charsAt_settled registry fresh name depth slots "content" with
            ⟨hread, hsettled⟩ | ⟨slot, hslot, hname, hread, hsettled⟩
          · rw [hread, hsettled]
          · rw [hread, hsettled]
            refine ⟨fun hnil => ?_, fun hnil => ?_⟩
            · refine (h.of_slot hslot).1.link d hd hlinks hname ?_
              rw [← hslots slot hslot, hnil, List.filter_nil]
            · exact charsOf_settled_eq_nil hshow (fun q => chars_settle_eq_nil hshow depth) hnil _
    | _ => rfl

/-- The same of one argument of a macro. -/
theorem filter_charsAt_settle (hshow : registry.Showing) (depth : Nat) {mark : α} {name argument : String}
    {synthetic : Bool} {slots : List (Slot (Passage α))}
    (h : ∀ slot ∈ slots, slot.name = argument → Steady keep registry name slot.content ∧
      ∀ p ∈ slot.content, p.Throughout (Stable keep registry)) :
    (charsAt registry (settle registry fresh depth false (.call mark name synthetic slots)).slots
      argument).filter keep = (charsAt registry slots argument).filter keep := by
  cases depth with
  | zero => rfl
  | succ depth =>
    rw [settle_call, Passage.slots]
    rcases charsAt_settled registry fresh name depth slots argument with
      ⟨hread, hsettled⟩ | ⟨slot, hslot, hname, hread, hsettled⟩
    · rw [hread, hsettled]
    · obtain ⟨hsteady, hcontent⟩ := h slot hslot hname
      rw [hread, hsettled]
      exact filter_charsOf_settled hshow (fun q => filter_chars_settle hshow depth) hsteady hcontent _

end Passage

end Macromark

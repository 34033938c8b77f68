import Macromark.Proofs.Assembly.Settling
import Mathlib.Data.List.TakeWhile

/-!
# What settling does to the words

Read in their order, the nodes of a settled passage are those of the passage
itself, without some breaks and blank texts, with new nodes between them, and
with line ends taken off the texts (`Passage.thins_settle`). `Thins` says so of
two readings; it is closed under composition, so that every step of the
arrangement is looked at on its own.
-/

namespace Macromark

/-- Only line ends have been taken off the edges of a text. -/
def Trimmed (written kept : String) : Prop :=
  ∃ front back, (∀ c ∈ front ++ back, c = '\n') ∧
    written.toList = front ++ kept.toList ++ back

theorem Trimmed.refl (text : String) : Trimmed text text := ⟨[], [], by simp, by simp⟩

theorem Trimmed.trans {written middle kept : String} (h : Trimmed written middle)
    (h' : Trimmed middle kept) : Trimmed written kept := by
  obtain ⟨front, back, hends, hwritten⟩ := h
  obtain ⟨front', back', hends', hmiddle⟩ := h'
  refine ⟨front ++ front', back' ++ back, fun c hc => ?_, by rw [hwritten, hmiddle]; simp⟩
  simp only [List.mem_append] at hc hends hends'
  rcases hc with (hc | hc) | (hc | hc)
  · exact hends c (.inl hc)
  · exact hends' c (.inl hc)
  · exact hends' c (.inr hc)
  · exact hends c (.inr hc)

theorem isSpace_newline : Text.isSpace '\n' = true := by decide

theorem Trimmed.isBlank {written kept : String} (h : Trimmed written kept)
    (hblank : Text.isBlank kept = true) : Text.isBlank written = true := by
  obtain ⟨front, back, hends, hwritten⟩ := h
  have hline : ∀ c ∈ front ++ back, Text.isSpace c = true := by
    intro c hc
    rw [hends c hc]
    exact isSpace_newline
  simp only [Text.isBlank, List.all_eq_true] at hblank ⊢
  intro c hc
  rw [hwritten] at hc
  simp only [List.mem_append] at hc hline
  rcases hc with (hc | hc) | hc
  · exact hline c (.inl hc)
  · exact hblank c hc
  · exact hline c (.inr hc)

namespace Passage

variable {α : Type} {registry : Registry} {fresh : α} {p q r : Passage α}
variable {ps qs rs ps' qs' : List (Passage α)}

/-- A node that may be left out: a paragraph break, or a blank text. -/
def Idle (p : Passage α) : Prop := p.isBreak = true ∨ p.isBlank = true

/-- One node is the other, with other contents, or with line ends taken off its text. -/
inductive Retouched : Passage α → Passage α → Prop
  | text {mark : α} {written kept : String} : Trimmed written kept →
      Retouched (.text mark written) (.text mark kept)
  | paragraphBreak {mark : α} : Retouched (.paragraphBreak mark) (.paragraphBreak mark)
  | error {mark : α} {message : String} : Retouched (.error mark message) (.error mark message)
  | call {mark : α} {name : String} {synthetic : Bool} {slots slots' : List (Slot (Passage α))} :
      Retouched (.call mark name synthetic slots) (.call mark name synthetic slots')

theorem Retouched.refl (p : Passage α) : Retouched p p := by
  cases p with
  | text => exact .text (.refl _)
  | paragraphBreak => exact .paragraphBreak
  | error => exact .error
  | call => exact .call

theorem Retouched.trans (h : Retouched p q) (h' : Retouched q r) : Retouched p r := by
  cases h with
  | text h => cases h' with | text h' => exact .text (h.trans h')
  | paragraphBreak => exact h'
  | error => exact h'
  | call => cases h' with | call => exact .call

theorem Retouched.mark (h : Retouched p q) : q.mark = p.mark := by cases h <;> rfl

theorem Retouched.idle (h : Retouched p q) (hidle : q.Idle) : p.Idle := by
  cases h with
  | text h => exact hidle.imp id h.isBlank
  | paragraphBreak => exact hidle
  | error => exact hidle
  | call => exact hidle

/-- A node that was not there before, and stands for nothing that could not be read. -/
structure New (fresh : α) (p : Passage α) : Prop where
  mark : p.mark = fresh
  readable : ∀ mark message, p ≠ .error mark message

theorem New.retouched (h : p.New fresh) (hp : Retouched p q) : q.New fresh := by
  refine ⟨hp.mark.trans h.mark, ?_⟩
  rintro mark message rfl
  cases hp
  exact h.readable _ _ rfl

/-- From one reading to another idle nodes are left out and new nodes put in. -/
inductive Thins (fresh : α) : List (Passage α) → List (Passage α) → Prop
  | nil : Thins fresh [] []
  | keep {p q : Passage α} {ps qs : List (Passage α)} : Retouched p q → Thins fresh ps qs →
      Thins fresh (p :: ps) (q :: qs)
  | drop {p : Passage α} {ps qs : List (Passage α)} : p.Idle → Thins fresh ps qs →
      Thins fresh (p :: ps) qs
  | insert {q : Passage α} {ps qs : List (Passage α)} : q.New fresh → Thins fresh ps qs →
      Thins fresh ps (q :: qs)

namespace Thins

theorem refl (ps : List (Passage α)) : Thins fresh ps ps := by
  induction ps with
  | nil => exact .nil
  | cons p ps ih => exact .keep (.refl p) ih

theorem append (h : Thins fresh ps qs) (h' : Thins fresh ps' qs') :
    Thins fresh (ps ++ ps') (qs ++ qs') := by
  induction h with
  | nil => exact h'
  | keep hp _ ih => exact .keep hp ih
  | drop hp _ ih => exact .drop hp ih
  | insert hq _ ih => exact .insert hq ih

theorem trans (h : Thins fresh ps qs) (h' : Thins fresh qs rs) : Thins fresh ps rs := by
  induction h generalizing rs with
  | nil => exact h'
  | drop hp _ ih => exact .drop hp (ih h')
  | @keep p q ps qs hp hrest ih =>
    -- new nodes of the second step stand in front of the node
    generalize hfirst : q :: qs = first at h'
    induction h' with
    | nil => cases hfirst
    | keep hq h' _ =>
      cases hfirst
      exact .keep (hp.trans hq) (ih h')
    | drop hq h' _ =>
      cases hfirst
      exact .drop (hp.idle hq) (ih h')
    | insert hr _ ihs => exact .insert hr (ihs hfirst)
  | @insert q ps qs hq hrest ih =>
    generalize hfirst : q :: qs = first at h'
    induction h' with
    | nil => cases hfirst
    | keep hr h' _ =>
      cases hfirst
      exact .insert (hq.retouched hr) (ih h')
    | drop hr h' _ =>
      cases hfirst
      exact ih h'
    | insert hr _ ihs => exact .insert hr (ihs hfirst)

theorem flatMap {β : Type} {items : List β} {f g : β → List (Passage α)}
    (h : ∀ item ∈ items, Thins fresh (f item) (g item)) :
    Thins fresh (items.flatMap f) (items.flatMap g) := by
  induction items with
  | nil => exact .nil
  | cons item items ih =>
    exact (h item List.mem_cons_self).append (ih fun item hitem => h item (List.mem_cons_of_mem _ hitem))

theorem kept (h : Thins fresh ps qs) (hp : p ∈ ps) : p.Idle ∨ ∃ q ∈ qs, Retouched p q := by
  induction h with
  | nil => simp at hp
  | @keep p' q ps qs hretouched _ ih =>
    rcases List.mem_cons.mp hp with rfl | hp
    · exact .inr ⟨q, List.mem_cons_self, hretouched⟩
    · exact (ih hp).imp_right fun ⟨q, hq, h⟩ => ⟨q, List.mem_cons_of_mem _ hq, h⟩
  | drop hidle _ ih =>
    rcases List.mem_cons.mp hp with rfl | hp
    · exact .inl hidle
    · exact ih hp
  | insert _ _ ih => exact (ih hp).imp_right fun ⟨q, hq, h⟩ => ⟨q, List.mem_cons_of_mem _ hq, h⟩

theorem origin (h : Thins fresh ps qs) (hq : q ∈ qs) : q.New fresh ∨ ∃ p ∈ ps, Retouched p q := by
  induction h with
  | nil => simp at hq
  | @keep p q' ps qs hretouched _ ih =>
    rcases List.mem_cons.mp hq with rfl | hq
    · exact .inr ⟨p, List.mem_cons_self, hretouched⟩
    · exact (ih hq).imp_right fun ⟨p, hp, h⟩ => ⟨p, List.mem_cons_of_mem _ hp, h⟩
  | drop _ _ ih => exact (ih hq).imp_right fun ⟨p, hp, h⟩ => ⟨p, List.mem_cons_of_mem _ hp, h⟩
  | insert hnew _ ih =>
    rcases List.mem_cons.mp hq with rfl | hq
    · exact .inl hnew
    · exact ih hq

theorem sublist [DecidableEq α] (h : Thins fresh ps qs) :
    ((qs.map mark).filter (· ≠ fresh)).Sublist (ps.map mark) := by
  induction h with
  | nil => exact .refl _
  | @keep p q ps qs hretouched _ ih =>
    rw [List.map_cons, List.map_cons, hretouched.mark, List.filter_cons]
    split
    · exact ih.cons_cons _
    · exact ih.cons _
  | drop _ _ ih => exact ih.cons _
  | insert hnew _ ih => simpa [hnew.mark] using ih

end Thins
-- ----------------------------------------------------------------------------
-- New macros
-- ----------------------------------------------------------------------------

/-- All that is read in some passages. -/
def reading (ps : List (Passage α)) : List (Passage α) := ps.flatMap all

@[simp] theorem reading_nil : reading ([] : List (Passage α)) = [] := rfl

@[simp] theorem reading_cons (p : Passage α) (ps : List (Passage α)) :
    reading (p :: ps) = p.all ++ reading ps := rfl

@[simp] theorem reading_append (ps qs : List (Passage α)) :
    reading (ps ++ qs) = reading ps ++ reading qs := List.flatMap_append

theorem all_of_idle (h : p.Idle) : p.all = [p] := by
  cases p <;> simp [Idle, isBreak, isBlank] at h <;> simp [all]

theorem thins_filter (keep : Passage α → Bool) (h : ∀ p ∈ ps, keep p = false → p.Idle) :
    Thins fresh (reading ps) (reading (ps.filter keep)) := by
  induction ps with
  | nil => exact .nil
  | cons p ps ih =>
    have hrest := ih fun q hq => h q (List.mem_cons_of_mem _ hq)
    rw [List.filter_cons]
    split
    · exact (Thins.refl p.all).append hrest
    · next hkeep =>
      have hidle := h p List.mem_cons_self (by simpa using hkeep)
      rw [reading_cons, all_of_idle hidle]
      exact .drop hidle hrest

def readingOf (slots : List (Slot (Passage α))) : List (Passage α) :=
  slots.flatMap fun slot => reading slot.content

theorem thins_padding (fresh : α) (name : String) (supplied : Bool)
    {slots : List (Slot (Passage α))}
    (h : Thins fresh ps (readingOf slots)) :
    Thins fresh ps (readingOf (⟨name, supplied, [.text fresh ""]⟩ :: slots)) := by
  have hpadding : reading [.text fresh ""] = [(.text fresh "" : Passage α)] := by
    simp [reading, all]
  rw [readingOf, List.flatMap_cons, hpadding]
  exact .insert ⟨rfl, by simp⟩ h

theorem thins_impliedSlots_none (fresh : α) (names : List String) :
    Thins fresh [] (readingOf (impliedSlots fresh names none)) := by
  induction names with
  | nil => exact .nil
  | cons name names ih =>
    rw [impliedSlots]
    simp only [ite_self]
    exact thins_padding fresh name _ ih

/-- The content stands in one of the arguments, and the others hold empty texts. -/
theorem thins_impliedSlots {names : List String} (hnames : "content" ∈ names)
    (content : List (Passage α)) :
    Thins fresh (reading content) (readingOf (impliedSlots fresh names (some content))) := by
  induction names with
  | nil => simp at hnames
  | cons name names ih =>
    rw [impliedSlots]
    by_cases hname : name = "content"
    · simp only [hname, if_true]
      cases content with
      | nil => exact thins_padding fresh _ _ (thins_impliedSlots_none fresh names)
      | cons p ps =>
        have hrest := (Thins.refl (reading (p :: ps))).append
          (thins_impliedSlots_none fresh names)
        rwa [List.append_nil] at hrest
    · simp only [hname, if_false]
      exact thins_padding fresh _ _ (ih ((List.mem_cons.mp hnames).resolve_left (Ne.symm hname)))

theorem thins_implied {name : String} (h : implied? registry fresh name ps = some q) :
    Thins fresh (reading ps) q.all := by
  unfold implied? at h
  split at h
  · simp at h
  · next definition _ =>
    split at h
    · next hdeclares =>
      cases h
      rw [all_eq]
      exact .insert ⟨rfl, by simp⟩ (thins_impliedSlots (MacroDef.declares_iff.mp hdeclares) ps)
    · simp at h

-- ----------------------------------------------------------------------------
-- Containers
-- ----------------------------------------------------------------------------

theorem rowBehind_front (isMember blank : Passage α → Bool) (rest : List (Passage α)) :
    rowBehind isMember blank rest <+: rest ∧
      ∀ p ∈ rowBehind isMember blank rest, isMember p = true ∨ blank p = true := by
  have hfront : rowBehind isMember blank rest <+: rest.takeWhile fun p => isMember p || blank p := by
    rw [← List.reverse_suffix, rowBehind, Text.dropEnd, List.reverse_reverse]
    exact List.dropWhile_suffix _
  refine ⟨hfront.trans (List.takeWhile_prefix _), fun p hp => ?_⟩
  have hmem := List.mem_takeWhile_imp (hfront.subset hp)
  simpa using hmem

theorem thins_gatherRows (registry : Registry) (fresh : α) (owner : String)
    (ps : List (Passage α)) :
    Thins fresh (reading ps) (reading (gatherRows registry fresh owner ps)) := by
  fun_induction gatherRows registry fresh owner ps with
  | case1 => exact .nil
  | case2 p rest _ ih => exact (Thins.refl p.all).append ih
  | case3 p rest _ _ _ _ _ ih => exact (Thins.refl p.all).append ih
  | case4 p rest container _ isMember row _ wrapper hwrapper ih =>
    obtain ⟨⟨behind, hbehind⟩, hrow⟩ := rowBehind_front isMember isBlank rest
    have hdrop : rest.drop row.length = behind := by rw [← hbehind]; exact List.drop_left
    rw [hdrop] at ih ⊢
    have hmembers : Thins fresh (reading (p :: row)) (reading (p :: row.filter isMember)) :=
      (Thins.refl p.all).append (thins_filter isMember fun q hq hnot =>
        .inr ((hrow q hq).resolve_left (by simp [hnot])))
    have hwrapped := (hmembers.trans (thins_implied hwrapper)).append ih
    rwa [← reading_append, List.cons_append, hbehind] at hwrapped
  | case5 p rest container _ isMember row _ _ ih =>
    obtain ⟨⟨behind, hbehind⟩, -⟩ := rowBehind_front isMember isBlank rest
    have hdrop : rest.drop row.length = behind := by rw [← hbehind]; exact List.drop_left
    rw [hdrop] at ih ⊢
    have hstays := (Thins.refl (reading (p :: row))).append ih
    rwa [← reading_append, ← reading_append, List.cons_append, hbehind] at hstays

theorem thins_gather (registry : Registry) (fresh : α) (owner : String) (ps : List (Passage α)) :
    Thins fresh (reading ps) (reading (gather registry fresh owner ps)) := by
  unfold gather
  split
  · refine Thins.trans (thins_filter _ fun p _ hkeep => ?_) (thins_gatherRows registry fresh owner _)
    exact .inr (by simpa using hkeep)
  · exact thins_gatherRows registry fresh owner ps

-- ----------------------------------------------------------------------------
-- Paragraphs
-- ----------------------------------------------------------------------------

/-- A cut takes line ends off, and nothing else. -/
def CutsLines (cut : List Char → List Char) : Prop :=
  ∀ cs, ∃ front back, (∀ c ∈ front ++ back, c = '\n') ∧ cs = front ++ cut cs ++ back

theorem eq_newline {c : Char} {cs : List Char} (h : c ∈ cs.takeWhile isNewline) : c = '\n' := by
  have hline : isNewline c = true := List.mem_takeWhile_imp h
  simpa [isNewline] using hline

theorem cutsLines_dropWhile : CutsLines (·.dropWhile isNewline) := by
  intro cs
  exact ⟨cs.takeWhile isNewline, [], fun c hc => eq_newline (by simpa using hc), by simp⟩

theorem cutsLines_dropEnd : CutsLines (Text.dropEnd isNewline) := by
  intro cs
  refine ⟨[], (cs.reverse.takeWhile isNewline).reverse, fun c hc => ?_, ?_⟩
  · rw [List.nil_append, List.mem_reverse] at hc
    exact eq_newline hc
  · rw [Text.dropEnd, List.nil_append, ← List.reverse_append, List.takeWhile_append_dropWhile,
      List.reverse_reverse]

theorem CutsLines.trimmed {cut : List Char → List Char} (h : CutsLines cut) (text : String) :
    Trimmed text (.ofList (cut text.toList)) := by
  obtain ⟨front, back, hends, hcut⟩ := h text.toList
  exact ⟨front, back, hends, by simpa using hcut⟩

/-- Blank texts go, and then one text is cut. -/
theorem trimFront_cases {cut : List Char → List Char} (hcut : CutsLines cut)
    (ps : List (Passage α)) :
    ∃ dropped rest, ps = dropped ++ rest ∧ (∀ p ∈ dropped, p.Idle) ∧
      (trimFront cut ps = rest ∨ ∃ mark written kept others, Trimmed written kept ∧
        rest = .text mark written :: others ∧ trimFront cut ps = .text mark kept :: others) := by
  fun_induction trimFront cut ps with
  | case1 => exact ⟨[], [], rfl, by simp, .inl rfl⟩
  | case2 mark words rest hempty ih =>
    obtain ⟨dropped, behind, rfl, hidle, hresult⟩ := ih
    refine ⟨.text mark words :: dropped, behind, rfl, fun p hp => ?_, hresult⟩
    rcases List.mem_cons.mp hp with rfl | hp
    · refine .inr ((hcut.trimmed words).isBlank ?_)
      rw [hempty]
      rfl
    · exact hidle p hp
  | case3 mark words rest =>
    exact ⟨[], _, rfl, by simp, .inr ⟨mark, words, _, rest, hcut.trimmed words, rfl, rfl⟩⟩
  | case4 p rest _ => exact ⟨[], _, rfl, by simp, .inl rfl⟩

theorem thins_of_idle (h : ∀ p ∈ ps, p.Idle) : Thins fresh (reading ps) [] := by
  simpa using thins_filter (fun _ => false) fun p hp _ => h p hp

theorem all_text (mark : α) (words : String) :
    (Passage.text mark words).all = [.text mark words] := by
  simp [all]

/-- Cutting a row at its front, or at its back where the row is read backwards. -/
theorem thins_trimFront (fresh : α) {cut : List Char → List Char} (hcut : CutsLines cut)
    (ps : List (Passage α)) :
    Thins fresh (reading ps) (reading (trimFront cut ps)) ∧
      Thins fresh (reading ps.reverse) (reading (trimFront cut ps).reverse) := by
  obtain ⟨dropped, rest, rfl, hidle, hresult⟩ := trimFront_cases hcut ps
  have hfront : Thins fresh (reading dropped) [] := thins_of_idle hidle
  have hback : Thins fresh (reading dropped.reverse) [] :=
    thins_of_idle fun p hp => hidle p (List.mem_reverse.mp hp)
  rcases hresult with hresult | ⟨mark, written, kept, others, htrimmed, rfl, hresult⟩
  · rw [hresult, List.reverse_append, reading_append, reading_append]
    exact ⟨hfront.append (.refl _), by simpa using (Thins.refl (reading rest.reverse)).append hback⟩
  · have htext : ∀ others : List (Passage α), Thins fresh (reading (.text mark written :: others))
        (reading (.text mark kept :: others)) := by
      intro others
      rw [reading_cons, reading_cons, all_text, all_text]
      exact .keep (.text htrimmed) (.refl _)
    rw [hresult, List.reverse_append, List.reverse_cons, List.reverse_cons, reading_append,
      reading_append, reading_append, reading_append]
    refine ⟨hfront.append (htext others), ?_⟩
    simpa using ((Thins.refl (reading others.reverse)).append (htext [])).append hback

theorem thins_trimChunk (fresh : α) (ps : List (Passage α)) :
    Thins fresh (reading ps) (reading (trimChunk ps)) := by
  have hfront := (thins_trimFront fresh cutsLines_dropWhile ps).1
  have hback := (thins_trimFront fresh cutsLines_dropEnd
    (trimFront (·.dropWhile isNewline) ps).reverse).2
  rw [List.reverse_reverse] at hback
  exact hfront.trans hback

theorem thins_wrapChunk (registry : Registry) (fresh : α) (ps : List (Passage α)) :
    Thins fresh (reading ps) (reading (wrapChunk registry fresh ps)) := by
  refine (thins_trimChunk fresh ps).trans ?_
  unfold wrapChunk
  split
  · next hnil => rw [hnil]; exact .nil
  · next first rest hchunk =>
    rw [hchunk]
    split
    · split
      · next paragraph himplied => simpa using thins_implied himplied
      · exact .refl _
    · exact .refl _

theorem flatten_chunks (ps : List (Passage α)) : (chunks ps).flatten = ps.filter (!·.isBreak) := by
  induction ps with
  | nil => rfl
  | cons p rest ih =>
    unfold chunks
    cases hbreak : p.isBreak with
    | true => simp [hbreak, ih]
    | false => cases hchunks : chunks rest <;> simp [hchunks, hbreak] at ih ⊢ <;> exact ih

theorem thins_insertParagraphs (registry : Registry) (fresh : α) (ps : List (Passage α)) :
    Thins fresh (reading ps) (reading (insertParagraphs registry fresh ps)) := by
  have hbreaks : Thins fresh (reading ps) (reading (chunks ps).flatten) := by
    rw [flatten_chunks]
    exact thins_filter _ fun p _ hkeep => .inl (by simpa using hkeep)
  have hwrapped : Thins fresh (reading (chunks ps).flatten)
      (reading (insertParagraphs registry fresh ps)) := by
    rw [reading, reading, insertParagraphs, ← List.flatMap_id, List.flatMap_assoc, List.flatMap_assoc]
    exact .flatMap fun chunk _ => thins_wrapChunk registry fresh chunk
  exact hbreaks.trans hwrapped

-- ----------------------------------------------------------------------------
-- The whole passage
-- ----------------------------------------------------------------------------

theorem thins_tidyContent (registry : Registry) (fresh : α) (owner : String) (isRoot : Bool)
    (name : String) (ps : List (Passage α)) :
    Thins fresh (reading ps) (reading (tidyContent registry fresh owner isRoot name ps)) := by
  unfold tidyContent
  simp only
  split
  · exact (thins_gather registry fresh owner ps).trans (thins_insertParagraphs registry fresh _)
  · exact thins_gather registry fresh owner ps

theorem thins_tidy (registry : Registry) (fresh : α) (isRoot : Bool) (p : Passage α) :
    Thins fresh p.all (p.tidy registry fresh isRoot).all := by
  cases p with
  | call mark name synthetic slots =>
    rw [tidy, all_eq, all_eq, Passage.slots, Passage.slots, List.flatMap_map]
    refine .keep .call (.flatMap fun slot _ => ?_)
    exact thins_tidyContent registry fresh name isRoot slot.name slot.content
  | _ => exact .refl _

theorem thins_mapContent {f : Passage α → Passage α}
    (h : ∀ p : Passage α, Thins fresh p.all (f p).all)
    (p : Passage α) : Thins fresh p.all (p.mapContent f).all := by
  cases p with
  | call mark name synthetic slots =>
    rw [mapContent, all_eq, all_eq, Passage.slots, Passage.slots, List.flatMap_map]
    refine .keep .call (.flatMap fun slot _ => ?_)
    rw [Slot.map, List.flatMap_map]
    exact .flatMap fun p _ => h p
  | _ => exact .refl _

/-- Settling leaves nothing out but what is idle, and keeps the order. -/
theorem thins_settle (registry : Registry) (fresh : α) (depth : Nat) (isRoot : Bool)
    (p : Passage α) :
    Thins fresh p.all (p.settle registry fresh depth isRoot).all := by
  induction depth generalizing isRoot p with
  | zero => exact .refl _
  | succ depth ih =>
    exact (thins_tidy registry fresh isRoot p).trans (thins_mapContent (ih false) _)

end Passage
end Macromark

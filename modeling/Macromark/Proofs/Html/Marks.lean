import Macromark.Proofs.Html.Balance
import Mathlib.Data.List.Infix
import Mathlib.Data.List.TakeWhile

/-!
# Where the marks of errors come from

A mark is a span, and nothing else that is written looks like one: brackets are
escaped in text, and no macro is rendered as a span (`Unmarked.spanless`). So a
mark stands in the output only if something was wrong: an error node, a link
or an inclusion without a target, or what rendering itself has reported
(`RenderContext.not_marked_renderDocument`).
-/

namespace Macromark

namespace Html

def Marked (output : String) : Prop :=
  "<span class=\"error-message\">".toList <:+: output.toList

instance (output : String) : Decidable (Marked output) := by unfold Marked; infer_instance

-- ----------------------------------------------------------------------------
-- Brackets
-- ----------------------------------------------------------------------------

/-- A whole name stands behind a bracket, and it is not that of a span. -/
def NamesOther (behind : List Char) : Prop :=
  behind.dropWhile (·.isAlphanum) ≠ [] ∧ behind.takeWhile (·.isAlphanum) ≠ "span".toList

instance (behind : List Char) : Decidable (NamesOther behind) := by
  unfold NamesOther; infer_instance

/-- No bracket begins a span. -/
inductive Spanless : List Char → Prop
  | nil : Spanless []
  | cons {c : Char} {rest : List Char} : (c = '<' → NamesOther rest) → Spanless rest →
      Spanless (c :: rest)

theorem spanless_cons {c : Char} {rest : List Char} :
    Spanless (c :: rest) ↔ (c = '<' → NamesOther rest) ∧ Spanless rest :=
  ⟨fun | .cons hc hrest => ⟨hc, hrest⟩, fun h => .cons h.1 h.2⟩

instance decidableSpanless : (cs : List Char) → Decidable (Spanless cs)
  | [] => .isTrue .nil
  | _ :: rest =>
    have := decidableSpanless rest
    decidable_of_iff _ spanless_cons.symm

variable {cs first second : List Char}

theorem NamesOther.append (h : NamesOther first) (second : List Char) :
    NamesOther (first ++ second) := by
  obtain ⟨hbehind, hname⟩ := h
  obtain ⟨c, rest, hrest⟩ := List.exists_cons_of_ne_nil hbehind
  refine ⟨by simp [List.dropWhile_append, hrest], ?_⟩
  have hlt : (first.takeWhile (·.isAlphanum)).length ≠ first.length := by
    intro heq
    have hlength := congrArg List.length (List.takeWhile_append_dropWhile (p := (·.isAlphanum)) (l := first))
    rw [List.length_append, heq, hrest] at hlength
    simp at hlength
  rwa [List.takeWhile_append, if_neg hlt]

theorem spanless_of_not_mem (h : '<' ∉ cs) : Spanless cs := by
  induction cs with
  | nil => exact .nil
  | cons c rest ih =>
    rw [List.mem_cons, not_or] at h
    exact .cons (fun heq => absurd heq.symm h.1) (ih h.2)

theorem Spanless.append (h : Spanless first) (h' : Spanless second) :
    Spanless (first ++ second) := by
  induction h with
  | nil => exact h'
  | cons hc _ ih => exact .cons (fun heq => (hc heq).append second) ih

theorem Spanless.written {a b : String} (h : Spanless a.toList) (h' : Spanless b.toList) :
    Spanless (a ++ b).toList := by
  rw [String.toList_append]
  exact h.append h'

/-- The tag of an element that is no span, up to its name. -/
theorem Spanless.tag {tag : List Char} {c : Char} {rest : List Char} (hname : IsName tag)
    (hother : tag ≠ "span".toList) (hc : c.isAlphanum = false) (hrest : Spanless (c :: rest)) :
    Spanless ('<' :: (tag ++ c :: rest)) := by
  have hbracket : '<' ∉ tag := fun hmem => absurd (hname.2 _ hmem) (by decide)
  refine .cons (fun _ => ⟨?_, ?_⟩) ((spanless_of_not_mem hbracket).append hrest)
  · rw [List.dropWhile_append_of_pos hname.2]
    simp [hc]
  · rw [List.takeWhile_append_of_pos hname.2]
    simpa [hc] using hother

theorem Spanless.not_marked {output : String} (h : Spanless output.toList) : ¬ Marked output := by
  rintro ⟨front, back, hmarked⟩
  have hspan : ∀ front : List Char, ∀ behind, Spanless (front ++ '<' :: behind) → NamesOther behind := by
    intro front behind h
    induction front with
    | nil => exact (spanless_cons.mp h).1 rfl
    | cons c rest ih => exact ih (spanless_cons.mp h).2
  have hbegins : "<span class=\"error-message\">".toList =
      '<' :: ("span".toList ++ " class=\"error-message\">".toList) := rfl
  have hname : ∀ c ∈ "span".toList, c.isAlphanum = true := List.all_eq_true.mp (by decide)
  rw [← hmarked, hbegins, List.append_assoc, List.cons_append, List.append_assoc] at h
  refine (hspan front _ h).2 ?_
  rw [List.takeWhile_append_of_pos hname]
  exact List.append_nil _

-- ----------------------------------------------------------------------------
-- Trees
-- ----------------------------------------------------------------------------

/-- The name of an element that is no mark. -/
def OtherTag (tag : String) : Prop := IsName tag.toList ∧ tag ≠ "span"

instance (tag : String) : Decidable (OtherTag tag) := by unfold OtherTag; infer_instance

def Attribute.Closed (a : Attribute) : Prop := '<' ∉ a.write.toList

/-- No mark stands in the tree. -/
inductive Unmarked : Html → Prop
  | text (s : String) : Unmarked (.text s)
  | void (tag : String) (attributes : List Attribute) : OtherTag tag →
      (∀ a ∈ attributes, a.Closed) → Unmarked (.void tag attributes)
  | element (tag : String) (attributes : List Attribute) (content : List Html) : OtherTag tag →
      (∀ a ∈ attributes, a.Closed) → (∀ h ∈ content, Unmarked h) →
      Unmarked (.element tag attributes content)

theorem escapeTextChar_closed (c : Char) : '<' ∉ escapeTextChar c := by
  rcases escapeTextChar_cases c with he | ⟨hc, hwritten⟩
  · exact (by decide : ∀ e ∈ entities, '<' ∉ e) _ he
  · rw [hwritten, List.mem_singleton]
    exact fun heq => hc.1 heq.symm

theorem escapeText_closed (s : String) : '<' ∉ (escapeText s).toList := by
  simp [escapeText, escapeTextChar_closed]

theorem escapeAttribute_closed (s : String) : '<' ∉ (escapeAttribute s).toList := by
  have hchar : ∀ c, '<' ∉ escapeAttributeChar c := by
    intro c
    unfold escapeAttributeChar
    split
    · decide
    · exact escapeTextChar_closed c
  simp [escapeAttribute, hchar]

theorem Attribute.closed {a : Attribute} (hname : '<' ∉ a.name.toList)
    (hwritten : '<' ∉ a.written.toList) : a.Closed := by
  simpa [Closed, write, toString] using ⟨hname, hwritten⟩

theorem Attribute.closed_of (name value : String) (h : '<' ∉ name.toList) :
    (Attribute.of name value).Closed := closed h (escapeAttribute_closed value)

theorem spanless_openingTag {tag : String} (htag : OtherTag tag) {attributes : List Attribute}
    (ha : ∀ a ∈ attributes, a.Closed) : Spanless (openingTag tag attributes).toList := by
  have hother : tag.toList ≠ "span".toList := fun heq => htag.2 (String.toList_inj.mp heq)
  have hclosed : '<' ∉ (String.join (attributes.map Attribute.write)).toList := by
    rw [String.toList_join, List.flatMap_map, List.mem_flatMap]
    rintro ⟨a, hmem, hbracket⟩
    exact ha a hmem hbracket
  -- behind the name comes a blank, or the end of the tag
  have hbehind : ∃ c rest, (String.join (attributes.map Attribute.write)).toList ++ ['>'] = c :: rest ∧
      c.isAlphanum = false := by
    cases attributes with
    | nil => exact ⟨'>', [], rfl, by decide⟩
    | cons a attributes => exact ⟨' ', _, by simp [Attribute.write, toString]; rfl, by decide⟩
  obtain ⟨c, rest, hbehind, hc⟩ := hbehind
  have hrest : Spanless (c :: rest) := hbehind ▸
    (spanless_of_not_mem hclosed).append (spanless_of_not_mem (by decide))
  have hwritten : (openingTag tag attributes).toList = '<' :: (tag.toList ++ c :: rest) := by
    rw [← hbehind]
    simp [openingTag, toString]
  exact hwritten ▸ Spanless.tag htag.1 hother hc hrest

theorem spanless_writeAll {content : List Html} (h : ∀ g ∈ content, Spanless g.write.toList) :
    Spanless (writeAll content).toList := by
  induction content with
  | nil => exact spanless_of_not_mem (by simp)
  | cons g rest ih =>
    rw [writeAll_cons, String.toList_append]
    exact (h g List.mem_cons_self).append (ih fun g hg => h g (List.mem_cons_of_mem _ hg))

theorem Unmarked.spanless {h : Html} (hunmarked : Unmarked h) : Spanless h.write.toList := by
  induction hunmarked with
  | text s =>
    rw [write]
    exact spanless_of_not_mem (escapeText_closed s)
  | void tag attributes htag ha =>
    rw [write]
    exact spanless_openingTag htag ha
  | element tag attributes content htag ha _ ih =>
    have hclosing : Spanless ('<' :: '/' :: (tag.toList ++ ['>'])) := by
      refine .cons (fun _ => ⟨by simp, by simp⟩) (spanless_of_not_mem ?_)
      simpa using fun hmem => absurd (htag.1.2 _ hmem) (by decide)
    have hwritten := ((spanless_openingTag htag ha).append (spanless_writeAll ih)).append hclosing
    simpa [write, toString] using hwritten

end Html

-- ----------------------------------------------------------------------------
-- Pieces of output
-- ----------------------------------------------------------------------------

namespace Rendered

def Unmarked (r : Rendered) : Prop := r.diagnostics = [] → ∀ h ∈ r.html, h.Unmarked

variable {r : Rendered}

theorem unmarked_empty : Unmarked .empty := fun _ => by simp [empty]

theorem Unmarked.join {pieces : List Rendered} (h : ∀ r ∈ pieces, r.Unmarked) :
    (join pieces).Unmarked := by
  intro hsilent g hg
  obtain ⟨r, hr, hg⟩ := List.mem_flatMap.mp hg
  exact h r hr (List.flatMap_eq_nil_iff.mp hsilent r hr) g hg

theorem unmarked_line {h : Html} {diagnostics : List Diagnostic}
    (hunmarked : diagnostics = [] → h.Unmarked) : Unmarked ⟨[h, .text "\n"], diagnostics⟩ := by
  intro hsilent g hg
  rcases List.mem_cons.mp hg with rfl | hg
  · exact hunmarked hsilent
  · rw [List.mem_singleton.mp hg]
    exact .text _

theorem unmarked_one {h : Html} {diagnostics : List Diagnostic}
    (hunmarked : diagnostics = [] → h.Unmarked) : Unmarked ⟨[h], diagnostics⟩ := by
  intro hsilent g hg
  rw [List.mem_singleton.mp hg]
  exact hunmarked hsilent

end Rendered

open Html (OtherTag)
open Rendered (Unmarked unmarked_empty unmarked_line unmarked_one)

-- ----------------------------------------------------------------------------
-- Tables of contents
-- ----------------------------------------------------------------------------

namespace Contents

theorem unmarked_label (id : Option String) (label : Html) (h : label.Unmarked) :
    Html.Unmarked (match id with
      | some id => .element "a" [⟨"href", "#" ++ escapeAttribute id⟩] [label]
      | none => label) := by
  cases id with
  | none => exact h
  | some id =>
    refine .element _ _ _ (by decide) ?_ (by simpa using h)
    intro a ha
    rw [List.mem_singleton.mp ha]
    exact Html.Attribute.closed (by simp) (by simp [Html.escapeAttribute_closed])

mutual
theorem renderEntry_unmarked (e : ContentsEntry) : (renderEntry e).Unmarked := by
  cases e with
  | entry id title level path children =>
    simp only [renderEntry]
    refine .element _ _ _ (by decide) (by simp) ?_
    intro g hg
    rcases List.mem_cons.mp hg with rfl | hg
    · exact unmarked_label id _ (.text _)
    · exact renderList_unmarked children g hg
theorem renderEntries_unmarked (entries : List ContentsEntry) :
    ∀ g ∈ renderEntries entries, g.Unmarked := by
  cases entries with
  | nil => simp [renderEntries]
  | cons e rest =>
    simp only [renderEntries, List.forall_mem_cons]
    exact ⟨renderEntry_unmarked e, renderEntries_unmarked rest⟩
theorem renderList_unmarked (entries : List ContentsEntry) :
    ∀ g ∈ renderList entries, g.Unmarked := by
  cases entries with
  | nil => simp [renderList]
  | cons e rest =>
    simp only [renderList, List.mem_singleton, forall_eq]
    refine .element _ _ _ (by decide) (by simp) ?_
    rw [List.forall_mem_cons]
    exact ⟨renderEntry_unmarked e, renderEntries_unmarked rest⟩
end

theorem render_unmarked (entries : List ContentsEntry) : Unmarked ⟨render entries, []⟩ := by
  refine unmarked_line fun _ => .element _ _ _ (by decide) ?_ (renderList_unmarked entries)
  simpa using Html.Attribute.closed_of _ _ (by decide)

end Contents

-- ----------------------------------------------------------------------------
-- Single macros
-- ----------------------------------------------------------------------------

theorem RenderContext.unmarked_fault (ctx : RenderContext) (position : Position)
    (problem : LinkFault) : (ctx.fault position problem).Unmarked := fun hsilent => by
  simp [fault] at hsilent

theorem RenderContext.closed_href {ctx : RenderContext} (h : '<' ∉ ctx.extension.toList)
    (r : IdRecord) : (ctx.href r).Closed := by
  have hanchor : '<' ∉ (anchor r).toList := by simp [anchor, Html.escapeAttribute_closed]
  have hpage : '<' ∉ (ctx.page r).toList := by
    simp [page, toString, Html.escapeAttribute_closed, h]
  refine Html.Attribute.closed (by simp [href]) ?_
  simp only [href]
  split
  · exact hanchor
  · split
    · exact hpage
    · simp [hpage, hanchor]

namespace Scene

section
variable {scene : Scene} {ctx : RenderContext} (hextension : '<' ∉ ctx.extension.toList)
variable (h : ∀ child ∈ scene.call.allChildren, ∀ title, (scene.below child title).Unmarked)

include h in
theorem argument_unmarked (name : String) (title : Bool) :
    (scene.argument name title).Unmarked := by
  apply Unmarked.join
  intro r hr
  obtain ⟨child, hchild, rfl⟩ := List.mem_map.mp hr
  exact h child (MacroCall.mem_allChildren hchild) title

theorem idAttribute_closed : ∀ a ∈ scene.idAttribute, a.Closed := by
  intro a ha
  obtain ⟨id, -, rfl⟩ := Option.map_eq_some_iff.mp (Option.mem_toList.mp ha)
  exact Html.Attribute.closed_of _ _ (by decide)

include h in
theorem caption_unmarked (hcaption : (scene.caption ctx).1 = some words)
    (hsilent : (scene.caption ctx).2 = []) : ∀ g ∈ words, g.Unmarked := by
  unfold caption at hcaption hsilent
  split at hcaption
  · cases hcaption
  · next record hrecord =>
    rw [hrecord] at hsilent
    have htitle : ∀ g ∈ Html.trim (scene.argument "title" scene.inTitle).html, g.Unmarked := by
      intro g hg
      rcases Html.mem_trim hg with hg | ⟨s, rfl⟩
      · exact argument_unmarked h _ _ hsilent g hg
      · exact .text s
    simp only at hcaption
    rw [Option.ite_none_left_eq_some, Option.some.injEq] at hcaption
    obtain ⟨-, rfl⟩ := hcaption
    split
    · exact htitle
    · simpa using Html.Unmarked.text _
    · simp only [List.forall_mem_cons]
      exact ⟨.text _, .text _, htitle⟩

include h in
theorem captionElement_unmarked (tag : String) (htag : OtherTag tag)
    (hsilent : (scene.caption ctx).2 = []) :
    ∀ g ∈ ((scene.caption ctx).1.map (Html.element tag [])).toList, g.Unmarked := by
  intro g hg
  obtain ⟨words, hwords, rfl⟩ := Option.map_eq_some_iff.mp (Option.mem_toList.mp hg)
  exact .element _ _ _ htag (by simp) (caption_unmarked h hwords hsilent)

include h in
theorem header_unmarked : (scene.header ctx).Unmarked := by
  unfold header
  split
  · exact unmarked_empty
  · refine unmarked_line fun hsilent =>
      .element _ _ _ ?_ idAttribute_closed (argument_unmarked h _ _ hsilent)
    generalize min ((Level.parse? (ctx.text scene.call "level")).getD 1) 6 = level
    refine ⟨Html.isName_numbered "h" level.toNat (by decide), fun hspan => ?_⟩
    have hhead := congrArg (fun tag => tag.toList.head?) hspan
    simp [toString] at hhead

include h in
theorem link_unmarked : (scene.link ctx).Unmarked := by
  refine unmarked_one fun hsilent => .element _ _ _ (by decide) ?_ ?_
  · simpa using Html.Attribute.closed_of _ _ (by decide)
  · split
    · simpa using Html.Unmarked.text _
    · exact argument_unmarked h _ _ hsilent

include hextension h in
theorem crossReference_unmarked (hknown : ∀ target, scene.linkTarget ctx ≠ .unknown target) :
    (scene.crossReference ctx).Unmarked := by
  have hlink : ∀ (r : IdRecord) (content : List Html), (∀ g ∈ content, g.Unmarked) →
      Html.Unmarked (.element "a" [ctx.href r] content) := fun r content hcontent =>
    .element _ _ _ (by decide) (by simpa using ctx.closed_href hextension r) hcontent
  unfold crossReference
  simp only
  split
  · exact ctx.unmarked_fault _ _
  · split
    · next target htarget => exact absurd htarget (hknown target)
    · split
      · exact ctx.unmarked_fault _ _
      · split
        · exact ctx.unmarked_fault _ _
        · have hcontent : (if scene.call.supplies "content" then
              scene.argument "content" scene.inTitle else .empty).Unmarked := by
            split
            · exact argument_unmarked h _ _
            · exact unmarked_empty
          generalize (if scene.call.supplies "content" then scene.argument "content" scene.inTitle
            else .empty) = content at hcontent ⊢
          split
          · split
            · exact unmarked_one fun _ => hlink _ _ (by simpa using Html.Unmarked.text _)
            · next fault _ =>
              intro hsilent
              exact ctx.unmarked_fault (scene.argumentPosition "href") fault
                (List.append_eq_nil_iff.mp hsilent).2
          · exact unmarked_one fun hsilent => hlink _ _ (hcontent hsilent)

include h in
theorem code_unmarked : (scene.code ctx).Unmarked := by
  have hpre : ∀ attributes, (∀ a ∈ attributes, a.Closed) →
      (scene.argument "content" scene.inTitle).diagnostics = [] → Html.Unmarked (.element "pre" attributes
        [.element "code" [] (scene.argument "content" scene.inTitle).html]) := by
    intro attributes ha hsilent
    refine .element _ _ _ (by decide) ha ?_
    simpa using Html.Unmarked.element "code" [] _ (by decide) (by simp)
      (argument_unmarked h _ _ hsilent)
  unfold code
  cases hcaption : scene.caption ctx with
  | mk caption diagnostics =>
    cases caption with
    | none =>
      refine unmarked_line fun hsilent => ?_
      exact hpre _ idAttribute_closed (List.append_eq_nil_iff.mp hsilent).1
    | some words =>
      refine unmarked_line fun hsilent => ?_
      obtain ⟨hcontent, htitle⟩ := List.append_eq_nil_iff.mp hsilent
      have hwords := caption_unmarked h (congrArg Prod.fst hcaption)
        ((congrArg Prod.snd hcaption).trans htitle)
      refine .element _ _ _ (by decide) ?_ ?_
      · simpa [or_imp, forall_and] using
          ⟨idAttribute_closed, Html.Attribute.closed_of "class" "code" (by decide)⟩
      · simpa using ⟨Html.Unmarked.element _ _ _ (by decide) (by simp) hwords,
          hpre [] (by simp) hcontent⟩

include h in
theorem table_unmarked : (scene.table ctx).Unmarked := by
  refine unmarked_line fun hsilent => .element _ _ _ (by decide) idAttribute_closed ?_
  obtain ⟨htitle, hrows⟩ := List.append_eq_nil_iff.mp hsilent
  intro g hg
  rcases List.mem_append.mp hg with hg | hg
  · exact captionElement_unmarked h "caption" (by decide) htitle g hg
  · exact argument_unmarked h _ _ hrows g hg

include h in
theorem image_unmarked : (scene.image ctx).Unmarked := by
  refine unmarked_line fun hsilent => .element _ _ _ (by decide) idAttribute_closed ?_
  intro g hg
  rcases List.mem_cons.mp hg with rfl | hg
  · refine .void _ _ (by decide) ?_
    simpa using ⟨Html.Attribute.closed_of "src" _ (by decide),
      Html.Attribute.closed_of "alt" _ (by decide)⟩
  · exact captionElement_unmarked h "figcaption" (by decide) hsilent g hg

include hextension in
theorem inclusion_unmarked (hfound :
      ((ctx.record? (Text.trim (ctx.text scene.call "href"))).filter (·.isDocument)).isSome) :
    (scene.inclusion ctx).Unmarked := by
  obtain ⟨record, hrecord⟩ := Option.isSome_iff_exists.mp hfound
  simp only [inclusion, hrecord]
  refine unmarked_line fun _ => .element _ _ _ (by decide) ?_ ?_
  · simpa using Html.Attribute.closed_of _ _ (by decide)
  · simpa using Html.Unmarked.element "a" _ _ (by decide)
      (by simpa using ctx.closed_href hextension record) (by simpa using Html.Unmarked.text _)

include hextension h in
theorem render_unmarked {rendering : Rendering} (hother : rendering.Tagged OtherTag)
    (hlink : rendering = .crossReference → ∀ target, scene.linkTarget ctx ≠ .unknown target)
    (hinclusion : rendering = .inclusion →
      ((ctx.record? (Text.trim (ctx.text scene.call "href"))).filter (·.isDocument)).isSome) :
    (scene.render ctx rendering).Unmarked := by
  cases rendering with
  | toplevel => exact argument_unmarked h _ _
  | header => exact header_unmarked h
  | block tag =>
    exact unmarked_line fun hsilent =>
      .element _ _ _ hother idAttribute_closed (argument_unmarked h _ _ hsilent)
  | inline tag =>
    exact unmarked_one fun hsilent =>
      .element _ _ _ hother (by simp) (argument_unmarked h _ _ hsilent)
  | lineBreak => exact unmarked_one fun _ => .void _ _ (by decide) (by simp)
  | link => exact link_unmarked h
  | crossReference =>
    simp only [render]
    exact crossReference_unmarked hextension h (hlink rfl)
  | code => exact code_unmarked h
  | table => exact table_unmarked h
  | image => exact image_unmarked h
  | contents => exact Contents.render_unmarked _
  | inclusion => exact inclusion_unmarked hextension (hinclusion rfl)

end
end Scene

-- ----------------------------------------------------------------------------
-- Whole documents
-- ----------------------------------------------------------------------------

namespace RenderContext

/-- Rendering finds what it looks for, and nothing that could not be read. -/
structure Complete (ctx : RenderContext) : Prop where
  readable : ∀ id, ctx.tree.Reaches ctx.tree.root id →
    ∀ message, ctx.tree.kind? id ≠ some (.error message)
  defined : ∀ scene, ctx.Visits scene → ∃ d, ctx.registry.get? scene.call.name = some d
  links : ∀ scene d, ctx.Visits scene → ctx.registry.get? scene.call.name = some d →
    d.rendering = .crossReference → ∀ target, scene.linkTarget ctx ≠ .unknown target
  inclusions : ∀ scene d, ctx.Visits scene → ctx.registry.get? scene.call.name = some d →
    d.rendering = .inclusion →
      ((ctx.record? (Text.trim (ctx.text scene.call "href"))).filter (·.isDocument)).isSome

theorem spanless_wholePage (title : String) {body : String} (h : Html.Spanless body.toList) :
    Html.Spanless (wholePage title body).toList := by
  have hfront : Html.Spanless
      "<!doctype html>\n<html lang=\"en\">\n<head>\n<meta charset=\"utf-8\">\n<title>".toList := by
    decide +kernel
  have hmiddle : Html.Spanless "</title>\n</head>\n<body>\n".toList := by decide +kernel
  have hback : Html.Spanless "</body>\n</html>\n".toList := by decide +kernel
  have htitle := Html.spanless_of_not_mem (Html.escapeText_closed title)
  unfold wholePage
  exact (((hfront.written htitle).written hmiddle).written h).written hback

variable {ctx : RenderContext} (hextension : '<' ∉ ctx.extension.toList)
variable (hother : ∀ d ∈ ctx.registry.macros, d.rendering.Tagged OtherTag) (hcomplete : ctx.Complete)
include hextension hother hcomplete

theorem renderNode_unmarked (id : NodeId) (node : Node) (below : NodeId → Bool → Rendered)
    (hnode : ctx.tree.get? id = some node) (hreached : ctx.tree.Reaches ctx.tree.root id)
    (h : ∀ child ∈ ctx.tree.below id, ∀ title, (below child title).Unmarked) (title : Bool) :
    (ctx.renderNode id node below title).Unmarked := by
  unfold renderNode
  split
  · exact unmarked_one fun _ => .text _
  · exact unmarked_empty
  · next message hkind =>
    refine absurd ?_ (hcomplete.readable id hreached message)
    rw [Tree.kind?, hnode, Option.map_some, hkind]
  · next call hkind =>
    have hcall : ctx.tree.call? id = some call := by simp [Tree.call?, hnode, Node.call?, hkind]
    rw [Tree.below_of_call? hcall] at h
    have hvisits : ctx.Visits ⟨id, node, call, below, title⟩ := ⟨hreached, hcall⟩
    split
    · next d hget =>
      exact Scene.render_unmarked hextension h (hother _ (List.mem_of_find?_eq_some hget))
        (hcomplete.links _ d hvisits hget) (hcomplete.inclusions _ d hvisits hget)
    · next hnone =>
      obtain ⟨d, hd⟩ := hcomplete.defined _ hvisits
      exact absurd (hnone.symm.trans hd) (by simp)

theorem render_unmarked (id : NodeId) (hreached : ctx.tree.Reaches ctx.tree.root id) :
    (ctx.render id).Unmarked := by
  refine ctx.tree.recurse_induction (motive := fun id (rendered : Bool → Rendered) =>
    ctx.tree.Reaches ctx.tree.root id → ∀ title, (rendered title).Unmarked)
    (fun _ _ _ => unmarked_empty) ?_ id hreached false
  intro id node below hnode hbelow hreached title
  refine renderNode_unmarked hextension hother hcomplete id node below hnode hreached ?_ title
  intro child hchild
  exact hbelow child (hreached.tail hchild)

theorem not_marked_renderDocument (bodyOnly : Bool)
    (hsilent : (ctx.renderDocument bodyOnly).2 = []) :
    ¬ Html.Marked (ctx.renderDocument bodyOnly).1 := by
  have hbody : ctx.body.Unmarked := by
    unfold body
    split
    · exact unmarked_empty
    · exact render_unmarked hextension hother hcomplete _ .refl
  have hwritten : Html.Spanless (Html.writeAll ctx.body.html).toList :=
    Html.spanless_writeAll fun g hg => (hbody hsilent g hg).spanless
  refine Html.Spanless.not_marked ?_
  unfold renderDocument
  simp only
  split
  · exact hwritten
  · exact spanless_wholePage _ hwritten

end RenderContext

/-- No macro is rendered as a mark. -/
theorem Registry.other_builtin : ∀ d ∈ Registry.builtin.macros, d.rendering.Tagged OtherTag := by
  show ∀ d ∈ Registry.builtinMacros, d.rendering.Tagged OtherTag
  decide +kernel

end Macromark

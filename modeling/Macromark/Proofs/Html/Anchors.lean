import Macromark.Proofs.Html.Marks
import Macromark.Proofs.Html.Recursion
import Macromark.Proofs.Outline.Contents

/-!
# Anchors

An element with an identifier is what a link of the same page leads to. Such an element
is made of a macro that has the identifier (`RenderContext.Bears`), and it comes through to
the page if every macro above puts the output of what it stands in into its own
(`RenderContext.Displays`). Where nothing is wrong, that is the only way in which an
anchor gets there (`anchored_body`).
-/

namespace Macromark

-- ----------------------------------------------------------------------------
-- Attributes
-- ----------------------------------------------------------------------------

def escapedChars : List (Char × List Char) :=
  [('"', "&quot;".toList), ('&', "&amp;".toList), ('<', "&lt;".toList), ('>', "&gt;".toList)]

theorem escapeAttributeChar_cases (c : Char) : (c, escapeAttributeChar c) ∈ escapedChars ∨
    c ≠ '&' ∧ escapeAttributeChar c = [c] := by
  unfold escapeAttributeChar escapeTextChar escapedChars
  split_ifs with hquote hand hless hgreater
  · simp [hquote]
  · simp [hand]
  · simp [hless]
  · simp [hgreater]
  · exact .inr ⟨hand, rfl⟩

/-- What is written for a character does not go on as another one. -/
theorem escapeAttributeChar_prefixFree {c d : Char}
    (h : escapeAttributeChar c <+: escapeAttributeChar d) : c = d := by
  have hbegins : ∀ e ∈ escapedChars, ∃ rest, e.2 = '&' :: rest := by
    simp [escapedChars]
  have hapart : ∀ e ∈ escapedChars, ∀ f ∈ escapedChars, e.2 <+: f.2 → e.1 = f.1 := by decide
  rcases escapeAttributeChar_cases c with hc | ⟨hc, hplain⟩ <;>
    rcases escapeAttributeChar_cases d with hd | ⟨hd, hplain'⟩
  · exact hapart _ hc _ hd h
  · obtain ⟨rest, hrest⟩ := hbegins _ hc
    rw [hplain', show escapeAttributeChar c = '&' :: rest from hrest, List.cons_prefix_cons] at h
    exact absurd h.1.symm hd
  · obtain ⟨rest, hrest⟩ := hbegins _ hd
    rw [hplain, show escapeAttributeChar d = '&' :: rest from hrest, List.cons_prefix_cons] at h
    exact absurd h.1 hc
  · rw [hplain, hplain', List.cons_prefix_cons] at h
    exact h.1

theorem escapeAttributeChar_ne_nil (c : Char) : escapeAttributeChar c ≠ [] := by
  have hwritten : ∀ e ∈ escapedChars, e.2 ≠ [] := by decide
  rcases escapeAttributeChar_cases c with hc | ⟨-, hplain⟩
  · exact hwritten _ hc
  · simp [hplain]

theorem flatMap_escapeAttributeChar {cs ds : List Char}
    (h : cs.flatMap escapeAttributeChar = ds.flatMap escapeAttributeChar) : cs = ds := by
  induction cs generalizing ds with
  | nil =>
    cases ds with
    | nil => rfl
    | cons d ds => exact absurd (List.append_eq_nil_iff.mp h.symm).1 (escapeAttributeChar_ne_nil d)
  | cons c cs ih =>
    cases ds with
    | nil => exact absurd (List.append_eq_nil_iff.mp h).1 (escapeAttributeChar_ne_nil c)
    | cons d ds =>
      rw [List.flatMap_cons, List.flatMap_cons] at h
      have heq : c = d := by
        rcases List.prefix_or_prefix_of_prefix (List.prefix_append _ _) (h ▸ List.prefix_append _ _)
          with hprefix | hprefix
        · exact (escapeAttributeChar_prefixFree hprefix).symm
        · exact escapeAttributeChar_prefixFree hprefix
      subst heq
      rw [ih (List.append_cancel_left h)]

theorem escapeAttribute_injective {s t : String} (h : escapeAttribute s = escapeAttribute t) :
    s = t :=
  String.toList_inj.mp (flatMap_escapeAttributeChar (String.ofList_inj.mp h))

namespace Html

@[simp] theorem Attribute.of_inj {name other value written : String} :
    Attribute.of name value = .of other written ↔ name = other ∧ value = written := by
  simp only [Attribute.of, Attribute.mk.injEq]
  exact and_congr_right fun _ => ⟨escapeAttribute_injective, congrArg _⟩

-- ----------------------------------------------------------------------------
-- Elements
-- ----------------------------------------------------------------------------

mutual
/-- The elements of a tree, each before those in it, with their attributes. -/
def elements : Html → List (String × List Attribute)
  | text _ => []
  | void tag attributes => [(tag, attributes)]
  | element tag attributes content => (tag, attributes) :: elementsOf content
def elementsOf : List Html → List (String × List Attribute)
  | [] => []
  | h :: rest => h.elements ++ elementsOf rest
end

theorem elementsOf_eq (content : List Html) : elementsOf content = content.flatMap elements := by
  induction content with
  | nil => rfl
  | cons h rest ih => rw [elementsOf, ih, List.flatMap_cons]

def Anchored (content : List Html) (id : String) : Prop :=
  ∃ e ∈ elementsOf content, .of "id" id ∈ e.2

instance (content : List Html) (id : String) : Decidable (Anchored content id) := by
  unfold Anchored; infer_instance

section
variable {content first second : List Html} {id tag s : String} {attributes : List Attribute}

@[simp] theorem not_anchored_nil : ¬ Anchored [] id := by simp [Anchored, elementsOf]

@[simp] theorem anchored_text : Anchored (.text s :: content) id ↔ Anchored content id := by
  simp [Anchored, elementsOf, elements]

@[simp] theorem anchored_void : Anchored (.void tag attributes :: content) id ↔
    .of "id" id ∈ attributes ∨ Anchored content id := by
  simp [Anchored, elementsOf, elements]

@[simp] theorem anchored_element : Anchored (.element tag attributes first :: content) id ↔
    .of "id" id ∈ attributes ∨ Anchored first id ∨ Anchored content id := by
  simp [Anchored, elementsOf, elements, or_and_right, exists_or]

@[simp] theorem anchored_append :
    Anchored (first ++ second) id ↔ Anchored first id ∨ Anchored second id := by
  simp [Anchored, elementsOf_eq, or_and_right, exists_or]

theorem anchored_flatMap {α : Type} {l : List α} {f : α → List Html} :
    Anchored (l.flatMap f) id ↔ ∃ a ∈ l, Anchored (f a) id := by
  induction l with
  | nil => simp
  | cons a l ih => simp [ih]

/-- Trimming leaves all elements alone. -/
theorem elementsOf_trim (content : List Html) : elementsOf (trim content) = elementsOf content := by
  have hstart : ∀ content, elementsOf (trimStart content) = elementsOf content := by
    intro content
    fun_induction trimStart content with
    | case1 s rest hcut ih => rw [ih, elementsOf, elements, List.nil_append]
    | case2 s rest hcut => rfl
    | case3 content hcut => rfl
  have hback : ∀ content,
      elementsOf (trimBackwards content).reverse = elementsOf content.reverse := by
    intro content
    fun_induction trimBackwards content with
    | case1 s rest hcut ih => simpa [elementsOf_eq, elements] using ih
    | case2 s rest hcut => simp [elementsOf_eq, elements]
    | case3 content hcut => rfl
  rw [trim, hback, List.reverse_reverse, hstart]

@[simp] theorem anchored_trim (content : List Html) (id : String) :
    Anchored (trim content) id ↔ Anchored content id := by
  rw [Anchored, Anchored, elementsOf_trim]

theorem not_anchored_of_isNothing (h : isNothing content = true) : ¬ Anchored content id := by
  induction content with
  | nil => exact not_anchored_nil
  | cons g rest ih =>
    simp only [isNothing, List.all_cons, Bool.and_eq_true] at h
    cases g with
    | text s => exact anchored_text.not.mpr (ih h.2)
    | _ => cases h.1

end
end Html

-- ----------------------------------------------------------------------------
-- Tables of contents
-- ----------------------------------------------------------------------------

namespace Contents

def Part (entries : List ContentsEntry) (e : String × List Html.Attribute) : Prop :=
  e.1 ≠ "a" ∧ (e.2 = [] ∨ e.2 = [.of "class" "toc"]) ∨
    ∃ entry ∈ ContentsEntry.readingAll entries, ∃ id, entry.id = some id ∧
      e = ("a", [⟨"href", "#" ++ escapeAttribute id⟩])

theorem Part.mono {entries more : List ContentsEntry} {e : String × List Html.Attribute}
    (h : Part entries e)
    (hmore : ∀ entry ∈ ContentsEntry.readingAll entries, entry ∈ ContentsEntry.readingAll more) :
    Part more e :=
  h.imp_right fun ⟨entry, hentry, hlink⟩ => ⟨entry, hmore entry hentry, hlink⟩

mutual
theorem part_renderEntry (e : ContentsEntry) : ∀ x ∈ (renderEntry e).elements, Part [e] x := by
  cases e with
  | entry id title level path children =>
    intro x hx
    have hbelow : ∀ x ∈ Html.elementsOf (renderList children),
        Part [.entry id title level path children] x := fun x hx =>
      (part_renderList children x hx).mono
        (by simp +contextual [ContentsEntry.readingAll, ContentsEntry.reading])
    simp only [renderEntry, Html.elements, Html.elementsOf, List.mem_cons, List.mem_append] at hx
    rcases hx with rfl | hx | hx
    · exact .inl ⟨by simp, .inl rfl⟩
    · cases id with
      | none => simp [Html.elements] at hx
      | some id =>
        refine .inr ⟨.entry (some id) title level path children, ?_, id, rfl, ?_⟩
        · simp [ContentsEntry.readingAll, ContentsEntry.reading]
        · simpa [Html.elements, Html.elementsOf] using hx
    · exact hbelow x hx
theorem part_renderEntries (entries : List ContentsEntry) :
    ∀ x ∈ Html.elementsOf (renderEntries entries), Part entries x := by
  cases entries with
  | nil => simp [renderEntries, Html.elementsOf]
  | cons e rest =>
    intro x hx
    rw [renderEntries, Html.elementsOf, List.mem_append] at hx
    rcases hx with hx | hx
    · exact (part_renderEntry e x hx).mono (by simp +contextual [ContentsEntry.readingAll])
    · exact (part_renderEntries rest x hx).mono (by simp +contextual [ContentsEntry.readingAll])
theorem part_renderList (entries : List ContentsEntry) :
    ∀ x ∈ Html.elementsOf (renderList entries), Part entries x := by
  cases entries with
  | nil => simp [renderList, Html.elementsOf]
  | cons e rest =>
    intro x hx
    have hbelow := part_renderEntries rest
    rw [renderList, Html.elementsOf, Html.elementsOf, List.append_nil, Html.elements, List.mem_cons,
      Html.elementsOf, List.mem_append] at hx
    rcases hx with rfl | hx | hx
    · exact .inl ⟨by simp, .inl rfl⟩
    · exact (part_renderEntry e x hx).mono (by simp +contextual [ContentsEntry.readingAll])
    · exact (hbelow x hx).mono (by simp +contextual [ContentsEntry.readingAll])
end

theorem part_render (entries : List ContentsEntry) :
    ∀ e ∈ Html.elementsOf (render entries), Part entries e := by
  intro e he
  have hsplit : e = ("nav", [.of "class" "toc"]) ∨ e ∈ Html.elementsOf (renderList entries) := by
    simpa [render, Html.elementsOf, Html.elements] using he
  rcases hsplit with rfl | he
  · exact .inl ⟨by simp, .inr rfl⟩
  · exact part_renderList entries e he

/-- A table of contents only leads elsewhere. -/
theorem not_anchored_render (entries : List ContentsEntry) (id : String) :
    ¬ Html.Anchored (render entries) id := by
  rintro ⟨e, he, hid⟩
  rcases part_render entries e he with ⟨-, hnone | hclass⟩ | ⟨_, _, _, _, hlink⟩
  · simp [hnone] at hid
  · simp [hclass] at hid
  · simp [hlink, Html.Attribute.of] at hid

/-- The links of a table of contents are those of its entries. -/
theorem exists_entry_of_link {entries : List ContentsEntry} {attributes : List Html.Attribute}
    (h : ("a", attributes) ∈ Html.elementsOf (render entries)) :
    ∃ e ∈ ContentsEntry.readingAll entries, ∃ id, e.id = some id ∧
      attributes = [⟨"href", "#" ++ escapeAttribute id⟩] := by
  rcases part_render entries _ h with ⟨hframe, -⟩ | ⟨e, he, id, hid, hlink⟩
  · exact absurd rfl hframe
  · exact ⟨e, he, id, hid, (Prod.mk.inj hlink).2⟩

end Contents

-- ----------------------------------------------------------------------------
-- Single macros
-- ----------------------------------------------------------------------------

/-- Whether an element is made that carries the identifier of the macro. -/
def Rendering.identifies : Rendering → Bool
  | .header | .block _ | .code | .table | .image => true
  | .toplevel | .inline _ | .lineBreak | .link | .crossReference | .contents | .inclusion => false

namespace RenderContext

variable (ctx : RenderContext)

/-- The arguments of a macro whose output stands in its own. -/
def shown (call : MacroCall) : Rendering → List String
  | .toplevel | .block _ | .inline _ | .link => ["content"]
  | .header => if Text.isTruthy (ctx.text call "synonym") then [] else ["title"]
  | .crossReference => if call.supplies "content" then ["content"] else []
  | .code | .table =>
    if (call.id.bind ctx.index.record?).isSome then ["content", "title"] else ["content"]
  | .image => if (call.id.bind ctx.index.record?).isSome then ["title"] else []
  | .lineBreak | .contents | .inclusion => []

/-- Whether a macro makes an element that carries its identifier. Nothing is made of a synonym. -/
def anchors (call : MacroCall) (rendering : Rendering) : Bool :=
  rendering.identifies && !(decide (rendering = .header) && Text.isTruthy (ctx.text call "synonym"))

end RenderContext

namespace Scene

variable {scene : Scene} {ctx : RenderContext} {id name : String} {rendering : Rendering}

@[simp] theorem mem_idAttribute : .of "id" id ∈ scene.idAttribute ↔ scene.call.id = some id := by
  simp [idAttribute]

@[simp] theorem of_id_ne_href (r : IdRecord) : .of "id" id ≠ ctx.href r := by
  intro h
  have hname := congrArg (·.name) h
  simp [Html.Attribute.of, RenderContext.href] at hname

/-- The words of a caption are those of the title, behind the number. -/
theorem anchored_caption : (∃ words, (scene.caption ctx).1 = some words ∧ Html.Anchored words id) ↔
    (scene.call.id.bind ctx.index.record?).isSome ∧
      Html.Anchored (scene.argument "title" scene.inTitle).html id := by
  unfold caption
  cases hrecord : scene.call.id.bind ctx.index.record? with
  | none => simp
  | some record =>
    have htrim := Html.anchored_trim (scene.argument "title" scene.inTitle).html id
    simp only [← htrim]
    generalize Html.trim (scene.argument "title" scene.inTitle).html = title
    cases record.numberedCaption? <;> cases title <;> simp

theorem anchored_captionElement (tag : String) :
    Html.Anchored ((scene.caption ctx).1.map (Html.element tag [])).toList id ↔
      (scene.call.id.bind ctx.index.record?).isSome ∧
        Html.Anchored (scene.argument "title" scene.inTitle).html id := by
  rw [← anchored_caption]
  cases (scene.caption ctx).1 <;> simp

/-- The content of a link may be empty, and is not looked at then. -/
theorem anchored_linkContent (content : List Html) (text : String) :
    Html.Anchored (if Html.isNothing content then [.text text] else content) id ↔
      Html.Anchored content id := by
  split
  · next hnothing => simp [Html.not_anchored_of_isNothing hnothing]
  · rfl

theorem anchored_crossReference (hsilent : (scene.crossReference ctx).diagnostics = [])
    (hknown : ∀ target, scene.linkTarget ctx ≠ .unknown target) :
    Html.Anchored (scene.crossReference ctx).html id ↔ scene.call.supplies "content" = true ∧
      Html.Anchored (scene.argument "content" scene.inTitle).html id := by
  have hcontent : Html.Anchored (if scene.call.supplies "content" then
        scene.argument "content" scene.inTitle else .empty).html id ↔
      scene.call.supplies "content" = true ∧
        Html.Anchored (scene.argument "content" scene.inTitle).html id := by
    split <;> simp_all [Rendered.empty]
  rw [← hcontent]
  revert hsilent
  unfold crossReference
  simp only
  split
  · simp [RenderContext.fault]
  · split
    · next target htarget => exact absurd htarget (hknown target)
    · split
      · simp [RenderContext.fault]
      · split
        · simp [RenderContext.fault]
        · generalize (if scene.call.supplies "content" then scene.argument "content" scene.inTitle
            else .empty) = content
          split
          · next hnothing =>
            split
            · simp [Html.not_anchored_of_isNothing hnothing]
            · intro hsilent
              simpa [RenderContext.fault] using (List.append_eq_nil_iff.mp hsilent).2
          · simp [Rendered.within]

theorem anchored_code : Html.Anchored (scene.code ctx).html id ↔ scene.call.id = some id ∨
    Html.Anchored (scene.argument "content" scene.inTitle).html id ∨
      (scene.call.id.bind ctx.index.record?).isSome ∧
        Html.Anchored (scene.argument "title" scene.inTitle).html id := by
  rw [← anchored_caption]
  unfold code
  cases scene.caption ctx with
  | mk caption diagnostics => cases caption <;> simp [or_comm]

theorem silent_crossReference (hsilent : (scene.crossReference ctx).diagnostics = [])
    (hknown : ∀ target, scene.linkTarget ctx ≠ .unknown target)
    (hcontent : scene.call.supplies "content" = true) :
    (scene.argument "content" scene.inTitle).diagnostics = [] := by
  revert hsilent
  unfold crossReference
  simp only [if_pos hcontent]
  split
  · simp [RenderContext.fault]
  · split
    · next target htarget => exact absurd htarget (hknown target)
    · split
      · simp [RenderContext.fault]
      · split
        · simp [RenderContext.fault]
        · split
          · split
            · exact fun hsilent => hsilent
            · exact fun hsilent => (List.append_eq_nil_iff.mp hsilent).1
          · exact fun hsilent => hsilent

/-- The title is looked at for a caption. -/
theorem silent_title (hsilent : (scene.caption ctx).2 = [])
    (hidentified : (scene.call.id.bind ctx.index.record?).isSome) :
    (scene.argument "title" scene.inTitle).diagnostics = [] := by
  unfold caption at hsilent
  obtain ⟨record, hrecord⟩ := Option.isSome_iff_exists.mp hidentified
  rwa [hrecord] at hsilent

/-- A macro that reports nothing shows nothing that does. -/
theorem silent_argument (hsilent : (scene.render ctx rendering).diagnostics = [])
    (hknown : rendering = .crossReference → ∀ target, scene.linkTarget ctx ≠ .unknown target)
    (hname : name ∈ ctx.shown scene.call rendering) :
    (scene.argument name (scene.inTitle || decide (rendering = .header))).diagnostics = [] := by
  have hcaptioned : (scene.argument "content" scene.inTitle).diagnostics = [] →
      (scene.caption ctx).2 = [] → name ∈ ctx.shown scene.call .code →
        (scene.argument name scene.inTitle).diagnostics = [] := by
    intro hcontent hcaption hname
    simp only [RenderContext.shown] at hname
    split at hname
    · next hidentified =>
      rcases List.mem_pair.mp hname with rfl | rfl
      · exact hcontent
      · exact silent_title hcaption hidentified
    · rwa [List.mem_singleton.mp hname]
  cases rendering with
  | toplevel => simp_all [render, RenderContext.shown]
  | header =>
    simp only [RenderContext.shown, render, header] at hname hsilent
    split at hname <;> simp_all [Rendered.within]
  | block tag => simp_all [render, RenderContext.shown, Rendered.within]
  | inline tag => simp_all [render, RenderContext.shown, Rendered.within]
  | link => simp_all [render, link, RenderContext.shown, Rendered.within]
  | crossReference =>
    simp only [RenderContext.shown, render] at hname hsilent
    split at hname
    · next hcontent =>
      obtain rfl := List.mem_singleton.mp hname
      simpa using silent_crossReference hsilent (hknown rfl) hcontent
    · simp at hname
  | code =>
    obtain ⟨hcontent, hcaption⟩ := List.append_eq_nil_iff.mp hsilent
    simpa using hcaptioned hcontent hcaption hname
  | table =>
    obtain ⟨hcaption, hcontent⟩ := List.append_eq_nil_iff.mp hsilent
    simpa using hcaptioned hcontent hcaption hname
  | image =>
    simp only [RenderContext.shown] at hname
    split at hname
    · next hidentified =>
      obtain rfl := List.mem_singleton.mp hname
      simpa using silent_title hsilent hidentified
    · simp at hname
  | lineBreak => simp [RenderContext.shown] at hname
  | contents => simp [RenderContext.shown] at hname
  | inclusion => simp [RenderContext.shown] at hname

/-- A link is made from a record, and leads to what that stands for. -/
theorem exists_record_of_link {attributes : List Html.Attribute} {content : List Html}
    (h : .element "a" attributes content ∈ (scene.crossReference ctx).html) :
    ∃ target record, ctx.record? target = some record ∧
      attributes = [ctx.href ((record.synonymOf.bind ctx.record?).getD record)] := by
  revert h
  unfold crossReference
  simp only
  split
  · simp [RenderContext.fault, Html.marker]
  · split
    · simp [Html.marker]
    · next target _ =>
      split
      · simp [RenderContext.fault, Html.marker]
      · next record hrecord =>
        split
        · simp [RenderContext.fault, Html.marker]
        · generalize (if scene.call.supplies "content" then scene.argument "content" scene.inTitle
            else .empty) = words
          split
          · split
            · intro hlink
              injection List.mem_singleton.mp hlink with _ hattributes
              exact ⟨target, record, hrecord, hattributes⟩
            · intro hlink
              rcases List.mem_append.mp hlink with hlink | hlink
              · cases hlink
              · simp [RenderContext.fault, Html.marker] at hlink
          · intro hlink
            injection List.mem_singleton.mp hlink with _ hattributes
            exact ⟨target, record, hrecord, hattributes⟩

/-- Where nothing is reported, what stands in a macro comes through. -/
theorem anchored_render (hsilent : (scene.render ctx rendering).diagnostics = [])
    (hknown : rendering = .crossReference → ∀ target, scene.linkTarget ctx ≠ .unknown target) :
    Html.Anchored (scene.render ctx rendering).html id ↔
      (scene.call.id = some id ∧ ctx.anchors scene.call rendering = true) ∨
      ∃ name ∈ ctx.shown scene.call rendering, Html.Anchored
        (scene.argument name (scene.inTitle || decide (rendering = .header))).html id := by
  cases rendering with
  | toplevel => simp [render, RenderContext.shown, RenderContext.anchors, Rendering.identifies]
  | header =>
    simp only [render, header]
    split <;> simp_all [RenderContext.shown, RenderContext.anchors, Rendering.identifies,
      Rendered.within, Rendered.empty]
  | block tag =>
    simp [render, Rendered.within, RenderContext.shown, RenderContext.anchors, Rendering.identifies]
  | inline tag =>
    simp [render, Rendered.within, RenderContext.shown, RenderContext.anchors, Rendering.identifies]
  | lineBreak => simp [render, RenderContext.shown, RenderContext.anchors, Rendering.identifies]
  | link =>
    simp [render, link, Rendered.within, RenderContext.shown, RenderContext.anchors,
      Rendering.identifies, anchored_linkContent]
  | crossReference =>
    simp only [RenderContext.shown, render] at hsilent ⊢
    rw [anchored_crossReference hsilent (hknown rfl)]
    split <;> simp_all [RenderContext.anchors, Rendering.identifies]
  | code =>
    rw [render, anchored_code]
    cases hidentified : (scene.call.id.bind ctx.index.record?).isSome <;>
      simp [RenderContext.shown, RenderContext.anchors, Rendering.identifies, hidentified]
  | table =>
    cases hidentified : (scene.call.id.bind ctx.index.record?).isSome <;>
      simp [render, table, anchored_captionElement, RenderContext.shown, RenderContext.anchors,
        Rendering.identifies, hidentified, or_comm]
  | image =>
    cases hidentified : (scene.call.id.bind ctx.index.record?).isSome <;>
      simp [render, image, anchored_captionElement, RenderContext.shown, RenderContext.anchors,
        Rendering.identifies, hidentified]
  | contents =>
    simp [render, RenderContext.shown, RenderContext.anchors, Rendering.identifies,
      Contents.not_anchored_render]
  | inclusion =>
    simp only [render, inclusion]
    split <;> simp [RenderContext.shown, RenderContext.anchors, Rendering.identifies, Html.marker]

end Scene

-- ----------------------------------------------------------------------------
-- Whole documents
-- ----------------------------------------------------------------------------

namespace RenderContext

variable {ctx : RenderContext} {x : NodeId} {title : Bool} {id : String}

/-- What a node puts of another one into its output. Each node comes with whether it stands in the
title of a header. -/
inductive Displaying (ctx : RenderContext) : NodeId × Bool → NodeId × Bool → Prop
  | below {id child : NodeId} {title : Bool} {call : MacroCall} {definition : MacroDef}
      {name : String} :
      ctx.tree.call? id = some call → ctx.registry.get? call.name = some definition →
      name ∈ ctx.shown call definition.rendering → child ∈ call.children name →
      Displaying ctx (id, title) (child, title || decide (definition.rendering = .header))

/-- The output of a node comes through to the page. -/
def Displays (ctx : RenderContext) (x : NodeId) (title : Bool) : Prop :=
  Relation.ReflTransGen ctx.Displaying (ctx.tree.root, false) (x, title)

/-- An element is made of a node that carries an identifier. -/
def Bears (ctx : RenderContext) (x : NodeId) (id : String) : Prop :=
  ∃ call definition, ctx.tree.call? x = some call ∧
    ctx.registry.get? call.name = some definition ∧ call.id = some id ∧
    ctx.anchors call definition.rendering = true

theorem Bears.id? (h : ctx.Bears x id) : ctx.tree.id? x = some id := by
  obtain ⟨call, definition, hcall, -, hid, -⟩ := h
  rw [Tree.id?_eq, hcall, Option.bind_some, hid]

/-- A link to an identifier of the page is written, by a macro for links or in a table of
contents. -/
def LinksTo (ctx : RenderContext) (id : String) : Prop :=
  ∃ x title call definition, ctx.tree.Reaches ctx.tree.root x ∧ ctx.tree.call? x = some call ∧
    ctx.registry.get? call.name = some definition ∧
    let target : List Html.Attribute := [⟨"href", "#" ++ escapeAttribute id⟩]
    (definition.rendering = .crossReference ∧
        ∃ content, .element "a" target content ∈ (ctx.renderAt x title).html) ∨
      definition.rendering = .contents ∧
        ("a", target) ∈ Html.elementsOf (ctx.renderAt x title).html

/-- A node displays one that an element with the identifier is made of. -/
def Carries (ctx : RenderContext) (place : NodeId × Bool) (id : String) : Prop :=
  ∃ y inTitle, Relation.ReflTransGen ctx.Displaying place (y, inTitle) ∧ ctx.Bears y id

theorem carries_iff : ctx.Carries (x, title) id ↔
    ctx.Bears x id ∨ ∃ below, ctx.Displaying (x, title) below ∧ ctx.Carries below id := by
  constructor
  · rintro ⟨y, inTitle, hdisplays, hbears⟩
    rcases Relation.ReflTransGen.cases_head hdisplays with heq | ⟨below, hbelow, hrest⟩
    · obtain ⟨rfl, -⟩ := Prod.mk.inj heq
      exact .inl hbears
    · exact .inr ⟨below, hbelow, y, inTitle, hrest, hbears⟩
  · rintro (hbears | ⟨below, hbelow, y, inTitle, hrest, hbears⟩)
    · exact ⟨x, title, .refl, hbears⟩
    · exact ⟨y, inTitle, .head hbelow hrest, hbears⟩

/-- What is no macro, or none that is known, carries nothing. -/
theorem not_carries
    (h : ∀ call, ctx.tree.call? x = some call → ctx.registry.get? call.name = none) :
    ¬ ctx.Carries (x, title) id := by
  rw [carries_iff]
  rintro (⟨call, d, hcall, hd, -⟩ | ⟨below, hbelow, -⟩)
  · simp [h call hcall] at hd
  · cases hbelow with
    | below hcall hd => simp [h _ hcall] at hd

theorem carries_call {call : MacroCall} {definition : MacroDef}
    (hcall : ctx.tree.call? x = some call)
    (hdefinition : ctx.registry.get? call.name = some definition) :
    ctx.Carries (x, title) id ↔
      (call.id = some id ∧ ctx.anchors call definition.rendering = true) ∨
      ∃ name ∈ ctx.shown call definition.rendering, ∃ child ∈ call.children name,
        ctx.Carries (child, title || decide (definition.rendering = .header)) id := by
  rw [carries_iff]
  refine or_congr ⟨?_, ?_⟩ ⟨?_, ?_⟩
  · rintro ⟨call', d, hcall', hd, hbears⟩
    obtain rfl := Option.some.inj (hcall.symm.trans hcall')
    obtain rfl := Option.some.inj (hdefinition.symm.trans hd)
    exact hbears
  · exact fun hbears => ⟨call, definition, hcall, hdefinition, hbears⟩
  · rintro ⟨below, hbelow, hcarries⟩
    cases hbelow with
    | below hcall' hd hname hchild =>
      obtain rfl := Option.some.inj (hcall.symm.trans hcall')
      obtain rfl := Option.some.inj (hdefinition.symm.trans hd)
      exact ⟨_, hname, _, hchild, hcarries⟩
  · rintro ⟨name, hname, child, hchild, hcarries⟩
    exact ⟨_, .below hcall hdefinition hname hchild, hcarries⟩

section
variable (h : ctx.tree.Acyclic)
variable (hknown : ∀ scene d, ctx.Visits scene → ctx.registry.get? scene.call.name = some d →
  d.rendering = .crossReference → ∀ target, scene.linkTarget ctx ≠ .unknown target)
include h hknown

/-- Where nothing is reported, an anchor in the output of a node is that of a node it displays. -/
theorem anchored_renderAt (hx : x < ctx.tree.size) (hreached : ctx.tree.Reaches ctx.tree.root x)
    (hsilent : (ctx.renderAt x title).diagnostics = []) :
    Html.Anchored (ctx.renderAt x title).html id ↔ ctx.Carries (x, title) id := by
  revert title
  revert hreached
  refine h.induction (motive := fun x => ctx.tree.Reaches ctx.tree.root x → ∀ title,
    (ctx.renderAt x title).diagnostics = [] →
      (Html.Anchored (ctx.renderAt x title).html id ↔ ctx.Carries (x, title) id)) ?_ hx
  intro x hx ih hreached title hsilent
  obtain ⟨node, hnode⟩ := Tree.lt_size_iff.mp hx
  rw [render_of_get? h hnode] at hsilent ⊢
  unfold renderNode at hsilent ⊢
  cases hkind : node.kind with
  | call call =>
    have hcall : ctx.tree.call? x = some call := by simp [Tree.call?, hnode, Node.call?, hkind]
    rw [Tree.below_of_call? hcall] at ih
    rw [hkind] at hsilent
    simp only at hsilent ⊢
    cases hdefinition : ctx.registry.get? call.name with
    | none =>
      have hnone : ¬ ctx.Carries (x, title) id := not_carries fun called hcalled => by
        rwa [← Option.some.inj (hcall.symm.trans hcalled)]
      simp [Html.marker, hnone]
    | some d =>
      rw [hdefinition] at hsilent
      simp only at hsilent ⊢
      have hlinks := hknown ⟨x, node, call, ctx.renderAt, title⟩ d ⟨hreached, hcall⟩ hdefinition
      rw [Scene.anchored_render hsilent hlinks, carries_call hcall hdefinition]
      refine or_congr_right (exists_congr fun name => and_congr_right fun hname => ?_)
      have hquiet := Scene.silent_argument hsilent hlinks hname
      rw [Scene.argument, Rendered.join, List.flatMap_eq_nil_iff] at hquiet
      rw [Scene.argument, Rendered.join, Html.anchored_flatMap]
      simp only [List.mem_map, exists_exists_and_eq_and]
      refine exists_congr fun child => and_congr_right fun hchild => ?_
      have hbelow := MacroCall.mem_allChildren hchild
      refine ih child hbelow (hreached.tail ?_) _ (hquiet _ (List.mem_map_of_mem hchild))
      rwa [Tree.below_of_call? hcall]
  | _ =>
    have hnone : ¬ ctx.Carries (x, title) id := not_carries fun call hcall => by
      simp [Tree.call?, hnode, Node.call?, hkind] at hcall
    simp [hnone, Html.marker, Rendered.empty]

/-- Where nothing is reported, the anchors of a page are those of the nodes that it displays. -/
theorem anchored_body (hroot : ctx.tree.root < ctx.tree.size)
    (hsilent : ctx.body.diagnostics = []) :
    Html.Anchored ctx.body.html id ↔ ∃ x title, ctx.Displays x title ∧ ctx.Bears x id := by
  have hbody : ctx.body = ctx.renderAt ctx.tree.root false := by
    rw [body, Tree.isEmpty_of_lt hroot]
    rfl
  rw [hbody] at hsilent ⊢
  exact anchored_renderAt h hknown hroot .refl hsilent

end

end RenderContext
end Macromark

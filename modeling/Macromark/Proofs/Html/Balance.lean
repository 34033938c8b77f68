import Macromark.Proofs.Compile
import Macromark.Proofs.Html.Render
import Macromark.Registry.Builtin

/-!
# Balanced output

`Html.Body` is the grammar of what stands in the body of a page: text without
brackets or bare ampersands, and elements that are closed under the name that
they were opened with. A tree is `Sound` if its names are names and the values
of its attributes are escaped; what is written of it is a word of the grammar
(`Sound.body`). Rendering gives such trees, whatever the document holds
(`RenderContext.render_sound`).
-/

namespace Macromark

namespace Html

-- ----------------------------------------------------------------------------
-- The grammar
-- ----------------------------------------------------------------------------

/-- How the characters are written that do not stand for themselves. -/
def entities : List (List Char) :=
  ["&amp;".toList, "&lt;".toList, "&gt;".toList, "&quot;".toList]

def IsTextChar (c : Char) : Prop := c ≠ '<' ∧ c ≠ '>' ∧ c ≠ '&'

instance (c : Char) : Decidable (IsTextChar c) := by unfold IsTextChar; infer_instance

def IsName (name : List Char) : Prop := name ≠ [] ∧ ∀ c ∈ name, c.isAlphanum = true

instance (name : List Char) : Decidable (IsName name) :=
  decidable_of_iff (name ≠ [] ∧ name.all (·.isAlphanum) = true) (by simp [IsName])

/-- What may stand between the quotes of an attribute. -/
inductive Value : List Char → Prop
  | nil : Value []
  | char (c : Char) (rest : List Char) : IsTextChar c → c ≠ '"' → Value rest → Value (c :: rest)
  | entity (e rest : List Char) : e ∈ entities → Value rest → Value (e ++ rest)

inductive Attributes : List Char → Prop
  | nil : Attributes []
  | cons (name value rest : List Char) : IsName name → Value value → Attributes rest →
      Attributes (' ' :: name ++ '=' :: '"' :: value ++ '"' :: rest)

/-- The content of an element, or of a whole page. -/
inductive Body : List Char → Prop
  | nil : Body []
  | char (c : Char) (rest : List Char) : IsTextChar c → Body rest → Body (c :: rest)
  | entity (e rest : List Char) : e ∈ entities → Body rest → Body (e ++ rest)
  | lineBreak (rest : List Char) : Body rest → Body ("<br>".toList ++ rest)
  | image (attributes rest : List Char) : Attributes attributes → Body rest →
      Body ("<img".toList ++ attributes ++ '>' :: rest)
  | element (tag attributes content rest : List Char) : IsName tag → Attributes attributes →
      Body content → Body rest →
      Body ('<' :: tag ++ attributes ++ '>' :: content ++ '<' :: '/' :: tag ++ '>' :: rest)

variable {first second : List Char}

theorem Value.append (hfirst : Value first) (hsecond : Value second) : Value (first ++ second) := by
  induction hfirst with
  | nil => exact hsecond
  | char c rest hc hquote _ ih => exact .char c _ hc hquote ih
  | entity e rest he _ ih => exact List.append_assoc .. ▸ .entity e _ he ih

theorem Body.append (hfirst : Body first) (hsecond : Body second) : Body (first ++ second) := by
  induction hfirst with
  | nil => exact hsecond
  | char c rest hc _ ih => exact .char c _ hc ih
  | entity e rest he _ ih => exact List.append_assoc .. ▸ .entity e _ he ih
  | lineBreak rest _ ih => exact List.append_assoc .. ▸ .lineBreak _ ih
  | image attributes rest ha _ ih =>
    simpa only [List.append_assoc, List.cons_append] using Body.image attributes _ ha ih
  | element tag attributes content rest ht ha hc _ _ ih =>
    simpa only [List.append_assoc, List.cons_append] using
      Body.element tag attributes content _ ht ha hc ih

theorem isName_numbered (stem : String) (n : Nat) (h : IsName stem.toList) :
    IsName s!"{stem}{n}".toList := by
  obtain ⟨hne, hstem⟩ := h
  simp only [toString, String.toList_append, Nat.repr_eq_ofList_toDigits, String.toList_ofList]
  refine ⟨by simp [hne], fun c hc => ?_⟩
  rcases List.mem_append.mp hc with hc | hc
  · exact hstem c hc
  · have hdigit := Nat.isDigit_of_mem_toDigits (by decide) (by decide) hc
    simp [Char.isAlphanum, hdigit]

-- ----------------------------------------------------------------------------
-- Escaped text
-- ----------------------------------------------------------------------------

theorem escapeTextChar_cases (c : Char) :
    escapeTextChar c ∈ entities ∨ IsTextChar c ∧ escapeTextChar c = [c] := by
  unfold escapeTextChar
  split
  · exact .inl (by decide)
  · split
    · exact .inl (by decide)
    · split
      · exact .inl (by decide)
      · next hamp hlt hgt => exact .inr ⟨⟨hlt, hgt, hamp⟩, rfl⟩

theorem body_escapeText (s : String) : Body (escapeText s).toList := by
  rw [escapeText, String.toList_ofList]
  induction s.toList with
  | nil => exact .nil
  | cons c rest ih =>
    rw [List.flatMap_cons]
    rcases escapeTextChar_cases c with he | ⟨hc, hwritten⟩
    · exact .entity _ _ he ih
    · rw [hwritten]
      exact .char c _ hc ih

theorem value_escapeAttribute (s : String) : Value (escapeAttribute s).toList := by
  rw [escapeAttribute, String.toList_ofList]
  induction s.toList with
  | nil => exact .nil
  | cons c rest ih =>
    rw [List.flatMap_cons, escapeAttributeChar]
    split
    · exact .entity _ _ (by decide) ih
    · next hquote =>
      rcases escapeTextChar_cases c with he | ⟨hc, hwritten⟩
      · exact .entity _ _ he ih
      · rw [hwritten]
        exact .char c _ hc hquote ih

def IsPlain (s : String) : Prop := ∀ c ∈ s.toList, c ∉ ['"', '<', '>', '&']

instance (s : String) : Decidable (IsPlain s) :=
  decidable_of_iff (s.toList.all (· ∉ ['"', '<', '>', '&']) = true) (by simp [IsPlain])

theorem IsPlain.value {s : String} (h : IsPlain s) : Value s.toList := by
  unfold IsPlain at h
  generalize s.toList = cs at h ⊢
  induction cs with
  | nil => exact .nil
  | cons c rest ih =>
    have hc := h c List.mem_cons_self
    simp only [List.mem_cons, List.not_mem_nil, or_false, not_or] at hc
    obtain ⟨hquote, hlt, hgt, hamp⟩ := hc
    exact .char c rest ⟨hlt, hgt, hamp⟩ hquote (ih fun d hd => h d (List.mem_cons_of_mem c hd))

/-- A link to an identifier of the same page. -/
theorem value_anchor (id : String) : Value ("#" ++ escapeAttribute id).toList := by
  simpa using Value.char '#' _ (by decide) (by decide) (value_escapeAttribute id)

-- ----------------------------------------------------------------------------
-- Trees
-- ----------------------------------------------------------------------------

structure Attribute.Sound (a : Attribute) : Prop where
  name : IsName a.name.toList
  value : Value a.written.toList

/-- Names are names and values are escaped, all over the tree. -/
inductive Sound : Html → Prop
  | text (s : String) : Sound (.text s)
  | lineBreak : Sound (.void "br" [])
  | image (attributes : List Attribute) : (∀ a ∈ attributes, a.Sound) →
      Sound (.void "img" attributes)
  | element (tag : String) (attributes : List Attribute) (content : List Html) :
      IsName tag.toList → (∀ a ∈ attributes, a.Sound) → (∀ h ∈ content, Sound h) →
      Sound (.element tag attributes content)

theorem Attribute.sound_of (name value : String) (h : IsName name.toList) :
    (Attribute.of name value).Sound := ⟨h, value_escapeAttribute value⟩

theorem attributes_write {attributes : List Attribute} (h : ∀ a ∈ attributes, a.Sound) :
    Attributes (String.join (attributes.map Attribute.write)).toList := by
  induction attributes with
  | nil => exact .nil
  | cons a rest ih =>
    have ha := h a List.mem_cons_self
    have hrest := ih fun b hb => h b (List.mem_cons_of_mem a hb)
    simpa [Attribute.write, toString] using Attributes.cons _ _ _ ha.name ha.value hrest

theorem body_writeAll {content : List Html} (h : ∀ g ∈ content, Body g.write.toList) :
    Body (writeAll content).toList := by
  induction content with
  | nil => exact .nil
  | cons g rest ih =>
    rw [writeAll_cons, String.toList_append]
    exact (h g List.mem_cons_self).append (ih fun g hg => h g (List.mem_cons_of_mem _ hg))

theorem Sound.body {h : Html} (hsound : Sound h) : Body h.write.toList := by
  induction hsound with
  | text s =>
    rw [write]
    exact body_escapeText s
  | lineBreak =>
    have hwritten := Body.lineBreak [] .nil
    simpa [write, openingTag, toString] using hwritten
  | image attributes ha =>
    have hwritten := Body.image _ [] (attributes_write ha) .nil
    simpa [write, openingTag, toString] using hwritten
  | element tag attributes content htag ha _ ih =>
    have hwritten := Body.element _ _ _ [] htag (attributes_write ha) (body_writeAll ih) .nil
    simpa [write, openingTag, toString] using hwritten

-- ----------------------------------------------------------------------------
-- Trimming
-- ----------------------------------------------------------------------------

theorem mem_trimStart {content : List Html} {g : Html} (h : g ∈ trimStart content) :
    g ∈ content ∨ ∃ s, g = .text s := by
  fun_induction trimStart content with
  | case1 s rest hcut ih => exact (ih h).imp_left (List.mem_cons_of_mem _)
  | case2 s rest hcut =>
    rcases List.mem_cons.mp h with rfl | h
    · exact .inr ⟨_, rfl⟩
    · exact .inl (List.mem_cons_of_mem _ h)
  | case3 content hcut => exact .inl h

theorem mem_trimBackwards {content : List Html} {g : Html} (h : g ∈ trimBackwards content) :
    g ∈ content ∨ ∃ s, g = .text s := by
  fun_induction trimBackwards content with
  | case1 s rest hcut ih => exact (ih h).imp_left (List.mem_cons_of_mem _)
  | case2 s rest hcut =>
    rcases List.mem_cons.mp h with rfl | h
    · exact .inr ⟨_, rfl⟩
    · exact .inl (List.mem_cons_of_mem _ h)
  | case3 content hcut => exact .inl h

/-- Trimming cuts texts, and leaves elements alone. -/
theorem mem_trim {content : List Html} {g : Html} (h : g ∈ trim content) :
    g ∈ content ∨ ∃ s, g = .text s := by
  rcases mem_trimBackwards (List.mem_reverse.mp h) with h | htext
  · exact mem_trimStart (List.mem_reverse.mp h)
  · exact .inr htext

theorem sound_trim {content : List Html} (h : ∀ g ∈ content, Sound g) :
    ∀ g ∈ trim content, Sound g := by
  intro g hg
  rcases mem_trim hg with hg | ⟨s, rfl⟩
  · exact h g hg
  · exact .text s

theorem sound_marker (message : String) : Sound (marker message) :=
  .element _ _ _ (by decide) (by simpa using Attribute.sound_of _ _ (by decide))
    (by simpa using Sound.text message)

end Html

-- ----------------------------------------------------------------------------
-- Pieces of output
-- ----------------------------------------------------------------------------

namespace Rendered

def Sound (r : Rendered) : Prop := ∀ h ∈ r.html, Html.Sound h

variable {r : Rendered}

theorem sound_empty : Sound .empty := by simp [Sound, empty]

theorem Sound.join {pieces : List Rendered} (h : ∀ r ∈ pieces, r.Sound) : (join pieces).Sound := by
  intro g hg
  obtain ⟨r, hr, hg⟩ := List.mem_flatMap.mp hg
  exact h r hr g hg

theorem sound_line {h : Html} (hsound : Html.Sound h) (diagnostics : List Diagnostic) :
    Sound ⟨[h, .text "\n"], diagnostics⟩ := by
  intro g hg
  rcases List.mem_cons.mp hg with rfl | hg
  · exact hsound
  · rw [List.mem_singleton.mp hg]
    exact .text _

theorem sound_one {h : Html} (hsound : Html.Sound h) (diagnostics : List Diagnostic) :
    Sound ⟨[h], diagnostics⟩ := by
  simpa [Sound] using hsound

end Rendered

open Rendered (Sound sound_empty sound_line sound_one)

/-- What holds of the name of the element that a macro is rendered to. -/
def Rendering.Tagged (p : String → Prop) : Rendering → Prop
  | .block tag | .inline tag => p tag
  | _ => True

instance (p : String → Prop) [DecidablePred p] (rendering : Rendering) :
    Decidable (rendering.Tagged p) := by
  cases rendering <;> unfold Rendering.Tagged <;> infer_instance

-- ----------------------------------------------------------------------------
-- Tables of contents
-- ----------------------------------------------------------------------------

namespace Contents

theorem sound_label (id : Option String) (label : Html) (h : Html.Sound label) :
    Html.Sound (match id with
      | some id => .element "a" [⟨"href", "#" ++ escapeAttribute id⟩] [label]
      | none => label) := by
  cases id with
  | none => exact h
  | some id =>
    refine .element _ _ _ (by decide) ?_ (by simpa using h)
    intro a ha
    rw [List.mem_singleton.mp ha]
    exact ⟨(by decide : Html.IsName "href".toList), Html.value_anchor id⟩

mutual
theorem renderEntry_sound (e : ContentsEntry) : Html.Sound (renderEntry e) := by
  cases e with
  | entry id title level path children =>
    simp only [renderEntry]
    refine .element _ _ _ (by decide) (by simp) ?_
    intro g hg
    rcases List.mem_cons.mp hg with rfl | hg
    · exact sound_label id _ (.text _)
    · exact renderList_sound children g hg
theorem renderEntries_sound (entries : List ContentsEntry) :
    ∀ g ∈ renderEntries entries, Html.Sound g := by
  cases entries with
  | nil => simp [renderEntries]
  | cons e rest =>
    simp only [renderEntries, List.forall_mem_cons]
    exact ⟨renderEntry_sound e, renderEntries_sound rest⟩
theorem renderList_sound (entries : List ContentsEntry) :
    ∀ g ∈ renderList entries, Html.Sound g := by
  cases entries with
  | nil => simp [renderList]
  | cons e rest =>
    simp only [renderList, List.mem_singleton, forall_eq]
    refine .element _ _ _ (by decide) (by simp) ?_
    rw [List.forall_mem_cons]
    exact ⟨renderEntry_sound e, renderEntries_sound rest⟩
end

theorem render_sound (entries : List ContentsEntry) (diagnostics : List Diagnostic) :
    Sound ⟨render entries, diagnostics⟩ :=
  sound_line (.element _ _ _ (by decide) (by simpa using Html.Attribute.sound_of _ _ (by decide))
    (renderList_sound entries)) diagnostics

end Contents

-- ----------------------------------------------------------------------------
-- Single macros
-- ----------------------------------------------------------------------------

theorem RenderContext.sound_fault (ctx : RenderContext) (position : Position)
    (fault : LinkFault) : (ctx.fault position fault).Sound :=
  sound_one (Html.sound_marker _) _

theorem RenderContext.sound_href {ctx : RenderContext} (h : Html.IsPlain ctx.extension)
    (r : IdRecord) : (ctx.href r).Sound := by
  have hpage : Html.Value (ctx.page r).toList := by
    have hwritten := (Html.value_escapeAttribute r.document).append
      (.char '.' _ (by decide) (by decide) h.value)
    simpa [page, toString] using hwritten
  refine ⟨(by decide : Html.IsName "href".toList), ?_⟩
  simp only [href]
  split
  · exact Html.value_anchor r.id
  · split
    · exact hpage
    · rw [String.toList_append]
      exact hpage.append (Html.value_anchor r.id)

namespace Scene

section
variable {scene : Scene} {ctx : RenderContext} (hextension : Html.IsPlain ctx.extension)
variable (h : ∀ child title, (scene.below child title).Sound)

include h in
theorem argument_sound (name : String) (title : Bool) : (scene.argument name title).Sound := by
  apply Sound.join
  intro r hr
  obtain ⟨child, -, rfl⟩ := List.mem_map.mp hr
  exact h child title

theorem idAttribute_sound : ∀ a ∈ scene.idAttribute, a.Sound := by
  intro a ha
  obtain ⟨id, -, rfl⟩ := Option.map_eq_some_iff.mp (Option.mem_toList.mp ha)
  exact Html.Attribute.sound_of _ _ (by decide)

include h in
theorem caption_sound (hcaption : (scene.caption ctx).1 = some words) :
    ∀ g ∈ words, Html.Sound g := by
  unfold caption at hcaption
  split at hcaption
  · cases hcaption
  · have htitle := Html.sound_trim (argument_sound h "title" scene.inTitle)
    simp only at hcaption
    rw [Option.ite_none_left_eq_some, Option.some.injEq] at hcaption
    obtain ⟨-, rfl⟩ := hcaption
    split
    · exact htitle
    · simpa using Html.Sound.text _
    · simp only [List.forall_mem_cons]
      exact ⟨.text _, .text _, htitle⟩

include h in
theorem captionElement_sound (tag : String) (htag : Html.IsName tag.toList) :
    ∀ g ∈ ((scene.caption ctx).1.map (Html.element tag [])).toList, Html.Sound g := by
  intro g hg
  obtain ⟨words, hwords, rfl⟩ := Option.map_eq_some_iff.mp (Option.mem_toList.mp hg)
  exact .element _ _ _ htag (by simp) (caption_sound h hwords)

include h in
theorem header_sound : (scene.header ctx).Sound := by
  unfold header
  split
  · exact sound_empty
  · refine sound_line (.element _ _ _ ?_ idAttribute_sound (argument_sound h _ _)) _
    generalize min ((Level.parse? (ctx.text scene.call "level")).getD 1) 6 = level
    exact Html.isName_numbered "h" level.toNat (by decide)

include h in
theorem link_sound : (scene.link ctx).Sound := by
  refine sound_one (.element _ _ _ (by decide) ?_ ?_) _
  · simpa using Html.Attribute.sound_of _ _ (by decide)
  · split
    · simpa using Html.Sound.text _
    · exact argument_sound h _ _

include hextension h in
theorem crossReference_sound : (scene.crossReference ctx).Sound := by
  have hlink : ∀ (r : IdRecord) (content : List Html), (∀ g ∈ content, Html.Sound g) →
      Html.Sound (.element "a" [ctx.href r] content) := fun r content hcontent =>
    .element _ _ _ (by decide) (by simpa using ctx.sound_href hextension r) hcontent
  unfold crossReference
  simp only
  split
  · exact ctx.sound_fault _ _
  · split
    · exact sound_one (Html.sound_marker _) _
    · split
      · exact ctx.sound_fault _ _
      · split
        · exact ctx.sound_fault _ _
        · have hcontent : (if scene.call.supplies "content" then
              scene.argument "content" scene.inTitle else .empty).Sound := by
            split
            · exact argument_sound h _ _
            · exact sound_empty
          generalize (if scene.call.supplies "content" then scene.argument "content" scene.inTitle
            else .empty) = content at hcontent ⊢
          split
          · split
            · exact sound_one (hlink _ _ (by simpa using Html.Sound.text _)) _
            · exact ctx.sound_fault (scene.argumentPosition "href") _
          · exact sound_one (hlink _ _ hcontent) _

include h in
theorem code_sound : (scene.code ctx).Sound := by
  have hpre : ∀ attributes, (∀ a ∈ attributes, a.Sound) → Html.Sound (.element "pre" attributes
      [.element "code" [] (scene.argument "content" scene.inTitle).html]) := by
    intro attributes ha
    refine .element _ _ _ (by decide) ha ?_
    simpa using Html.Sound.element "code" [] _ (by decide) (by simp) (argument_sound h _ _)
  unfold code
  cases hcaption : scene.caption ctx with
  | mk caption diagnostics =>
    cases caption with
    | none => exact sound_line (hpre _ idAttribute_sound) _
    | some words =>
      have hwords := caption_sound h (congrArg Prod.fst hcaption)
      refine sound_line (.element _ _ _ (by decide) ?_ ?_) _
      · simpa [or_imp, forall_and] using
          ⟨idAttribute_sound, Html.Attribute.sound_of "class" "code" (by decide)⟩
      · simpa using ⟨Html.Sound.element _ _ _ (by decide) (by simp) hwords, hpre [] (by simp)⟩

include h in
theorem table_sound : (scene.table ctx).Sound := by
  refine sound_line (.element _ _ _ (by decide) idAttribute_sound ?_) _
  intro g hg
  rcases List.mem_append.mp hg with hg | hg
  · exact captionElement_sound h "caption" (by decide) g hg
  · exact argument_sound h _ _ g hg

include h in
theorem image_sound : (scene.image ctx).Sound := by
  refine sound_line (.element _ _ _ (by decide) idAttribute_sound ?_) _
  intro g hg
  rcases List.mem_cons.mp hg with rfl | hg
  · refine .image _ ?_
    simpa using ⟨Html.Attribute.sound_of "src" _ (by decide),
      Html.Attribute.sound_of "alt" _ (by decide)⟩
  · exact captionElement_sound h "figcaption" (by decide) g hg

include hextension in
theorem inclusion_sound : (scene.inclusion ctx).Sound := by
  unfold inclusion
  simp only
  split
  · next record _ =>
    refine sound_line (.element _ _ _ (by decide) ?_ ?_) _
    · simpa using Html.Attribute.sound_of _ _ (by decide)
    · simpa using Html.Sound.element "a" _ _ (by decide)
        (by simpa using ctx.sound_href hextension record) (by simpa using Html.Sound.text _)
  · exact sound_one (Html.sound_marker _) _

include hextension h in
theorem render_sound {rendering : Rendering} (hnamed : rendering.Tagged (Html.IsName ·.toList)) :
    (scene.render ctx rendering).Sound := by
  cases rendering with
  | toplevel => exact argument_sound h _ _
  | header => exact header_sound h
  | block tag => exact sound_line (.element _ _ _ hnamed idAttribute_sound (argument_sound h _ _)) _
  | inline tag => exact sound_one (.element _ _ _ hnamed (by simp) (argument_sound h _ _)) _
  | lineBreak => exact sound_one .lineBreak _
  | link => exact link_sound h
  | crossReference =>
    simp only [render]
    exact crossReference_sound hextension h
  | code => exact code_sound h
  | table => exact table_sound h
  | image => exact image_sound h
  | contents => exact Contents.render_sound _ _
  | inclusion => exact inclusion_sound hextension

end
end Scene

-- ----------------------------------------------------------------------------
-- Whole documents
-- ----------------------------------------------------------------------------

namespace RenderContext

variable {ctx : RenderContext} (hextension : Html.IsPlain ctx.extension)
variable (hnamed : ∀ d ∈ ctx.registry.macros, d.rendering.Tagged (Html.IsName ·.toList))
include hextension hnamed

theorem renderNode_sound (id : NodeId) (node : Node) (below : NodeId → Bool → Rendered)
    (h : ∀ child title, (below child title).Sound) (title : Bool) :
    (ctx.renderNode id node below title).Sound := by
  unfold renderNode
  split
  · exact sound_one (.text _) _
  · exact sound_empty
  · exact sound_one (Html.sound_marker _) _
  · split
    · next definition hget =>
      exact Scene.render_sound hextension h (hnamed _ (List.mem_of_find?_eq_some hget))
    · exact sound_one (Html.sound_marker _) _

theorem render_sound (id : NodeId) : (ctx.render id).Sound :=
  ctx.tree.recurse_induction
    (motive := fun _ (rendered : Bool → Rendered) => ∀ title, (rendered title).Sound)
    (fun _ _ => sound_empty)
    (fun id node below _ hbelow => renderNode_sound hextension hnamed id node below hbelow) id false

theorem body_renderDocument : Html.Body (ctx.renderDocument true).1.toList := by
  have hbody : ctx.body.Sound := by
    unfold body
    split
    · exact sound_empty
    · exact render_sound hextension hnamed _
  exact Html.body_writeAll fun g hg => (hbody g hg).body

end RenderContext

theorem Registry.named_builtin :
    ∀ d ∈ Registry.builtin.macros, d.rendering.Tagged (Html.IsName ·.toList) := by
  show ∀ d ∈ Registry.builtinMacros, d.rendering.Tagged (Html.IsName ·.toList)
  decide

/-- Whatever the author has written and whatever the store holds, the body of
the page is balanced, and all text in it is escaped. -/
theorem compile_balanced (store : Option Store) (options : CompileOptions)
    (hbody : options.bodyOnly = true) (hextension : Html.IsPlain options.extension)
    (source : String) (hdone : (analyze .builtin options.document source).aborted = none) :
    ∃ c, compile (some .builtin) store options source = .ok c ∧ Html.Body c.output.toList := by
  refine ⟨_, compile_ok Registry.check_builtin store _ hdone, ?_⟩
  rw [Analysis.finish, hbody]
  exact RenderContext.body_renderDocument hextension Registry.named_builtin

theorem compile_balanced_quotes : Html.IsPlain "html" ∧ ∃ c,
    compile (some .builtin) (some (Store.empty.update
        (analyze .builtin "zoo" "\\h[1][<Geese>]").contribution).2)
      { bodyOnly := true, document := "\"ducks\"" }
      "\\x[geese] \\C[[a < b && c > d]]\x7btitle= \\b[1 \\< 2] \x7d \\a[?q=\"&\"" = .ok c ∧
    Html.Body c.output.toList :=
  ⟨by decide, compile_balanced _ { bodyOnly := true, document := "\"ducks\"" } rfl (by decide) _
    (by decide +kernel)⟩

end Macromark

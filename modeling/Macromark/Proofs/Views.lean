import Macromark.Proofs.Assembly.Synonyms
import Macromark.Proofs.Assembly.Titles
import Macromark.Proofs.Compile
import Macromark.Proofs.Html.Balance
import Macromark.Proofs.Html.Recursion
import Macromark.Proofs.Outline.Contents

/-!
# The views of a title

The title of a macro is seen in the links to it, in the tables of contents, in its caption and as
the title of the page. The links show the record, which is made when the macro is visited; all else
shows the finished document. They agree where no white space goes (`analyze_titles`). A caption is
rendered, so that it also takes markup that is shown in the words it is read in
(`RenderContext.ShowsWords`).
-/

namespace Macromark

-- ----------------------------------------------------------------------------
-- Words on a page
-- ----------------------------------------------------------------------------

namespace Html

mutual
/-- The characters on the page. A line break is read as one. -/
def chars : Html → List Char
  | text s => s.toList
  | void tag _ => if tag = "br" then ['\n'] else []
  | element _ _ content => charsOf content
def charsOf : List Html → List Char
  | [] => []
  | h :: rest => chars h ++ charsOf rest
end

theorem charsOf_eq (content : List Html) : charsOf content = content.flatMap chars := by
  induction content with
  | nil => rfl
  | cons h rest ih => rw [charsOf, ih, List.flatMap_cons]

@[simp] theorem charsOf_append (first second : List Html) :
    charsOf (first ++ second) = charsOf first ++ charsOf second := by
  simp only [charsOf_eq, List.flatMap_append]

def words (content : List Html) : String := .ofList (charsOf content)

theorem dropWhile_charsOf_trimStart (content : List Html) :
    (charsOf (trimStart content)).dropWhile Text.isSpace =
      (charsOf content).dropWhile Text.isSpace := by
  fun_induction trimStart content with
  | case1 s rest hblank ih =>
    rw [ih, charsOf, chars, List.dropWhile_append, hblank]
    rfl
  | case2 s rest =>
    simp [charsOf, chars, List.dropWhile_append, List.dropWhile_idempotent]
  | case3 => rfl

theorem rdropWhile_charsOf_trimBackwards (content : List Html) :
    (charsOf (trimBackwards content).reverse).rdropWhile Text.isSpace =
      (charsOf content.reverse).rdropWhile Text.isSpace := by
  fun_induction trimBackwards content with
  | case1 s rest hblank ih =>
    have hdropped : s.toList.reverse.dropWhile Text.isSpace = [] :=
      List.reverse_eq_nil_iff.mp hblank
    simp only [List.rdropWhile, List.reverse_inj] at ih ⊢
    simp [ih, charsOf, chars, List.dropWhile_append, hdropped]
  | case2 s rest =>
    simp [charsOf, chars, Text.dropEnd, List.rdropWhile, List.dropWhile_append,
      List.dropWhile_idempotent]
  | case3 => rfl

theorem trimChars_charsOf_trim (content : List Html) :
    Text.trimChars (charsOf (trim content)) = Text.trimChars (charsOf content) := by
  rw [← Text.trimChars_rdropWhile, trim, rdropWhile_charsOf_trimBackwards, List.reverse_reverse,
    Text.trimChars_rdropWhile, ← Text.trimChars_dropWhile, dropWhile_charsOf_trimStart,
    Text.trimChars_dropWhile]

end Html

-- ----------------------------------------------------------------------------
-- Markup
-- ----------------------------------------------------------------------------

/-- A node of a title that is shown in the words it is read in: a text, an emphasis, a line break,
or a link that has words of its own. -/
inductive RenderContext.ShowsWords (ctx : RenderContext) (title : Bool) : NodeId → Prop
  | text {x : NodeId} {words : String} :
      ctx.tree.plaintext? x = some words → ShowsWords ctx title x
  | inline {x : NodeId} {call : MacroCall} {definition : MacroDef} {tag : String} :
      ctx.tree.call? x = some call → ctx.registry.get? call.name = some definition →
      definition.rendering = .inline tag →
      (∀ child ∈ call.children "content", ShowsWords ctx title child) → ShowsWords ctx title x
  | lineBreak {x : NodeId} {call : MacroCall} {definition : MacroDef} :
      ctx.tree.call? x = some call → ctx.registry.get? call.name = some definition →
      definition.rendering = .lineBreak → ShowsWords ctx title x
  | link {x : NodeId} {call : MacroCall} {definition : MacroDef} :
      ctx.tree.call? x = some call → ctx.registry.get? call.name = some definition →
      definition.rendering = .link →
      (ctx.text call "content" = "" → call.children "content" = []) →
      (∀ child ∈ call.children "content", ShowsWords ctx title child) → ShowsWords ctx title x
  | crossReference {x : NodeId} {call : MacroCall} {definition : MacroDef}
      {attributes : List Html.Attribute} {content : List Html} :
      ctx.tree.call? x = some call → ctx.registry.get? call.name = some definition →
      definition.rendering = .crossReference → call.supplies "content" = true →
      ctx.text call "content" ≠ "" →
      (ctx.renderAt x title).html = [.element "a" attributes content] →
      (∀ child ∈ call.children "content", ShowsWords ctx title child) → ShowsWords ctx title x

variable {ctx : RenderContext} {scene : Scene} {x : NodeId} {call : MacroCall}
  {definition : MacroDef} {title : Bool}

theorem Tree.kind?_of_call? {t : Tree} (h : t.call? x = some call) :
    t.kind? x = some (.call call) := by
  obtain ⟨node, hnode, hcall⟩ := Option.bind_eq_some_iff.mp h
  rw [Tree.kind?, hnode, Option.map_some]
  cases hkind : node.kind <;> simp [Node.call?, hkind] at hcall
  rw [hcall]

theorem Tree.Acyclic.plainText_of_call {t : Tree} {registry : Registry} (h : t.Acyclic)
    (hcall : t.call? x = some call) (hdefined : registry.get? call.name = some definition) :
    t.plainText registry x =
      Tree.plainTextOfCall definition.rendering call (t.plainText registry) := by
  have hface : t.face? x = some (.call { call with id := none, count := none }) := by
    rw [Tree.face?, Tree.kind?_of_call? hcall]
    rfl
  rw [h.plainText_eq hface]
  simp only [NodeKind.words, hdefined]
  rfl

theorem Html.charsOf_of_isNothing {content : List Html} (h : isNothing content = true) :
    charsOf content = [] := by
  induction content with
  | nil => rfl
  | cons g rest ih =>
    obtain ⟨hfirst, hrest⟩ := Bool.and_eq_true_iff.mp h
    cases g with
    | text s => simpa [charsOf, chars, ih hrest] using hfirst
    | _ => cases hfirst

namespace Scene

/-- An argument is shown in the words of what stands in it. -/
theorem charsOf_argument (scene : Scene) {name : String} (h : ∀ child ∈ scene.call.children name,
      Html.charsOf (scene.below child title).html =
        (ctx.tree.plainText ctx.registry child).toList) :
    Html.charsOf (scene.argument name title).html = (ctx.text scene.call name).toList := by
  rw [argument, Rendered.join, Html.charsOf_eq, List.flatMap_map, List.flatMap_assoc,
    RenderContext.text, String.toList_join, List.flatMap_map]
  exact List.flatMap_congr fun child hchild => (Html.charsOf_eq _).symm.trans (h child hchild)

/-- The words that the author has given to a link. -/
def ownWords (scene : Scene) : List Html :=
  if scene.call.supplies "content" then (scene.argument "content" scene.inTitle).html else []

/-- A link, if it is one, stands around words of its own, or else around those of its target. -/
theorem html_crossReference (scene : Scene) (ctx : RenderContext) :
    (∃ message, (scene.crossReference ctx).html = [.marker message]) ∨
      ∃ target record named attributes content,
        scene.linkTarget ctx = .target target ∧ ctx.record? target = some record ∧
        (scene.crossReference ctx).html = [.element "a" attributes content] ∧
        (Html.isNothing scene.ownWords = false → content = scene.ownWords) ∧
        (Html.isNothing scene.ownWords = true → ∃ style text,
          linkText (wordsFrom record named) style = .ok text ∧ content = [.text text]) := by
  have hown : scene.ownWords = (if scene.call.supplies "content" then
      scene.argument "content" scene.inTitle else .empty).html := by
    unfold ownWords
    split <;> rfl
  rw [hown]
  unfold crossReference
  simp only
  generalize (if scene.call.supplies "content" then scene.argument "content" scene.inTitle
    else .empty) = own
  split
  · exact .inl ⟨_, rfl⟩
  · split
    · exact .inl ⟨_, rfl⟩
    · next target htarget =>
      split
      · exact .inl ⟨_, rfl⟩
      · next record hrecord =>
        split
        · exact .inl ⟨_, rfl⟩
        · split
          · next hnothing =>
            split
            · next text htext =>
              exact .inr ⟨target, record, _, _, _, htarget, hrecord, rfl, by simp [hnothing],
                fun _ => ⟨_, text, htext, rfl⟩⟩
            · exact .inl ⟨_, rfl⟩
          · next hother =>
            exact .inr ⟨target, record, record, _, _, htarget, hrecord, rfl, fun _ => rfl,
              fun hnothing => absurd hnothing hother⟩

section
variable (hread : Html.charsOf (scene.argument "content" scene.inTitle).html =
  (ctx.text scene.call "content").toList)
include hread

theorem isNothing_of_text_ne (hne : ctx.text scene.call "content" ≠ "") :
    Html.isNothing (scene.argument "content" scene.inTitle).html = false := by
  rw [← Bool.not_eq_true]
  intro hnothing
  rw [Html.charsOf_of_isNothing hnothing] at hread
  exact hne (String.toList_eq_nil_iff.mp hread.symm)

/-- A link shows its words, or else where it leads. -/
theorem charsOf_link
    (hempty : ctx.text scene.call "content" = "" → scene.call.children "content" = []) :
    Html.charsOf (scene.link ctx).html = (if ctx.text scene.call "content" = "" then
      ctx.text scene.call "href" else ctx.text scene.call "content").toList := by
  simp only [link, Rendered.within, Html.charsOf, Html.chars, List.append_nil]
  by_cases hcontent : ctx.text scene.call "content" = ""
  · have hnothing : Html.isNothing (scene.argument "content" scene.inTitle).html = true := by
      rw [argument, hempty hcontent]
      rfl
    simp [hnothing, hcontent, Html.charsOf, Html.chars]
  · rw [isNothing_of_text_ne hread hcontent, if_neg hcontent, ← hread]
    rfl

/-- A cross reference with words of its own shows them, if it is one. -/
theorem charsOf_crossReference {attributes : List Html.Attribute} {content : List Html}
    (hsupplies : scene.call.supplies "content" = true) (hne : ctx.text scene.call "content" ≠ "")
    (hshown : (scene.crossReference ctx).html = [.element "a" attributes content]) :
    Html.charsOf (scene.crossReference ctx).html = (ctx.text scene.call "content").toList := by
  have hown : scene.ownWords = (scene.argument "content" scene.inTitle).html := if_pos hsupplies
  rcases scene.html_crossReference ctx with ⟨message, hmarked⟩ |
    ⟨_, _, _, _, shown, -, -, hlink, hwords, -⟩
  · rw [hmarked] at hshown
    simp [Html.marker] at hshown
  · have hwords := hwords (hown ▸ isNothing_of_text_ne hread hne)
    rw [hlink, hwords, hown, ← hread]
    simp only [Html.charsOf, Html.chars, List.append_nil]

end

end Scene

/-- What a node shows is what is read in it. -/
theorem RenderContext.ShowsWords.charsOf_renderAt (hacyclic : ctx.tree.Acyclic)
    (h : ctx.ShowsWords title x) :
    Html.charsOf (ctx.renderAt x title).html = (ctx.tree.plainText ctx.registry x).toList := by
  induction h with
  | @text x words hwords =>
    have hkind := Tree.kind?_of_plaintext? hwords
    have hface : ctx.tree.face? x = some (.plaintext words) := by rw [Tree.face?, hkind]; rfl
    have hread : ctx.tree.passage id x = .text x words :=
      Assembly.passage_of_plaintext? hacyclic hwords
    rw [render_of_text hacyclic (Assembly.lt_of_plaintext? hwords) hread,
      hacyclic.plainText_eq hface]
    simp [Html.charsOf, Html.chars, NodeKind.words]
  | @inline x call definition tag hcall hdefined hrendering _ ih =>
    obtain ⟨node, hrender⟩ := render_of_call hacyclic hcall hdefined title
    rw [hrender, hrendering, hacyclic.plainText_of_call hcall hdefined, hrendering]
    have hargument := Scene.charsOf_argument ⟨x, node, call, ctx.renderAt, title⟩ ih
    simp only [Scene.render, Rendered.within, Html.charsOf, Html.chars, List.append_nil]
    exact hargument
  | lineBreak hcall hdefined hrendering =>
    obtain ⟨node, hrender⟩ := render_of_call hacyclic hcall hdefined title
    rw [hrender, hrendering, hacyclic.plainText_of_call hcall hdefined, hrendering]
    simp [Scene.render, Html.charsOf, Html.chars, Tree.plainTextOfCall]
  | @link x call definition hcall hdefined hrendering hempty _ ih =>
    obtain ⟨node, hrender⟩ := render_of_call hacyclic hcall hdefined title
    rw [hrender, hrendering, hacyclic.plainText_of_call hcall hdefined, hrendering]
    have hread := Scene.charsOf_argument ⟨x, node, call, ctx.renderAt, title⟩ ih
    exact Scene.charsOf_link hread hempty
  | @crossReference x call definition _ _ hcall hdefined hrendering hsupplies hne hshown _ ih =>
    obtain ⟨node, hrender⟩ := render_of_call hacyclic hcall hdefined title
    rw [hrender, hrendering] at hshown ⊢
    rw [hacyclic.plainText_of_call hcall hdefined, hrendering]
    have hread := Scene.charsOf_argument ⟨x, node, call, ctx.renderAt, title⟩ ih
    rw [Scene.render, Scene.charsOf_crossReference hread hsupplies hne hshown, Tree.plainTextOfCall]
    exact congrArg String.toList (if_neg hne).symm

-- ----------------------------------------------------------------------------
-- Places
-- ----------------------------------------------------------------------------

/-- A title in the words of a link, by itself or in quotes behind a number. The number is enough
where there is no title. -/
def LinkNames (title words : String) : Prop :=
  words = title ∨ ∃ number, words = if title = "" then number else s!"{number}. \"{title}\""

/-- A title in a caption, by itself or behind a number. -/
def CaptionNames (number? : Option String) (title : String) (caption : List Html) : Prop :=
  ∃ number words, caption = number ++ words ∧ Text.trim (Html.words words) = title ∧
    (number = [] ∨ ∃ n ∈ number?, Html.words number = n ∨ Html.words number = n ++ ". ")

/-- The places at which a rendered document shows the title of the macro `x`, which has the
identifier `id`. -/
structure RenderContext.Views (ctx : RenderContext) (x : NodeId) (id title : String) : Prop where
  contents : ∀ e ∈ ContentsEntry.readingAll (Contents.build ctx.registry ctx.tree ctx.headers),
    e.id = some id → e.title = title
  page : Text.isBlank (ctx.tree.argumentText ctx.registry ctx.tree.root "title") = true →
    (ctx.headers.headers.filterMap (·.2.node)).head? = some x →
    Text.trim (Assembly.documentTitle ctx.registry ctx.tree ctx.headers) = title
  /-- A link without words of its own, if it is no mark of a mistake. -/
  link : ∀ scene : Scene, scene.linkTarget ctx = .target id → Html.isNothing scene.ownWords = true →
    (∃ message, (scene.crossReference ctx).html = [.marker message]) ∨
      ∃ attributes words, (scene.crossReference ctx).html = [.element "a" attributes [.text words]] ∧
        LinkNames title words
  caption : ∀ node call inTitle, ctx.tree.get? x = some node → node.kind = .call call →
    (∀ child ∈ call.children "title", ctx.ShowsWords inTitle child) →
    CaptionNames ((ctx.index.record? id).bind (·.numberedCaption?)) title
      ((Scene.caption ⟨x, node, call, ctx.renderAt, inTitle⟩ ctx).1.getD [])

theorem linkNames_of_linkText {r : IdRecord} {style : LinkStyle} {words : String}
    (h : linkText r style = .ok words) : LinkNames (Text.trim r.title) words := by
  unfold linkText at h
  simp only at h
  split at h
  · next number _ =>
    cases h
    exact .inr ⟨number, rfl⟩
  · split at h
    · cases h
    · cases h
      exact .inl rfl

theorem Scene.captionNames_caption {record : IdRecord} {words : String}
    (hrecord : scene.call.id.bind ctx.index.record? = some record)
    (hwords : Text.trim (Html.words (Html.trim (scene.argument "title" scene.inTitle).html)) = words) :
    CaptionNames record.numberedCaption? words ((scene.caption ctx).1.getD []) := by
  unfold caption
  rw [hrecord]
  simp only
  generalize Html.trim (scene.argument "title" scene.inTitle).html = shown at hwords
  cases record.numberedCaption? with
  | none =>
    refine ⟨[], shown, ?_, hwords, .inl rfl⟩
    cases shown <;> rfl
  | some n =>
    cases shown with
    | nil =>
      exact ⟨[.text n], [], rfl, hwords,
        .inr ⟨n, rfl, .inl (by simp [Html.words, Html.charsOf, Html.chars])⟩⟩
    | cons first rest =>
      exact ⟨[.text n, .text ". "], first :: rest, rfl, hwords,
        .inr ⟨n, rfl, .inr (by simp [Html.words, Html.charsOf, Html.chars])⟩⟩

-- ----------------------------------------------------------------------------
-- Documents
-- ----------------------------------------------------------------------------

/-- Where a title is recorded in the words of the finished document, it is shown in them everywhere. -/
theorem analyze_views (document source : String) (store : Option Store) (extension : String)
    {id : String} {x : NodeId} {r : IdRecord}
    (hentry : (analyze .builtin document source).index.entries.get? id = some (x, r)) :
    let a := analyze .builtin document source
    r.title = Text.trim (a.tree.argumentText .builtin x "title") →
      (a.context .builtin store extension).Views x id r.title := by
  intro a htitle
  have hindexed := analyze_indexed Registry.coherent_builtin Registry.check_builtin document source
  have hacyclic : a.tree.Acyclic :=
    (analyze_settlesTo Registry.coherent_builtin document source).acyclic
  have hrecord : a.index.record? id = some r := by rw [Index.record?, hentry, Option.map_some]
  have htrimmed : Text.trim r.title = r.title := by rw [htitle, Text.trim_trim]
  refine ⟨fun e he hid => ?_, fun hblank hfirst => ?_, fun scene htarget hnothing => ?_,
    fun node call inTitle hnode hkind hshows => ?_⟩
  · obtain ⟨header, hlabel, hshown⟩ := Contents.exists_header_of_mem he
    rw [hid] at hlabel
    obtain ⟨y, hy, hgiven⟩ := Option.bind_eq_some_iff.mp hlabel.symm
    obtain ⟨r', hentry'⟩ := hindexed.entered y id hgiven
    obtain rfl := (Prod.mk.inj (Option.some.inj (hentry.symm.trans hentry'))).1
    rw [hshown, hy, htitle]
    rfl
  · rw [Assembly.documentTitle, if_pos hblank, htitle]
    split
    · next first rest hheaders =>
      rw [hheaders] at hfirst
      obtain rfl := Option.some.inj hfirst
      rfl
    · next hnone =>
      rw [hnone] at hfirst
      cases hfirst
  · rcases scene.html_crossReference _ with hmarked |
      ⟨target, record, named, attributes, content, hlinked, hfound, hlink, -, hwords⟩
    · exact .inl hmarked
    · obtain rfl : target = id := by simpa [htarget] using hlinked.symm
      obtain ⟨style, text, htext, rfl⟩ := hwords hnothing
      obtain rfl : record = r := by
        have hown : (a.context .builtin store extension).record? target = some r := by
          rw [RenderContext.record?, show (a.context .builtin store extension).index.record? target =
            some r from hrecord, Option.some_or]
        exact Option.some.inj (hfound.symm.trans hown)
      have hnames : LinkNames (Text.trim (Scene.wordsFrom record named).title) text :=
        linkNames_of_linkText htext
      exact .inr ⟨attributes, text, hlink, htrimmed ▸ hnames⟩
  · have hcall : a.tree.call? x = some call := by
      rw [Tree.call?, show a.tree.get? x = some node from hnode, Option.bind_some, Node.call?, hkind]
    have hid : call.id = some id := by
      have hcarried : a.tree.id? x = some id := congrArg Prod.fst (hindexed.carried id x r hentry).1
      rwa [Tree.id?_eq, hcall, Option.bind_some] at hcarried
    have hfound : (a.context .builtin store extension).index.record? id = some r := hrecord
    rw [hfound, Option.bind_some]
    refine Scene.captionNames_caption (by rw [hid]; exact hrecord) ?_
    have hshown := Scene.charsOf_argument
      ⟨x, node, call, (a.context .builtin store extension).renderAt, inTitle⟩
      fun child hchild => (hshows child hchild).charsOf_renderAt hacyclic
    rw [Text.trim, Html.words, String.toList_ofList, Html.trimChars_charsOf_trim, hshown, htitle,
      Tree.argumentText, hcall]
    rfl

/-- The title of a macro is recorded as it is written. The finished document shows it in the same
letters if every link in it that has a content has words in it, and altogether in the same words if
no white space goes anywhere in it. Then all its views show the same. -/
theorem analyze_titles (document source : String) {id : String} {x : NodeId} {r : IdRecord}
    (hentry : (analyze .builtin document source).index.entries.get? id = some (x, r))
    (hroot : x ≠ (analyze .builtin document source).tree.root) :
    let t := (parse .builtin (tokenize source).tokens).tree
    let a := analyze .builtin document source
    r.title = Text.trim (t.argumentText .builtin x "title") ∧
      (t.InArgument x "title" (Passage.Worded .builtin) →
        Text.letters r.title = Text.letters (a.tree.argumentText .builtin x "title")) ∧
      (t.InArgument x "title" (Passage.Tight .builtin) →
        r.title = Text.trim (a.tree.argumentText .builtin x "title") ∧
          ∀ store extension, (a.context .builtin store extension).Views x id r.title) := by
  intro t a
  obtain ⟨hwritten, hworded, htight⟩ := analyze_titled document source hentry hroot
  refine ⟨hwritten, hworded, fun h => ⟨htight h, fun store extension => ?_⟩⟩
  exact analyze_views document source store extension hentry (htight h)

/-- The title of this document is recorded as `A`, a blank line and `B`, and shown as `AB`. -/
theorem analyze_titles_break : ¬ ∀ document source id x r,
    (analyze .builtin document source).index.entries.get? id = some (x, r) →
    x ≠ (analyze .builtin document source).tree.root →
    r.title = Text.trim ((analyze .builtin document source).tree.argumentText .builtin x "title") := by
  intro hall
  have hentry : ((analyze .builtin "zoo" "\\h[1][A\n\nB]").index.entries.get? "a-b").map
      (fun entry => (entry.1, entry.2.title)) = some (7, "A\n\nB") := by decide +kernel
  obtain ⟨⟨x, r⟩, hentry, heq⟩ := Option.map_eq_some_iff.mp hentry
  obtain ⟨rfl, htitle⟩ := Prod.mk.inj heq
  have hshown := hall "zoo" "\\h[1][A\n\nB]" "a-b" 7 r hentry (by decide +kernel)
  rw [htitle] at hshown
  exact absurd hshown (by decide +kernel)

theorem analyze_titles_goose :
    let source := "\\C[honk]\x7btitle=The \\b[grey] goose\x7d"
    let t := (parse .builtin (tokenize source).tokens).tree
    let a := analyze .builtin "zoo" source
    ∃ x r, a.index.entries.get? "code-the-grey-goose" = some (x, r) ∧ x ≠ a.tree.root ∧
      t.InArgument x "title" (Passage.Worded .builtin) ∧
      t.InArgument x "title" (Passage.Tight .builtin) ∧ r.title = "The grey goose" ∧
      Text.letters r.title = Text.letters (a.tree.argumentText .builtin x "title") ∧
      r.title = Text.trim (a.tree.argumentText .builtin x "title") ∧
      (a.context .builtin none "html").Views x "code-the-grey-goose" "The grey goose" := by
  intro source t a
  have hentry : (a.index.entries.get? "code-the-grey-goose").map (fun entry => (entry.1, entry.2.title)) =
      some (6, "The grey goose") := by decide +kernel
  obtain ⟨⟨x, r⟩, hentry, heq⟩ := Option.map_eq_some_iff.mp hentry
  obtain ⟨rfl, htitle⟩ := Prod.mk.inj heq
  have hroot : 6 ≠ a.tree.root := by decide +kernel
  have ht : t.Acyclic := (analyze_settlesTo Registry.coherent_builtin "zoo" source).before
  have hlt : 6 < t.size := by decide +kernel
  have hnodes : ∀ y ∈ t.preorder 6, t.isParagraphBreak y = false ∧
      (∀ words ∈ t.plaintext? y, Text.isBlank words = true → words = "") ∧
      ∀ name ∈ t.name? y, ∀ d ∈ Registry.builtin.get? name, d.rendering.links = false := by
    decide +kernel
  have hreached : ∀ y, t.Reaches 6 y → y ∈ t.preorder 6 := fun y hy => ht.mem_preorder hlt hy
  have hworded : t.InArgument 6 "title" (Passage.Worded .builtin) :=
    ht.worded hlt fun y hy name d hname hd => (hnodes y (hreached y hy)).2.2 name hname d hd
  have htight : t.InArgument 6 "title" (Passage.Tight .builtin) :=
    ht.tight hlt (fun y hy => (hnodes y (hreached y hy)).1)
      fun y hy words hwords => (hnodes y (hreached y hy)).2.1 words hwords
  obtain ⟨-, hletters, hwords⟩ := analyze_titles "zoo" source hentry hroot
  obtain ⟨hwords, hviews⟩ := hwords htight
  exact ⟨6, r, hentry, hroot, hworded, htight, htitle, hletters hworded, hwords,
    htitle ▸ hviews none "html"⟩

/-- Other markup is rendered in other words: this listing is recorded as `Seegeese`, and its caption
quotes two lines. -/
example : let source := "\\C[honk]\x7btitle=\\Q[See]\\Q[geese]\x7d"
    (compile (some .builtin) none { bodyOnly := true, document := "zoo" } source).toOption.map
      (fun c => (c.output, c.ids.map fun entry => entry.2.title)) =
    some ("<figure id=\"code-seegeese\" class=\"code\"><figcaption>Code 1. " ++
      "<blockquote>See</blockquote>\n<blockquote>geese</blockquote></figcaption>" ++
      "<pre><code>honk</code></pre></figure>\n", ["Seegeese", ""]) := by
  decide +kernel

end Macromark

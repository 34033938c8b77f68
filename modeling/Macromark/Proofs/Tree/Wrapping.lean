import Macromark.Proofs.Tree.Alongside

/-!
# A row in a macro of its own

The tokens of some whole macros are read one time as they are and one time in
the argument of another macro. Then everything that is open is a copy of what is
open in the other document, where that macro is put in the place of the row
(`exists_row`).
-/

namespace Macromark.Parser.State

open Passage (Copy)
open Macromark.Tree (Copies)

variable {registry : Registry} {e : Edit Position} {g : Ground} {s s' : State}

-- ----------------------------------------------------------------------------
-- The end of a document
-- ----------------------------------------------------------------------------

theorem read_settle {token : Token} (hopener : ∀ b, token.kind ≠ .opener b)
    (hname : ∀ name, token.kind = .argumentName name →
      ∀ owner opener, s.expecting ≠ .argumentName owner opener) (isLast : Bool) :
    s.read registry token isLast = s.settle.read registry token isLast := by
  have hsettle : s.settle.read registry token isLast =
      s.settle.readContent registry token isLast := by
    rw [read, expecting_settle, settle_eq (expecting_settle s)]
  rw [hsettle, read]
  cases hx : s.expecting with
  | content => rfl
  | argumentName owner opener =>
    cases hkind : token.kind with
    | argumentName name => exact absurd hx (hname name hkind owner opener)
    | _ => rfl
  | arguments call =>
    cases hkind : token.kind with
    | opener b => exact absurd hkind (hopener b)
    | _ => rfl

theorem readAll_closer (hstack : s.settle.stack ≠ []) (last : Position) :
    s.readAll registry [⟨.closer .positional, last⟩] =
      (s.settle.closeDocument (.closer .positional) last).readAll registry [] := by
  obtain ⟨a, below, hstack⟩ := List.exists_cons_of_ne_nil hstack
  have hread : s.read registry ⟨.closer .positional, last⟩ true =
      s.settle.closeDocument (.closer .positional) last := by
    simp [read, readContent, hstack]
  rw [← hread]
  rfl

/-- The last token closes all that is open above the text of the document. -/
theorem Copied.exists_ground (h : Copied e g s s') :
    ∃ r r', Copied e g r r' ∧ r.settle = r ∧ r'.settle = r' ∧
      r.stack.length = g.below.length + 1 ∧ ∀ last,
        s.readAll registry [⟨.closer .positional, last⟩] =
            r.readAll registry [⟨.closer .positional, last⟩] ∧
          s'.readAll registry [⟨.closer .positional, last⟩] =
            r'.readAll registry [⟨.closer .positional, last⟩] := by
  induction hlength : s.settle.stack.length using Nat.strong_induction_on generalizing s s' with
  | h _ ih =>
    have hsettled := h.settle
    obtain ⟨a, b, below, below', hstack, hstack', htop⟩ := hsettled.stack.top
    have hne : s.settle.stack ≠ [] := by simp [hstack]
    have hne' : s'.settle.stack ≠ [] := by simp [hstack']
    have hagain : s.settle.settle = s.settle := settle_eq (expecting_settle s)
    have hagain' : s'.settle.settle = s'.settle := settle_eq (expecting_settle s')
    rcases htop with ⟨hab, hbelow⟩ | ⟨-, -, hground⟩
    · have hclosed := (hsettled.report a.position b.position (.unclosedArgument a.bracket)
        (.unclosedArgument b.bracket)).close hab hbelow
      have hshorter := length_stack_settle_close
        (s.settle.report a.position (.unclosedArgument a.bracket)) a below
      rw [hstack, List.length_cons] at hlength
      obtain ⟨r, r', hr, hrest, hrest', hheight, hread⟩ := ih _ (by omega) hclosed hshorter
      refine ⟨r, r', hr, hrest, hrest', hheight, fun last => ?_⟩
      obtain ⟨hread, hread'⟩ := hread last
      obtain ⟨c, d, under, under', hunder, hunder', -⟩ := hclosed.settle.stack.top
      rw [readAll_closer hne, readAll_closer hne', ← hread, ← hread',
        readAll_closer (by simp [hunder]), readAll_closer (by simp [hunder'])]
      constructor
      · rw [closeDocument]
        split
        · next hnil => simp [hstack] at hnil
        · next hcons =>
          obtain ⟨rfl, rfl⟩ := List.cons.inj (hstack.symm.trans hcons)
          simp [hab.inner]
      · rw [closeDocument]
        split
        · next hnil => simp [hstack'] at hnil
        · next hcons =>
          obtain ⟨rfl, rfl⟩ := List.cons.inj (hstack'.symm.trans hcons)
          simp [hab.inner]
    · refine ⟨s.settle, s'.settle, hsettled, hagain, hagain', by simp [hstack, hground],
        fun last => ?_⟩
      have hne₂ : s.settle.settle.stack ≠ [] := by rwa [hagain]
      have hne₂' : s'.settle.settle.stack ≠ [] := by rwa [hagain']
      rw [readAll_closer hne, readAll_closer hne', readAll_closer hne₂, readAll_closer hne₂', hagain,
        hagain']
      exact ⟨rfl, rfl⟩

/-- Both parsers are in the text of a document. -/
def textGround (registry : Registry) (d : MacroDef) (name : String) : Ground :=
  let s := opened registry d name
  ⟨s.tree, documentArgument d name, [], s.tree, documentArgument d name, []⟩

variable {d : MacroDef} {name : String}

theorem copied_opened : Copied e (textGround registry d name) (opened registry d name)
    (opened registry d name) := by
  have hempty : Tree.empty.Acyclic := (Tree.loose_empty registry).toGrown.acyclic
  exact ⟨hempty, hempty, .refl _, .refl _, .ground .nil, .content⟩

/-- What the two documents hold in the end. -/
theorem Copied.document (registry : Registry)
    (h : Copied e (textGround registry d name) s s') (last last' : Position) :
    let t := (s.readAll registry [⟨.closer .positional, last⟩]).tree
    let u := (s'.readAll registry [⟨.closer .positional, last'⟩]).tree
    ∃ ps qs, Copy e ps qs ∧
      t.placed t.root = .call .origin MacroName.toplevel false
        (fillSlots .origin d.argumentNames [⟨name, true, ps⟩]) ∧
      t.bare t.root = .call () MacroName.toplevel false
        (fillSlots () d.argumentNames [⟨name, true, ps.map Passage.unmarked⟩]) ∧
      u.bare u.root = .call () MacroName.toplevel false
        (fillSlots () d.argumentNames [⟨name, true, qs⟩]) := by
  obtain ⟨r, r', hr, hsettle, hsettle', hlength, hread⟩ := h.exists_ground
  obtain ⟨ids, others, hids, hstack, hstack'⟩ := hr.stack.of_length hlength
  have hmarked := fun {α : Type} (f : Position → α) =>
    document_marked registry f (hsettle.symm ▸ hr.acyclic) (hsettle.symm ▸ hstack)
      (hsettle.symm ▸ hids.left) last
  rw [hsettle] at hmarked
  refine ⟨ids.map r.tree.placed, others.map r'.tree.bare, hids.copy, ?_, ?_, ?_⟩
  · rw [(hread last).1]
    exact hmarked id
  · have hids : (ids.map r.tree.placed).map Passage.unmarked = ids.map r.tree.bare := by
      rw [List.map_map]
      exact List.map_congr_left fun id hid => hr.acyclic.unmarked_marked _ (hids.left id hid)
    rw [(hread last).1, hids]
    exact hmarked fun _ => ()
  · have hmarked := document_marked registry (fun _ => ()) (hsettle'.symm ▸ hr.acyclic')
      (hsettle'.symm ▸ hstack') (hsettle'.symm ▸ hids.right) last'
    rw [hsettle'] at hmarked
    rw [(hread last').2]
    exact hmarked

-- ----------------------------------------------------------------------------
-- A macro around a row
-- ----------------------------------------------------------------------------

variable {container : String} {row row' : List Token} {within : Position → Prop}

/-- The macro `container` at `here` with what it has got so far. -/
def containerCall (container : String) (d : MacroDef) (here : Position) (arguments : List Argument) :
    OpenCall := ⟨container, here, some d, false, arguments, 1⟩

def containerArgument (container : String) (d : MacroDef) (here opener : Position) : OpenArgument :=
  { owner := some (containerCall container d here []), name := some "content"
    bracket := .positional, position := opener, outermost := false, children := [] }

theorem readOn_container (hget : registry.get? container = some d)
    (hname : d.positional[0]? = some "content") (hstack : s.settle.stack ≠ [])
    (here opener : Position) :
    s.readOn registry [⟨.macroName container, here⟩, ⟨.opener .positional, opener⟩] =
      (s.settle.beginCall registry container here false).enter
        (containerArgument container d here opener) := by
  obtain ⟨a, below, hstack⟩ := List.exists_cons_of_ne_nil hstack
  have hread : s.read registry ⟨.macroName container, here⟩ false =
      s.settle.beginCall registry container here false := by
    simp [read, readContent, hstack]
  rw [readOn_cons, readOn_cons, readOn_nil, hread]
  simp [read, beginCall, hget, openPositional, hname, opensDocument, containerArgument,
    containerCall]

theorem read_container_closer {stack : List OpenArgument} {here opener : Position}
    {others : List NodeId}
    (hstack : s.settle.stack =
      { containerArgument container d here opener with children := others } :: stack)
    (closer : Position) :
    (s.read registry ⟨.closer .positional, closer⟩ false).settle =
      completeCall
        { s.settle with
          stack
          expecting := .arguments (containerCall container d here [⟨"content", others, opener, true⟩]) }
        (containerCall container d here [⟨"content", others, opener, true⟩]) := by
  have hread : s.read registry ⟨.closer .positional, closer⟩ false =
      { s.settle with
        stack
        expecting := .arguments
          (containerCall container d here [⟨"content", others, opener, true⟩]) } := by
    simp [read, readContent, hstack, containerArgument, State.close, containerCall]
  rw [hread, settle]

/-- The row is read from the same place in both documents: the innermost argument that is open, and
the one that `container` opens on it. -/
def rowGround (s s' : State) (a : OpenArgument) (below : List OpenArgument) (container : String)
    (d : MacroDef) (here opener : Position) : Ground :=
  ⟨s.tree, a, below, s'.tree, containerArgument container d here opener, s'.stack⟩

/-- Where the container is complete, it stands for the row. -/
theorem Copied.wrap {inner : Edit Position} {a : OpenArgument} {below : List OpenArgument}
    {here opener : Position} {r r' : State} {ids others : List NodeId} (h : Copied e g s s')
    (hstack : s.stack = a :: below)
    (hinner : Copied inner (rowGround s s' a below container d here opener) r r')
    (hr : r.expecting = .content) (hr' : r'.expecting = .content)
    (hids : Copies inner r.tree r'.tree ids others)
    (hleft : r.stack = { a with children := a.children ++ ids } :: below)
    (hright : r'.stack =
      { containerArgument container d here opener with children := others } :: s'.stack)
    (hrow : e.swap (ids.map r.tree.placed) [Passage.enclosing container d (others.map r'.tree.bare)])
    (closer : Position) :
    Copied e g r (r'.read registry ⟨.closer .positional, closer⟩ false).settle := by
  have hwithin : Within r'.tree [⟨"content", others, opener, true⟩] := by
    simpa [Within] using hids.right
  obtain ⟨hextends, hacyclic, hlt, hmade⟩ :=
    pushCall_marked (fun _ => ()) container here d.argumentNames hinner.acyclic' hwithin
  rw [read_container_closer (by rw [settle_eq hr', hright]), settle_eq hr', State.completeCall]
  simp only [containerCall]
  generalize fillArguments here d.argumentNames [⟨"content", others, opener, true⟩] r'.tree = filled
    at hextends hacyclic hlt hmade ⊢
  generalize hpushed : filled.2.pushCall { name := container, arguments := filled.1 } here = made
    at hextends hacyclic hlt hmade ⊢
  have hgrow : Tree.Growth s.tree s'.tree r.tree made.2 :=
    ⟨hinner.grown, hinner.grown'.trans hextends, ⟨h.acyclic, hinner.acyclic⟩,
      ⟨h.acyclic', hacyclic⟩⟩
  have hcopies : Copies e r.tree made.2 ids [made.1] := by
    refine ⟨hids.left, by simpa using hlt, ?_⟩
    have hswap : Copy e (ids.map r.tree.placed ++ []) ([_] ++ []) := .swap hrow .nil
    rw [List.append_nil, List.append_nil] at hswap
    rwa [List.map_singleton, show made.2.bare made.1 = _ from hmade]
  obtain ⟨b, c, under, under', hb, hc, hmore⟩ := (h.stack.grow hgrow).deliver hcopies
  obtain ⟨rfl, rfl⟩ := List.cons.inj (hstack.symm.trans hb)
  unfold State.deliver
  simp only [hc]
  refine ⟨hinner.acyclic, hacyclic, h.grown.trans hgrow.left, h.grown'.trans hgrow.right, ?_, ?_⟩
  · rw [hleft]
    exact hmore
  · rw [hr]
    exact .content

/-- The tokens of a row add some passages to the innermost argument. Where they are read in the
container instead, the container is added. -/
theorem exists_row {e₀ : Edit Position} {g₀ : Ground} (h₀ : Copied e₀ g₀ s s')
    (hget : registry.get? container = some d) (hname : d.positional[0]? = some "content")
    (hbegins : ∃ name position rest, row = ⟨.macroName name, position⟩ :: rest)
    (hkinds : row'.map (·.kind) = row.map (·.kind)) (hbalanced : Balanced (row.map (·.kind)))
    (hplace : ∀ token ∈ row, token.kind.MakesNode → within token.position)
    (here opener closer : Position) : ∃ ps : List (Passage Position),
      (∀ p ∈ ps, within p.mark) ∧
      (∀ owner position, (s.readOn registry row).expecting ≠ .argumentName owner position) ∧
      ∀ e g, Copied e g s s' →
        e.swap ps [Passage.enclosing container d (ps.map Passage.unmarked)] →
        Copied e g (s.readOn registry row).settle
          (s'.readOn registry ([⟨.macroName container, here⟩, ⟨.opener .positional, opener⟩] ++
            row' ++ [⟨.closer .positional, closer⟩])).settle := by
  have hs := h₀.settle
  obtain ⟨a, b, below, below', hstack, hstack', -⟩ := hs.stack.top
  let inner : Edit Position := ⟨fun _ _ => False, within⟩
  let r := (s'.settle.beginCall registry container here false).enter
    (containerArgument container d here opener)
  have hbegin : Copied inner (rowGround s.settle s'.settle a below container d here opener)
      s.settle r := by
    refine ⟨hs.acyclic, hs.acyclic', .refl _, .refl _, ?_, ?_⟩
    · have hground := Stacks.ground (g := rowGround s.settle s'.settle a below container d here opener)
        (Copies.nil (e := inner) (t := s.settle.tree) (u := r.tree))
      simp only [List.append_nil, rowGround] at hground
      rw [hstack]
      exact hground
    · rw [expecting_settle]
      exact .content
  have hagain : s.settle.settle = s.settle := settle_eq (expecting_settle s)
  obtain ⟨hrow, hlength⟩ := hbegin.readOn_balanced registry (n := 0) (m := 0)
    (by simp [hagain, hstack, rowGround]) hkinds hplace hbalanced
  have hread : s.readOn registry row = s.settle.readOn registry row := by
    obtain ⟨name, position, rest, rfl⟩ := hbegins
    rw [readOn_cons, readOn_cons, read_settle (by simp) (by simp)]
  have hread' : s'.readOn registry ([⟨.macroName container, here⟩, ⟨.opener .positional, opener⟩] ++
      row' ++ [⟨.closer .positional, closer⟩]) =
        (r.readOn registry row').read registry ⟨.closer .positional, closer⟩ false := by
    rw [readOn_append, readOn_append, readOn_container hget hname (by simp [hstack'])]
    rfl
  have hsettled := hrow.settle
  obtain ⟨ids, others, hids, hleft, hright⟩ := hsettled.stack.of_length hlength
  have hnowhere : ∀ p : Passage Position, p.Outside fun _ => False := fun _ _ _ => id
  have hothers := hids.copy.eq_unmarked (fun _ _ => False.elim) fun p _ => hnowhere p
  rw [hread, hread']
  refine ⟨ids.map (s.settle.readOn registry row).settle.tree.placed, fun p hp => ?_,
    fun owner position hexpecting => ?_, fun e g h hswap => ?_⟩
  · exact ((hids.copy.mem p hp).resolve_right fun ⟨_, _, hrow, _⟩ => hrow).1
  · have hle := hrow.stack.length_le
    rw [settle, hexpecting, length_stack_openNamed] at hlength
    omega
  · rw [← hothers] at hswap
    rw [read_settle (by simp) (by simp)]
    exact h.settle.wrap hstack hsettled (expecting_settle _) (expecting_settle _) hids hleft hright
      hswap closer

-- ----------------------------------------------------------------------------
-- Two documents
-- ----------------------------------------------------------------------------

theorem expecting_read_closer (s : State) (b : Bracket) (closer : Position) (owner : Option OpenCall)
    (opener : Position) :
    (s.read registry ⟨.closer b, closer⟩ false).expecting ≠ .argumentName owner opener := by
  have hread : s.read registry ⟨.closer b, closer⟩ false =
      s.settle.readContent registry ⟨.closer b, closer⟩ false := by
    simp [read]
  have hclose : ∀ (r : State) a below, (r.close a below).expecting ≠ .argumentName owner opener := by
    intro r a below
    unfold State.close
    cases a.owner <;> simp [content]
  rw [hread, readContent]
  split
  · simp [report, expecting_settle]
  · simp only [Bool.false_eq_true, if_false]
    split
    · simp [report, expecting_settle]
    · split
      · exact hclose _ _ _
      · exact hclose _ _ _

/-- Where no argument follows, a macro may be completed before the next token comes. -/
theorem readAll_behind {back : List Token} (last : Position)
    (hopener : ∀ token ∈ back.head?, ∀ b, token.kind ≠ .opener b)
    (hexpecting : ∀ owner opener, s.expecting ≠ .argumentName owner opener) :
    s.readAll registry (back ++ [⟨.closer .positional, last⟩]) =
      (s.settle.readOn registry back).readAll registry [⟨.closer .positional, last⟩] := by
  rw [← readAll_append back (by simp)]
  cases back with
  | nil =>
    rw [List.nil_append, readAll, read_settle (by simp) (by simp)]
    rfl
  | cons token rest =>
    rw [List.cons_append, readAll, readAll, read_settle (hopener token rfl) fun _ _ => hexpecting]

section Documents

variable {front back front' back' : List Token}

/-- The two documents differ in the row and the container only. -/
theorem exists_copy (registry : Registry) (top : MacroDef) (name : String)
    (hget : registry.get? container = some d)
    (hname : d.positional[0]? = some "content")
    (hfront : front'.map (·.kind) = front.map (·.kind))
    (hrow : row'.map (·.kind) = row.map (·.kind))
    (hback : back'.map (·.kind) = back.map (·.kind))
    (hbegins : ∃ name position rest, row = ⟨.macroName name, position⟩ :: rest)
    (hbalanced : Balanced (row.map (·.kind)))
    (hbehind : ∀ token ∈ back.head?, ∀ b, token.kind ≠ .opener b)
    (hwithin : ∀ token ∈ row, token.kind.MakesNode → within token.position)
    (hapart : ∀ token ∈ front ++ back, token.kind.MakesNode → ¬ within token.position)
    (here opener closer last last' : Position) :
    let t := ((opened registry top name).readAll registry
      (front ++ row ++ back ++ [⟨.closer .positional, last⟩])).tree
    let u := ((opened registry top name).readAll registry
      (front' ++ ([⟨.macroName container, here⟩, ⟨.opener .positional, opener⟩] ++ row' ++
        [⟨.closer .positional, closer⟩]) ++ back' ++ [⟨.closer .positional, last'⟩])).tree
    ∃ members ps qs, (∀ p ∈ members, within p.mark) ∧
      Copy (Edit.enclosing within members container d) ps qs ∧
      t.placed t.root = .call .origin MacroName.toplevel false
        (fillSlots .origin top.argumentNames [⟨name, true, ps⟩]) ∧
      t.bare t.root = .call () MacroName.toplevel false
        (fillSlots () top.argumentNames [⟨name, true, ps.map Passage.unmarked⟩]) ∧
      u.bare u.root = .call () MacroName.toplevel false
        (fillSlots () top.argumentNames [⟨name, true, qs⟩]) := by
  have houtermost : (textGround registry top name).argument.outermost = true ∧
      (textGround registry top name).argument'.outermost = true := ⟨rfl, rfl⟩
  have hbegun : ∀ swap, Copied ⟨swap, fun position => ¬ within position⟩
      (textGround registry top name) ((opened registry top name).readOn registry front)
      ((opened registry top name).readOn registry front') := fun swap =>
    copied_opened.readOn registry hfront (fun token htoken => hapart token (List.mem_append_left _ htoken))
      houtermost
  obtain ⟨members, hmembers, hexpecting, hwrap⟩ := exists_row (hbegun fun _ _ => False) hget hname
    hbegins hrow hbalanced hwithin here opener closer
  have hwrapped : Copied (Edit.enclosing within members container d) (textGround registry top name) _ _ :=
    (hwrap _ _ (hbegun _) ⟨rfl, rfl⟩).readOn registry hback
      (fun token htoken => hapart token (List.mem_append_right _ htoken)) houtermost
  obtain ⟨ps, qs, hcopy, ht, ht', hu⟩ := hwrapped.document registry last last'
  have hbehind' : ∀ token ∈ back'.head?, ∀ b, token.kind ≠ .opener b := by
    have hheads := congrArg List.head? hback
    rw [List.head?_map, List.head?_map] at hheads
    cases hhead : back.head? <;> cases hhead' : back'.head? <;> simp_all
  have hclosed : ∀ owner position,
      (((opened registry top name).readOn registry front').readOn registry
        ([⟨.macroName container, here⟩, ⟨.opener .positional, opener⟩] ++ row' ++
          [⟨.closer .positional, closer⟩])).expecting ≠ .argumentName owner position := by
    intro owner position
    rw [readOn_append]
    exact expecting_read_closer _ _ _ _ _
  refine ⟨members, ps, qs, hmembers, hcopy, ?_⟩
  rw [← and_assoc]
  constructor
  · rw [List.append_assoc, readAll_append _ (by simp), readOn_append,
      readAll_behind last hbehind hexpecting]
    exact ⟨ht, ht'⟩
  · rw [List.append_assoc, readAll_append _ (by simp), readOn_append,
      readAll_behind last' hbehind' hclosed]
    exact hu

end Documents
end Macromark.Parser.State

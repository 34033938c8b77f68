import Macromark.Proofs.Token.Positions
import Macromark.Proofs.Tree.Parsed
import Mathlib.Data.List.Nodup
import Mathlib.Data.List.Pairwise

/-!
# What only one macro has

The footprint of a macro are its own position and those of its arguments. An
argument that the author left out has the position of its macro, and any other
one that of its opener, so that the footprints of a document have nothing in
common (`footprint_unique`). Only the macro around the document is left out: it
stands in no text.

The parser takes every position of a macro or an argument from a token, and
from no other token than that (`Footed`).
-/

namespace Macromark

def footprint (name : String) (position : Position) (arguments : List Argument) : List Position :=
  if name = MacroName.toplevel then []
  else position :: (arguments.map (·.position)).filter (· ≠ position)

theorem position_mem_footprint {name : String} (hname : name ≠ MacroName.toplevel)
    (position : Position) (arguments : List Argument) :
    position ∈ footprint name position arguments := by
  simp [footprint, hname]

theorem argument_mem_footprint {name : String} {position : Position} {arguments : List Argument}
    {argument : Argument} (hname : name ≠ MacroName.toplevel) (h : argument ∈ arguments) :
    argument.position ∈ footprint name position arguments := by
  rw [footprint, if_neg hname, List.mem_cons, List.mem_filter]
  by_cases hposition : argument.position = position
  · exact .inl hposition
  · exact .inr ⟨List.mem_map_of_mem h, by simpa using hposition⟩

namespace Tree

variable {t u : Tree} {id a b : NodeId} {p : Position}

def footprint (t : Tree) (id : NodeId) : List Position :=
  ((t.call? id).map fun call => Macromark.footprint call.name (t.position id) call.arguments).getD []

def footprints (t : Tree) : List Position := (List.range t.size).flatMap t.footprint

theorem footprint_of_call? {call : MacroCall} (h : t.call? id = some call) :
    t.footprint id = Macromark.footprint call.name (t.position id) call.arguments := by
  simp [footprint, h]

theorem lt_of_mem_footprint (h : p ∈ t.footprint id) : id < t.size := by
  unfold footprint at h
  cases hcall : t.call? id with
  | none => simp [hcall] at h
  | some call => exact lt_of_call? hcall

theorem Kept.footprint (h : t.Kept u) (hid : id < t.size) : u.footprint id = t.footprint id := by
  have hframe : ∀ t : Tree, t.footprint id = ((t.frame? id).map fun call =>
      Macromark.footprint call.name (t.position id) call.arguments).getD [] := by
    intro t
    rw [Tree.footprint, frame?_eq]
    cases t.call? id <;> simp [Macromark.footprint, Function.comp_def]
  rw [hframe, hframe, h.frame? hid, h.position hid]

/-- A new node has the only new footprint. -/
theorem Kept.footprints (h : t.Kept u) (hsize : u.size = t.size + 1) :
    u.footprints = t.footprints ++ u.footprint t.size := by
  have hold : (List.range t.size).flatMap u.footprint = t.footprints :=
    List.flatMap_congr fun id hid => h.footprint (List.mem_range.mp hid)
  rw [Tree.footprints, hsize, List.range_succ, List.flatMap_append, hold]
  simp

theorem footprints_push (t : Tree) (kind : NodeKind) (hkind : ∀ call, kind ≠ .call call)
    (position : Position) : (t.push kind position).2.footprints = t.footprints := by
  have hcall : Node.call? ⟨kind, position, none⟩ = none := by
    cases kind <;> simp [Node.call?] at hkind ⊢
  rw [(t.kept_push kind position).footprints (by simp), footprint, call?_push, if_pos rfl, hcall]
  simp

theorem footprints_pushCall (t : Tree) (call : MacroCall) (position : Position) :
    (t.pushCall call position).2.footprints =
      t.footprints ++ Macromark.footprint call.name position call.arguments := by
  have hcall : (t.pushCall call position).2.call? t.size = some call := by
    rw [call?_pushCall, if_pos rfl]
  have hposition := t.position_pushCall call position
  rw [(t.kept_pushCall call position).footprints (by simp), footprint_of_call? hcall, hposition]

theorem eq_of_mem_footprint (h : t.footprints.Nodup) (ha : p ∈ t.footprint a)
    (hb : p ∈ t.footprint b) : a = b := by
  by_contra hne
  have : Std.Symm (Function.onFun List.Disjoint t.footprint) := ⟨fun _ _ h _ hx hy => h hy hx⟩
  have hdisjoint := (List.nodup_flatMap.mp h).2.forall (List.mem_range.mpr (lt_of_mem_footprint ha))
    (List.mem_range.mpr (lt_of_mem_footprint hb)) hne
  exact hdisjoint ha hb

end Tree

-- ----------------------------------------------------------------------------
-- What the parser has read
-- ----------------------------------------------------------------------------

namespace OpenCall

variable (call : OpenCall) (arguments : List Argument) (position : Position)

def footprint : List Position :=
  if call.name = MacroName.toplevel then []
  else call.position :: call.arguments.map (·.position)

/-- The same with an argument that is open at a position. -/
def opened (position : Position) : List Position :=
  if call.name = MacroName.toplevel then [] else position :: call.footprint

theorem opened_le (p : Position) :
    (call.opened position).count p ≤ call.footprint.count p + [position].count p := by
  unfold opened
  split
  · exact Nat.zero_le _
  · refine Nat.le_of_eq ?_
    rw [List.count_cons, List.count_singleton]

/-- An argument that is closed may go to its macro. -/
theorem footprint_closed
    (h : ∀ p, (arguments.map (·.position)).count p ≤
      (call.arguments.map (·.position)).count p + [position].count p) (p : Position) :
    (footprint { call with arguments }).count p ≤ (call.opened position).count p := by
  have hp := h p
  simp only [footprint, opened]
  split
  · exact Nat.le_refl _
  · simp only [List.count_cons, List.count_nil] at hp ⊢
    omega

end OpenCall

namespace Parser

theorem fillArguments_footprints (position : Position) (names : List String)
    (written : List Argument) (tree : Tree) :
    (fillArguments position names written tree).2.footprints = tree.footprints ∧
      ∀ p ≠ position, ((fillArguments position names written tree).1.map (·.position)).count p ≤
        (written.map (·.position)).count p := by
  induction names generalizing written tree with
  | nil => exact ⟨rfl, by simp [fillArguments]⟩
  | cons name names ih =>
    unfold fillArguments
    split
    · next argument others htake =>
      obtain ⟨hperm, -⟩ := takeArgument_perm htake
      obtain ⟨hfootprints, hcount⟩ := ih others tree
      refine ⟨hfootprints, fun p hp => ?_⟩
      have hrest := hcount p hp
      rw [← (hperm.map (·.position)).count_eq]
      simp only [List.map_cons, List.count_cons]
      omega
    · obtain ⟨hfootprints, hcount⟩ := ih written (tree.push (.plaintext "") position).2
      refine ⟨hfootprints.trans (tree.footprints_push (.plaintext "") (by simp) position), fun p hp => ?_⟩
      have hrest := hcount p hp
      simp only [List.map_cons, List.count_cons, beq_iff_eq, Ne.symm hp, if_false]
      exact hrest

namespace Expecting

def footprint : Expecting → List Position
  | .content => []
  | .arguments call => call.footprint
  | .argumentName owner opener => (owner.map (·.opened opener)).getD []

@[simp] theorem footprint_content : footprint .content = [] := rfl

@[simp] theorem footprint_arguments (call : OpenCall) :
    footprint (.arguments call) = call.footprint := rfl

@[simp] theorem footprint_argumentName (owner : Option OpenCall) (opener : Position) :
    footprint (.argumentName owner opener) = (owner.map (·.opened opener)).getD [] := rfl

end Expecting

namespace State

def footprints (s : State) : List Position :=
  s.tree.footprints ++ (s.expecting.footprint ++
    s.stack.flatMap fun a => (a.owner.map (·.opened a.position)).getD [])

/-- Every footprint was read, and no position is in more of them than it was read. -/
def Footed (seen : List Position) (s : State) : Prop :=
  ∀ p, s.footprints.count p ≤ seen.count p

variable {s t : State} {seen : List Position} {call : OpenCall} {a : OpenArgument}
variable {below : List OpenArgument} {registry : Registry}

theorem Footed.frame (h : s.Footed seen) (hle : ∀ p, t.footprints.count p ≤ s.footprints.count p) :
    t.Footed seen := fun p => Nat.le_trans (hle p) (h p)

theorem Footed.report (h : s.Footed seen) (position : Position) (problem : Problem) :
    (s.report position problem).Footed seen := h

theorem Footed.deliver (h : s.Footed seen) (nodes : List NodeId) : (s.deliver nodes).Footed seen := by
  unfold State.deliver
  split
  · next hstack =>
    refine h.frame fun p => ?_
    simp [State.footprints, hstack]
  · exact h

theorem Footed.content (h : s.Footed seen) : s.content.Footed seen := by
  refine h.frame fun p => ?_
  simp only [State.footprints, State.content, Expecting.footprint_content, List.count_append,
    List.count_nil]
  omega

theorem Footed.leaf (h : s.Footed seen) (kind : NodeKind) (hkind : ∀ call, kind ≠ .call call)
    (position : Position) : (s.leaf kind position).Footed seen := by
  rw [leaf_eq]
  refine Footed.deliver (h.frame fun p => ?_) _
  simp [State.footprints, s.tree.footprints_push kind hkind]

theorem Footed.completeCall (h : s.Footed seen) (hcall : s.expecting = .arguments call) :
    (s.completeCall call).Footed seen := by
  unfold State.completeCall
  split
  · exact ((h.report _ _).leaf (.error _) (by simp) _).content
  · next definition hdefinition =>
    obtain ⟨hfootprints, hcount⟩ := fillArguments_footprints call.position definition.argumentNames
      call.arguments s.tree
    generalize fillArguments call.position definition.argumentNames call.arguments s.tree = filled
      at hfootprints hcount
    simp only
    rw [content_deliver]
    refine Footed.content (Footed.deliver (h.frame fun p => ?_) _)
    have hmade : (footprint call.name call.position filled.1).count p ≤ call.footprint.count p := by
      unfold footprint OpenCall.footprint
      split
      · exact Nat.le_refl _
      · rw [List.count_cons, List.count_cons]
        refine Nat.add_le_add_right ?_ _
        by_cases hp : p = call.position
        · rw [List.count_eq_zero.mpr (by simp [hp])]
          exact Nat.zero_le _
        · rw [List.count_filter (by simpa using hp)]
          exact hcount p hp
    simp only [State.footprints, State.content, Tree.footprints_pushCall, hfootprints, hcall,
      Expecting.footprint_content, Expecting.footprint_arguments, List.count_append, List.count_nil]
    omega

theorem Footed.enter (h : s.Footed seen) (more : List Position)
    (hle : ∀ p, ((a.owner.map (·.opened a.position)).getD []).count p ≤
      s.expecting.footprint.count p + more.count p) :
    (s.enter a).Footed (seen ++ more) := by
  intro p
  have hold := h p
  have hnew := hle p
  simp only [State.footprints, State.enter, Expecting.footprint_content, List.flatMap_cons,
    List.count_append, List.count_nil] at hold ⊢
  omega

theorem Footed.openPositional (h : s.Footed seen) (hcall : s.expecting = .arguments call)
    (position : Position) (more : List Position)
    (hle : ∀ p, (call.opened position).count p ≤ call.footprint.count p + more.count p) :
    (s.openPositional call position).Footed (seen ++ more) := by
  have henter : ∀ t : State, t.Footed seen → t.expecting = s.expecting → ∀ name,
      (t.enter { owner := some { call with positionals := call.positionals + 1 }
                 name, bracket := .positional, position
                 outermost := opensDocument call, children := [] }).Footed (seen ++ more) := by
    intro t ht hexpecting name
    refine ht.enter more fun p => ?_
    rw [hexpecting, hcall]
    exact hle p
  unfold State.openPositional
  simp only
  split
  · exact henter s h rfl _
  · split
    · exact henter s h rfl _
    · exact henter _ (h.report _ _) rfl _

theorem Footed.openNamed {owner : Option OpenCall} {opener : Position} (h : s.Footed seen)
    (hexpecting : s.expecting = .argumentName owner opener) (name : String) :
    (s.openNamed owner opener name).Footed seen := by
  have henter : ∀ t : State, t.Footed seen → t.expecting = s.expecting → ∀ outermost slot,
      (t.enter { owner, name := slot, bracket := .named, position := opener, outermost,
                 children := [] }).Footed seen := by
    intro t ht hexpecting' outermost slot
    rw [← List.append_nil seen]
    refine ht.enter [] fun p => ?_
    rw [hexpecting', hexpecting, Expecting.footprint_argumentName]
    exact Nat.le_refl _
  unfold State.openNamed
  simp only
  split
  · exact henter s h rfl _ _
  · split
    · exact henter s h rfl _ _
    · split
      · exact henter _ (h.report _ _) rfl _ _
      · split
        · exact henter _ (h.report _ _) rfl _ _
        · exact henter s h rfl _ _

theorem Footed.close (h : s.Footed seen) (hstack : s.stack = a :: below) :
    (s.close a below).Footed seen := by
  have hdropped : Footed seen { s with stack := below } := by
    refine h.frame fun p => ?_
    simp only [State.footprints, hstack, List.flatMap_cons, List.count_append]
    omega
  unfold State.close
  simp only
  split
  · exact (hdropped.deliver _).content
  · next call howner =>
    refine h.frame fun p => ?_
    simp only [State.footprints, hstack, howner, Expecting.footprint_arguments, List.flatMap_cons,
      Option.map_some, Option.getD_some, List.count_append]
    cases a.name with
    | none =>
      have hclosed := call.footprint_closed call.arguments a.position
        (fun p => Nat.le_add_right _ _) p
      simp only
      omega
    | some name =>
      have hclosed := call.footprint_closed
        (call.arguments ++ [⟨name, a.children, a.position, true⟩]) a.position (fun p => by simp) p
      simp only
      omega

theorem Footed.settle (h : s.Footed seen) : s.settle.Footed seen := by
  unfold State.settle
  split
  · next call hcall => exact h.completeCall hcall
  · next owner opener hexpecting => exact h.openNamed hexpecting _
  · exact h

theorem Footed.closeDocument (h : s.Footed seen) (closer : TokenKind) (position : Position) :
    (s.closeDocument closer position).Footed seen := by
  fun_induction State.closeDocument s closer position with
  | case1 s => exact h.report position _
  | case2 s a below hstack => exact h.close hstack
  | case3 s a below hstack _ ih => exact ih ((h.report _ _).close hstack).settle

theorem Footed.finish (h : s.Footed seen) : s.finish.Footed seen := by
  fun_induction State.finish s with
  | case1 => exact h
  | case2 s a below hstack ih => exact ih ((h.report _ _).close hstack).settle

theorem Footed.mono (h : s.Footed seen) (more : List Position) : s.Footed (seen ++ more) := by
  intro p
  have hp := h p
  rw [List.count_append]
  omega

/-- A token that begins something may be waited for. -/
theorem Footed.expect (h : s.Footed seen) (expecting : Expecting) (more : List Position)
    (hle : ∀ p, expecting.footprint.count p ≤ s.expecting.footprint.count p + more.count p) :
    Footed (seen ++ more) { s with expecting } := by
  intro p
  have hold := h p
  have hnew := hle p
  simp only [State.footprints, List.count_append] at hold ⊢
  omega

theorem Footed.beginCall (h : s.Footed seen) (registry : Registry) (name : String)
    (position : Position) (isRoot : Bool) :
    (s.beginCall registry name position isRoot).Footed (seen ++ [position]) := by
  refine Footed.expect (s := { s with trace := _ }) h (.arguments _) [position] fun p => ?_
  rw [Expecting.footprint_arguments, OpenCall.footprint]
  split
  · exact Nat.zero_le _
  · exact Nat.le_add_left _ _

theorem Footed.readContent (h : s.Footed seen) (registry : Registry) (token : Token) (isLast : Bool) :
    (s.readContent registry token isLast).Footed (seen ++ token.start?.toList) := by
  unfold State.readContent
  split
  · exact (h.report _ _).mono _
  · next a below hstack =>
    split
    · exact (h.leaf (.plaintext _) (by simp) _).mono _
    · exact (h.leaf .paragraphBreak (by simp) _).mono _
    · next name hkind =>
      have hstart : token.start? = some token.position := by rw [Token.start?, hkind]
      rw [hstart]
      exact h.beginCall _ _ _ _
    · exact (h.report _ _).mono _
    · exact (h.report _ _).enter _ fun p => Nat.zero_le _
    · exact (h.report _ _).expect _ _ fun p => Nat.zero_le _
    · split
      · exact (h.closeDocument _ _).mono _
      · split
        · exact (h.report _ _).mono _
        · split
          · exact (h.close hstack).mono _
          · exact ((h.report _ _).close hstack).mono _

theorem Footed.read (h : s.Footed seen) (registry : Registry) (token : Token) (isLast : Bool) :
    (s.read registry token isLast).Footed (seen ++ token.start?.toList) := by
  unfold State.read
  split
  · next call hcall hkind =>
    have hstart : token.start? = some token.position := by rw [Token.start?, hkind]
    rw [hstart]
    exact h.openPositional hcall _ _ (call.opened_le _)
  · next call hcall hkind =>
    have hstart : token.start? = some token.position := by rw [Token.start?, hkind]
    rw [hstart]
    refine h.expect _ _ fun p => ?_
    rw [hcall]
    exact call.opened_le token.position p
  · next owner opener name hexpecting _ => exact (h.openNamed hexpecting _).mono _
  · exact h.settle.readContent _ _ _

theorem Footed.readAll (h : s.Footed seen) (registry : Registry) (tokens : List Token) :
    (s.readAll registry tokens).Footed (seen ++ Token.starts tokens) := by
  induction tokens generalizing s seen with
  | nil =>
    simp only [Token.starts, List.filterMap_nil, List.append_nil]
    exact h.settle.finish
  | cons token rest ih =>
    have hstarts : Token.starts (token :: rest) = token.start?.toList ++ Token.starts rest := by
      cases hstart : token.start? <;> simp [Token.starts, hstart]
    rw [hstarts, ← List.append_assoc]
    exact ih (h.read registry token rest.isEmpty)

end State
end Parser

/-- What the author wrote has its positions for itself. -/
theorem footprint_unique (registry : Registry) (source : String) {a b : NodeId} {p : Position} :
    let t := (parse registry (tokenize source).tokens).tree
    p ∈ t.footprint a → p ∈ t.footprint b → a = b := by
  have hinitial : (Parser.State.initial.beginCall registry MacroName.toplevel .origin true).Footed
      [] := fun p => Nat.le_refl _
  -- the two tokens around the document begin a macro without a footprint
  have hopened := hinitial.openPositional rfl .origin [] fun p => Nat.le_refl _
  have hread := hopened.readAll registry (Lexed.ofText none .origin (documentText source)).tokens
  refine Tree.eq_of_mem_footprint (List.nodup_iff_count_le_one.mpr fun p => ?_)
  have hcount := hread p
  rw [Parser.State.footprints, List.count_append] at hcount
  exact Nat.le_trans (Nat.le_trans (Nat.le_add_right _ _) hcount)
    (List.nodup_iff_count_le_one.mp (nodup_starts source) p)

end Macromark

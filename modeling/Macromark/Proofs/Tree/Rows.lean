import Macromark.Proofs.Token.Seam
import Macromark.Proofs.Tree.Acceptance
import Macromark.Proofs.Tree.Parsed
import Macromark.Proofs.Tree.Passage

/-!
# What a row of tokens says

A row of the grammar adds the same passages wherever it is read: neither its
positions matter nor what stands before it (`items_reads`). Rows that follow
each other add theirs one after another (`Reads.append`).
-/

namespace Macromark

open Grammar (Fits Items Arguments fits_positional_iff fits_named_iff)

def Tree.bare (t : Tree) : NodeId → Passage Unit := t.passage fun _ => ()

theorem Tree.Acyclic.bare_eq {t : Tree} (h : t.Acyclic) {id : NodeId} {kind : NodeKind}
    (hface : t.face? id = some kind) : t.bare id = kind.passage () t.bare := h.passage_eq hface

theorem Tree.Extends.bare {t u : Tree} (h : t.Extends u) (ht : t.Acyclic) (hu : u.Acyclic)
    {id : NodeId}
    (hid : id < t.size) : u.bare id = t.bare id := h.passage ht hu hid

theorem Tree.Acyclic.marked_setRoot {t : Tree} (h : t.Acyclic) {α : Type} (f : Position → α)
    {id : NodeId} (hid : id < t.size) (root? : Option NodeId) :
    Tree.marked f { t with root? } id = t.marked f id := by
  have hextends : t.Extends { t with root? } := ⟨Nat.le_refl _, fun _ _ => rfl, fun _ _ => rfl⟩
  exact hextends.marked h (h.of_below (Nat.le_refl _) fun _ => rfl) f hid

theorem Tree.Grown.acyclic {registry : Registry} {t : Tree} (h : t.Grown registry) : t.Acyclic :=
  ⟨id, h.toLinked.lt_of_below, h.older⟩

-- ----------------------------------------------------------------------------
-- The arguments of a macro
-- ----------------------------------------------------------------------------

def takeSlot {β : Type} (name : String) (slots : List (Slot β)) : Option (Slot β × List (Slot β)) :=
  match slots.findIdx? (·.name == name), slots.getLast? with
  | some i, some last => (slots[i]?).map fun slot => (slot, (slots.set i last).dropLast)
  | _, _ => none

/-- The declared arguments in their order. One that is left out holds an empty text. -/
def fillSlots {α : Type} (fresh : α) :
    List String → List (Slot (Passage α)) → List (Slot (Passage α))
  | [], _ => []
  | name :: names, slots =>
    match takeSlot name slots with
    | some (slot, others) => slot :: fillSlots fresh names others
    | none => ⟨name, false, [.text fresh ""]⟩ :: fillSlots fresh names slots

namespace Parser

theorem takeSlot_map {β : Type} (f : NodeId → β) (name : String) (written : List Argument) :
    takeSlot name (written.map (·.slot f)) = (takeArgument name written).map
      fun taken => (taken.1.slot f, taken.2.map (·.slot f)) := by
  have hindex : (written.map (·.slot f)).findIdx? (·.name == name) =
      written.findIdx? (·.name == name) := by
    rw [List.findIdx?_map]
    rfl
  unfold takeSlot takeArgument
  rw [hindex, List.getLast?_map]
  cases written.findIdx? (·.name == name) with
  | none => rfl
  | some i =>
    cases written.getLast? with
    | none => rfl
    | some last => cases hi : written[i]? <;> simp [hi, List.map_set, List.map_dropLast]

variable {α : Type} {t : Tree} {written : List Argument}

/-- The children of these arguments are nodes of the tree. -/
def Within (t : Tree) (written : List Argument) : Prop :=
  ∀ argument ∈ written, ∀ child ∈ argument.children, child < t.size

theorem Within.slots (h : Within t written) {u : Tree} (hextends : t.Extends u) (ht : t.Acyclic)
    (hu : u.Acyclic) (f : Position → α) :
    written.map (·.slot (u.marked f)) = written.map (·.slot (t.marked f)) :=
  List.map_congr_left fun argument hargument => Argument.slot_congr fun child hchild =>
    hextends.marked ht hu f (h argument hargument child hchild)

theorem fillArguments_slots (f : Position → α) (position : Position) (names : List String)
    (ht : t.Acyclic) (hwithin : Within t written) :
    let filled := fillArguments position names written t
    t.Extends filled.2 ∧ filled.2.Acyclic ∧ Within filled.2 filled.1 ∧
      filled.1.map (·.slot (filled.2.marked f)) =
        fillSlots (f position) names (written.map (·.slot (t.marked f))) := by
  induction names generalizing t written with
  | nil => exact ⟨.refl t, ht, by simp [fillArguments, Within], rfl⟩
  | cons name names ih =>
    unfold fillArguments fillSlots
    rw [takeSlot_map]
    cases htake : takeArgument name written with
    | some taken =>
      obtain ⟨argument, others⟩ := taken
      have hsub := (takeArgument_perm htake).1.subset
      have hargument := hwithin argument (hsub List.mem_cons_self)
      obtain ⟨hextends, hacyclic, hfilled, hslots⟩ :=
        ih ht fun other hother => hwithin other (hsub (List.mem_cons_of_mem _ hother))
      refine ⟨hextends, hacyclic, fun other hother => ?_, ?_⟩
      · rcases List.mem_cons.mp hother with rfl | hother
        · exact fun child hchild => Nat.lt_of_lt_of_le (hargument child hchild) hextends.size_le
        · exact hfilled other hother
      · have hone : Within t [argument] := by simpa [Within] using hargument
        have hsame := hone.slots hextends ht hacyclic f
        simp only [List.map_cons, List.map_nil, List.cons.injEq, and_true] at hsame
        simp only [Option.map_some, List.map_cons, hslots, hsame]
    | none =>
      have hpushed := t.extends_push (.plaintext "") position
      have hpushed' : (t.push (.plaintext "") position).2.Acyclic := ht.push rfl position
      obtain ⟨hextends, hacyclic, hfilled, hslots⟩ := ih hpushed' fun other hother child hchild =>
        Nat.lt_of_lt_of_le (hwithin other hother child hchild) hpushed.size_le
      have hlt : t.size < (t.push (.plaintext "") position).2.size := by simp
      refine ⟨hpushed.trans hextends, hacyclic, fun other hother => ?_, ?_⟩
      · rcases List.mem_cons.mp hother with rfl | hother
        · simpa using Nat.lt_of_lt_of_le hlt hextends.size_le
        · exact hfilled other hother
      · have hempty := (hextends.marked hpushed' hacyclic f hlt).trans (ht.marked_push f rfl position)
        rw [List.map_cons, hslots, hwithin.slots hpushed ht hpushed' f]
        simp only [Option.map_none, Argument.slot, List.map_cons, List.map_nil, Tree.push_fst,
          hempty, NodeKind.passage]

theorem pushCall_marked (f : Position → α) (name : String) (position : Position)
    (names : List String) (ht : t.Acyclic) (hwithin : Within t written) :
    let filled := fillArguments position names written t
    let made := filled.2.pushCall { name, arguments := filled.1 } position
    t.Extends made.2 ∧ made.2.Acyclic ∧ made.1 < made.2.size ∧
      made.2.marked f made.1 =
        .call (f position) name false
          (fillSlots (f position) names (written.map (·.slot (t.marked f)))) := by
  obtain ⟨hextends, hacyclic, hfilled, hslots⟩ :=
    fillArguments_slots f position names ht hwithin
  generalize fillArguments position names written t = filled at *
  have hmade := filled.2.extends_pushCall { name, arguments := filled.1 } position
  have hchildren : ∀ child ∈ MacroCall.allChildren { name, arguments := filled.1 },
      child < filled.2.size := by
    intro child hchild
    obtain ⟨argument, hargument, hchild⟩ := List.mem_flatMap.mp hchild
    exact hfilled argument hargument child hchild
  have hmade' : (filled.2.pushCall { name, arguments := filled.1 } position).2.Acyclic :=
    hacyclic.pushCall hchildren position
  refine ⟨hextends.trans hmade, hmade', by simp [Tree.pushCall_fst], ?_⟩
  rw [Tree.pushCall_fst, hacyclic.marked_pushCall f hchildren position, ← hslots]
  rfl

-- ----------------------------------------------------------------------------
-- What stands in an open argument
-- ----------------------------------------------------------------------------

namespace State

variable {registry : Registry} {top : String} {s t u : State} {call inner after : OpenCall}
variable {a argument : OpenArgument} {below : List OpenArgument} {ps qs : List (Passage Unit)}
variable {d : MacroDef} {used : List (Option String)} {kinds kinds' : List TokenKind}
variable {slots : List (Slot (Passage Unit))} {tokens : List Token}

theorem Sound.acyclic (h : s.Sound registry top) : s.tree.Acyclic := h.loose.toGrown.acyclic

theorem Sound.readOn (h : s.Sound registry top) (tokens : List Token) :
    (s.readOn registry tokens).Sound registry top := by
  induction tokens generalizing s with
  | nil => exact h
  | cons token rest ih => exact ih (h.read token false)

theorem Sound.lt_of_inside (h : s.Sound registry top) {children : List NodeId}
    (hstack : s.stack = { a with children } :: below) : ∀ id ∈ children, id < s.tree.size := by
  intro id hid
  refine (h.loose.free id ?_).1
  simp [State.loose, hstack, hid]

theorem Sound.within (h : s.Sound registry top) (hcall : s.expecting = .arguments call) :
    Within s.tree call.arguments := by
  intro argument hargument child hchild
  refine (h.loose.free child ?_).1
  simp only [State.loose, hcall, Expecting.calls, OpenCall.children, List.nil_append,
    List.flatMap_cons, List.flatMap_nil, List.append_nil, List.mem_append, List.mem_flatMap]
  exact .inl ⟨argument, hargument, hchild⟩

/-- The innermost open argument is `a`, and `ps` stand in it. -/
def Stands (s : State) (a : OpenArgument) (below : List OpenArgument) (ps : List (Passage Unit)) :
    Prop :=
  ∃ children, s.stack = { a with children } :: below ∧ children.map s.tree.bare = ps

theorem Stands.extended (h : s.Stands a below ps) (hs : s.Sound registry top) (ht : t.tree.Acyclic)
    (hextends : s.tree.Extends t.tree) (hstack : t.stack = s.stack) : t.Stands a below ps := by
  obtain ⟨children, hchildren, rfl⟩ := h
  refine ⟨children, hstack.trans hchildren, List.map_congr_left fun id hid => ?_⟩
  exact hextends.bare hs.acyclic ht (hs.lt_of_inside hchildren id hid)

/-- From `s` to `t`, `ps` are added to the innermost open argument `a`. -/
structure Adds (s t : State) (a : OpenArgument) (below : List OpenArgument)
    (ps : List (Passage Unit)) : Prop where
  extended : s.tree.Extends t.tree
  stands : ∀ before, s.Stands a below before → t.Stands a below (before ++ ps)

theorem Adds.refl (s : State) : Adds s s a below [] :=
  ⟨.refl _, fun before h => (List.append_nil before).symm ▸ h⟩

theorem Adds.trans (h : Adds s t a below ps) (h' : Adds t u a below qs) :
    Adds s u a below (ps ++ qs) := by
  refine ⟨h.extended.trans h'.extended, fun before hstands => ?_⟩
  rw [← List.append_assoc]
  exact h'.stands _ (h.stands before hstands)

theorem Adds.deliver (hs : s.Sound registry top) {tree : Tree} (hextends : s.tree.Extends tree)
    (htree : tree.Acyclic) {id : NodeId} {p : Passage Unit} (hp : tree.bare id = p) :
    Adds s (State.deliver { s with tree } [id]) a below [p] := by
  unfold State.deliver
  refine ⟨?_, ?_⟩
  · split <;> exact ⟨hextends.size_le, hextends.faces, hextends.positions⟩
  · rintro before ⟨children, hstack, rfl⟩
    simp only [hstack]
    refine ⟨children ++ [id], rfl, ?_⟩
    rw [List.map_append, List.map_congr_left fun other hother =>
      hextends.bare hs.acyclic htree (hs.lt_of_inside hstack other hother), ← hp]
    rfl

theorem Adds.content (h : Adds s t a below ps) : Adds s t.content a below ps :=
  ⟨h.extended, h.stands⟩

theorem adds_leaf (hs : s.Sound registry top) {kind : NodeKind} (hkind : kind.below = [])
    (position : Position) :
    Adds s (s.leaf kind position) a below [kind.passage () s.tree.bare] := by
  have hpushed : (s.tree.push kind position).2.Acyclic := hs.acyclic.push hkind position
  have hface : (s.tree.push kind position).2.face? s.tree.size = some kind.face := by
    rw [Tree.face?_push, if_pos rfl]
  refine Adds.deliver hs (s.tree.extends_push kind position) hpushed ?_
  rw [hpushed.bare_eq hface, NodeKind.passage_face]
  exact NodeKind.passage_congr (by simp [hkind])

theorem adds_completeCall (hs : s.Sound registry top) (hcall : s.expecting = .arguments call)
    (hdef : call.definition = some d) : Adds s (s.completeCall call) a below
      [.call () call.name false (fillSlots () d.argumentNames (call.arguments.map (·.slot s.tree.bare)))] := by
  obtain ⟨hextends, hacyclic, -, hbare⟩ :=
    pushCall_marked (fun _ => ()) call.name call.position d.argumentNames hs.acyclic (hs.within hcall)
  rw [completeCall, hdef]
  exact (Adds.deliver hs hextends hacyclic hbare).content

-- ----------------------------------------------------------------------------
-- Rows
-- ----------------------------------------------------------------------------

/-- A row of these kinds adds `ps` wherever it is read. -/
def Reads (registry : Registry) (kinds : List TokenKind) (ps : List (Passage Unit)) : Prop :=
  ∀ ⦃s : State⦄ ⦃a : OpenArgument⦄ ⦃below : List OpenArgument⦄ ⦃top : String⦄ ⦃tokens : List Token⦄,
    s.Sound registry top → s.Ready a below → tokens.map (·.kind) = kinds →
      Adds s.settle (s.readOn registry tokens).settle a below ps

theorem Reads.nil : Reads registry [] [] := by
  intro s a below top tokens hs hready hkinds
  obtain rfl := List.map_eq_nil_iff.mp hkinds
  exact .refl _

theorem Reads.append (hr : registry.Coherent) (hitems : Items registry kinds)
    (h : Reads registry kinds ps) (h' : Reads registry kinds' qs) :
    Reads registry (kinds ++ kinds') (ps ++ qs) := by
  intro s a below top tokens hs hready hkinds
  obtain ⟨first, second, rfl, hfirst, hsecond⟩ := List.map_eq_append_iff.mp hkinds
  rw [readOn_append]
  exact (h hs hready hfirst).trans
    (h' (hs.readOn first) (items_readOn hr hitems hready hfirst) hsecond)

theorem settle_eq (h : s.expecting = .content) : s.settle = s := by
  simp [settle, h]

theorem reads_leaf {kind : TokenKind} {leaf : NodeKind} (hleaf : leaf.below = [])
    (hread : ∀ (s : State) (argument : OpenArgument) (below : List OpenArgument) (position : Position),
      s.settle.stack = argument :: below →
        s.read registry ⟨kind, position⟩ false = s.settle.leaf leaf position) :
    Reads registry [kind] [leaf.passage () fun _ => .text () ""] := by
  intro s a below top tokens hs hready hkinds
  obtain ⟨position, rest, rfl, hrest⟩ := map_kind_eq_cons hkinds
  obtain rfl := List.map_eq_nil_iff.mp hrest
  obtain ⟨children, hstack⟩ := hready.inside
  have hexpecting : (s.settle.leaf leaf position).expecting = .content := by
    rw [leaf_eq, expecting_deliver]
    exact hready.expecting
  rw [readOn_cons, readOn_nil, hread s _ _ position hstack, settle_eq hexpecting,
    NodeKind.passage_congr (g := s.settle.tree.bare) (by simp [hleaf])]
  exact adds_leaf hs.settle.1 hleaf position

theorem reads_plaintext (text : String) : Reads registry [.plaintext text] [.text () text] := by
  have hread : ∀ (s : State) (argument : OpenArgument) (below : List OpenArgument) (position : Position),
      s.settle.stack = argument :: below → s.read registry ⟨.plaintext text, position⟩ false =
        s.settle.leaf (.plaintext text) position := by
    intro s argument below position hstack
    simp [read, readContent, hstack]
  exact reads_leaf rfl hread

theorem reads_paragraphBreak : Reads registry [.paragraphBreak] [.paragraphBreak ()] := by
  have hread : ∀ (s : State) (argument : OpenArgument) (below : List OpenArgument) (position : Position),
      s.settle.stack = argument :: below → s.read registry ⟨.paragraphBreak, position⟩ false =
        s.settle.leaf .paragraphBreak position := by
    intro s argument below position hstack
    simp [read, readContent, hstack]
  exact reads_leaf rfl hread

-- ----------------------------------------------------------------------------
-- Arguments
-- ----------------------------------------------------------------------------

/-- From `s` to `t`, `call` takes arguments and becomes `after`. -/
structure Takes (s t : State) (call after : OpenCall) (a : OpenArgument) (below : List OpenArgument)
    (slots : List (Slot (Passage Unit))) : Prop extends Adds s t a below [] where
  name : after.name = call.name
  taken : after.arguments.map (·.slot t.tree.bare) = call.arguments.map (·.slot s.tree.bare) ++ slots

theorem Takes.trans {slots' : List (Slot (Passage Unit))} (h : Takes s t call inner a below slots)
    (h' : Takes t u inner after a below slots') : Takes s u call after a below (slots ++ slots') :=
  ⟨h.toAdds.trans h'.toAdds, h'.name.trans h.name, by rw [h'.taken, h.taken, List.append_assoc]⟩

/-- The argument that has been opened is the one of that name, and empty. -/
structure Begins (call inner : OpenCall) (argument : OpenArgument) (name : String) : Prop where
  arguments : inner.arguments = call.arguments
  call : inner.name = call.name
  slot : argument.name = some name
  empty : argument.children = []

theorem Opens.begins {b : Bracket} {definition : Option MacroDef} {name : String} {begun : OpenCall}
    {first : OpenArgument} (h : Opens s t b definition used inner argument)
    (hentered : t = s.enter first)
    (howner : first.owner = some begun) (h' : Begins call begun first name) :
    Begins call inner argument name := by
  obtain ⟨rfl, -⟩ := List.cons.inj (congrArg State.stack (h.entered.symm.trans hentered))
  obtain rfl := Option.some.inj (h.owner.symm.trans howner)
  exact h'

theorem opens_positional (htook : Took used call) (hdef : call.definition = some d) {name : String}
    (hname : d.positional[used.count none]? = some name) (s : State) (position : Position) :
    ∃ inner argument, Opens s (s.openPositional call position) .positional (some d) (used ++ [none])
      inner argument ∧ Begins call inner argument name := by
  have hcount := (List.getElem?_eq_some_iff.mp hname).choose
  rcases openPositional_cases (s := s) htook position with ⟨-, inner, argument, hopens⟩ | ⟨hsurplus, -⟩
  · have hentered : s.openPositional call position = s.enter
        { owner := some { call with positionals := call.positionals + 1 }, name := some name
          bracket := .positional, position, outermost := opensDocument call, children := [] } := by
      simp only [openPositional, hdef, htook.positionals, hname]
    exact ⟨inner, argument, hdef ▸ hopens, hopens.begins hentered rfl ⟨rfl, rfl, rfl, rfl⟩⟩
  · exact absurd (fun d' hd' => Option.some.inj (hdef.symm.trans hd') ▸ hcount) hsurplus

theorem opens_named (htook : Took used call) (hdef : call.definition = some d) {name : String}
    (hname : name ∈ d.named) (hnew : some name ∉ used) (s : State) (position : Position) :
    ∃ inner argument, Opens s (s.openNamed (some call) position name) .named (some d)
      (used ++ [some name]) inner argument ∧ Begins call inner argument name := by
  rcases openNamed_cases (s := s) htook position name with ⟨-, inner, argument, hopens⟩ | ⟨hwrong, -⟩
  · have hfree := mt (htook.names d hdef name hname).mp hnew
    have hentered : s.openNamed (some call) position name = s.enter
        { owner := some call, name := some name, bracket := .named, position
          outermost := opensDocument call, children := [] } := by
      simp only [openNamed, hdef, List.contains_eq_mem, hname, decide_true, Bool.not_true,
        Bool.false_eq_true, if_false, hfree]
    exact ⟨inner, argument, hdef ▸ hopens, hopens.begins hentered rfl ⟨rfl, rfl, rfl, rfl⟩⟩
  · exact absurd (fun d' hd' => Option.some.inj (hdef.symm.trans hd') ▸ ⟨hname, hnew⟩) hwrong

theorem takes_argument {b : Bracket} {name : String} (hr : registry.Coherent)
    (hs : s.Sound registry top) (hcalling : s.Calling call a below)
    (ht : t.Sound registry top) (hopens : Opens s t b (some d) used inner argument)
    (hbegins : Begins call inner argument name) (hitems : Items registry kinds)
    (hreads : Reads registry kinds ps) (htokens : tokens.map (·.kind) = kinds)
    (position : Position) :
    ∃ children, let u := (t.readOn registry tokens).read registry ⟨.closer b, position⟩ false
      u.Calling (returned inner argument children) a below ∧
        Takes s u call (returned inner argument children) a below [⟨name, true, ps⟩] := by
  have hready := ready_of_opens hopens hcalling.silent
  have hsettled : t.settle = t := settle_eq (hopens.entered ▸ rfl)
  have htree : t.tree = s.tree := hopens.entered ▸ rfl
  have hadds := hreads ht hready htokens
  rw [hsettled] at hadds
  have hbegun : t.Stands argument s.stack [] := ⟨[], by rw [hopens.entered, enter, ← hbegins.empty], rfl⟩
  obtain ⟨children, hstack, hbare⟩ := hadds.stands [] hbegun
  have hread := ht.readOn tokens
  have hlast := hread.read ⟨.closer b, position⟩ false
  rw [read_closer hopens hstack] at hlast ⊢
  have hextends : s.tree.Extends (t.readOn registry tokens).settle.tree := htree ▸ hadds.extended
  refine ⟨children, ⟨rfl, hcalling.inside, (items_readOn hr hitems hready htokens).silent⟩,
    ⟨hextends, fun before hstands => ?_⟩, hbegins.call, ?_⟩
  · rw [List.append_nil]
    exact hstands.extended hs hlast.acyclic hextends rfl
  · have harguments : (returned inner argument children).arguments =
        call.arguments ++ [⟨name, children, argument.position, true⟩] := by
      simp only [returned, hbegins.slot, hbegins.arguments]
    have hbefore : call.arguments.map (·.slot (t.readOn registry tokens).settle.tree.bare) =
        call.arguments.map (·.slot s.tree.bare) :=
      (hs.within hcalling.expecting).slots hextends hs.acyclic hlast.acyclic fun _ => ()
    rw [harguments, List.map_append]
    simp only [hbefore]
    rw [List.nil_append] at hbare
    rw [← hbare]
    rfl

/-- A row of arguments of a macro that has got `used` adds `slots` to it. -/
def ReadsArguments (registry : Registry) (d : MacroDef) (used : List (Option String))
    (kinds : List TokenKind) (slots : List (Slot (Passage Unit))) : Prop :=
  ∀ ⦃s : State⦄ ⦃call : OpenCall⦄ ⦃a : OpenArgument⦄ ⦃below : List OpenArgument⦄ ⦃top : String⦄
    ⦃tokens : List Token⦄, s.Sound registry top → s.Calling call a below →
      call.definition = some d → Took used call → tokens.map (·.kind) = kinds →
        ∃ after, (s.readOn registry tokens).Calling after a below ∧ after.definition = some d ∧
          Takes s (s.readOn registry tokens) call after a below slots

theorem ReadsArguments.nil : ReadsArguments registry d used [] [] := by
  intro s call a below top tokens hs hcalling hdef htook hkinds
  obtain rfl := List.map_eq_nil_iff.mp hkinds
  exact ⟨call, hcalling, hdef, .refl s, rfl, by simp⟩

theorem ReadsArguments.positional (hr : registry.Coherent) {name : String}
    (hname : d.positional[used.count none]? = some name) (hitems : Items registry kinds)
    (h : Reads registry kinds ps) (h' : ReadsArguments registry d (used ++ [none]) kinds' slots) :
    ReadsArguments registry d used (.opener .positional :: kinds ++ .closer .positional :: kinds')
      (⟨name, true, ps⟩ :: slots) := by
  intro s call a below top tokens hs hcalling hdef htook hkinds
  obtain ⟨position, others, rfl, hothers⟩ := map_kind_eq_cons hkinds
  obtain ⟨first, closed, rfl, hfirst, hclosed⟩ := List.map_eq_append_iff.mp hothers
  obtain ⟨last, second, rfl, hsecond⟩ := map_kind_eq_cons hclosed
  obtain ⟨inner, argument, hopens, hbegins⟩ := opens_positional htook hdef hname s position
  have ht := hs.read ⟨.opener .positional, position⟩ false
  rw [read_opener_positional hcalling] at ht
  obtain ⟨children, hmore, htakes⟩ :=
    takes_argument hr hs hcalling ht hopens hbegins hitems h hfirst last
  obtain ⟨after, hafter, hdef', htakes'⟩ := h' ((ht.readOn first).read ⟨.closer .positional, last⟩ false)
    hmore hopens.definition (hopens.took children) hsecond
  rw [readOn_cons, readOn_append, readOn_cons, read_opener_positional hcalling]
  exact ⟨after, hafter, hdef', htakes.trans htakes'⟩

theorem ReadsArguments.named (hr : registry.Coherent) {name : String} (hname : name ∈ d.named)
    (hnew : some name ∉ used) (hitems : Items registry kinds) (h : Reads registry kinds ps)
    (h' : ReadsArguments registry d (used ++ [some name]) kinds' slots) :
    ReadsArguments registry d used
      (.opener .named :: .argumentName name :: kinds ++ .closer .named :: kinds')
      (⟨name, true, ps⟩ :: slots) := by
  intro s call a below top tokens hs hcalling hdef htook hkinds
  obtain ⟨position, others, rfl, hothers⟩ := map_kind_eq_cons hkinds
  obtain ⟨here, content, rfl, hcontent⟩ := map_kind_eq_cons hothers
  obtain ⟨first, closed, rfl, hfirst, hclosed⟩ := List.map_eq_append_iff.mp hcontent
  obtain ⟨last, second, rfl, hsecond⟩ := map_kind_eq_cons hclosed
  obtain ⟨inner, argument, hopens, hbegins⟩ := opens_named htook hdef hname hnew s position
  have ht := (hs.read ⟨.opener .named, position⟩ false).read ⟨.argumentName name, here⟩ false
  rw [read_opener_named hcalling] at ht
  obtain ⟨children, hmore, htakes⟩ :=
    takes_argument hr hs hcalling ht hopens hbegins hitems h hfirst last
  obtain ⟨after, hafter, hdef', htakes'⟩ := h' ((ht.readOn first).read ⟨.closer .named, last⟩ false)
    hmore hopens.definition (hopens.took children) hsecond
  rw [readOn_cons, readOn_cons, readOn_append, readOn_cons, read_opener_named hcalling]
  exact ⟨after, hafter, hdef', htakes.trans htakes'⟩

theorem Reads.macroCall (hr : registry.Coherent) {name : String}
    (hget : registry.get? name = some d)
    (h : ReadsArguments registry d [] kinds slots) :
    Reads registry (.macroName name :: kinds)
      [.call () name false (fillSlots () d.argumentNames slots)] := by
  intro s a below top tokens hs hready hkinds
  obtain ⟨position, others, rfl, hothers⟩ := map_kind_eq_cons hkinds
  obtain ⟨children, hstack⟩ := hready.inside
  have hread : s.read registry ⟨.macroName name, position⟩ false =
      s.settle.beginCall registry name position false := by
    simp [read, readContent, hstack]
  have hbegun := hs.read ⟨.macroName name, position⟩ false
  obtain ⟨after, hafter, hdef, htakes⟩ := h hbegun (hready.macroName registry name position false)
    hget (took_nothing hr name position) hothers
  have ht := hbegun.readOn others
  have hcomplete : Adds _ _ a below _ := adds_completeCall ht hafter.expecting hdef
  rw [htakes.taken, htakes.name] at hcomplete
  have hbegin : Adds s.settle (s.read registry ⟨.macroName name, position⟩ false) a below [] := by
    rw [hread]
    exact ⟨.refl _, fun before hstands => (List.append_nil before).symm ▸ hstands⟩
  have hsettle : (s.readOn registry (⟨.macroName name, position⟩ :: others)).settle =
      ((s.read registry ⟨.macroName name, position⟩ false).readOn registry others).completeCall after := by
    rw [readOn_cons, settle, hafter.expecting]
  rw [hsettle]
  exact (hbegin.trans htakes.toAdds).trans hcomplete

mutual
/-- Every row of the grammar says something. -/
theorem items_reads (hr : registry.Coherent) {kinds : List TokenKind} (h : Items registry kinds) :
    ∃ ps, Reads registry kinds ps := by
  match h with
  | .nil => exact ⟨[], .nil⟩
  | .plaintext text rest hrest =>
    obtain ⟨ps, hps⟩ := items_reads hr hrest
    exact ⟨_, (Reads.append hr (.plaintext text [] .nil) (reads_plaintext text) hps)⟩
  | .paragraphBreak rest hrest =>
    obtain ⟨ps, hps⟩ := items_reads hr hrest
    exact ⟨_, (Reads.append hr (.paragraphBreak [] .nil) reads_paragraphBreak hps)⟩
  | .call name d written arguments rest hget hfits harguments hrest =>
    obtain ⟨slots, hslots⟩ := arguments_reads hr harguments [] hfits
    obtain ⟨ps, hps⟩ := items_reads hr hrest
    have hcall := Items.call name d written arguments [] hget hfits harguments .nil
    rw [List.append_nil] at hcall
    exact ⟨_, Reads.append hr hcall (Reads.macroCall hr hget hslots) hps⟩
theorem arguments_reads (hr : registry.Coherent) {kinds : List TokenKind} {d : MacroDef}
    {written : List (Option String)} (h : Arguments registry written kinds)
    (used : List (Option String)) (hfits : Fits d (used ++ written)) :
    ∃ slots, ReadsArguments registry d used kinds slots := by
  match h with
  | .nil => exact ⟨[], .nil⟩
  | .positional written inner rest hinner hrest =>
    have hfits : Fits d (used ++ [none] ++ written) := by simpa using hfits
    obtain ⟨ps, hps⟩ := items_reads hr hinner
    obtain ⟨slots, hslots⟩ := arguments_reads hr hrest (used ++ [none]) hfits
    have hcount := (fits_positional_iff.mp hfits.of_append).2
    exact ⟨_, ReadsArguments.positional hr (List.getElem?_eq_getElem hcount) hinner hps hslots⟩
  | .named name written inner rest hinner hrest =>
    have hfits : Fits d (used ++ [some name] ++ written) := by simpa using hfits
    obtain ⟨ps, hps⟩ := items_reads hr hinner
    obtain ⟨slots, hslots⟩ := arguments_reads hr hrest (used ++ [some name]) hfits
    obtain ⟨hdeclared, hnew⟩ := (fits_named_iff.mp hfits.of_append).2
    exact ⟨_, ReadsArguments.named hr hdeclared hnew hinner hps hslots⟩
end

-- ----------------------------------------------------------------------------
-- Documents
-- ----------------------------------------------------------------------------

def documentCall (d : MacroDef) : OpenCall := ⟨MacroName.toplevel, .origin, some d, true, [], 1⟩

def documentArgument (d : MacroDef) (name : String) : OpenArgument :=
  { owner := some (documentCall d), name := some name, bracket := .positional, position := .origin
    outermost := true, children := [] }

def opened (registry : Registry) (d : MacroDef) (name : String) : State :=
  (State.initial.beginCall registry MacroName.toplevel .origin true).enter (documentArgument d name)

variable {name : String}

theorem read_opened (hget : registry.get? MacroName.toplevel = some d)
    (hname : d.positional[0]? = some name)
    (isLast : Bool) :
    (State.initial.beginCall registry MacroName.toplevel .origin true).read registry
      ⟨.opener .positional, .origin⟩ isLast = opened registry d name := by
  simp [read, beginCall, hget, openPositional, hname, opensDocument, opened, documentArgument, documentCall]

theorem ready_opened : (opened registry d name).Ready (documentArgument d name) [] :=
  ready_of_content rfl ⟨[], rfl⟩ rfl

theorem stands_opened : (opened registry d name).settle.Stands (documentArgument d name) [] [] :=
  ⟨[], rfl, rfl⟩

/-- What stands in the document when its closer comes. -/
theorem document_marked (registry : Registry) {α : Type} (f : Position → α) (hacyclic : s.settle.tree.Acyclic)
    {children : List NodeId} (hstack : s.settle.stack = [{ documentArgument d name with children }])
    (hinside : ∀ id ∈ children, id < s.settle.tree.size) (last : Position) :
    let t := (s.readAll registry [⟨.closer .positional, last⟩]).tree
    t.marked f t.root = .call (f .origin) MacroName.toplevel false
      (fillSlots (f .origin) d.argumentNames
        [⟨name, true, children.map (s.settle.tree.marked f)⟩]) := by
  have hwithin : Within s.settle.tree [⟨name, children, .origin, true⟩] := by
    simpa [Within] using hinside
  obtain ⟨-, hmade, hlt, hmarked⟩ :=
    pushCall_marked f MacroName.toplevel .origin d.argumentNames hacyclic hwithin
  rw [readAll_last hstack rfl rfl]
  exact (hmade.marked_setRoot f hlt _).trans hmarked

theorem document_bare (hs : s.Sound registry top)
    (hstands : s.settle.Stands (documentArgument d name) [] ps)
    (last : Position) :
    let t := (s.readAll registry [⟨.closer .positional, last⟩]).tree
    t.bare t.root = .call () MacroName.toplevel false
      (fillSlots () d.argumentNames [⟨name, true, ps⟩]) := by
  obtain ⟨children, hstack, rfl⟩ := hstands
  exact document_marked registry (fun _ => ()) hs.settle.1.acyclic hstack (hs.settle.1.lt_of_inside hstack) last

end State
end Parser

open Parser.State (Reads opened)

section Documents

variable {registry : Registry} {d : MacroDef} {name : String} {source : String}

/-- The parser begins in the text of the document. -/
theorem parse_opened (hget : registry.get? MacroName.toplevel = some d)
    (hname : d.positional[0]? = some name) (rest : List Token) :
    parse registry (⟨.macroName MacroName.toplevel, .origin⟩ :: ⟨.opener .positional, .origin⟩ :: rest) =
      let s := (opened registry d name).readAll registry rest
      ⟨s.tree, s.diagnostics, s.trace⟩ := by
  rw [← Parser.State.read_opened hget hname rest.isEmpty]
  rfl

/-- The last closer ends the document. -/
theorem parse_tokenize (hget : registry.get? MacroName.toplevel = some d)
    (hname : d.positional[0]? = some name) (source : String) : ∃ content last,
      content.map (·.kind) = contentKinds source ∧ Token.Named content ∧
      parse registry (tokenize source).tokens =
        let s := (opened registry d name).readAll registry
          (content ++ [⟨.closer .positional, last⟩])
        ⟨s.tree, s.diagnostics, s.trace⟩ := by
  obtain ⟨content, last, htokens, hnamed⟩ := tokens_tokenize source
  refine ⟨content, last, ?_, hnamed, ?_⟩
  · have h := kinds_tokenize source
    rw [htokens] at h
    simpa using h
  · rw [htokens, parse_opened hget hname]

/-- A document without a report is a row of the grammar. -/
theorem items_of_parse (hr : registry.Coherent) (hget : registry.get? MacroName.toplevel = some d)
    (hname : d.positional[0]? = some name)
    (hsilent : (parse registry (tokenize source).tokens).diagnostics = []) :
    Items registry (contentKinds source) := by
  obtain ⟨content, last, hkinds, hnamed, hparse⟩ := parse_tokenize hget hname source
  rw [hparse] at hsilent
  rw [← hkinds]
  exact (Parser.State.silent_iff_items hr Parser.State.ready_opened rfl rfl rfl rfl hnamed last).mp
    fun hreported => hreported hsilent

/-- A document holds what its row says. -/
theorem parse_bare (hget : registry.get? MacroName.toplevel = some d)
    (hname : d.positional[0]? = some name)
    {ps : List (Passage Unit)} (hreads : Reads registry (contentKinds source) ps) :
    let t := (parse registry (tokenize source).tokens).tree
    t.bare t.root = .call () MacroName.toplevel false
      (fillSlots () d.argumentNames [⟨name, true, ps⟩]) := by
  obtain ⟨content, last, hkinds, -, hparse⟩ := parse_tokenize hget hname source
  have hsound := (Parser.State.sound_beginCall_initial registry MacroName.toplevel .origin).read
    ⟨.opener .positional, .origin⟩ false
  rw [Parser.State.read_opened hget hname] at hsound
  have hstands := (hreads hsound Parser.State.ready_opened hkinds).stands [] Parser.State.stands_opened
  rw [hparse, Parser.State.readAll_append content (by simp)]
  exact Parser.State.document_bare (hsound.readOn content) hstands last

end Documents
end Macromark

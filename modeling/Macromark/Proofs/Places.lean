import Macromark.Proofs.Assembly.Places
import Macromark.Proofs.Compile
import Macromark.Proofs.Html.Render
import Macromark.Proofs.Selection
import Macromark.Proofs.Token.Places
import Macromark.Registry.Builtin

/-!
# Where problems are reported

The tokens of a document stand in its text (`tokenize_tiles`), and no later step
makes a position up: what holds of the positions of the tokens holds of those in
the parsed tree, in the assembled document, of its references, and of all that is
found wrong on the way (`analyze_placed`). A lost link is reported where one of its
references stands (`Selection.diagnostics_placed`), and a link that cannot be
written where its macro or an argument of it does
(`RenderContext.renderDocument_placed`). So every problem has its line and its
column in the text (`compile_positions`).
-/

namespace Macromark

variable {P : Position → Prop}

-- ----------------------------------------------------------------------------
-- Links and rendering
-- ----------------------------------------------------------------------------

theorem Selection.diagnostics_placed {references : List Reference}
    (h : ∀ r ∈ references, P r.site.position) (resolves : Reference → Bool) :
    ∀ d ∈ (select resolves references).diagnostics, P d.position := by
  intro d hd
  obtain ⟨lost, hlost, hreport⟩ := List.mem_filterMap.mp hd
  obtain ⟨problem, -, rfl⟩ := Option.map_eq_some_iff.mp hreport
  -- a group has a member, and all its members stand at one place
  obtain ⟨⟨r, place⟩, hmember⟩ := List.exists_mem_of_ne_nil _ (mem_unresolved.mp hlost).1
  obtain ⟨hr, hkey⟩ := mem_members.mp hmember
  have hposition : r.site.position = lost.key.position := congrArg (·.position) hkey
  exact hposition ▸ h r (List.mem_of_getElem? hr)

namespace RenderContext

theorem Shows.placed {ctx : RenderContext} {position : Position} (h : ctx.Shows position)
    (htree : ctx.tree.Placed P) : P position := by
  obtain ⟨scene, hnode, hkind, name, rfl⟩ := h
  have hcall : ctx.tree.call? scene.id = some scene.call := by
    simp [Tree.call?, hnode, Node.call?, hkind]
  unfold Scene.argumentPosition
  cases hargument : scene.call.argument? name with
  | none => exact (htree.node hnode).1
  | some argument => exact htree.argument hcall (List.mem_of_find?_eq_some hargument)

theorem renderDocument_placed (ctx : RenderContext) (htree : ctx.tree.Placed P) (bodyOnly : Bool) :
    ∀ d ∈ (ctx.renderDocument bodyOnly).2, P d.position := by
  refine renderDocument_reports ?_ ?_ bodyOnly
  · exact fun _ _ hshows _ => hshows.placed htree
  · exact fun _ _ _ _ _ hshows _ _ => hshows.placed htree

end RenderContext

-- ----------------------------------------------------------------------------
-- Documents
-- ----------------------------------------------------------------------------

/-- Everything in an analyzed document stands where `P` says. -/
structure Analysis.Placed (P : Position → Prop) (a : Analysis) : Prop where
  tree : a.tree.Placed P
  references : ∀ r ∈ a.contribution.references, P r.site.position
  diagnostics : ∀ d ∈ a.diagnostics, P d.position

theorem analyze_placed (registry : Registry) (document source : String) :
    (analyze registry document source).Placed (·.In (documentText source)) := by
  have horigin := Position.In.origin (documentText source)
  obtain ⟨-, -, hlexed⟩ := tokenize_tiles source
  obtain ⟨hparsed, hreported⟩ := parse_placed horigin (tokenize_position_in source) registry
  obtain ⟨htree, hreferences, hassembled⟩ := assemble_placed horigin hparsed registry document
  refine ⟨htree, hreferences, fun d hd => ?_⟩
  rcases List.mem_append.mp hd with hd | hd
  · rcases List.mem_append.mp hd with hd | hd
    · exact hlexed d hd
    · exact hreported d hd
  · exact hassembled d hd

/-- All that is reported of a document stands in its text. -/
theorem compile_placed {registry : Registry} {store : Option Store} {options : CompileOptions}
    {source : String} {c : Compiled} (hcheck : registry.check = .ok ())
    (hcompile : compile (some registry) store options source = .ok c) :
    ∀ d ∈ c.diagnostics, d.position.In (documentText source) := by
  have hanalyzed := analyze_placed registry options.document source
  have hrendered := ((analyze registry options.document source).context registry store
    options.extension).renderDocument_placed hanalyzed.tree options.bodyOnly
  obtain ⟨-, rfl⟩ := (compile_eq_ok_iff hcheck).mp hcompile
  intro reported hreported
  obtain ⟨d, hd, rfl⟩ := List.mem_map.mp hreported
  rw [Diagnostic.position_within]
  rcases List.mem_append.mp hd with hd | hd
  · exact hanalyzed.diagnostics d hd
  · rcases List.mem_append.mp hd with hd | hd
    · exact Selection.diagnostics_placed hanalyzed.references _ d hd
    · exact hrendered d hd

/-- Positions are real and in order: behind the two tokens that open the document its
tokens tile the text, and every problem is reported in one of its lines, at its end at the
latest. -/
theorem compile_positions (source : String) (store : Option Store) (options : CompileOptions) :
    let text := documentText source
    let tokens := (tokenize source).tokens
    tokens.Pairwise (fun a b => a.position.Upto b.position) ∧
      tokens.take 2 = [⟨.macroName MacroName.toplevel, .origin⟩, ⟨.opener .positional, .origin⟩] ∧
      Token.Tiles text [] (tokens.drop 2) text ∧
      ((analyze .builtin options.document source).aborted = none →
        ∃ c, compile (some .builtin) store options source = .ok c ∧ c.tokens = tokens ∧
          ∀ d ∈ c.diagnostics, ∃ line, (Text.split '\n' text)[d.position.line - 1]? = some line ∧
            1 ≤ d.position.line ∧ 1 ≤ d.position.column ∧ d.position.column ≤ line.length + 1) := by
  obtain ⟨hopening, htiles, -⟩ := tokenize_tiles source
  refine ⟨tokenize_pairwise source, hopening, htiles, fun hdone => ?_⟩
  obtain ⟨c, hcompile, htokens⟩ : ∃ c, compile (some .builtin) store options source = .ok c ∧
      c.tokens = (tokenize source).tokens :=
    ⟨_, compile_ok Registry.check_builtin store _ hdone, rfl⟩
  exact ⟨c, hcompile, htokens, fun d hd => (compile_placed Registry.check_builtin hcompile d hd).line⟩

theorem compile_positions_geese :
    ∃ c, compile (some .builtin) none {} "\\h[1][Geese\n\n" = .ok c ∧
      c.tokens = (tokenize "\\h[1][Geese\n\n").tokens ∧
      ∃ d ∈ c.diagnostics, ∃ line,
        (Text.split '\n' (documentText "\\h[1][Geese\n\n"))[d.position.line - 1]? = some line := by
  obtain ⟨c, hcompile, htokens, hplaced⟩ :=
    (compile_positions "\\h[1][Geese\n\n" none {}).2.2.2 (by decide +kernel)
  refine ⟨c, hcompile, htokens, ?_⟩
  obtain ⟨-, hc⟩ := (compile_eq_ok_iff Registry.check_builtin).mp hcompile
  have hreported : (analyze .builtin "" "\\h[1][Geese\n\n").diagnostics ≠ [] := by decide +kernel
  obtain ⟨d, hd⟩ := List.exists_mem_of_ne_nil _ hreported
  have hmem : d.within "" ∈ c.diagnostics :=
    hc ▸ List.mem_map_of_mem (List.mem_append_left _ hd)
  obtain ⟨line, hline, -⟩ := hplaced _ hmem
  exact ⟨_, hmem, line, hline⟩

end Macromark

import Macromark.Command
import Macromark.Proofs.Command.Workspace
import Macromark.Proofs.Project.Agreement
import Mathlib.Data.List.Dedup

/-!
# Files of a project

A command that compiles files to files reads all of them, compiles them as a
project and writes a file for each document (`runs_runProject`). Documents of
different names go to different files (`runs_writeAll`). But a file gives its
document a name without directory and extension, and a project has one document
of a name: of the files that give one name it keeps the last (`mem_project`), and
there are as many documents as files only if all the names differ
(`length_project_iff`).
-/

namespace Macromark

theorem CompiledProject.exists_of_document? {p : CompiledProject} {name : String} {c : Compiled}
    (h : p.document? name = some c) : ∃ d ∈ p.documents, d.name = name ∧ d.output = c := by
  obtain ⟨d, hfound, rfl⟩ := Option.map_eq_some_iff.mp h
  exact ⟨d, List.mem_of_find?_eq_some hfound, by simpa using List.find?_some hfound, rfl⟩

namespace Command

variable {w v u made : Workspace} {settings : Settings} {α β : Type}
variable {text : String → String} {paths : List String}

-- ----------------------------------------------------------------------------
-- Actions on a workspace
-- ----------------------------------------------------------------------------

/-- The action on `w` does not stop the command. It answers `a` and leaves `u`. -/
def Runs (action : ExceptT CommandFault (StateM Workspace) α) (w : Workspace) (a : α)
    (u : Workspace) : Prop :=
  action.run.run w = (.ok a, u)

theorem Runs.bind {action : ExceptT CommandFault (StateM Workspace) α}
    {next : α → ExceptT CommandFault (StateM Workspace) β} {a : α} {b : β}
    (h : Runs action w a v) (hnext : Runs (next a) v b u) : Runs (action >>= next) w b u := by
  unfold Runs at *
  rw [ExceptT.run_bind, StateT.run_bind, h]
  exact hnext

theorem Runs.lift {action : StateM Workspace α} {a : α} (h : action.run w = (a, u)) :
    Runs (liftM action) w a u := by
  change (Except.ok (action.run w).1, (action.run w).2) = _
  rw [h]

theorem Runs.orStop {action : StateM Workspace (Except FileFault α)} {path : String} {a : α}
    (h : action.run w = (.ok a, u)) : Runs (orStop path action) w a u :=
  (Runs.lift h).bind rfl

theorem run_commit {change : Workspace → Except FileFault Workspace} (h : change w = .ok u) :
    (Workspace.commit change).run w = (.ok (), u) := by
  change Workspace.commit change w = _
  rw [Workspace.commit, h]

-- ----------------------------------------------------------------------------
-- Reading
-- ----------------------------------------------------------------------------

def sources (text : String → String) (paths : List String) : List (String × String) :=
  paths.map fun path => (path, text path)

theorem runs_readSources (h : ∀ path ∈ paths, w.read path = .ok (text path)) :
    Runs (readSources Workspace.access paths) w (sources text paths) w := by
  unfold readSources
  induction paths with
  | nil => rfl
  | cons path paths ih =>
    rw [List.forall_mem_cons] at h
    have hread : (Workspace.access.read path).run w = (.ok (text path), w) := Prod.ext h.1 rfl
    rw [List.mapM_cons]
    exact .bind (.bind (.orStop hread) rfl) (.bind (ih h.2) rfl)

-- ----------------------------------------------------------------------------
-- Writing
-- ----------------------------------------------------------------------------

theorem target_eq (settings : Settings) (name : String) :
    target settings name = Path.join settings.outDir (name ++ ("." ++ settings.extension)) := by
  rw [target, ← String.append_assoc]
  rfl

def Spares (settings : Settings) (names : List String) (w u : Workspace) : Prop :=
  ∀ name ∉ names, '/' ∉ name.toList → ∀ entry,
    w.Shows (target settings name) entry → u.Shows (target settings name) entry

section
variable (hextension : Path.IsName ("." ++ settings.extension))
include hextension

theorem runs_writeDocument {d : CompiledDocument} (hplain : '/' ∉ d.name.toList)
    (hopen : ∃ entry ≠ some .directory, w.Shows (target settings d.name) entry) :
    ∃ u, Runs (writeDocument Workspace.access settings d) w () u ∧
      u.Shows (target settings d.name) (some (.file d.output.output)) ∧
      Spares settings [d.name] w u := by
  obtain ⟨entry, hfree, hshows⟩ := hopen
  let printed := { w with printed := w.printed ++ d.output.writeListings settings.format }
  have hprinted {path : String} {entry : Option Workspace.Entry} (h : w.Shows path entry) :
      printed.Shows path entry := h.congr fun _ => rfl
  obtain ⟨v, hwrite⟩ : ∃ v, printed.write (target settings d.name) d.output.output = .ok v :=
    Workspace.exists_write_iff.mpr ⟨entry, hfree, hprinted hshows⟩
  -- What is printed and reported stands in no file.
  refine ⟨{ v with reported := v.reported ++ reportText d.output.diagnostics }, ?_, ?_, ?_⟩
  · exact .bind (.lift rfl) (.bind (.orStop (run_commit hwrite)) (.lift rfl))
  · exact (Workspace.shows_write hwrite).congr fun _ => rfl
  · intro name hne hname entry hbefore
    have hbefore := hprinted hbefore
    rw [target_eq] at hwrite hbefore ⊢
    have hafter := Workspace.shows_write_beside (hextension.append hplain)
      (hextension.append hname) (by simpa [← String.toList_inj] using hne) hwrite hbefore
    exact hafter.congr fun _ => rfl

theorem runs_writeAll {documents : List CompiledDocument}
    (hnodup : (documents.map (·.name)).Nodup) (hplain : ∀ d ∈ documents, '/' ∉ d.name.toList)
    (hopen : ∀ d ∈ documents, ∃ entry ≠ some .directory, w.Shows (target settings d.name) entry) :
    ∃ u,
      Runs (forIn documents PUnit.unit fun d _ => do
        writeDocument Workspace.access settings d
        pure (ForInStep.yield PUnit.unit)) w () u ∧
      (∀ d ∈ documents, u.Shows (target settings d.name) (some (.file d.output.output))) ∧
      Spares settings (documents.map (·.name)) w u := by
  induction documents generalizing w with
  | nil => exact ⟨w, rfl, by simp, fun _ _ _ _ h => h⟩
  | cons d documents ih =>
    rw [List.map_cons, List.nodup_cons] at hnodup
    rw [List.forall_mem_cons] at hplain hopen
    obtain ⟨v, hfirst, hwritten, hspared⟩ := runs_writeDocument hextension hplain.1 hopen.1
    -- The other documents have other names, so that their files can still be written.
    have hstill : ∀ e ∈ documents, ∃ entry ≠ some .directory,
        v.Shows (target settings e.name) entry := by
      intro e he
      obtain ⟨entry, hfree, hshows⟩ := hopen.2 e he
      have hne : e.name ∉ [d.name] := fun h =>
        hnodup.1 (List.mem_singleton.mp h ▸ List.mem_map_of_mem he)
      exact ⟨entry, hfree, hspared e.name hne (hplain.2 e he) entry hshows⟩
    obtain ⟨u, hrest, hothers, hspares⟩ := ih hnodup.2 hplain.2 hstill
    refine ⟨u, ?_, ?_, ?_⟩
    · rw [List.forIn_cons]
      exact .bind (.bind hfirst rfl) hrest
    · rw [List.forall_mem_cons]
      exact ⟨hspares d.name hnodup.1 hplain.1 _ hwritten, hothers⟩
    · intro name hname hslash entry hbefore
      rw [List.map_cons, List.mem_cons, not_or] at hname
      exact hspares name hname.2 hslash entry
        (hspared name (by simpa using hname.1) hslash entry hbefore)

theorem target_injective {name other : String} {entry entry' : Option Workspace.Entry}
    (hname : '/' ∉ name.toList) (hother : '/' ∉ other.toList)
    (hshows : u.Shows (target settings name) entry)
    (hshows' : u.Shows (target settings other) entry')
    (h : u.locate (target settings name) = u.locate (target settings other)) : name = other := by
  obtain ⟨place, hplace, -⟩ := hshows
  obtain ⟨place', hplace', -⟩ := hshows'
  obtain rfl := Except.ok.inj (hplace.symm.trans (h.trans hplace'))
  rw [target_eq] at hplace hplace'
  obtain ⟨here, hhere, hfile⟩ := Workspace.locate_join (hextension.append hname) hplace
  obtain ⟨there, hthere, hfile'⟩ := Workspace.locate_join (hextension.append hother) hplace'
  obtain rfl := Except.ok.inj (hhere.symm.trans hthere)
  simpa [← String.toList_inj] using hfile.symm.trans hfile'

end

-- ----------------------------------------------------------------------------
-- The project
-- ----------------------------------------------------------------------------

theorem project_eq (settings : Settings) (text : String → String) (paths : List String) :
    project settings (sources text paths) =
      ({ registry := Registry.builtin, store := .empty, indexName := some settings.index } :
        Project).addAll (paths.map fun path => ⟨Path.documentName path, text path⟩) := by
  rw [project, sources, Project.addAll, List.foldl_map, List.foldl_map]

theorem project_keyed (settings : Settings) (text : String → String) (paths : List String) :
    (project settings (sources text paths)).Keyed := by
  rw [project_eq]
  exact ((Project.Reachable.create .empty _ _).addAll _).sound.1

theorem project_registry (settings : Settings) (text : String → String) (paths : List String) :
    (project settings (sources text paths)).registry = Registry.builtin := by
  rw [project_eq, Project.registry_addAll]

theorem check_project (settings : Settings) (text : String → String) (paths : List String) :
    (project settings (sources text paths)).registry.check = .ok () := by
  rw [project_registry]
  exact Registry.check_builtin

theorem mem_names_project {name : String} :
    name ∈ (project settings (sources text paths)).names ↔ name ∈ paths.map Path.documentName := by
  rw [project_eq, Project.mem_names_addAll, List.map_map]
  exact or_iff_right List.not_mem_nil

/-- There are fewer documents than files if two files give one name. -/
theorem length_project_iff :
    (project settings (sources text paths)).names.length = paths.length ↔
      (paths.map Path.documentName).Nodup := by
  have hperm : (project settings (sources text paths)).names.Perm
      (paths.map Path.documentName).dedup := by
    rw [List.perm_ext_iff_of_nodup (project_keyed settings text paths).names (List.nodup_dedup _)]
    intro name
    rw [mem_names_project, List.mem_dedup]
  rw [hperm.length_eq, ← List.dedup_eq_self, ← (List.dedup_sublist _).length_eq, List.length_map]

/-- The last file that gives a name is in the project. -/
theorem mem_project {before after : List String} {path : String}
    (hpaths : paths = before ++ path :: after)
    (hlast : Path.documentName path ∉ after.map Path.documentName) :
    ⟨Path.documentName path, text path⟩ ∈ (project settings (sources text paths)).documents := by
  rw [project_eq, hpaths, List.map_append, List.map_cons, Project.addAll, List.foldl_append,
    List.foldl_cons]
  refine Project.mem_documents_addAll (Project.mem_documents_add.mpr (.inl rfl)) ?_
  rwa [List.map_map]

-- ----------------------------------------------------------------------------
-- The run
-- ----------------------------------------------------------------------------

section
variable {output : CompiledProject} {q : Project}
variable (hcompile : (project settings (sources text paths)).compile (settings.compileOptions "") =
  .ok (output, q))
include hcompile

theorem names_output :
    output.documents.map (·.name) = (project settings (sources text paths)).names := by
  have hkeyed := project_keyed settings text paths
  obtain ⟨rfl, -⟩ := hkeyed.eq_of_compile hcompile
  exact hkeyed.names_output _

theorem exists_path_of_document {d : CompiledDocument} (hd : d ∈ output.documents) :
    ∃ path ∈ paths, Path.documentName path = d.name := by
  have hname : d.name ∈ output.documents.map (·.name) := List.mem_map_of_mem hd
  rw [names_output hcompile, mem_names_project] at hname
  exact List.mem_map.mp hname

theorem runs_runProject (hextension : Path.IsName ("." ++ settings.extension))
    (hread : ∀ path ∈ paths, w.read path = .ok (text path))
    (hmade : w.makeDirectories settings.outDir = .ok made)
    (hwrite : ∀ path ∈ paths, ∃ u,
      made.write (target settings (Path.documentName path)) "" = .ok u) :
    ∃ u, Runs (runProject Workspace.access settings paths) w (!output.hasErrors) u ∧
      (∀ d ∈ output.documents, u.Shows (target settings d.name) (some (.file d.output.output))) ∧
      (output.documents.map fun d => u.locate (target settings d.name)).Nodup := by
  have hnodup : (output.documents.map (·.name)).Nodup :=
    names_output hcompile ▸ (project_keyed settings text paths).names
  have hplain : ∀ d ∈ output.documents, '/' ∉ d.name.toList := by
    intro d hd
    obtain ⟨path, -, hpath⟩ := exists_path_of_document hcompile hd
    exact hpath ▸ Path.slash_not_mem_documentName path
  have hopen : ∀ d ∈ output.documents, ∃ entry ≠ some .directory,
      made.Shows (target settings d.name) entry := by
    intro d hd
    obtain ⟨path, hmem, hpath⟩ := exists_path_of_document hcompile hd
    exact Workspace.exists_write_iff.mp (hpath ▸ hwrite path hmem)
  have hmake : (Workspace.access.makeDirectories settings.outDir).run w = (.ok (), made) :=
    run_commit hmade
  obtain ⟨u, hruns, hwritten, -⟩ := runs_writeAll hextension hnodup hplain hopen
  have hshows : ∀ d ∈ output.documents,
      { u with reported := u.reported ++ reportText output.diagnostics }.Shows
        (target settings d.name) (some (.file d.output.output)) :=
    fun d hd => (hwritten d hd).congr fun _ => rfl
  refine ⟨_, ?_, hshows, ?_⟩
  · refine .bind (runs_readSources hread) ?_
    rw [hcompile]
    exact .bind (.orStop hmake) (.bind hruns (.bind (.lift rfl) rfl))
  · refine List.pairwise_map.mpr ((List.pairwise_map.mp hnodup).imp_of_mem fun hd he hne heq => ?_)
    exact hne (target_injective hextension (hplain _ hd) (hplain _ he) (hshows _ hd)
      (hshows _ he) heq)

end

/-- The source of a file has been compiled under the name that the file gives, and
what it was compiled to stands in the file of that name. -/
def Kept (settings : Settings) (output : CompiledProject) (u : Workspace) (path source : String) :
    Prop :=
  let a := analyze .builtin (Path.documentName path) source
  ∃ c, output.document? a.document = some c ∧ c.tokens = a.tokens ∧ c.tree = a.tree ∧
    u.read (target settings a.document) = .ok c.output

theorem kept_of_mem {path source : String} {options : CompileOptions} {p : Project}
    (hkeyed : p.Keyed) (hregistry : p.registry = Registry.builtin)
    (hmem : ⟨Path.documentName path, source⟩ ∈ p.documents)
    (hwritten : ∀ d ∈ (p.output options).documents,
      u.Shows (target settings d.name) (some (.file d.output.output))) :
    Kept settings (p.output options) u path source := by
  have hfound := hkeyed.document?_output hmem options
  obtain ⟨d, hd, hname, houtput⟩ := CompiledProject.exists_of_document? hfound
  have hshows := hwritten d hd
  rw [hname] at hshows
  rw [← houtput] at hfound
  refine ⟨d.output, hfound, ?_, ?_, Workspace.read_eq_ok.mpr hshows⟩
  · rw [houtput, ← hregistry]
    rfl
  · rw [houtput, ← hregistry]
    rfl

/-- What the words ask for is a project if they name several files. -/
theorem runs_run {words : List String} {a : Arguments} {file : Option String} {answer : Bool}
    (hwords : Arguments.parse words = .ok a) (hmany : 2 ≤ a.paths.length)
    (hfile : Runs (readSettings? Workspace.access a.config) w file w)
    (hsettings : a.settings file = .ok settings)
    (h : Runs (runProject Workspace.access settings a.paths) w answer u) :
    Runs (run Workspace.access words) w answer u := by
  rw [run, hwords]
  refine .bind hfile ?_
  rw [hsettings]
  dsimp only
  split
  · next hone _ => simp [hone] at hmany
  · exact h

/-- A command for several files has as many documents as files if and only if no
two of the files give one name. Each document has a file of its own. The file of
a name holds the output for the last source that gives the name, so every source
has its output in a file if the names differ. -/
theorem run_keeps_files {words : List String} {a : Arguments} {file : Option String}
    (hwords : Arguments.parse words = .ok a) (hmany : 2 ≤ a.paths.length)
    (hfile : Runs (readSettings? Workspace.access a.config) w file w)
    (hsettings : a.settings file = .ok settings)
    (hextension : Path.IsName ("." ++ settings.extension))
    (hread : ∀ path ∈ a.paths, w.read path = .ok (text path))
    (hmade : w.makeDirectories settings.outDir = .ok made)
    (hwrite : ∀ path ∈ a.paths, ∃ u,
      made.write (target settings (Path.documentName path)) "" = .ok u)
    (hdone : (project settings (sources text a.paths)).Completes) :
    ∃ output q u,
      (project settings (sources text a.paths)).compile (settings.compileOptions "") =
        .ok (output, q) ∧
      Runs (run Workspace.access words) w (!output.hasErrors) u ∧
      (output.documents.length = a.paths.length ↔ (a.paths.map Path.documentName).Nodup) ∧
      (output.documents.map fun d => u.locate (target settings d.name)).Nodup ∧
      ((a.paths.map Path.documentName).Nodup →
        ∀ path ∈ a.paths, Kept settings output u path (text path)) ∧
      ∀ before path after, a.paths = before ++ path :: after →
        Path.documentName path ∉ after.map Path.documentName →
          Kept settings output u path (text path) := by
  have hkeyed := project_keyed settings text a.paths
  have hcompile := hkeyed.compile_ok (check_project settings text a.paths) hdone
    (settings.compileOptions "")
  obtain ⟨u, hruns, hwritten, hplaces⟩ := runs_runProject hcompile hextension hread hmade hwrite
  have hlast {before path after} (hpaths : a.paths = before ++ path :: after)
      (hlater : Path.documentName path ∉ after.map Path.documentName) :=
    kept_of_mem hkeyed (project_registry settings text a.paths) (mem_project hpaths hlater) hwritten
  refine ⟨_, _, u, hcompile, runs_run hwords hmany hfile hsettings hruns, ?_, hplaces, ?_,
    fun _ _ _ => hlast⟩
  · rw [← length_project_iff, ← names_output hcompile, List.length_map]
  · intro hnodup path hpath
    obtain ⟨before, after, hpaths⟩ := List.append_of_mem hpath
    refine hlast hpaths fun hmem => ?_
    rw [hpaths, List.map_append, List.map_cons] at hnodup
    exact (List.nodup_cons.mp (List.nodup_append.mp hnodup).2.1).1 hmem

/-- Geese and swans have directories of their own. -/
def nests : Workspace :=
  { files := [(["a", "geese.sigil"], "\\h[1][Geese]"), (["b", "swans.sigil"], "\\x[geese]")] }

theorem run_keeps_files_nests :
    let words := ["a/geese.sigil", "b/swans.sigil", "-o", "out"]
    let text := fun path => if path = "a/geese.sigil" then "\\h[1][Geese]" else "\\x[geese]"
    ∃ settings output u, Runs (run Workspace.access words) nests (!output.hasErrors) u ∧
      output.documents.length = 2 ∧
      ∀ path ∈ ["a/geese.sigil", "b/swans.sigil"], Kept settings output u path (text path) := by
  intro words text
  let a : Arguments :=
    { paths := ["a/geese.sigil", "b/swans.sigil"], flags := [], config := none, format := none
      index := none, outDir := some "out" }
  let settings : Settings :=
    { bodyOnly := false, showTokens := false, showTree := false, showParse := false
      format := .text, outDir := "out", extension := "html", index := "index" }
  let made := { nests with directories := [["out"]] }
  have hwords : Arguments.parse words = .ok a := by decide +kernel
  have hfile : Runs (readSettings? Workspace.access a.config) nests none nests := rfl
  have hsettings : a.settings none = .ok settings := by decide +kernel
  have hextension : Path.IsName ("." ++ settings.extension) :=
    ⟨by decide, by decide, by decide, by decide⟩
  have hread : ∀ path ∈ a.paths, nests.read path = .ok (text path) := by decide +kernel
  have hmade : nests.makeDirectories settings.outDir = .ok made := by decide +kernel
  have hwrite : ∀ path ∈ a.paths, ∃ u,
      made.write (target settings (Path.documentName path)) "" = .ok u := by
    intro path hpath
    rcases List.mem_pair.mp hpath with rfl | rfl
    · exact ⟨made.put ["out", "geese.html"] "", by decide +kernel⟩
    · exact ⟨made.put ["out", "swans.html"] "", by decide +kernel⟩
  have hnodup : (a.paths.map Path.documentName).Nodup := by decide +kernel
  obtain ⟨output, q, u, -, hruns, hlength, -, hkept, -⟩ :=
    run_keeps_files hwords (by decide) hfile hsettings hextension hread hmade hwrite
      (by decide +kernel)
  exact ⟨settings, output, u, hruns, hlength.mpr hnodup, hkept hnodup⟩

/-- A file of each of two directories, under the same name. -/
def twins : Workspace := { files := [(["a", "x.sigil"], "one"), (["b", "x.sigil"], "two")] }

/-- Both files are read and the command has nothing to report, but only the second
one is compiled. -/
theorem run_loses_twin :
    Runs (run Workspace.access ["a/x.sigil", "b/x.sigil", "-o", "out"]) twins true
      { files := twins.files ++ [(["out", "x.html"],
          "<!doctype html>\n<html lang=\"en\">\n<head>\n<meta charset=\"utf-8\">\n" ++
            "<title></title>\n</head>\n<body>\n<p>two</p>\n</body>\n</html>\n")]
        directories := [["out"]] } :=
  Prod.ext (by decide +kernel) (by decide +kernel)

end Command
end Macromark

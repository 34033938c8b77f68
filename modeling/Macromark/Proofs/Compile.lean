import Macromark.Compile

/-!
# Compilation in two steps

What becomes of the links of an analyzed document (`Analysis.links`), and the
context in which the document is rendered then (`Analysis.context`). With a
registry that passes its check a document is compiled if its analysis is not
broken off (`compile_ok`).
-/

namespace Macromark

namespace Analysis

def links (a : Analysis) (store : Option Store) : Selection :=
  select (a.resolves store) a.contribution.references

/-- What the rendering of a document depends on, when its links are resolved
against itself and the store. -/
def context (a : Analysis) (registry : Registry) (store : Option Store) (extension : String) :
    RenderContext :=
  { registry, document := a.document, tree := a.tree, index := a.index, headers := a.headers
    store, extension
    resolutions :=
      (a.links store).resolutions a.document a.linkSites a.contribution.references }

/-- Several analyses go through if each of them does. -/
theorem mapM_finished {α : Type} {f : α → Analysis} {l : List α} {all : List Analysis} :
    l.mapM (fun a => (f a).finished) = .ok all ↔ all = l.map f ∧ ∀ a ∈ l, (f a).aborted = none := by
  induction l generalizing all with
  | nil => simp [pure, Except.pure, eq_comm]
  | cons a l ih =>
    rw [List.mapM_cons, List.forall_mem_cons, Analysis.finished]
    cases (f a).aborted with
    | some why => simp [bind, Except.bind]
    | none =>
      simp only [bind, Except.bind, pure, Except.pure, true_and, List.map_cons]
      cases hrest : l.mapM fun a => (f a).finished with
      | error fault =>
        have hnot : ¬ ∀ a ∈ l, (f a).aborted = none := fun hall => by
          simpa [hrest] using ih.mpr ⟨rfl, hall⟩
        simp [hnot]
      | ok rest =>
        obtain ⟨rfl, hall⟩ := ih.mp hrest
        simpa [eq_comm] using fun _ => hall

end Analysis

@[simp] theorem Diagnostic.problem_within (document : String) (d : Diagnostic) :
    (d.within document).problem = d.problem := by
  unfold within
  split <;> rfl

theorem Diagnostic.position_within (document : String) (d : Diagnostic) :
    (d.within document).position = d.position := by
  unfold within
  split <;> rfl

variable {registry : Registry}

theorem compile_eq (hcheck : registry.check = .ok ()) (store : Option Store)
    (options : CompileOptions) (source : String) :
    compile (some registry) store options source =
      (analyze registry options.document source).finished.map fun a =>
        let page := (a.context registry store options.extension).renderDocument options.bodyOnly
        a.finish page.1 ((a.links store).diagnostics ++ page.2) options := by
  unfold compile
  simp only [hcheck]
  cases (analyze registry options.document source).finished <;> rfl

/-- A document is compiled if and only if its analysis goes through. -/
theorem compile_eq_ok_iff (hcheck : registry.check = .ok ()) {store : Option Store}
    {options : CompileOptions} {source : String} {c : Compiled} :
    compile (some registry) store options source = .ok c ↔
      let a := analyze registry options.document source
      let page := (a.context registry store options.extension).renderDocument options.bodyOnly
      a.aborted = none ∧
        a.finish page.1 ((a.links store).diagnostics ++ page.2) options = c := by
  rw [compile_eq hcheck, Analysis.finished]
  cases haborted : (analyze registry options.document source).aborted <;>
    simp [Except.map, haborted]

theorem compile_ok (hcheck : registry.check = .ok ()) (store : Option Store)
    (options : CompileOptions) {source : String}
    (hdone : (analyze registry options.document source).aborted = none) :
    compile (some registry) store options source =
      let a := analyze registry options.document source
      let page := (a.context registry store options.extension).renderDocument options.bodyOnly
      .ok (a.finish page.1 ((a.links store).diagnostics ++ page.2) options) :=
  (compile_eq_ok_iff hcheck).mpr ⟨hdone, rfl⟩

end Macromark

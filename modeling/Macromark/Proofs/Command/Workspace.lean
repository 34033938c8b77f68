import Macromark.Command.Workspace
import Mathlib.Data.List.Basic

/-!
# Places in a workspace

A path leads to a place by its components, through directories (`walk_cons`), and
a file in a directory stands right behind it (`locate_join`). Writing a file
takes no directory away (`keeps_put`) and changes nothing that does not lead to
it (`entry?_put_beside`), so that several files may be written to one
directory one after the other and all of them are there in the end
(`shows_write_beside`).
-/

namespace Macromark

-- ----------------------------------------------------------------------------
-- Components
-- ----------------------------------------------------------------------------

namespace Text

variable {separator : Char}

theorem split_ne_nil (separator : Char) (text : List Char) : split separator text ≠ [] := by
  refine List.ne_nil_of_length_pos ?_
  rw [length_split]
  exact Nat.succ_pos _

theorem split_append (separator : Char) (front back : List Char) :
    split separator (front ++ separator :: back) =
      split separator front ++ split separator back := by
  induction front with
  | nil =>
    obtain ⟨part, parts, hback⟩ := List.exists_cons_of_ne_nil (split_ne_nil separator back)
    simp [split, hback]
  | cons c front ih =>
    obtain ⟨part, parts, hfront⟩ := List.exists_cons_of_ne_nil (split_ne_nil separator front)
    rw [hfront] at ih
    by_cases hc : c = separator
    · simp [split, ih, hfront, hc]
    · simp [split, ih, hfront, hc]

theorem split_of_not_mem {text : List Char} (h : separator ∉ text) :
    split separator text = [text] := by
  induction text with
  | nil => rfl
  | cons c rest ih =>
    rw [List.mem_cons, not_or] at h
    simp [split, ih h.2, Ne.symm h.1]

theorem not_mem_of_mem_split {text part : List Char} (h : part ∈ split separator text) :
    separator ∉ part := by
  intro hmem
  have hin : separator ∈ (split separator text).flatten := List.mem_flatten.mpr ⟨part, h, hmem⟩
  simp [flatten_split] at hin

end Text

namespace Path

variable {front back name path : String}

structure IsName (name : String) : Prop where
  ne_empty : name ≠ ""
  plain : '/' ∉ name.toList
  ne_here : name ≠ "."
  ne_above : name ≠ ".."

theorem components_slash (front back : String) :
    components (front ++ "/" ++ back) = components front ++ components back := by
  have htext : (front ++ "/" ++ back).toList = front.toList ++ '/' :: back.toList := by simp
  rw [components, htext, Text.split_append, List.filter_append, List.map_append]
  rfl

theorem IsName.components (h : IsName name) : components name = [name] := by
  rw [Path.components, Text.split_of_not_mem h.plain]
  simp [h.ne_empty]

theorem components_join {file : String} (h : IsName file) (directory : String) :
    components (join directory file) = components directory ++ [file] := by
  unfold join
  split
  · next hclosed =>
    rcases eq_or_ne directory "" with rfl | hdirectory
    · rw [String.empty_append, h.components]
      rfl
    · obtain ⟨front, hfront⟩ : ∃ front, directory.toList = front ++ ['/'] := by
        simpa [hdirectory, List.getLast?_eq_some_iff] using hclosed
      obtain rfl : directory = String.ofList front ++ "/" ++ "" :=
        String.toList_inj.mp (by simp [hfront])
      rw [components_slash, String.append_empty, components_slash, h.components]
      simp [components, Text.split]
  · rw [components_slash, h.components]

-- ----------------------------------------------------------------------------
-- Names
-- ----------------------------------------------------------------------------

theorem IsName.append (hback : IsName back) (hfront : '/' ∉ front.toList) :
    IsName (front ++ back) := by
  have hne : back.toList ≠ [] := fun h => hback.ne_empty (String.toList_inj.mp h)
  have hsuffix {whole : String} (h : front ++ back = whole) : back.toList <:+ whole.toList :=
    h ▸ ⟨front.toList, by simp⟩
  refine ⟨?_, ?_, ?_, ?_⟩
  · intro h
    exact hback.ne_empty (String.append_eq_empty_iff.mp h).2
  · simp [hfront, hback.plain]
  · intro h
    have hpoint : back.toList = ['.'] := by simpa [List.suffix_cons_iff, hne] using hsuffix h
    exact hback.ne_here (String.toList_inj.mp hpoint)
  · intro h
    have hpoints : back.toList = ['.', '.'] ∨ back.toList = ['.'] := by
      simpa [List.suffix_cons_iff, hne] using hsuffix h
    rcases hpoints with htwo | hone
    · exact hback.ne_above (String.toList_inj.mp htwo)
    · exact hback.ne_here (String.toList_inj.mp hone)

theorem slash_not_mem_of_mem_components (h : name ∈ components path) : '/' ∉ name.toList := by
  obtain ⟨part, hpart, rfl⟩ := List.mem_map.mp h
  simpa using Text.not_mem_of_mem_split (List.mem_of_mem_filter hpart)

theorem slash_not_mem_stem (h : '/' ∉ name.toList) : '/' ∉ (stem name).toList := by
  unfold stem
  dsimp only
  split
  · exact h
  · rw [String.toList_ofList, List.mem_reverse]
    intro hmem
    have hname := (List.dropWhile_sublist _).subset (List.mem_of_mem_drop hmem)
    exact h (List.mem_reverse.mp hname)

theorem slash_not_mem_documentName (path : String) : '/' ∉ (documentName path).toList := by
  unfold documentName
  cases hname : fileName? path with
  | none => simp
  | some name =>
    have hmem : name ∈ components path := by
      unfold fileName? at hname
      split at hname
      · cases hname
      · exact List.mem_of_mem_filter (List.mem_of_getLast? hname)
    exact slash_not_mem_stem (slash_not_mem_of_mem_components hmem)

end Path

-- ----------------------------------------------------------------------------
-- Walking
-- ----------------------------------------------------------------------------

namespace Workspace

variable {w u : Workspace} {place other here there : List String} {path text : String}

theorem bind_eq_ok {α β : Type} {x : Except FileFault α} {f : α → Except FileFault β} {b : β} :
    x >>= f = .ok b ↔ ∃ a, x = .ok a ∧ f a = .ok b := by
  cases x <;> simp [bind, Except.bind]

/-- Where a component leads to. -/
def step (here : List String) (name : String) : List String :=
  if name = "." then here else if name = ".." then parent here else here ++ [name]

theorem step_of_isName {name : String} (h : Path.IsName name) (here : List String) :
    step here name = here ++ [name] := by
  rw [step, if_neg h.ne_here, if_neg h.ne_above]

theorem walk_cons (w : Workspace) (here : List String) (name : String) (rest : List String) :
    w.walk here (name :: rest) =
      w.requireDirectory here >>= fun _ => w.walk (step here name) rest := by
  by_cases hhere : name = "."
  · subst hhere
    rfl
  by_cases habove : name = ".."
  · subst habove
    rfl
  rw [walk, step, if_neg hhere, if_neg habove]
  · exact hhere
  · exact habove

theorem requireDirectory_bind_eq_ok {β : Type} {f : Unit → Except FileFault β} {b : β} :
    w.requireDirectory place >>= f = .ok b ↔ w.entry? place = some .directory ∧ f () = .ok b := by
  unfold requireDirectory
  split <;> simp_all [bind, Except.bind]

theorem walk_cons_eq_ok {name : String} {rest : List String} :
    w.walk here (name :: rest) = .ok there ↔
      w.entry? here = some .directory ∧ w.walk (step here name) rest = .ok there := by
  rw [walk_cons, requireDirectory_bind_eq_ok]

theorem walk_append_eq_ok {front back : List String} :
    w.walk here (front ++ back) = .ok there ↔
      ∃ between, w.walk here front = .ok between ∧ w.walk between back = .ok there := by
  induction front generalizing here with
  | nil => simp [walk]
  | cons name front ih => simp [walk_cons_eq_ok, ih, and_assoc]

theorem locate_eq_ok :
    w.locate path = .ok place ↔
      (path ≠ "" ∧ Path.isAbsolute path = false) ∧ w.walk [] (Path.components path) = .ok place ∧
        (path.toList.getLast? = some '/' → w.entry? place = some .directory) := by
  unfold locate
  split
  · next h =>
    rw [Bool.or_eq_true, decide_eq_true_eq] at h
    rcases h with h | h <;> simp [h]
  · next h =>
    rw [Bool.or_eq_true, decide_eq_true_eq, not_or, Bool.not_eq_true] at h
    rw [bind_eq_ok]
    by_cases hend : path.toList.getLast? = some '/'
    · simp only [hend, requireDirectory_bind_eq_ok, if_true]
      constructor
      · rintro ⟨there, hwalk, hdirectory, hthere⟩
        obtain rfl := Except.ok.inj hthere
        exact ⟨h, hwalk, fun _ => hdirectory⟩
      · rintro ⟨-, hwalk, hdirectory⟩
        exact ⟨place, hwalk, hdirectory trivial, rfl⟩
    · simp [h, hend, pure, Except.pure]

/-- A file stands right behind the directory that its path leads to. -/
theorem locate_join {file directory : String} (hfile : Path.IsName file)
    (h : w.locate (Path.join directory file) = .ok place) :
    ∃ here, w.walk [] (Path.components directory) = .ok here ∧ place = here ++ [file] := by
  obtain ⟨-, hwalk, -⟩ := locate_eq_ok.mp h
  rw [Path.components_join hfile, walk_append_eq_ok] at hwalk
  obtain ⟨here, hhere, hfound⟩ := hwalk
  rw [walk_cons_eq_ok, step_of_isName hfile] at hfound
  exact ⟨here, hhere, (Except.ok.inj hfound.2).symm⟩

-- ----------------------------------------------------------------------------
-- What stands where a path leads
-- ----------------------------------------------------------------------------

def Shows (w : Workspace) (path : String) (entry : Option Entry) : Prop :=
  ∃ place, w.locate path = .ok place ∧ w.entry? place = entry

theorem read_eq_ok : w.read path = .ok text ↔ w.Shows path (some (.file text)) := by
  unfold read Shows
  rw [bind_eq_ok]
  refine exists_congr fun place => and_congr_right fun _ => ?_
  split <;> simp_all

theorem write_eq_ok :
    w.write path text = .ok u ↔
      ∃ place, w.locate path = .ok place ∧ w.entry? place ≠ some .directory ∧
        u = w.put place text := by
  unfold write
  rw [bind_eq_ok]
  refine exists_congr fun place => and_congr_right fun _ => ?_
  split <;> simp_all [eq_comm]

theorem exists_write_iff :
    (∃ u, w.write path text = .ok u) ↔ ∃ entry ≠ some .directory, w.Shows path entry := by
  simp only [write_eq_ok, Shows]
  constructor
  · rintro ⟨_, place, hplace, hfree, -⟩
    exact ⟨_, hfree, place, hplace, rfl⟩
  · rintro ⟨_, hfree, place, hplace, rfl⟩
    exact ⟨_, place, hplace, hfree, rfl⟩

-- ----------------------------------------------------------------------------
-- Writing
-- ----------------------------------------------------------------------------

/-- What is a directory stays one. -/
def Keeps (w u : Workspace) : Prop :=
  ∀ place, w.entry? place = some .directory → u.entry? place = some .directory

theorem Keeps.walk {names : List String} (h : Keeps w u) (hwalk : w.walk here names = .ok there) :
    u.walk here names = .ok there := by
  induction names generalizing here with
  | nil => exact hwalk
  | cons name names ih =>
    obtain ⟨hhere, hrest⟩ := walk_cons_eq_ok.mp hwalk
    exact walk_cons_eq_ok.mpr ⟨h here hhere, ih hrest⟩

theorem Keeps.locate (h : Keeps w u) (hlocate : w.locate path = .ok place) :
    u.locate path = .ok place := by
  obtain ⟨hpath, hwalk, hend⟩ := locate_eq_ok.mp hlocate
  exact locate_eq_ok.mpr ⟨hpath, h.walk hwalk, fun hslash => h place (hend hslash)⟩

theorem Shows.congr {entry : Option Entry} (h : w.Shows path entry)
    (hsame : ∀ place, u.entry? place = w.entry? place) : u.Shows path entry := by
  obtain ⟨place, hplace, hentry⟩ := h
  have hkeeps : Keeps w u := fun other hother => (hsame other).trans hother
  exact ⟨place, hkeeps.locate hplace, (hsame place).trans hentry⟩

theorem hasDirectory_iff :
    w.hasDirectory place ↔
      (∀ name ∈ place, name = "..") ∨ (∃ directory ∈ w.directories, place <+: directory) ∨
        ∃ entry ∈ w.files, entry.1 ≠ place ∧ place <+: entry.1 := by
  simp [hasDirectory, or_assoc]

theorem entry?_eq_directory :
    w.entry? place = some .directory ↔ w.text? place = none ∧ w.hasDirectory place := by
  unfold entry?
  split <;> simp_all

/-- A file that is put somewhere makes what leads there a directory. -/
theorem hasDirectory_put :
    (w.put place text).hasDirectory other ↔
      w.hasDirectory other ∨ place ≠ other ∧ other <+: place := by
  simp only [hasDirectory_iff, put]
  constructor
  · rintro (habove | hmade | ⟨entry, hentry, hother, hleads⟩)
    · exact .inl (.inl habove)
    · exact .inl (.inr (.inl hmade))
    · rcases List.mem_append.mp hentry with hentry | hentry
      · exact .inl (.inr (.inr ⟨entry, List.mem_of_mem_filter hentry, hother, hleads⟩))
      · obtain rfl := List.mem_singleton.mp hentry
        exact .inr ⟨hother, hleads⟩
  · rintro ((habove | hmade | ⟨entry, hentry, hother, hleads⟩) | hput)
    · exact .inl habove
    · exact .inr (.inl hmade)
    · -- A file that was there before may be the one that has been replaced.
      by_cases hplace : entry.1 = place
      · exact .inr (.inr ⟨(place, text), by simp, hplace ▸ hother, hplace ▸ hleads⟩)
      · exact .inr (.inr ⟨entry, by simp [hentry, hplace], hother, hleads⟩)
    · exact .inr (.inr ⟨(place, text), by simp, hput⟩)

theorem keeps_put (hfree : w.entry? place ≠ some .directory) : Keeps w (w.put place text) := by
  intro other hother
  have hne : place ≠ other := by
    rintro rfl
    exact hfree hother
  rw [entry?_eq_directory] at hother ⊢
  exact ⟨by rw [text?_put, if_neg hne, hother.1], hasDirectory_put.mpr (.inl hother.2)⟩

theorem entry?_put_self (w : Workspace) (place : List String) (text : String) :
    entry? (w.put place text) place = some (.file text) := by
  unfold entry?
  rw [text?_put, if_pos rfl]

theorem entry?_put_beside (hother : ¬other <+: place) :
    entry? (w.put place text) other = w.entry? other := by
  have hne : place ≠ other := by
    rintro rfl
    exact hother List.prefix_rfl
  have hdirectory : (w.put place text).hasDirectory other = w.hasDirectory other := by
    rw [Bool.eq_iff_iff, hasDirectory_put]
    simp [hother]
  unfold entry?
  rw [text?_put, if_neg hne, hdirectory]

theorem shows_write (h : w.write path text = .ok u) : u.Shows path (some (.file text)) := by
  obtain ⟨place, hplace, hfree, rfl⟩ := write_eq_ok.mp h
  exact ⟨place, (keeps_put hfree).locate hplace, entry?_put_self w place text⟩

/-- Writing a file of a directory leaves its other files alone. -/
theorem shows_write_beside {directory file beside : String} {entry : Option Entry}
    (hfile : Path.IsName file) (hbeside : Path.IsName beside) (hne : beside ≠ file)
    (h : w.write (Path.join directory file) text = .ok u)
    (hbefore : w.Shows (Path.join directory beside) entry) :
    u.Shows (Path.join directory beside) entry := by
  obtain ⟨place, hplace, hfree, rfl⟩ := write_eq_ok.mp h
  obtain ⟨other, hother, hentry⟩ := hbefore
  obtain ⟨here, hhere, rfl⟩ := locate_join hfile hplace
  obtain ⟨there, hthere, rfl⟩ := locate_join hbeside hother
  obtain rfl := Except.ok.inj (hhere.symm.trans hthere)
  refine ⟨_, (keeps_put hfree).locate hother, ?_⟩
  -- Both files stand right behind one directory, so neither place leads to the other.
  rw [entry?_put_beside, hentry]
  intro hprefix
  simpa [hne] using hprefix.eq_of_length (by simp)

end Workspace
end Macromark

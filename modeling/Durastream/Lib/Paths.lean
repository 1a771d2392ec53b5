import Mathlib.Data.List.Basic

/-!
# POSIX paths

A file system without symbolic links: a directory is the list of the names that lead
to it from the root, and `isDir` says which directories there are.

A path is taken apart at its slashes and walked from the root, if it starts with a
slash, or from the working directory.  Empty components and `.` stay where they are,
`..` goes up, and any other component needs a directory of that name.  The last
component names the file.
-/

namespace Posix

/-- A component of a path. -/
abbrev Part := List Char

/-- `os.path.join`. -/
def join (a b : List Char) : List Char :=
  if b.head? = some '/' then b
  else if a = [] ∨ a.getLast? = some '/' then a ++ b
  else a ++ '/' :: b

/-- A component that names no entry. -/
def Dots (c : Part) : Prop := c = [] ∨ c = ['.'] ∨ c = ['.', '.']

instance (c : Part) : Decidable (Dots c) := by
  unfold Dots
  infer_instance

section Walks

variable (isDir : List Part → Bool) (cwd : List Part)

/-- From a directory by one component. -/
def enter (dir : List Part) (c : Part) : Option (List Part) :=
  if c = [] ∨ c = ['.'] then some dir
  else if c = ['.', '.'] then some dir.dropLast
  else if isDir (dir ++ [c]) then some (dir ++ [c])
  else none

/-- From a directory by several components. -/
def walk (dir : List Part) (cs : List Part) : Option (List Part) := cs.foldlM (enter isDir) dir

/-- Where the walk of a path starts. -/
def start (p : List Char) : List Part := if p.head? = some '/' then [] else cwd

/-- The directory a path leads to. -/
def resolveDir (p : List Char) : Option (List Part) :=
  walk isDir (start cwd p) (p.splitOn '/')

/-- The file that components name, from a directory. -/
def fileIn (dir : List Part) (cs : List Part) : Option (List Part) :=
  match cs.getLast? with
  | none => none
  | some c => if Dots c then none else (walk isDir dir cs.dropLast).map (· ++ [c])

/-- The file a path leads to, whether it is there or not; `none` if a directory on the
way is missing. -/
def resolve (p : List Char) : Option (List Part) :=
  fileIn isDir (start cwd p) (p.splitOn '/')

end Walks

/-- The absolute path of a file. -/
def render (file : List Part) : List Char := file.flatMap fun c => '/' :: c

variable {isDir : List Part → Bool} {cwd dir base : List Part} {a b : List Char} {c : Part}
  {cs ds : List Part}

theorem walk_append :
    walk isDir dir (cs ++ ds) = (walk isDir dir cs).bind fun dir => walk isDir dir ds :=
  List.foldlM_append

/-- An empty component leads nowhere else. -/
theorem walk_empty : walk isDir dir [[]] = some dir := rfl

theorem fileIn_append (hwalk : walk isDir dir cs = some base) (hne : ds ≠ []) :
    fileIn isDir dir (cs ++ ds) = fileIn isDir base ds := by
  unfold fileIn
  rw [List.getLast?_append_of_ne_nil cs hne, List.dropLast_append_of_ne_nil hne, walk_append,
    hwalk]
  rfl

/-- A path relative to a directory that a path leads to. -/
theorem resolve_join (hdir : resolveDir isDir cwd a = some base) (hrel : b.head? ≠ some '/') :
    resolve isDir cwd (join a b) = fileIn isDir base (b.splitOn '/') := by
  have hne : b.splitOn '/' ≠ [] := List.splitOn_ne_nil _ _
  rw [join, if_neg hrel]
  split
  · next hends =>
      rcases hends with rfl | hslash
      · -- an empty path is the working directory
        have hbase : cwd = base := by simpa [resolveDir, start, walk, enter] using hdir
        rw [← hbase, List.nil_append, resolve, start, if_neg hrel]
      · obtain ⟨a, rfl⟩ : ∃ a', a = a' ++ ['/'] := by
          obtain ⟨hlast, heq⟩ := List.getLast?_eq_some_iff.mp hslash
          exact ⟨hlast, heq⟩
        have hstart : start cwd (a ++ ['/'] ++ b) = start cwd (a ++ ['/']) := by
          cases a <;> rfl
        rw [resolveDir, List.splitOn_append_cons_self, List.splitOn_nil, walk_append] at hdir
        rw [resolve, hstart, List.append_assoc, List.singleton_append,
          List.splitOn_append_cons_self]
        refine fileIn_append ?_ hne
        simpa [walk_empty] using hdir
  · next hopen =>
      have hstart : start cwd (a ++ '/' :: b) = start cwd a := by
        cases a with
        | nil => exact absurd (.inl rfl) hopen
        | cons => rfl
      rw [resolve, hstart, List.splitOn_append_cons_self]
      exact fileIn_append hdir hne

/-- A name without a slash names an entry of the directory itself. -/
theorem fileIn_single (hplain : '/' ∉ c) (hdots : ¬Dots c) :
    fileIn isDir dir (c.splitOn '/') = some (dir ++ [c]) := by
  rw [List.splitOn_eq_singleton hplain]
  simp [fileIn, hdots, walk]

/-- The entries of a directory have different paths. -/
theorem render_concat_injective : Function.Injective fun c => render (dir ++ [c]) := by
  intro c d h
  simpa [render] using h

end Posix

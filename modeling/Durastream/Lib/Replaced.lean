import Durastream.Lib.CrashFile

/-!
# Files that are replaced as a whole

To replace a file so that a crash leaves the old contents or the new, a program writes
the new contents to a file beside it, syncs that file, and renames it over the old one.
The rename is a change of a directory entry, which a power loss may undo until the
directory is synced.

`f.Every P` says that `P` holds of every contents the file can have after a power loss,
`none` where there is no file.  Only the rename has a condition: the new contents satisfy
`P` and have been synced.
-/

/-- A file of a name, and one beside it. -/
structure ReplacedFile (α : Type*) where
  entry : CrashCell (Option (CrashFile α))
  beside : Option (CrashFile α)

namespace ReplacedFile

variable {α : Type*}

/-- What a read of the file sees. -/
def data (f : ReplacedFile α) : Option (List α) := f.entry.cur.map CrashFile.data

/-- A file that is on the device as it is, or none. -/
def ofDisk (d : Option (List α)) : ReplacedFile α := ⟨.ofDisk (d.map .ofDisk), none⟩

/-- Open the file beside it to write it anew. -/
def create [Inhabited α] (f : ReplacedFile α) : ReplacedFile α :=
  { f with beside := some (f.beside.elim (.ofDisk []) fun g => g.truncate 0) }

def write (f : ReplacedFile α) (xs : List α) : ReplacedFile α :=
  { f with beside := f.beside.map fun g => g.write xs }

def sync (f : ReplacedFile α) : ReplacedFile α := { f with beside := f.beside.map CrashFile.sync }

/-- Rename the file beside it over it. -/
def rename (f : ReplacedFile α) : ReplacedFile α :=
  match f.beside with
  | some g => ⟨f.entry.set (some g), none⟩
  | none => f

/-- What a power loss leaves: entry number `j`, with what it leaves of that file, and
anything beside it. -/
def powerLoss (f : ReplacedFile α) (j i k m : Nat) (beside : Option (CrashFile α)) :
    ReplacedFile α :=
  ⟨.ofDisk ((f.entry.powerLoss j).cur.map fun g => g.powerLoss i k m), beside⟩

/-- The file beside it is empty. -/
theorem beside_create [Inhabited α] (f : ReplacedFile α) :
    ∃ g ∈ f.create.beside, g.data = [] := by
  refine ⟨_, rfl, ?_⟩
  cases f.beside with
  | none => rfl
  | some g =>
      show (g.truncate 0).data = []
      rw [CrashFile.data_truncate g (Nat.zero_le _), List.take_zero]

theorem data_rename {f : ReplacedFile α} {g : CrashFile α} (h : f.beside = some g) :
    f.rename.data = some g.data := by
  rw [rename, h]
  rfl

/-- `P` holds of every contents that a power loss can leave, and each of them is on the
device. -/
def Every (f : ReplacedFile α) (P : Option (List α) → Prop) : Prop :=
  f.entry.Every fun g => P (g.map CrashFile.data) ∧ ∀ h ∈ g, h.settled = true

namespace Every

variable {f : ReplacedFile α} {P Q : Option (List α) → Prop}

theorem mono (h : f.Every P) (hPQ : ∀ d, P d → Q d) : f.Every Q :=
  CrashCell.Every.mono h fun _ hg => ⟨hPQ _ hg.1, hg.2⟩

/-- What a read sees is one of the contents. -/
theorem data (h : f.Every P) : P f.data := (CrashCell.Every.cur h).1

theorem ofDisk {d : Option (List α)} (h : P d) : (ReplacedFile.ofDisk d).Every P := by
  refine CrashCell.Every.ofDisk ⟨?_, fun g hg => ?_⟩
  · cases d <;> exact h
  · cases d with
    | none => cases hg
    | some xs =>
        cases hg
        simp [CrashFile.settled, CrashFile.ofDisk]

theorem create [Inhabited α] (h : f.Every P) : f.create.Every P := h

theorem write (h : f.Every P) (xs : List α) : (f.write xs).Every P := h

theorem sync (h : f.Every P) : f.sync.Every P := h

theorem rename (h : f.Every P) {g : CrashFile α} (hbeside : f.beside = some g)
    (hg : P (some g.data)) (hsettled : g.settled = true) : f.rename.Every P := by
  rw [ReplacedFile.rename, hbeside]
  refine CrashCell.Every.set h ⟨hg, fun g' hg' => ?_⟩
  cases hg'
  exact hsettled

theorem powerLoss (h : f.Every P) (j i k m : Nat) (beside : Option (CrashFile α)) :
    (f.powerLoss j i k m beside).Every P := by
  obtain ⟨hcur, hsettled⟩ := (CrashCell.Every.powerLoss h j).cur
  refine CrashCell.Every.ofDisk ?_
  cases hg : (f.entry.powerLoss j).cur with
  | none =>
      rw [hg] at hcur
      exact ⟨hcur, fun g' hg' => by cases hg'⟩
  | some g =>
      rw [hg] at hcur hsettled
      have hon := hsettled g rfl
      have hdata := g.data_powerLoss_of_settled hon i k m
      refine ⟨?_, fun g' hg' => ?_⟩
      · show P (some (g.powerLoss i k m).data)
        rw [hdata]
        exact hcur
      · cases hg'
        exact g.settled_powerLoss hon i k m

end Every

end ReplacedFile

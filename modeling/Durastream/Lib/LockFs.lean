import Durastream.Lib.CrashFile
import Mathlib.Logic.Function.Basic

/-!
# A directory of lockable files

What a POSIX system keeps about one directory of files: its entries, the files
behind them, and the open file descriptions of all processes.  A path names a
file number and not the file itself, so a file that is open lives on after its
entry is gone.

A description belongs to every process that refers to it: the one that opened it
and the children forked since.  An exclusive advisory lock is held by a
description, on the file it is open on, until the last process has closed it.
`locks` records the description that was last granted the lock of a file, so two
descriptions never hold one lock (`tryLock` asks whether the last one is still
open).

Entries are `CrashCell`s and contents `CrashFile`s: an entry reaches the device
at the latest when the directory is synced, the contents when the file is.
-/

/-- An open file description. -/
structure OpenFile where
  /-- The file it is open on. -/
  ino : Nat
  /-- The process that opened it. -/
  opener : Nat
  /-- The processes that have it open. -/
  refs : List Nat
deriving DecidableEq

/-- A directory with paths `κ`, of files over `α`. -/
structure LockFs (κ α : Type*) where
  dir : κ → CrashCell (Option Nat)
  files : Nat → CrashFile α
  /-- The first number no file has. -/
  nextIno : Nat
  descs : List OpenFile
  locks : Nat → Option Nat

namespace LockFs

variable {κ α : Type*}

/-- The file a description is open on. -/
def ino (fs : LockFs κ α) (d : Nat) : Nat := (fs.descs[d]?).elim 0 OpenFile.ino

/-- The process that opened a description. -/
def opener (fs : LockFs κ α) (d : Nat) : Nat := (fs.descs[d]?).elim 0 OpenFile.opener

/-- The processes that have a description open. -/
def refs (fs : LockFs κ α) (d : Nat) : List Nat := (fs.descs[d]?).elim [] OpenFile.refs

/-- The file a description reads and writes. -/
def file (fs : LockFs κ α) (d : Nat) : CrashFile α := fs.files (fs.ino d)

/-! ## Operations -/

/-- A directory in which no file is open. -/
def ofDisk (dir : κ → Option Nat) (files : Nat → List α) (nextIno : Nat) : LockFs κ α :=
  ⟨fun q => .ofDisk (dir q), fun i => .ofDisk (files i), nextIno, [], fun _ => none⟩

/-- Process `p` opens file `i`; the description is number `fs.descs.length`. -/
def openFile (fs : LockFs κ α) (p i : Nat) : LockFs κ α :=
  { fs with descs := fs.descs ++ [⟨i, p, [p]⟩] }

/-- A new, empty file at a path. -/
def create [DecidableEq κ] (fs : LockFs κ α) (q : κ) : LockFs κ α :=
  { fs with
    dir := Function.update fs.dir q ((fs.dir q).set (some fs.nextIno))
    files := Function.update fs.files fs.nextIno (.ofDisk [])
    nextIno := fs.nextIno + 1 }

/-- Open the file at a path, created if there is none. -/
def openCreate [DecidableEq κ] (fs : LockFs κ α) (p : Nat) (q : κ) : LockFs κ α :=
  match (fs.dir q).cur with
  | some i => fs.openFile p i
  | none => (fs.create q).openFile p fs.nextIno

/-- Whether a description may have the lock of its file. -/
def canLock (fs : LockFs κ α) (d : Nat) : Bool :=
  match fs.locks (fs.ino d) with
  | none => true
  | some e => e == d || (fs.refs e).isEmpty

/-- Grant a description the lock of its file. -/
def lock (fs : LockFs κ α) (d : Nat) : LockFs κ α :=
  { fs with locks := Function.update fs.locks (fs.ino d) (some d) }

/-- Process `p` closes a description. -/
def close (fs : LockFs κ α) (p d : Nat) : LockFs κ α :=
  { fs with
    descs := fs.descs.modify d fun f => { f with refs := f.refs.filter (· ≠ p) } }

/-- Remove an entry. -/
def unlink [DecidableEq κ] (fs : LockFs κ α) (q : κ) : LockFs κ α :=
  { fs with dir := Function.update fs.dir q ((fs.dir q).set none) }

/-- Sync the directory: all entries are on the device as they are. -/
def syncDir (fs : LockFs κ α) : LockFs κ α := { fs with dir := fun q => (fs.dir q).sync }

/-- Replace the contents of a file. -/
def setFile (fs : LockFs κ α) (i : Nat) (f : CrashFile α) : LockFs κ α :=
  { fs with files := Function.update fs.files i f }

/-- Process `c` starts as a copy of process `p`. -/
def fork (fs : LockFs κ α) (p c : Nat) : LockFs κ α :=
  { fs with
    descs := fs.descs.map fun f => if p ∈ f.refs then { f with refs := c :: f.refs } else f }

/-- Process `p` ends. -/
def exit (fs : LockFs κ α) (p : Nat) : LockFs κ α :=
  { fs with descs := fs.descs.map fun f => { f with refs := f.refs.filter (· ≠ p) } }

/-- What a power loss may do to a file: the image, its length and how much of it
stays for good. -/
structure Loss where
  image : Nat
  length : Nat
  kept : Nat

/-- The machine loses power. -/
def powerLoss (fs : LockFs κ α) (cell : κ → Nat) (loss : Nat → Loss) : LockFs κ α where
  dir q := (fs.dir q).powerLoss (cell q)
  files i := (fs.files i).powerLoss (loss i).image (loss i).length (loss i).kept
  nextIno := fs.nextIno
  descs := fs.descs.map fun f => { f with refs := [] }
  locks _ := none

/-! ## Descriptions after an operation -/

section Descs

variable {fs : LockFs κ α} {d e p c i : Nat} {q : κ}

/-- A description some process refers to exists. -/
theorem lt_of_mem_refs (h : p ∈ fs.refs d) : d < fs.descs.length := by
  rw [refs] at h
  cases hd : fs.descs[d]? with
  | none =>
      rw [hd] at h
      cases h
  | some f => exact (List.getElem?_eq_some_iff.mp hd).1

@[simp] theorem refs_openFile_self : (fs.openFile p i).refs fs.descs.length = [p] := by
  simp [refs, openFile]

@[simp] theorem ino_openFile_self : (fs.openFile p i).ino fs.descs.length = i := by
  simp [ino, openFile]

@[simp] theorem opener_openFile_self : (fs.openFile p i).opener fs.descs.length = p := by
  simp [opener, openFile]

theorem refs_openFile (h : d < fs.descs.length) : (fs.openFile p i).refs d = fs.refs d := by
  simp only [refs, openFile, List.getElem?_append_left h]

theorem ino_openFile (h : d < fs.descs.length) : (fs.openFile p i).ino d = fs.ino d := by
  simp only [ino, openFile, List.getElem?_append_left h]

theorem opener_openFile (h : d < fs.descs.length) :
    (fs.openFile p i).opener d = fs.opener d := by
  simp only [opener, openFile, List.getElem?_append_left h]

/-- Another process, or another description, is still open after a close. -/
theorem mem_refs_close (h : p ∈ fs.refs d) (hne : p ≠ c ∨ d ≠ e) :
    p ∈ (fs.close c e).refs d := by
  rw [refs] at h ⊢
  rw [close, List.getElem?_modify]
  cases hd : fs.descs[d]? with
  | none =>
      rw [hd] at h
      cases h
  | some f =>
      rw [hd] at h
      by_cases he : e = d
      · subst he
        have hpc : p ≠ c := hne.resolve_right fun hself => hself rfl
        simpa [hpc] using h
      · simpa [he] using h

@[simp] theorem ino_close : (fs.close c e).ino d = fs.ino d := by
  simp only [ino, close, List.getElem?_modify]
  cases fs.descs[d]? with
  | none => rfl
  | some f => by_cases he : e = d <;> simp [he]

@[simp] theorem opener_close : (fs.close c e).opener d = fs.opener d := by
  simp only [opener, close, List.getElem?_modify]
  cases fs.descs[d]? with
  | none => rfl
  | some f => by_cases he : e = d <;> simp [he]

theorem mem_refs_fork (h : p ∈ fs.refs d) : p ∈ (fs.fork i c).refs d := by
  rw [refs] at h ⊢
  rw [fork, List.getElem?_map]
  cases hd : fs.descs[d]? with
  | none =>
      rw [hd] at h
      cases h
  | some f =>
      rw [hd] at h
      have hmem : p ∈ f.refs := h
      simp only [Option.map_some, Option.elim_some]
      split
      · exact List.mem_cons_of_mem c hmem
      · exact hmem

/-- The child has all descriptions of its parent open. -/
theorem child_mem_refs_fork (h : p ∈ fs.refs d) : c ∈ (fs.fork p c).refs d := by
  rw [refs] at h ⊢
  rw [fork, List.getElem?_map]
  cases hd : fs.descs[d]? with
  | none =>
      rw [hd] at h
      cases h
  | some f =>
      rw [hd] at h
      have hmem : p ∈ f.refs := h
      simp [hmem]

@[simp] theorem ino_fork : (fs.fork p c).ino d = fs.ino d := by
  simp only [ino, fork, List.getElem?_map]
  cases fs.descs[d]? with
  | none => rfl
  | some f =>
      simp only [Option.map_some, Option.elim_some]
      split <;> rfl

@[simp] theorem opener_fork : (fs.fork p c).opener d = fs.opener d := by
  simp only [opener, fork, List.getElem?_map]
  cases fs.descs[d]? with
  | none => rfl
  | some f =>
      simp only [Option.map_some, Option.elim_some]
      split <;> rfl

theorem mem_refs_exit (h : p ∈ fs.refs d) (hne : p ≠ c) : p ∈ (fs.exit c).refs d := by
  rw [refs] at h ⊢
  rw [exit, List.getElem?_map]
  cases hd : fs.descs[d]? with
  | none =>
      rw [hd] at h
      cases h
  | some f =>
      rw [hd] at h
      simpa [hne] using h

@[simp] theorem ino_exit : (fs.exit c).ino d = fs.ino d := by
  simp only [ino, exit, List.getElem?_map]
  cases fs.descs[d]? <;> rfl

theorem ino_powerLoss {cell : κ → Nat} {loss : Nat → Loss} :
    (fs.powerLoss cell loss).ino d = fs.ino d := by
  simp only [ino, powerLoss, List.getElem?_map]
  cases fs.descs[d]? <;> rfl

@[simp] theorem opener_exit : (fs.exit c).opener d = fs.opener d := by
  simp only [opener, exit, List.getElem?_map]
  cases fs.descs[d]? <;> rfl

theorem ino_openCreate [DecidableEq κ] (h : d < fs.descs.length) :
    (fs.openCreate p q).ino d = fs.ino d := by
  cases hcur : (fs.dir q).cur with
  | some i =>
      rw [openCreate, hcur]
      exact ino_openFile h
  | none =>
      have hlt : d < (fs.create q).descs.length := h
      rw [openCreate, hcur]
      exact ino_openFile hlt

/-- The path names the file that was opened. -/
theorem cur_openCreate_self [DecidableEq κ] :
    ((fs.openCreate p q).dir q).cur = some ((fs.openCreate p q).ino fs.descs.length) := by
  cases hcur : (fs.dir q).cur with
  | some i =>
      rw [openCreate, hcur]
      dsimp only
      rw [ino_openFile_self]
      exact hcur
  | none =>
      rw [openCreate, hcur]
      dsimp only
      have hino : ((fs.create q).openFile p fs.nextIno).ino fs.descs.length = fs.nextIno :=
        ino_openFile_self
      rw [hino]
      show (Function.update fs.dir q ((fs.dir q).set (some fs.nextIno)) q).cur = _
      rw [Function.update_self]
      rfl

/-- Opening a file changes no entry there is. -/
theorem cur_openCreate [DecidableEq κ] {r : κ} (h : (fs.dir r).cur = some i) :
    ((fs.openCreate p q).dir r).cur = some i := by
  cases hcur : (fs.dir q).cur with
  | some j =>
      rw [openCreate, hcur]
      exact h
  | none =>
      have hrq : r ≠ q := by
        intro heq
        rw [heq, hcur] at h
        cases h
      rw [openCreate, hcur]
      show (Function.update fs.dir q _ r).cur = some i
      rw [Function.update_of_ne hrq]
      exact h

/-- Opening a file may make an empty one and changes no other. -/
theorem files_openCreate [DecidableEq κ] (i : Nat) :
    (fs.openCreate p q).files i = fs.files i ∨
      i = fs.nextIno ∧ ((fs.openCreate p q).files i).data = [] := by
  cases hcur : (fs.dir q).cur with
  | some j =>
      rw [openCreate, hcur]
      exact .inl rfl
  | none =>
      rw [openCreate, hcur]
      by_cases hi : i = fs.nextIno
      · right
        refine ⟨hi, ?_⟩
        show (Function.update fs.files fs.nextIno _ i).data = []
        rw [hi, Function.update_self]
        rfl
      · left
        exact Function.update_of_ne hi _ _

theorem cur_unlink_of_ne [DecidableEq κ] {r : κ} (h : r ≠ q) :
    ((fs.unlink q).dir r).cur = (fs.dir r).cur := by
  show (Function.update fs.dir q _ r).cur = _
  rw [Function.update_of_ne h]

/-- A description may have a lock that was never granted, that it has already, or
whose holder is closed everywhere. -/
theorem canLock_cases (h : fs.canLock d = true) :
    fs.locks (fs.ino d) = none ∨
      ∃ e, fs.locks (fs.ino d) = some e ∧ (e = d ∨ fs.refs e = []) := by
  rw [canLock] at h
  split at h
  · next hnone => exact .inl hnone
  · next e hsome =>
      refine .inr ⟨e, hsome, ?_⟩
      simpa using h

end Descs

/-! ## Files after a write -/

section Files

variable {fs : LockFs κ α} {d i j : Nat} {f : CrashFile α}

theorem files_setFile_self : (fs.setFile i f).files i = f := Function.update_self _ _ _

theorem files_setFile_of_ne (h : j ≠ i) : (fs.setFile i f).files j = fs.files j :=
  Function.update_of_ne h _ _

theorem file_setFile_self : (fs.setFile (fs.ino d) f).file d = f := files_setFile_self

theorem file_setFile_of_ne (h : fs.ino d ≠ i) : (fs.setFile i f).file d = fs.file d :=
  files_setFile_of_ne h

end Files

/-! ## Numbers of files -/

/-- Every number in use is below the first free one. -/
structure Numbered (fs : LockFs κ α) : Prop where
  desc : ∀ d < fs.descs.length, fs.ino d < fs.nextIno
  entry : ∀ q, (fs.dir q).Every fun e => ∀ i, e = some i → i < fs.nextIno

/-- The files and descriptions of `fs` are unchanged in `fs'`. -/
structure Grows (fs fs' : LockFs κ α) : Prop where
  length : fs.descs.length ≤ fs'.descs.length
  nextIno : fs.nextIno ≤ fs'.nextIno
  ino : ∀ d < fs.descs.length, fs'.ino d = fs.ino d
  files : ∀ i < fs.nextIno, fs'.files i = fs.files i

section Numbers

variable {fs fs' : LockFs κ α} {d p c i : Nat} {q : κ}

theorem Grows.file (h : fs.Grows fs') (hn : fs.Numbered) (hd : d < fs.descs.length) :
    fs'.file d = fs.file d := by
  rw [LockFs.file, LockFs.file, h.ino d hd, h.files _ (hn.desc d hd)]

/-- Neither descriptions nor files depend on locks and entries. -/
theorem Grows.of_eq (hdescs : fs'.descs = fs.descs) (hnext : fs'.nextIno = fs.nextIno)
    (hfiles : fs'.files = fs.files) : fs.Grows fs' := by
  refine ⟨Nat.le_of_eq (by rw [hdescs]), Nat.le_of_eq hnext.symm, ?_, ?_⟩
  · intro d _
    rw [LockFs.ino, LockFs.ino, hdescs]
  · intro i _
    rw [hfiles]

theorem Grows.refl (fs : LockFs κ α) : fs.Grows fs := .of_eq rfl rfl rfl

theorem Grows.openFile : fs.Grows (fs.openFile p i) := by
  refine ⟨?_, Nat.le_refl _, fun d hd => ino_openFile hd, fun _ _ => rfl⟩
  simp [LockFs.openFile]

theorem Grows.openCreate [DecidableEq κ] : fs.Grows (fs.openCreate p q) := by
  cases hcur : (fs.dir q).cur with
  | some i =>
      rw [LockFs.openCreate, hcur]
      exact .openFile
  | none =>
      refine ⟨?_, ?_, fun d hd => ino_openCreate hd, ?_⟩
      · rw [LockFs.openCreate, hcur]
        simp [LockFs.openFile, LockFs.create]
      · rw [LockFs.openCreate, hcur]
        exact Nat.le_succ _
      · intro i hi
        rw [LockFs.openCreate, hcur]
        exact Function.update_of_ne (Nat.ne_of_lt hi) _ _

theorem Grows.close : fs.Grows (fs.close p c) :=
  ⟨by simp [LockFs.close], Nat.le_refl _, fun _ _ => ino_close, fun _ _ => rfl⟩

theorem Grows.fork : fs.Grows (fs.fork p c) :=
  ⟨by simp [LockFs.fork], Nat.le_refl _, fun _ _ => ino_fork, fun _ _ => rfl⟩

theorem Grows.exit : fs.Grows (fs.exit p) :=
  ⟨by simp [LockFs.exit], Nat.le_refl _, fun _ _ => ino_exit, fun _ _ => rfl⟩

namespace Numbered

theorem ofDisk {dir : κ → Option Nat} {files : Nat → List α} {nextIno : Nat}
    (h : ∀ q i, dir q = some i → i < nextIno) : (LockFs.ofDisk dir files nextIno).Numbered :=
  ⟨fun _ hd => absurd hd (Nat.not_lt_zero _), fun q => .ofDisk fun i hi => h q i hi⟩

/-- Only entries may have changed, to numbers in use. -/
theorem of_dir (h : fs.Numbered) (hlen : fs'.descs.length = fs.descs.length)
    (hino : ∀ d, fs'.ino d = fs.ino d) (hnext : fs'.nextIno = fs.nextIno)
    (hentry : ∀ q, (fs'.dir q).Every fun e => ∀ i, e = some i → i < fs.nextIno) :
    fs'.Numbered := by
  constructor
  · intro d hd
    rw [hino, hnext]
    exact h.desc d (hlen ▸ hd)
  · rw [hnext]
    exact hentry

theorem openFile (h : fs.Numbered) (hi : i < fs.nextIno) : (fs.openFile p i).Numbered := by
  refine ⟨?_, h.entry⟩
  intro d hd
  have hlen : d < fs.descs.length ∨ d = fs.descs.length := by
    rw [LockFs.openFile, List.length_append, List.length_singleton] at hd
    omega
  rcases hlen with hlt | rfl
  · rw [ino_openFile hlt]
    exact h.desc d hlt
  · rw [ino_openFile_self]
    exact hi

theorem create [DecidableEq κ] (h : fs.Numbered) : (fs.create q).Numbered := by
  constructor
  · intro d hd
    exact Nat.lt_succ_of_lt (h.desc d hd)
  · intro r
    have hold : ∀ e : Option Nat, (∀ i, e = some i → i < fs.nextIno) →
        ∀ i, e = some i → i < fs.nextIno + 1 := fun e he i hi => Nat.lt_succ_of_lt (he i hi)
    by_cases hr : r = q
    · subst hr
      show (Function.update fs.dir r _ r).Every _
      rw [Function.update_self]
      refine ((h.entry r).mono hold).set ?_
      intro i hi
      cases hi
      exact Nat.lt_succ_self _
    · show (Function.update fs.dir q _ r).Every _
      rw [Function.update_of_ne hr]
      exact (h.entry r).mono hold

theorem openCreate [DecidableEq κ] (h : fs.Numbered) : (fs.openCreate p q).Numbered := by
  cases hcur : (fs.dir q).cur with
  | some i =>
      rw [LockFs.openCreate, hcur]
      exact h.openFile ((h.entry q).cur i hcur)
  | none =>
      rw [LockFs.openCreate, hcur]
      exact h.create.openFile (Nat.lt_succ_self _)

theorem unlink [DecidableEq κ] (h : fs.Numbered) : (fs.unlink q).Numbered := by
  refine h.of_dir rfl (fun _ => rfl) rfl ?_
  intro r
  by_cases hr : r = q
  · subst hr
    show (Function.update fs.dir r _ r).Every _
    rw [Function.update_self]
    exact (h.entry r).set fun i hi => by cases hi
  · show (Function.update fs.dir q _ r).Every _
    rw [Function.update_of_ne hr]
    exact h.entry r

theorem syncDir (h : fs.Numbered) : fs.syncDir.Numbered :=
  h.of_dir rfl (fun _ => rfl) rfl fun q => (h.entry q).sync

theorem close (h : fs.Numbered) : (fs.close p c).Numbered :=
  h.of_dir (by simp [LockFs.close]) (fun _ => ino_close) rfl h.entry

theorem fork (h : fs.Numbered) : (fs.fork p c).Numbered :=
  h.of_dir (by simp [LockFs.fork]) (fun _ => ino_fork) rfl h.entry

theorem exit (h : fs.Numbered) : (fs.exit p).Numbered :=
  h.of_dir (by simp [LockFs.exit]) (fun _ => ino_exit) rfl h.entry

theorem powerLoss (h : fs.Numbered) (cell : κ → Nat) (loss : Nat → Loss) :
    (fs.powerLoss cell loss).Numbered :=
  h.of_dir (by simp [LockFs.powerLoss]) (fun _ => ino_powerLoss) rfl fun q =>
    (h.entry q).powerLoss _

end Numbered

/-- No file has ever had two entries: there are no hard links. -/
def Unshared (fs : LockFs κ α) : Prop :=
  ∀ q r i, some i ∈ (fs.dir q).values → some i ∈ (fs.dir r).values → q = r

namespace Unshared

theorem ofDisk {dir : κ → Option Nat} {files : Nat → List α} {nextIno : Nat}
    (h : ∀ q r i, dir q = some i → dir r = some i → q = r) :
    (LockFs.ofDisk dir files nextIno).Unshared := fun q r i hq hr =>
  h q r i (List.mem_singleton.mp hq).symm (List.mem_singleton.mp hr).symm

/-- No entry gets a new file. -/
theorem of_sub (h : fs.Unshared)
    (hsub : ∀ q i, some i ∈ (fs'.dir q).values → some i ∈ (fs.dir q).values) : fs'.Unshared :=
  fun q r i hq hr => h q r i (hsub q i hq) (hsub r i hr)

theorem create [DecidableEq κ] (h : fs.Unshared) (hn : fs.Numbered) : (fs.create q).Unshared := by
  have hvalues : ∀ r i, some i ∈ ((fs.create q).dir r).values →
      some i ∈ (fs.dir r).values ∨ (r = q ∧ i = fs.nextIno) := by
    intro r i hmem
    by_cases hr : r = q
    · subst hr
      have hmem' : some i ∈ (Function.update fs.dir r _ r).values := hmem
      rw [Function.update_self] at hmem'
      rcases List.mem_cons.mp hmem' with heq | hold
      · exact .inr ⟨rfl, Option.some.inj heq⟩
      · exact .inl hold
    · have hmem' : some i ∈ (Function.update fs.dir q _ r).values := hmem
      rw [Function.update_of_ne hr] at hmem'
      exact .inl hmem'
  have hfresh : ∀ r, some fs.nextIno ∉ (fs.dir r).values := fun r hmem =>
    Nat.lt_irrefl _ (hn.entry r _ hmem _ rfl)
  intro r r' i hr hr'
  rcases hvalues r i hr with hold | ⟨rfl, rfl⟩
  · rcases hvalues r' i hr' with hold' | ⟨-, rfl⟩
    · exact h r r' i hold hold'
    · exact absurd hold (hfresh r)
  · rcases hvalues r' _ hr' with hold' | ⟨rfl, -⟩
    · exact absurd hold' (hfresh r')
    · rfl

theorem openCreate [DecidableEq κ] (h : fs.Unshared) (hn : fs.Numbered) :
    (fs.openCreate p q).Unshared := by
  cases hcur : (fs.dir q).cur with
  | some i =>
      rw [LockFs.openCreate, hcur]
      exact h
  | none =>
      rw [LockFs.openCreate, hcur]
      exact h.create hn

theorem unlink [DecidableEq κ] (h : fs.Unshared) : (fs.unlink q).Unshared := by
  refine h.of_sub fun r i hmem => ?_
  by_cases hr : r = q
  · subst hr
    have hmem' : some i ∈ (Function.update fs.dir r _ r).values := hmem
    rw [Function.update_self] at hmem'
    exact (List.mem_cons.mp hmem').resolve_left (by simp)
  · have hmem' : some i ∈ (Function.update fs.dir q _ r).values := hmem
    rwa [Function.update_of_ne hr] at hmem'

theorem syncDir (h : fs.Unshared) : fs.syncDir.Unshared := by
  refine h.of_sub fun q i hmem => ?_
  rw [List.mem_singleton.mp hmem]
  exact List.mem_cons_self

theorem powerLoss (h : fs.Unshared) (cell : κ → Nat) (loss : Nat → Loss) :
    (fs.powerLoss cell loss).Unshared := by
  refine h.of_sub fun q i hmem => ?_
  rw [List.mem_singleton.mp hmem]
  exact (fs.dir q).powerLoss_mem_values (cell q)

end Unshared

end Numbers

end LockFs

import Durastream.Lib.LockFs

/-!
# What an operation leaves alone

A method that works on one path opens, locks, unlinks and closes; what other
paths and descriptions are about stays the same.  `fs.Frame q n fs'` says so: for
every path but `q`, and for every description below `n`.  There is one rule for
each operation, and frames compose.

`Tidy` collects what holds of every directory all along: numbers in use are below
the first free one, no file has two entries, and a lock is held by a description
of the file it is the lock of.

`Unlocked q` says that who opens the file at `q` may have its lock.  Opening and
closing it does not change this, whether the lock was granted in between or not.
-/

namespace LockFs

variable {κ α : Type*}

/-- What reading the file at a path gives; nothing if there is none. -/
def contents (fs : LockFs κ α) (q : κ) : List α :=
  match (fs.dir q).cur with
  | some i => (fs.files i).data
  | none => []

structure Tidy (fs : LockFs κ α) : Prop where
  numbered : fs.Numbered
  unshared : fs.Unshared
  locked : ∀ i e, fs.locks i = some e → fs.ino e = i ∧ e < fs.descs.length

/-- No process has a description open that holds the lock of the file at a path. -/
def Unlocked (fs : LockFs κ α) (q : κ) : Prop :=
  ∀ i e, (fs.dir q).cur = some i → fs.locks i = some e → fs.refs e = []

/-- Every path but `q` and every description below `n` is as it was. -/
structure Frame (q : Option κ) (n : Nat) (fs fs' : LockFs κ α) : Prop where
  cur : ∀ r, q ≠ some r → (fs'.dir r).cur = (fs.dir r).cur
  data : ∀ r i, q ≠ some r → (fs.dir r).cur = some i → (fs'.files i).data = (fs.files i).data
  ino : ∀ d < n, fs'.ino d = fs.ino d
  refs : ∀ d < n, fs'.refs d = fs.refs d

variable {fs fs' fs'' : LockFs κ α} {q r : κ} {o : Option κ} {n d p i : Nat}

theorem contents_of_cur (h : (fs.dir q).cur = some i) : fs.contents q = (fs.files i).data := by
  rw [contents, h]

theorem contents_of_none (h : (fs.dir q).cur = none) : fs.contents q = [] := by
  rw [contents, h]

/-- No process has a description open that does not exist. -/
theorem refs_of_length_le (h : fs.descs.length ≤ d) : fs.refs d = [] := by
  rw [refs, List.getElem?_eq_none h]
  rfl

/-- The only process that has a description open closes it. -/
theorem refs_close_self (h : fs.refs d = [p]) : (fs.close p d).refs d = [] := by
  rw [refs] at h ⊢
  rw [close, List.getElem?_modify]
  cases hd : fs.descs[d]? with
  | none =>
      rw [hd] at h
      cases h
  | some f =>
      rw [hd] at h
      have hrefs : f.refs = [p] := h
      simp [hrefs]

theorem refs_close_of_ne {e : Nat} (h : d ≠ e) : (fs.close p e).refs d = fs.refs d := by
  have hne : ¬e = d := fun heq => h heq.symm
  rw [refs, refs, close, List.getElem?_modify]
  cases fs.descs[d]? with
  | none => rfl
  | some f => simp [hne]

section OpenCreate

variable [DecidableEq κ]

theorem descs_openCreate :
    (fs.openCreate p q).descs.length = fs.descs.length + 1 := by
  cases hcur : (fs.dir q).cur <;> rw [openCreate, hcur] <;> simp [openFile, create]

theorem refs_openCreate_self : (fs.openCreate p q).refs fs.descs.length = [p] := by
  cases hcur : (fs.dir q).cur with
  | some i =>
      rw [openCreate, hcur]
      exact refs_openFile_self
  | none =>
      have hself : ((fs.create q).openFile p fs.nextIno).refs (fs.create q).descs.length = [p] :=
        refs_openFile_self
      rw [openCreate, hcur]
      exact hself

theorem ino_openCreate_of_cur (h : (fs.dir q).cur = some i) :
    (fs.openCreate p q).ino fs.descs.length = i := by
  rw [openCreate, h]
  exact ino_openFile_self

/-- A file that is made has a new number. -/
theorem ino_openCreate_of_none (h : (fs.dir q).cur = none) :
    (fs.openCreate p q).ino fs.descs.length = fs.nextIno := by
  have hself : ((fs.create q).openFile p fs.nextIno).ino (fs.create q).descs.length =
      fs.nextIno := ino_openFile_self
  rw [openCreate, h]
  exact hself

theorem cur_unlink_self : ((fs.unlink q).dir q).cur = none := by
  show (Function.update fs.dir q _ q).cur = none
  rw [Function.update_self]
  rfl

theorem locks_openCreate : (fs.openCreate p q).locks = fs.locks := by
  cases hcur : (fs.dir q).cur <;> rw [openCreate, hcur] <;> rfl

/-- A file that is made when it is opened is empty, as if it had been there. -/
theorem contents_openCreate : (fs.openCreate p q).contents q = fs.contents q := by
  cases hcur : (fs.dir q).cur with
  | some i =>
      rw [openCreate, hcur]
      rfl
  | none =>
      have hcur' : ((fs.create q).dir q).cur = some fs.nextIno := by
        show (Function.update fs.dir q _ q).cur = _
        rw [Function.update_self]
        rfl
      have hself : ((fs.create q).openFile p fs.nextIno).contents q = (fs.create q).contents q :=
        rfl
      rw [openCreate, hcur]
      dsimp only
      rw [hself, contents_of_cur hcur', contents_of_none hcur]
      show (Function.update fs.files fs.nextIno _ fs.nextIno).data = []
      rw [Function.update_self]
      rfl

end OpenCreate

/-- A description whose lock no open one holds may have it. -/
theorem canLock_of (h : ∀ e, fs.locks (fs.ino d) = some e → fs.refs e = []) :
    fs.canLock d = true := by
  rw [canLock]
  split
  · rfl
  · next e hlock => rw [h e hlock, List.isEmpty_nil, Bool.or_true]

/-- A file number that is not in use has no lock. -/
theorem Tidy.locks_nextIno (h : fs.Tidy) : fs.locks fs.nextIno = none := by
  cases hlock : fs.locks fs.nextIno with
  | none => rfl
  | some e =>
      obtain ⟨hino, he⟩ := h.locked _ e hlock
      exact absurd (h.numbered.desc e he) (by rw [hino]; exact Nat.lt_irrefl _)

/-- The lock of a file is free for who opens it, if no open description holds it. -/
theorem canLock_openCreate [DecidableEq κ] (h : fs.Tidy) (hfree : fs.Unlocked q) :
    (fs.openCreate p q).canLock fs.descs.length = true := by
  refine canLock_of fun e hlock => ?_
  rw [locks_openCreate] at hlock
  cases hcur : (fs.dir q).cur with
  | some i =>
      rw [ino_openCreate_of_cur hcur] at hlock
      have hrefs : (fs.openCreate p q).refs e = fs.refs e := by
        rw [openCreate, hcur]
        exact refs_openFile (h.locked i e hlock).2
      rw [hrefs]
      exact hfree i e hcur hlock
  | none =>
      rw [ino_openCreate_of_none hcur, h.locks_nextIno] at hlock
      cases hlock

namespace Frame

theorem refl (o : Option κ) (n : Nat) (fs : LockFs κ α) : fs.Frame o n fs :=
  ⟨fun _ _ => rfl, fun _ _ _ _ => rfl, fun _ _ => rfl, fun _ _ => rfl⟩

theorem trans (h : fs.Frame o n fs') (h' : fs'.Frame o n fs'') : fs.Frame o n fs'' := by
  refine ⟨?_, ?_, ?_, ?_⟩
  · exact fun r hr => (h'.cur r hr).trans (h.cur r hr)
  · intro r i hr hcur
    exact (h'.data r i hr ((h.cur r hr).trans hcur)).trans (h.data r i hr hcur)
  · exact fun d hd => (h'.ino d hd).trans (h.ino d hd)
  · exact fun d hd => (h'.refs d hd).trans (h.refs d hd)

/-- The file at another path is the same. -/
theorem contents (h : fs.Frame o n fs') (hr : o ≠ some r) : fs'.contents r = fs.contents r := by
  rw [LockFs.contents, h.cur r hr]
  cases hcur : (fs.dir r).cur with
  | none => rw [LockFs.contents, hcur]
  | some i =>
      rw [LockFs.contents, hcur]
      exact h.data r i hr hcur

theorem openFile (hn : n ≤ fs.descs.length) : fs.Frame o n (fs.openFile p i) :=
  ⟨fun _ _ => rfl, fun _ _ _ _ => rfl, fun _ hd => ino_openFile (Nat.lt_of_lt_of_le hd hn),
    fun _ hd => refs_openFile (Nat.lt_of_lt_of_le hd hn)⟩

theorem lock : fs.Frame o n (fs.lock d) :=
  ⟨fun _ _ => rfl, fun _ _ _ _ => rfl, fun _ _ => rfl, fun _ _ => rfl⟩

theorem close (hn : n ≤ d) : fs.Frame o n (fs.close p d) :=
  ⟨fun _ _ => rfl, fun _ _ _ _ => rfl, fun _ _ => ino_close, fun _ hlt =>
    refs_close_of_ne (Nat.ne_of_lt (Nat.lt_of_lt_of_le hlt hn))⟩

theorem syncDir : fs.Frame o n fs.syncDir :=
  ⟨fun _ _ => rfl, fun _ _ _ _ => rfl, fun _ _ => rfl, fun _ _ => rfl⟩

theorem setFile (hu : fs.Unshared) (hcur : (fs.dir q).cur = some i) (f : CrashFile α) :
    fs.Frame (some q) n (fs.setFile i f) := by
  refine ⟨fun _ _ => rfl, ?_, fun _ _ => rfl, fun _ _ => rfl⟩
  intro r j hr hcurj
  have hne : j ≠ i := by
    rintro rfl
    refine hr (congrArg some (hu q r j ?_ ?_))
    · rw [← hcur]
      exact List.mem_cons_self
    · rw [← hcurj]
      exact List.mem_cons_self
  rw [files_setFile_of_ne hne]

variable [DecidableEq κ]

theorem unlink : fs.Frame (some q) n (fs.unlink q) :=
  ⟨fun _ hr => cur_unlink_of_ne fun heq => hr (congrArg some heq.symm), fun _ _ _ _ => rfl,
    fun _ _ => rfl, fun _ _ => rfl⟩

theorem openCreate (hn : fs.Numbered) (hlen : n ≤ fs.descs.length) :
    fs.Frame (some q) n (fs.openCreate p q) := by
  cases hcur : (fs.dir q).cur with
  | some i =>
      rw [LockFs.openCreate, hcur]
      exact .openFile hlen
  | none =>
      rw [LockFs.openCreate, hcur]
      have hcreate : fs.Frame (some q) n (fs.create q) := by
        refine ⟨?_, ?_, fun _ _ => rfl, fun _ _ => rfl⟩
        · intro r hr
          have hne : r ≠ q := fun heq => hr (congrArg some heq.symm)
          show (Function.update fs.dir q _ r).cur = _
          rw [Function.update_of_ne hne]
        · intro r i _ hcuri
          have hne : i ≠ fs.nextIno := Nat.ne_of_lt ((hn.entry r).cur i hcuri)
          show (Function.update fs.files fs.nextIno _ i).data = _
          rw [Function.update_of_ne hne]
      exact hcreate.trans (.openFile hlen)

end Frame

namespace Tidy

theorem ofDisk {dir : κ → Option Nat} {files : Nat → List α} {nextIno : Nat}
    (hlt : ∀ q i, dir q = some i → i < nextIno)
    (hinj : ∀ q r i, dir q = some i → dir r = some i → q = r) :
    (LockFs.ofDisk dir files nextIno).Tidy :=
  ⟨.ofDisk hlt, .ofDisk hinj, fun _ _ h => by cases h⟩

/-- A path that shares the file of another is the other. -/
theorem path_eq (h : fs.Tidy) (hq : (fs.dir q).cur = some i) (hr : (fs.dir r).cur = some i) :
    q = r := by
  refine h.unshared q r i ?_ ?_
  · rw [← hq]
    exact List.mem_cons_self
  · rw [← hr]
    exact List.mem_cons_self

theorem openFile (h : fs.Tidy) (hi : i < fs.nextIno) : (fs.openFile p i).Tidy := by
  refine ⟨h.numbered.openFile hi, h.unshared, ?_⟩
  intro j e hlock
  obtain ⟨hino, hlt⟩ := h.locked j e hlock
  refine ⟨(ino_openFile hlt).trans hino, ?_⟩
  rw [LockFs.openFile, List.length_append]
  exact Nat.lt_add_right _ hlt

theorem lock (h : fs.Tidy) (hd : d < fs.descs.length) : (fs.lock d).Tidy := by
  refine ⟨h.numbered.of_dir rfl (fun _ => rfl) rfl h.numbered.entry, h.unshared, ?_⟩
  intro j e hlock
  by_cases hj : j = fs.ino d
  · subst hj
    have hlock' : Function.update fs.locks (fs.ino d) (some d) (fs.ino d) = some e := hlock
    rw [Function.update_self] at hlock'
    cases hlock'
    exact ⟨rfl, hd⟩
  · have hlock' : Function.update fs.locks (fs.ino d) (some d) j = some e := hlock
    rw [Function.update_of_ne hj] at hlock'
    exact h.locked j e hlock'

theorem close (h : fs.Tidy) : (fs.close p d).Tidy := by
  refine ⟨h.numbered.close, h.unshared, ?_⟩
  intro j e hlock
  obtain ⟨hino, hlt⟩ := h.locked j e hlock
  refine ⟨ino_close.trans hino, ?_⟩
  rw [LockFs.close, List.length_modify]
  exact hlt

theorem syncDir (h : fs.Tidy) : fs.syncDir.Tidy :=
  ⟨h.numbered.syncDir, h.unshared.syncDir, h.locked⟩

theorem setFile (h : fs.Tidy) (f : CrashFile α) : (fs.setFile i f).Tidy :=
  ⟨h.numbered.of_dir rfl (fun _ => rfl) rfl h.numbered.entry, h.unshared, h.locked⟩

theorem fork (h : fs.Tidy) {c : Nat} : (fs.fork p c).Tidy := by
  refine ⟨h.numbered.fork, h.unshared, ?_⟩
  intro j e hlock
  obtain ⟨hino, hlt⟩ := h.locked j e hlock
  refine ⟨ino_fork.trans hino, ?_⟩
  rw [LockFs.fork, List.length_map]
  exact hlt

theorem exit (h : fs.Tidy) : (fs.exit p).Tidy := by
  refine ⟨h.numbered.exit, h.unshared, ?_⟩
  intro j e hlock
  obtain ⟨hino, hlt⟩ := h.locked j e hlock
  refine ⟨ino_exit.trans hino, ?_⟩
  rw [LockFs.exit, List.length_map]
  exact hlt

theorem powerLoss (h : fs.Tidy) (cell : κ → Nat) (loss : Nat → Loss) :
    (fs.powerLoss cell loss).Tidy :=
  ⟨h.numbered.powerLoss cell loss, h.unshared.powerLoss cell loss, fun _ _ hlock => by
    cases hlock⟩

variable [DecidableEq κ]

theorem unlink (h : fs.Tidy) : (fs.unlink q).Tidy :=
  ⟨h.numbered.unlink, h.unshared.unlink, h.locked⟩

theorem openCreate (h : fs.Tidy) : (fs.openCreate p q).Tidy := by
  refine ⟨h.numbered.openCreate, h.unshared.openCreate h.numbered, ?_⟩
  intro j e hlock
  rw [locks_openCreate] at hlock
  obtain ⟨hino, hlt⟩ := h.locked j e hlock
  exact ⟨(ino_openCreate hlt).trans hino, Nat.lt_of_lt_of_le hlt Grows.openCreate.length⟩

end Tidy

/-! ## Whether a lock is free -/

/-- Only the entry, the locks and the descriptions that hold them count. -/
theorem unlocked_congr (h : fs.Tidy) (hcur : (fs'.dir q).cur = (fs.dir q).cur)
    (hlocks : fs'.locks = fs.locks) (hrefs : ∀ e < fs.descs.length, fs'.refs e = fs.refs e) :
    fs'.Unlocked q ↔ fs.Unlocked q := by
  refine forall₂_congr fun i e => ?_
  rw [hcur, hlocks]
  refine imp_congr_right fun _ => imp_congr_right fun hlock => ?_
  rw [hrefs e (h.locked i e hlock).2]

theorem unlocked_of_none (h : (fs.dir q).cur = none) : fs.Unlocked q := by
  intro i e hcur
  rw [h] at hcur
  cases hcur

/-- The file at a path is opened and closed again. -/
theorem unlocked_close_openFile (h : fs.Tidy) :
    ((fs.openFile p i).close p fs.descs.length).Unlocked q ↔ fs.Unlocked q := by
  refine unlocked_congr h rfl rfl fun e he => ?_
  rw [refs_close_of_ne (Nat.ne_of_lt he), refs_openFile he]

/-- The holder of a lock is closed. -/
theorem unlocked_close_lock (hcur : (fs.dir q).cur = some (fs.ino d)) (hrefs : fs.refs d = [p]) :
    ((fs.lock d).close p d).Unlocked q := by
  intro i e hcur' hlock
  have hi : some (fs.ino d) = some i := hcur.symm.trans hcur'
  cases hi
  have hlock' : Function.update fs.locks (fs.ino d) (some d) (fs.ino d) = some e := hlock
  rw [Function.update_self] at hlock'
  cases hlock'
  exact refs_close_self hrefs

section Locks

variable [DecidableEq κ]

/-- Who opens the file at a path is granted the lock exactly if it is free. -/
theorem canLock_openCreate_iff (h : fs.Tidy) :
    (fs.openCreate p q).canLock fs.descs.length = true ↔ fs.Unlocked q := by
  refine ⟨fun hcan i e hcur hlock => ?_, canLock_openCreate h⟩
  have he := (h.locked i e hlock).2
  have hrefs : (fs.openCreate p q).refs e = fs.refs e := by
    rw [LockFs.openCreate, hcur]
    exact refs_openFile he
  have hcases := canLock_cases hcan
  rw [ino_openCreate_of_cur hcur, locks_openCreate, hlock] at hcases
  rcases hcases with hnone | ⟨e', hsome, rfl | hclosed⟩
  · cases hnone
  · cases hsome
    exact absurd he (Nat.lt_irrefl _)
  · cases hsome
    rw [← hrefs, hclosed]

theorem canLock_openFile_iff (h : fs.Tidy) (hcur : (fs.dir q).cur = some i) :
    (fs.openFile p i).canLock fs.descs.length = true ↔ fs.Unlocked q := by
  have hopen : fs.openCreate p q = fs.openFile p i := by rw [LockFs.openCreate, hcur]
  rw [← hopen]
  exact canLock_openCreate_iff h

/-- The file at a path is opened, made if there is none, and closed again. -/
theorem unlocked_close_openCreate (h : fs.Tidy) :
    ((fs.openCreate p q).close p fs.descs.length).Unlocked q ↔ fs.Unlocked q := by
  cases hcur : (fs.dir q).cur with
  | some i =>
      rw [LockFs.openCreate, hcur]
      exact unlocked_close_openFile h
  | none =>
      refine iff_of_true ?_ (unlocked_of_none hcur)
      -- the file that was made has no lock
      intro i e hcuri hlock
      have hcuri' : ((fs.openCreate p q).dir q).cur = some i := hcuri
      have hlock' : (fs.openCreate p q).locks i = some e := hlock
      rw [cur_openCreate_self, ino_openCreate_of_none hcur] at hcuri'
      cases hcuri'
      rw [locks_openCreate, h.locks_nextIno] at hlock'
      cases hlock'

end Locks

end LockFs

import Durastream.Store.Machine
import Durastream.Store.Streams

/-!
# One call after another

The runs of the machine a single caller sees: a call starts, and every call of
the file system or of SQLite succeeds until it returns.  `World.exec` runs one
call and gives what it returns or raises.

`Drives path k n s t` says that the method in progress in Store `k` gets from `s`
to `t` in `n` calls, as `exec` makes them; `Succeeds` is the same as a run of the
machine.  Where calls may fail too, `Calls path k s t` says that some outcomes lead
from `s` to `t`.
-/

namespace Durastream

namespace World

variable (path : Name → List Char)

/-- The method in progress in Store `k` runs to its end, in at most `fuel` calls. -/
def drive (k : Sid) : Nat → World → Option World
  | 0, _ => none
  | fuel + 1, s =>
      (s.stores[k]?).bind fun st =>
        if st.pc = .idle then some s else (s.step path (.sys k .ok)).bind (drive k fuel)

/-- What the last call of a Store returned or raised. -/
def reply (s : World) (k : Sid) : Option Reply :=
  (s.stores[k]?).map fun st => st.result.map fun h => h.elim .unit .handle

/-- Enough calls for any method: `close` makes one for every stream it has open. -/
def callBound (st : Store) : Nat := st.opened.keys.length + 16

/-- A method of Store `k` is called and returns. -/
def execStore (s : World) (k : Sid) (a : Act) : Option (World × Reply) :=
  (s.stores[k]?).bind fun st =>
    (s.step path a).bind fun t =>
      (t.drive path k (callBound st)).bind fun t => (t.reply k).map fun r => (t, r)

/-- The writes of `n` bytes: as many bytes each as `sizes` says, then the rest. -/
def writeActs (h : Hid) : Nat → List Nat → List Act
  | n, [] => [.io h (.write n)]
  | n, m :: sizes =>
      if m < n then .io h (.write m) :: writeActs h (n - m) sizes else [.io h (.write n)]

/-- `append_many`. -/
def execAppend (s : World) (h : Hid) (payloads : List Bytes) (sizes : List Nat) :
    Option (World × Reply) :=
  (s.handles[h]?).bind fun hd =>
    match hd.w.begin hd.writable hd.file.isSome payloads with
    | .raised e => some (s, .error e)
    | .returned n => some (s, .ok (.offset n))
    | .started _ =>
        let acts := .append h payloads ::
          (writeActs h (frames payloads).length sizes ++ [.io h (.sync true)])
        (Lts.run (step path) s acts).bind fun t =>
          (t.handles[h]?).map fun hd => (t, .ok (.offset (nextOffset hd.w.index)))

/-- `DurableStream.read`. -/
def execRead (s : World) (h : Hid) (offset : Int) (stop : Option Int) : Option (World × Reply) :=
  (s.handles[h]?).map fun hd =>
    let data := hd.file.elim [] fun d => (s.fs.file d).data
    (s, (read hd.w.name hd.file.isSome data hd.w.index offset stop).map .records)

/-- `DurableStream.close`. -/
def execClose (s : World) (h : Hid) : Option (World × Reply) :=
  (s.handles[h]?).bind fun hd =>
    if hd.writable then
      (Lts.run (step path) s [.close h, .update h true]).bind fun t =>
        (s.stores[hd.store]?).map fun st =>
          (t, if st.metaOpen then .ok .unit else .error .storeClosed)
    else some (s, .error (.streamLocked hd.w.name))

/-- `Store.list`. -/
def execList (s : World) (k : Sid) : Option (World × Reply) :=
  (s.idleStore k).map fun st =>
    (s, if st.metaOpen then .ok (.names (sortNames s.rows.keys)) else .error .storeClosed)

/-- A new Store, in a new process or in the latest. -/
def execNewStore (s : World) (other : Bool) : Option (World × Reply) :=
  let acts := if other then [.spawn, .newStore s.nextPid] else [.newStore (s.live.headD 0)]
  (Lts.run (step path) s acts).map fun t => (t, .ok .unit)

/-- A call runs from its start to its end. -/
def exec (s : World) : Op → Option (World × Reply)
  | .newStore other => s.execNewStore path other
  | .create k name given => s.execStore path k (.create k name given)
  | .openStream k name => s.execStore path k (.openStream k name)
  | .append h payloads sizes => s.execAppend path h payloads sizes
  | .read h offset stop => s.execRead h offset stop
  | .close h => s.execClose path h
  | .delete k name => s.execStore path k (.delete k name)
  | .list k => s.execList k
  | .closeStore k => s.execStore path k (.closeStore k)

/-- A process that has not made a Store yet. -/
def start (disk : Disk) : World := { init disk with live := [0], nextPid := 1 }

/-! ## Runs of a method -/

/-- The method in progress in Store `k` gets from `s` to `t` in `n` calls. -/
def Drives (k : Sid) (n : Nat) (s t : World) : Prop :=
  ∀ fuel, s.drive path k (n + fuel) = t.drive path k fuel

/-- The next `n` calls of the method in progress in Store `k` succeed. -/
def Succeeds (k : Sid) (n : Nat) (s t : World) : Prop :=
  Lts.run (step path) s ((List.replicate n Outcome.ok).map (.sys k)) = some t

/-- Some outcomes of the next calls of the method in progress lead to `t`. -/
def Calls (k : Sid) (s t : World) : Prop :=
  ∃ outs : List Outcome, Lts.run (step path) s (outs.map (.sys k)) = some t

variable {path} {s t u : World} {k : Sid} {st : Store} {n m : Nat} {out : Outcome}

theorem Drives.refl (s : World) : Drives path k 0 s s := fun fuel => by rw [Nat.zero_add]

theorem Drives.trans (h : Drives path k n s t) (h' : Drives path k m t u) :
    Drives path k (n + m) s u := by
  intro fuel
  rw [Nat.add_assoc, h, h']

/-- One call. -/
theorem Drives.one (hk : s.stores[k]? = some st) (hpc : st.pc ≠ .idle)
    (hsys : s.sysStep path k st .ok = some t) : Drives path k 1 s t := by
  intro fuel
  rw [Nat.add_comm, drive, hk, Option.bind_some, if_neg hpc]
  show ((s.stores[k]?).bind fun st => s.sysStep path k st .ok).bind _ = _
  rw [hk, Option.bind_some, hsys, Option.bind_some]

/-- A method that has come to its end is driven there. -/
theorem Drives.done (h : Drives path k n s t) {fuel : Nat} (hn : n < fuel)
    (hk : t.stores[k]? = some st) (hpc : st.pc = .idle) : s.drive path k fuel = some t := by
  obtain ⟨m, rfl⟩ := Nat.exists_eq_add_of_lt hn
  rw [Nat.add_assoc, h, drive, hk, Option.bind_some, if_pos hpc]

theorem step_sys (hk : s.stores[k]? = some st) (hsys : s.sysStep path k st out = some t) :
    s.step path (.sys k out) = some t := by
  simp only [step, hk, Option.bind_some, hsys]

namespace Succeeds

theorem refl (s : World) : Succeeds path k 0 s s := rfl

theorem one (hk : s.stores[k]? = some st) (hsys : s.sysStep path k st .ok = some t) :
    Succeeds path k 1 s t := by
  show Lts.run (step path) s [.sys k .ok] = some t
  rw [Lts.run_cons, step_sys hk hsys]
  rfl

theorem trans (h : Succeeds path k n s t) (h' : Succeeds path k m t u) :
    Succeeds path k (n + m) s u := by
  rw [Succeeds, ← List.replicate_append_replicate, List.map_append, Lts.run_append, h]
  exact h'

theorem calls (h : Succeeds path k n s t) : Calls path k s t := ⟨_, h⟩

/-- A method that can make a call is not at its end. -/
theorem drives (h : Succeeds path k n s t) : Drives path k n s t := by
  induction n generalizing s with
  | zero =>
      cases h
      exact .refl _
  | succ n ih =>
      obtain ⟨v, hstep, hrest⟩ := Lts.run_cons_eq_some h
      obtain ⟨st, hk, hsys⟩ := Option.bind_eq_some_iff.mp hstep
      have hpc : st.pc ≠ .idle := fun hidle => by simp [sysStep, hidle] at hsys
      rw [Nat.add_comm]
      exact (Drives.one hk hpc hsys).trans (ih hrest)

end Succeeds

namespace Calls

theorem refl (s : World) : Calls path k s s := ⟨[], rfl⟩

/-- One call, with this outcome. -/
theorem one (hk : s.stores[k]? = some st) (out : Outcome)
    (hsys : s.sysStep path k st out = some t) : Calls path k s t := by
  refine ⟨[out], ?_⟩
  show Lts.run (step path) s [.sys k out] = some t
  rw [Lts.run_cons, step_sys hk hsys]
  rfl

theorem trans (h : Calls path k s t) (h' : Calls path k t u) : Calls path k s u := by
  obtain ⟨outs, hrun⟩ := h
  obtain ⟨outs', hrun'⟩ := h'
  refine ⟨outs ++ outs', ?_⟩
  rw [List.map_append, Lts.run_append, hrun]
  exact hrun'

end Calls

/-- A call that starts, runs and comes to its end. -/
theorem execStore_of {a : Act} {st' : Store} (hk : s.stores[k]? = some st)
    (hcall : s.step path a = some t) (hends : Succeeds path k n t u) (hn : n < callBound st)
    (hu : u.stores[k]? = some st') (hidle : st'.pc = .idle) :
    s.execStore path k a = some (u, st'.result.map fun h => h.elim .unit .handle) := by
  rw [execStore, hk, Option.bind_some, hcall, Option.bind_some, hends.drives.done hn hu hidle,
    Option.bind_some, reply, hu]
  rfl

end World

end Durastream

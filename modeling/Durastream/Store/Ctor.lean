import Durastream.Store.Methods

/-!
# How `DurableStream.__init__` ends

Any of its calls may fail, and the lock may be another's.  It raises an `OSError`,
with its file closed, or it returns as the owner of the log or as a reader of it.
`CtorEnds.ends` says that there is nothing else, and what is true of the log and its
lock in each case; `Calls.ctor_raises` and `Calls.ctor_opens` that each can happen.

`Ends path k Q s` says that `Q` holds wherever the method in progress in Store `k`
comes to its end.  A method has no loops, so there is one rule for each place of
it, from the last place to the first.
-/

namespace Durastream

namespace World

variable (path : Name → List Char)

/-- Wherever the method in progress in Store `k` comes to its end, `Q` holds of the
outcomes of its calls and of the world. -/
def Ends (k : Sid) (Q : List Outcome → World → Prop) (s : World) : Prop :=
  Lts.Post (fun s out => s.step path (.sys k out)) (fun t => (t.idleStore k).isSome = true) Q s

/-- For who opens the log at a path, nothing has changed. -/
structure Settled (q : List Char) (fs fs' : LockFs (List Char) UInt8) : Prop where
  records : records (fs'.contents q) = records (fs.contents q)
  free : fs'.Unlocked q ↔ fs.Unlocked q

/-- Process `p` has the log at a path open as `d`. -/
structure Holds (q : List Char) (p : Pid) (fs fs' : LockFs (List Char) UInt8) (d : Did)
    (owner : Bool) : Prop where
  cur : (fs'.dir q).cur = some (fs'.ino d)
  records : records (fs'.file d).data = records (fs.contents q)
  free : (fs'.close p d).Unlocked q ↔ fs.Unlocked q
  owned : owner = true → fs.Unlocked q

variable {path} {q : List Char} {p : Pid} {fs fs' : LockFs (List Char) UInt8} {d : Did}
  {owner : Bool}

theorem Settled.refl (q : List Char) (fs : LockFs (List Char) UInt8) : Settled q fs fs :=
  ⟨rfl, Iff.rfl⟩

/-- The file is closed again. -/
theorem Holds.settled (h : Holds q p fs fs' d owner) : Settled q fs (fs'.close p d) := by
  have hcur : ((fs'.close p d).dir q).cur = some (fs'.ino d) := h.cur
  refine ⟨?_, h.free⟩
  rw [LockFs.contents_of_cur hcur]
  exact h.records

/-- The log is cut or synced. -/
theorem Holds.setFile (h : Holds q p fs fs' d owner) {f : CrashFile UInt8}
    (hf : Durastream.records f.data = Durastream.records (fs'.file d).data) :
    Holds q p fs (fs'.setFile (fs'.ino d) f) d owner := by
  refine ⟨h.cur, ?_, h.free, h.owned⟩
  rw [LockFs.file_setFile_self, hf]
  exact h.records

theorem records_openCreate (q : List Char) (p : Pid) (fs : LockFs (List Char) UInt8) :
    records ((fs.openCreate p q).file fs.descs.length).data = records (fs.contents q) := by
  rw [LockFs.file, ← LockFs.contents_of_cur LockFs.cur_openCreate_self]
  exact congrArg _ LockFs.contents_openCreate

/-- The log is opened, made if there is none, and not locked. -/
theorem holds_openCreate (htidy : fs.Tidy) :
    Holds q p fs (fs.openCreate p q) fs.descs.length false :=
  ⟨LockFs.cur_openCreate_self, records_openCreate q p fs, LockFs.unlocked_close_openCreate htidy,
    fun howner => by cases howner⟩

/-- The log is opened and locked. -/
theorem holds_lock (htidy : fs.Tidy)
    (hcan : (fs.openCreate p q).canLock fs.descs.length = true) :
    Holds q p fs ((fs.openCreate p q).lock fs.descs.length) fs.descs.length true := by
  have hfree := (LockFs.canLock_openCreate_iff htidy).mp hcan
  have hclosed :
      (((fs.openCreate p q).lock fs.descs.length).close p fs.descs.length).Unlocked q :=
    LockFs.unlocked_close_lock LockFs.cur_openCreate_self LockFs.refs_openCreate_self
  exact ⟨LockFs.cur_openCreate_self, records_openCreate q p fs, iff_of_true hclosed hfree,
    fun _ => hfree⟩

/-- The log is opened to read. -/
theorem holds_openFile {i : Nat} (h : Settled q fs fs') (htidy : fs'.Tidy)
    (hcur : (fs'.dir q).cur = some i) :
    Holds q p fs (fs'.openFile p i) fs'.descs.length false := by
  refine ⟨?_, ?_, (LockFs.unlocked_close_openFile htidy).trans h.free,
    fun howner => by cases howner⟩
  · rw [LockFs.ino_openFile_self]
    exact hcur
  · rw [← h.records, LockFs.contents_of_cur hcur, LockFs.file, LockFs.ino_openFile_self]
    rfl

/-! ## Rules -/

variable {s : World} {k : Sid} {st : Store} {pc : StorePc} {Q : List Outcome → World → Prop}

namespace Ends

/-- The next call, whatever its outcome. -/
theorem call (hk : s.stores[k]? = some st) (hpc : st.pc ≠ .idle)
    (h : ∀ out t, s.sysStep path k st out = some t → Ends path k (fun outs => Q (out :: outs)) t) :
    Ends path k Q s := by
  refine .cons ?_ fun out t hstep => h out t ?_
  · simp [idleStore, hk, hpc]
  · simpa only [step, hk, Option.bind_some] using hstep

/-- The same in the middle of a method. -/
theorem mid (hk : k < s.stores.length) (hpc : pc ≠ .idle)
    (h : ∀ out t, (s.mid k st fs pc).sysStep path k { st with pc := pc } out = some t →
      Ends path k (fun outs => Q (out :: outs)) t) :
    Ends path k Q (s.mid k st fs pc) := call (stores_mid hk) hpc h

/-- The method is at its end. -/
theorem idle (hk : s.stores[k]? = some st) (hpc : st.pc = .idle) (h : Q [] s) :
    Ends path k Q s := by
  refine .done (fun out => ?_) h
  simp only [step, hk, Option.bind_some, sysStep, hpc]

theorem finish {r : Except Error (Option Hid)} (hk : k < s.stores.length)
    (h : Q [] (s.finish k st r)) : Ends path k Q (s.finish k st r) :=
  idle (List.getElem?_set_self hk) rfl h

/-- The last call of a method. -/
theorem finish_mid {r : Except Error (Option Hid)} (hk : k < s.stores.length)
    (h : Q [] ((s.setFs fs).finish k st r)) :
    Ends path k Q ((s.mid k st fs pc).finish k { st with pc := pc } r) := by
  rw [World.finish_mid]
  exact .finish hk h

/-- A call fails while nothing is open. -/
theorem fail {e : Error} (hk : k < s.stores.length) (hdesc : pc.desc = none)
    (h : Q [] ((s.setFs fs).finish k st (.error e))) :
    Ends path k Q ((s.mid k st fs pc).fail k { st with pc := pc } e) := by
  rw [fail_mid hdesc]
  exact .finish hk h

/-- A call fails while `d` is open. -/
theorem failDesc {e : Error} (hk : k < s.stores.length) (hdesc : pc.desc = some d)
    (h : Q [] ((s.setFs (fs.close st.pid d)).finish k st (.error e))) :
    Ends path k Q ((s.mid k st fs pc).fail k { st with pc := pc } e) := by
  rw [fail_mid_desc hdesc]
  exact .finish hk h

/-- From one place to the next. -/
theorem goto {pc' : StorePc} (h : Ends path k Q (s.mid k st fs' pc')) :
    Ends path k Q (((s.mid k st fs pc).setFs fs').goto k { st with pc := pc } pc') := by
  rwa [goto_mid]

theorem goto_same {pc' : StorePc} (h : Ends path k Q (s.mid k st fs pc')) :
    Ends path k Q ((s.mid k st fs pc).goto k { st with pc := pc } pc') := by
  rwa [goto_mid_same]

end Ends

/-! ## The constructor -/

/-- Where `__init__` raises, and where it returns, what comes then ends well. -/
structure CtorEnds (path : Name → List Char) (s : World) (k : Sid) (st : Store) (o : Opening)
    (fs : LockFs (List Char) UInt8) (P : World → Prop) : Prop where
  raised : ∀ fs', Settled (path o.name) fs fs' →
    P ((s.setFs fs').finish k st (.error .osError))
  returned : ∀ fs' d owner, Holds (path o.name) st.pid fs fs' d owner →
    Ends path k (fun _ => P)
      ((s.setFs fs').openedStream k st o d owner (marks (records (fs.contents (path o.name)))))

variable {o : Opening} {P : World → Prop}

/-- The next call of `__init__`, whatever its outcome. -/
theorem Ends.ctor {cpc : CtorPc} (hk : k < s.stores.length)
    (h : ∀ out, Ends path k (fun _ => P)
      ((s.mid k st fs (.ctor o cpc)).ctorStep path k { st with pc := .ctor o cpc } o cpc out)) :
    Ends path k (fun _ => P) (s.mid k st fs (.ctor o cpc)) := by
  refine .mid hk (by simp) fun out t hsys => ?_
  obtain rfl := Option.some.inj hsys
  exact h out

namespace CtorEnds

/-- A call fails while nothing is open. -/
theorem fail (hP : CtorEnds path s k st o fs P) (hk : k < s.stores.length)
    (h : Settled (path o.name) fs fs') (hdesc : pc.desc = none) :
    Ends path k (fun _ => P) ((s.mid k st fs' pc).fail k { st with pc := pc } .osError) :=
  .fail hk hdesc (hP.raised fs' h)

/-- A call fails while the log is open. -/
theorem failDesc (hP : CtorEnds path s k st o fs P) (hk : k < s.stores.length)
    (h : Holds (path o.name) st.pid fs fs' d owner) (hdesc : pc.desc = some d) :
    Ends path k (fun _ => P) ((s.mid k st fs' pc).fail k { st with pc := pc } .osError) :=
  .failDesc hk hdesc (hP.raised _ h.settled)

/-- `__init__` returns. -/
theorem opened (hP : CtorEnds path s k st o fs P) (h : Holds (path o.name) st.pid fs fs' d owner)
    {index : List Nat} (hindex : index = marks (records (fs.contents (path o.name)))) :
    Ends path k (fun _ => P)
      ((s.mid k st fs' pc).openedStream k { st with pc := pc } o d owner index) := by
  rw [openedStream_mid, hindex]
  exact hP.returned fs' d owner h

variable {index : List Nat}

theorem sync (hP : CtorEnds path s k st o fs P) (hk : k < s.stores.length)
    (h : Holds (path o.name) st.pid fs fs' d true)
    (hindex : index = marks (records (fs.contents (path o.name)))) :
    Ends path k (fun _ => P) (s.mid k st fs' (.ctor o (.sync d index))) := by
  refine .ctor hk fun out => ?_
  cases out with
  | ok => exact hP.opened (h.setFile (congrArg records (fs'.file d).data_sync)) hindex
  | denied | failed => exact hP.failDesc hk h rfl

theorem truncate (hP : CtorEnds path s k st o fs P) (hk : k < s.stores.length)
    (h : Holds (path o.name) st.pid fs fs' d true)
    (hindex : index = marks (records (fs.contents (path o.name)))) :
    Ends path k (fun _ => P) (s.mid k st fs' (.ctor o (.truncate d index))) := by
  refine .ctor hk fun out => ?_
  cases out with
  | ok =>
      have hcut := (recovered_cut (hindex.trans (congrArg marks h.records.symm))).2.2
      have hrecords : records ((fs'.file d).truncate (lastMark index)).data =
          records (fs'.file d).data := by
        rw [hcut, records_frames (Fits.records _)]
      exact .goto (hP.sync hk (h.setFile hrecords) hindex)
  | denied | failed => exact hP.failDesc hk h rfl

/-- Only an owner cuts the log. -/
theorem scan (hP : CtorEnds path s k st o fs P) (hk : k < s.stores.length)
    (h : Holds (path o.name) st.pid fs fs' d owner) {size : Nat}
    (hsize : size = (fs'.file d).data.length) :
    Ends path k (fun _ => P) (s.mid k st fs' (.ctor o (.scan d owner size))) := by
  refine .ctor hk fun out => ?_
  have hindex : Durastream.scan (fs'.files (fs'.ino d)).data size =
      marks (records (fs.contents (path o.name))) := by
    rw [hsize, ← h.records]
    exact scan_length _
  cases out with
  | ok =>
      have hcur : ((s.mid k st fs' (.ctor o (.scan d owner size))).fs.dir (path o.name)).cur =
          some (fs'.ino d) := h.cur
      simp only [ctorStep, hcur]
      split
      · next htorn =>
          obtain ⟨howner, -⟩ := htorn
          subst howner
          exact .goto_same (hP.truncate hk h hindex)
      · exact hP.opened h hindex
  | denied | failed => exact hP.failDesc hk h rfl

theorem stat (hP : CtorEnds path s k st o fs P) (hk : k < s.stores.length)
    (h : Holds (path o.name) st.pid fs fs' d owner) :
    Ends path k (fun _ => P) (s.mid k st fs' (.ctor o (.stat d owner))) := by
  refine .ctor hk fun out => ?_
  cases out with
  | ok => exact .goto_same (hP.scan hk h rfl)
  | denied | failed => exact hP.failDesc hk h rfl

theorem openRead (hP : CtorEnds path s k st o fs P) (hk : k < s.stores.length)
    (h : Settled (path o.name) fs fs') (htidy : fs'.Tidy) :
    Ends path k (fun _ => P) (s.mid k st fs' (.ctor o .openRead)) := by
  refine .ctor hk fun out => ?_
  cases out with
  | ok =>
      cases hcur : (fs'.dir (path o.name)).cur with
      | none =>
          simp only [ctorStep, fs_mid, hcur]
          exact hP.fail hk h rfl
      | some i =>
          simp only [ctorStep, fs_mid, hcur]
          exact .goto (hP.stat hk (holds_openFile h htidy hcur))
  | denied | failed => exact hP.fail hk h rfl

theorem lock (hP : CtorEnds path s k st o fs P) (hk : k < s.stores.length) (htidy : fs.Tidy) :
    Ends path k (fun _ => P)
      (s.mid k st (fs.openCreate st.pid (path o.name)) (.ctor o (.lock fs.descs.length))) := by
  have hholds := holds_openCreate (q := path o.name) (p := st.pid) htidy
  refine .ctor hk fun out => ?_
  cases out with
  | ok =>
      simp only [ctorStep]
      split
      · next hcan => exact .goto (hP.stat hk (holds_lock htidy hcan))
      · exact .goto_same (hP.stat hk hholds)
  | denied => exact .goto (hP.openRead hk hholds.settled htidy.openCreate.close)
  | failed => exact hP.failDesc hk hholds rfl

/-- `__init__`, from its start. -/
theorem ends (hP : CtorEnds path s k st o fs P) (hk : k < s.stores.length) (htidy : fs.Tidy) :
    Ends path k (fun _ => P) (s.mid k st fs (.ctor o .openAppend)) := by
  refine .ctor hk fun out => ?_
  cases out with
  | ok => exact .goto (hP.lock hk htidy)
  | denied => exact .goto_same (hP.openRead hk (.refl _ _) htidy)
  | failed => exact hP.fail hk (.refl _ _) rfl

end CtorEnds

/-! ## Each of these happens -/

namespace Calls

/-- A call with this outcome, from one place to the next. -/
theorem mid {pc' : StorePc} (hk : k < s.stores.length) (out : Outcome)
    (hsys : (s.mid k st fs pc).sysStep path k { st with pc := pc } out =
      some (((s.mid k st fs pc).setFs fs').goto k { st with pc := pc } pc')) :
    Calls path k (s.mid k st fs pc) (s.mid k st fs' pc') := by
  rw [goto_mid] at hsys
  exact .one (stores_mid hk) out hsys

/-- A call that fails while nothing is open. -/
theorem fails {e : Error} (hk : k < s.stores.length) (hdesc : pc.desc = none) (out : Outcome)
    (hsys : (s.mid k st fs pc).sysStep path k { st with pc := pc } out =
      some ((s.mid k st fs pc).fail k { st with pc := pc } e)) :
    Calls path k (s.mid k st fs pc) ((s.setFs fs).finish k st (.error e)) := by
  rw [fail_mid hdesc] at hsys
  exact .one (stores_mid hk) out hsys

end Calls

end World

end Durastream

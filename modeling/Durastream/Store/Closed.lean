import Durastream.Store.Rooted

/-!
# A closed stream stays closed

`close` sets the flag in the row, and each handle has a copy of it from the time
its row was looked up.  Only a handle that may write consults the copy, so what
matters is that the copy is right when the lock is granted: `freshFlag`.  Then a
closed stream is never written again, its records stay as they are, and every
handle opened later reports closed (`closed_final`), while the unlinks of
`create` find no row, and no power failure takes a closed log back.

The code does not look at the row again once it has the lock, so a stream may be
closed between the lookup and the lock, and then be appended to
(`closed_appended`).
-/

namespace Durastream

/-- No batch was acknowledged after its stream had been closed. -/
def ClosedLast (hist : List Event) : Prop :=
  hist.Pairwise fun later earlier => ∀ name rs i start b,
    earlier = .closed name rs → later ≠ .acked name i start b

def ClosedIn (hist : List Event) (name : Name) : Prop := ∃ rs, .closed name rs ∈ hist

/-- A handle opened after the `close` reports it, and so does one that may write. -/
def Handle.Sealed (hist : List Event) (hd : Handle) : Prop :=
  (ClosedIn hd.asked hd.w.name → hd.w.closed = true) ∧
    (hd.writable = true → ClosedIn hist hd.w.name → hd.w.closed = true)

/-- A method that goes on to open a handle has the flag it needs. -/
def StorePc.Sealed (hist : List Event) : StorePc → Prop
  | .probe name (.create _ asked) => ¬ClosedIn asked name
  | .probeLock name (.create _ asked) _ => ¬ClosedIn asked name
  | .unlink name (.create _ asked) _ => ¬ClosedIn asked name
  | .closeGuard name (.create _ asked) _ _ => ¬ClosedIn asked name
  | .insert name _ asked => ¬ClosedIn asked name
  | .ctor o pc =>
      (ClosedIn o.asked o.name → o.closed = true) ∧
        (pc.owned ≠ none → ClosedIn hist o.name → o.closed = true)
  | _ => True

theorem Handle.Sealed.mono {hist hist' : List Event} {hd : Handle} (h : hd.Sealed hist)
    (hno : ∀ name, ClosedIn hist' name → ClosedIn hist name) : hd.Sealed hist' :=
  ⟨h.1, fun hw hclosed => h.2 hw (hno _ hclosed)⟩

/-- Before the constructor, only what was asked matters. -/
theorem StorePc.Sealed.of_ne_ctor {hist hist' : List Event} {pc : StorePc} (h : pc.Sealed hist)
    (hne : ∀ o pc', pc ≠ .ctor o pc') : pc.Sealed hist' := by
  cases pc with
  | ctor o pc => exact absurd rfl (hne o pc)
  | probe name why => cases why <;> exact h
  | probeLock name why d => cases why <;> exact h
  | unlink name why guard => cases why <;> exact h
  | closeGuard name why d removed => cases why <;> exact h
  | insert name contentType asked => exact h
  | _ => trivial

theorem StorePc.Sealed.mono {hist hist' : List Event} {pc : StorePc} (h : pc.Sealed hist)
    (hno : ∀ name, ClosedIn hist' name → ClosedIn hist name) : pc.Sealed hist' := by
  cases pc with
  | ctor o pc => exact ⟨h.1, fun hown hclosed => h.2 hown (hno _ hclosed)⟩
  | _ => exact h.of_ne_ctor fun _ _ heq => by cases heq

theorem StorePc.Sealed.purged {hist : List Event} {name : Name} {why : Purpose}
    (removed : Option Bool) (h : (StorePc.probe name why).Sealed hist) :
    (purged name why removed).Sealed hist := by
  cases removed with
  | none => trivial
  | some removed =>
      cases why with
      | create contentType asked => exact h
      | delete own =>
          cases own with
          | some h => trivial
          | none => cases removed <;> trivial

theorem StorePc.Sealed.unlinked {hist : List Event} {name : Name} {why : Purpose}
    {guard : Option Did} {removed : Option Bool} (h : (StorePc.probe name why).Sealed hist) :
    (unlinked name why guard removed).Sealed hist := by
  cases guard with
  | some d => cases why <;> exact h
  | none => exact h.purged removed

namespace World

variable (path : Name → List Char)

/-- Each closed stream has the records it had when it was closed.  No batch of it
is acknowledged or in progress, every handle refuses a nonempty batch, and those
opened since report closed. -/
structure Final (s : World) : Prop where
  last : ClosedLast s.history
  records : ∀ name rs, .closed name rs ∈ s.history →
    ∃ i, (s.fs.dir (path name)).cur = some i ∧ Durastream.records (s.fs.files i).data = rs
  refuses : ∀ name rs, .closed name rs ∈ s.history → ∀ hd ∈ s.handles, hd.w.name = name →
    hd.w.pc = .idle ∧ ∀ payloads ≠ [], ∃ e,
      hd.w.begin hd.writable hd.file.isSome payloads = .raised e
  reports : ∀ hd ∈ s.handles, ∀ rs, .closed hd.w.name rs ∈ hd.asked → hd.w.closed = true

/-- A constructor that is granted the lock has the flag that is in the row. -/
def freshFlag (s : World) : Act → Bool
  | .sys k .ok =>
      match (s.stores[k]?).map Store.pc with
      | some (.ctor o (.lock d)) =>
          !s.fs.canLock d || (s.rows.get o.name).map Row.closed == some o.closed
      | _ => true
  | _ => true

/-- At a power loss, the entries and the logs of closed streams are on the device. -/
def settledClosed (s : World) : Act → Bool
  | .powerLoss _ _ =>
      s.rows.keys.all fun name =>
        !(s.rows.get name).any Row.closed ||
          ((s.fs.dir (path name)).settled &&
            (s.fs.dir (path name)).cur.all fun i => (s.fs.files i).settled)
  | _ => true

structure Sealed (s : World) : Prop where
  last : ClosedLast s.history
  row : ∀ name, ClosedIn s.history name → ∃ contentType, s.rows.get name = some ⟨contentType, true⟩
  records : ∀ name rs, .closed name rs ∈ s.history →
    ∃ i, (s.fs.dir (path name)).cur = some i ∧ Durastream.records (s.fs.files i).data = rs
  handle : ∀ hd ∈ s.handles, hd.Sealed s.history
  op : ∀ st ∈ s.stores, st.pc.Sealed s.history

variable {path}
variable {s t : World} {k : Sid} {h : Hid} {st st' : Store} {hd hd' : Handle}
  {out : Outcome} {a : Act}

/-! ## What a step does to entries, rows and records -/

theorem unshared_step (hu : s.fs.Unshared) (hn : s.fs.Numbered) (hstep : Step path s a t) :
    t.fs.Unshared := by
  have hsame : ∀ {fs : LockFs (List Char) UInt8}, fs.dir = s.fs.dir → fs.Unshared := fun heq =>
    hu.of_sub fun q i hmem => by rwa [heq] at hmem
  cases hstep with
  | call a k st t hk hidle hcall => cases hcall <;> exact hu
  | sys k st out t hk hsys =>
      generalize st.pc = pc at hsys
      cases hsys with
      | failed _ e _ _ _ => exact hsame (dir_closeDesc s st.pid st.pc.desc)
      | unlinked name why guard i hok hcur => exact hu.unlink
      | ctor o pc _ hctor =>
          cases hctor with
          | failed _ e => exact hsame (dir_closeDesc s st.pid st.pc.desc)
          | opened => exact hu.openCreate hn
          | _ => exact hsame rfl
      | dirSynced h => exact hu.syncDir
      | delDirSynced name => exact hu.syncDir
      | delClosed name h removed hd hget hfree => exact hsame (dir_closeDesc s hd.pid hd.file)
      | closing h streams hd hget hfree => exact hsame (dir_closeDesc s hd.pid hd.file)
      | _ => exact hsame rfl
  | handle a h hd t hget hhandle => cases hhandle <;> exact hsame rfl
  | powerLoss cell loss => exact hu.powerLoss cell loss
  | _ => exact hsame rfl

/-- A row stays closed. -/
theorem closed_row_step (hr : s.Rooted path) (hstep : Step path s a t) {name : Name}
    {contentType : ContentType} (hrow : s.rows.get name = some ⟨contentType, true⟩) :
    t.rows.get name = some ⟨contentType, true⟩ := by
  cases hstep with
  | call a k st t hk hidle hcall => cases hcall <;> exact hrow
  | sys k st out t hk hsys =>
      have hquiet := hr.quiet st (List.mem_of_getElem? hk)
      generalize st.pc = pc at hsys hquiet
      cases hsys with
      | failed _ e _ _ _ => rwa [rows_fail]
      | inserted name' contentType' asked hok hnone =>
          have hne : name ≠ name' := by
            rintro rfl
            rw [hnone] at hrow
            cases hrow
          exact (Table.get_set_of_ne _ hne _).trans hrow
      | ctor o pc _ hctor =>
          cases hctor with
          | failed _ e => rwa [rows_fail]
          | _ => exact hrow
      | delClosed name h removed hd hget hfree => cases hquiet
      | deleted name => cases hquiet
      | closing h streams hd hget hfree =>
          exact (congrArg (·.get name) (rows_closeFds s h hd)).trans hrow
      | _ => exact hrow
  | handle a h hd t hget hhandle =>
      cases hhandle with
      | updated d rows hclosing hfile hrows =>
          show rows.get name = _
          rw [hrows, hrow]
          split <;> rfl
      | _ => exact hrow
  | _ => exact hrow

/-- Only an append changes the records of a file: recovery cuts what is no record. -/
theorem records_step (hl : s.Logged) (hstep : Step path s a t)
    (hpower : a.isPowerLoss = false) {i : Nat} (hi : i < s.fs.nextIno) :
    Durastream.records (t.fs.files i).data = Durastream.records (s.fs.files i).data ∨
      ∃ (h : Hid) (hd : Handle) (d : Did), s.handles[h]? = some hd ∧ hd.file = some d ∧
        hd.w.pc ≠ .idle ∧ s.fs.ino d = i := by
  have hgrow : ∀ {fs : LockFs (List Char) UInt8}, s.fs.Grows fs →
      Durastream.records (fs.files i).data = Durastream.records (s.fs.files i).data :=
    fun hg => by rw [hg.files i hi]
  -- a file is replaced by one with the same records
  have hset : ∀ {d : Did} {f : CrashFile UInt8},
      Durastream.records f.data = Durastream.records (s.fs.file d).data →
      Durastream.records ((s.fs.setFile (s.fs.ino d) f).files i).data =
        Durastream.records (s.fs.files i).data := by
    intro d f heq
    by_cases hid : i = s.fs.ino d
    · rw [hid, LockFs.files_setFile_self]
      exact heq
    · rw [LockFs.files_setFile_of_ne hid]
  cases hstep with
  | call a k st t hk hidle hcall => cases hcall <;> exact .inl rfl
  | sys k st out t hk hsys =>
      left
      generalize hpc : st.pc = pc at hsys
      cases hsys with
      | failed _ e _ _ _ => exact hgrow (grows_closeDesc s st.pid st.pc.desc)
      | ctor o pc _ hctor =>
          cases hctor with
          | failed _ e => exact hgrow (grows_closeDesc s st.pid st.pc.desc)
          | opened => exact hgrow .openCreate
          | cut d index =>
              refine hset ?_
              have hindex : index = marks (Durastream.records (s.fs.file d).data) :=
                hl.ctor k st o _ hk hpc
              rw [(recovered_cut hindex).2.2, records_frames (Fits.records _)]
          | synced d index => exact hset rfl
          | _ => rfl
      | delClosed name h removed hd hget hfree => exact hgrow (grows_closeDesc s hd.pid hd.file)
      | closing h streams hd hget hfree => exact hgrow (grows_closeDesc s hd.pid hd.file)
      | _ => rfl
  | handle a h hd t hget hhandle =>
      cases hhandle with
      | io d f w fate hfile hw hret =>
          by_cases hid : s.fs.ino d = i
          · exact .inr ⟨h, hd, d, hget, hfile, hw.busy, hid⟩
          · left
            show Durastream.records ((s.fs.setFile (s.fs.ino d) f).files i).data = _
            rw [LockFs.files_setFile_of_ne fun heq => hid heq.symm]
      | _ => exact .inl rfl
  | powerLoss cell loss => cases hpower
  | _ => exact .inl rfl

namespace Sealed

theorem init (disk : Disk) : (World.init disk).Sealed path :=
  ⟨.nil, fun _ ⟨_, hmem⟩ => absurd hmem List.not_mem_nil,
    fun _ _ hmem => absurd hmem List.not_mem_nil, fun _ hmem => absurd hmem List.not_mem_nil,
    fun _ hmem => absurd hmem List.not_mem_nil⟩

/-- A handle in the middle of an append is not on a closed stream. -/
theorem not_closed_of_busy (hq : s.Sealed path) (hs : s.Ok) (hl : s.Logged)
    (hget : s.handles[h]? = some hd) {d : Did} (hfile : hd.file = some d)
    (hbusy : hd.w.pc ≠ .idle) : ¬ClosedIn s.history hd.w.name := by
  intro hclosed
  have hmem := List.mem_of_getElem? hget
  have hw := (hs.handle hget).busy (.inl hbusy)
  obtain ⟨rs, hok, -⟩ := (hl.handle hd hmem d hfile).1 hw
  have htrue := (hq.handle hd hmem).2 hw hclosed
  rw [hok.closed_of_busy hbusy] at htrue
  cases htrue

theorem last_step (hq : s.Sealed path) (hs : s.Ok) (hl : s.Logged) (hstep : Step path s a t) :
    ClosedLast t.history := by
  obtain ⟨es, hhist, hadds⟩ := step_history hstep
  rw [hhist]
  cases hadds with
  | none => exact hq.last
  | inserted k st name contentType asked hk hpc hrow =>
      exact List.pairwise_cons.mpr ⟨fun e _ name rs i start b _ heq => (by cases heq), hq.last⟩
  | acked h hd d start batch hget hfile hpc =>
      have hbusy : hd.w.pc ≠ .idle := by simp [hpc]
      refine List.pairwise_cons.mpr ⟨?_, hq.last⟩
      intro e hmem name rs i start b hclosed heq
      cases heq
      exact hq.not_closed_of_busy hs hl hget hfile hbusy ⟨rs, hclosed ▸ hmem⟩
  | closed _ h hd d hget hfile hclosing hon =>
      exact List.pairwise_cons.mpr ⟨fun e _ name rs i start b _ heq => (by cases heq), hq.last⟩

/-- A stream that was closed before has the records it had. -/
theorem records_step (hq : s.Sealed path) (hinj : Function.Injective path) (hs : s.Ok)
    (hl : s.Logged) (hr : s.Rooted path) (hu : s.fs.Unshared)
    (horphan : s.orphanUnlink path a = true) (hsettled : s.settledClosed path a = true)
    (hstep : Step path s a t) {name : Name} {rs : List Bytes}
    (hmem : .closed name rs ∈ s.history) :
    ∃ i, (t.fs.dir (path name)).cur = some i ∧ Durastream.records (t.fs.files i).data = rs := by
  obtain ⟨contentType, hrow⟩ := hq.row name ⟨rs, hmem⟩
  obtain ⟨i, hcur, hrecords⟩ := hq.records name rs hmem
  have hi := (hl.numbered.entry (path name)).cur i hcur
  refine ⟨i, ?_⟩
  cases hpower : a.isPowerLoss with
  | true =>
      cases hstep with
      | powerLoss cell loss =>
          have hkey : name ∈ s.rows.keys := (s.rows.mem_keys name).mpr (by rw [hrow]; rfl)
          have hboth : (s.fs.dir (path name)).settled = true ∧ (s.fs.files i).settled = true := by
            have hall := List.all_eq_true.mp hsettled name hkey
            simpa [hrow, hcur] using hall
          refine ⟨?_, ?_⟩
          · rw [← hcur]
            exact CrashCell.cur_powerLoss_of_settled _ hboth.1 _
          · rw [← hrecords]
            exact congrArg _ (CrashFile.data_powerLoss_of_settled _ hboth.2 _ _ _)
      | call a k st t hk hidle hcall hon =>
          rw [isPowerLoss_of_onStore hon] at hpower
          cases hpower
      | handle a h hd t hget hhandle hon =>
          rw [isPowerLoss_of_onHandle hon] at hpower
          cases hpower
      | _ => cases hpower
  | false =>
      have hsteady := hr.steady hinj hpower horphan hstep
      refine ⟨hsteady.entry name i (by simp [hrow]) hcur, ?_⟩
      rcases Durastream.World.records_step hl hstep hpower hi with heq |
        ⟨h, hd, d, hget, hfile, hbusy, hino⟩
      · rw [heq, hrecords]
      · -- the writer would be one of the closed stream
        exfalso
        have hroot := (hr.handle hd (List.mem_of_getElem? hget) d hfile).2
        have hpath : path hd.w.name = path name := by
          refine hu _ _ i ?_ ?_
          · rw [← hino, ← hroot]
            exact List.mem_cons_self
          · rw [← hcur]
            exact List.mem_cons_self
        exact hq.not_closed_of_busy hs hl hget hfile hbusy ⟨rs, hinj hpath ▸ hmem⟩

/-- A step that closes no stream: handles and methods keep what they know. -/
theorem of_parts (hq : s.Sealed path) (hlast : ClosedLast t.history)
    (hno : ∀ name rs, .closed name rs ∈ t.history → .closed name rs ∈ s.history)
    (hrow : ∀ name contentType, s.rows.get name = some ⟨contentType, true⟩ →
      t.rows.get name = some ⟨contentType, true⟩)
    (hrecords : ∀ name rs, .closed name rs ∈ s.history →
      ∃ i, (t.fs.dir (path name)).cur = some i ∧ Durastream.records (t.fs.files i).data = rs)
    (hhandles : ∀ hd' ∈ t.handles, hd'.Sealed t.history ∨ ∃ hd ∈ s.handles,
      hd'.w.name = hd.w.name ∧ hd'.asked = hd.asked ∧ (hd.w.closed = true → hd'.w.closed = true) ∧
        (hd'.writable = true → hd.writable = true))
    (hstores : ∀ st' ∈ t.stores, st'.pc.Sealed t.history ∨ st' ∈ s.stores) : t.Sealed path := by
  have hin : ∀ name, ClosedIn t.history name → ClosedIn s.history name :=
    fun name ⟨rs, hmem⟩ => ⟨rs, hno name rs hmem⟩
  refine ⟨hlast, ?_, fun name rs hmem => hrecords name rs (hno name rs hmem), ?_, ?_⟩
  · intro name hclosed
    obtain ⟨contentType, hget⟩ := hq.row name (hin name hclosed)
    exact ⟨contentType, hrow name contentType hget⟩
  · intro hd' hmem
    rcases hhandles hd' hmem with hnew | ⟨hd, hmem₀, hname, hasked, hclosed, hw⟩
    · exact hnew
    · obtain ⟨hknow, hwrite⟩ := hq.handle hd hmem₀
      refine ⟨?_, ?_⟩
      · rw [hname, hasked]
        exact fun hc => hclosed (hknow hc)
      · rw [hname]
        exact fun hw' hc => hclosed (hwrite (hw hw') (hin _ hc))
  · intro st' hmem
    rcases hstores st' hmem with hnew | hold
    · exact hnew
    · exact (hq.op st' hold).mono hin

/-! ### Steps of a method -/

/-- Where the next place of the method is sealed. -/
def Goes (t : World) (s : World) (k : Sid) : Prop :=
  ∃ st', t.stores = s.stores.set k st' ∧ st'.pc.Sealed s.history

theorem closed_of_row (hq : s.Sealed path) {name : Name} {row : Row}
    (hrow : s.rows.get name = some row) (hclosed : ClosedIn s.history name) :
    row.closed = true := by
  obtain ⟨contentType, hget⟩ := hq.row name hclosed
  rw [hrow] at hget
  cases hget
  rfl

/-- The new handle has the flag of the constructor. -/
theorem openedStream_handle {fs : LockFs (List Char) UInt8} {o : Opening} {d : Did} {owner : Bool}
    {index : List Nat} (hknow : ClosedIn o.asked o.name → o.closed = true)
    (hown : owner = true → ClosedIn s.history o.name → o.closed = true) :
    ∀ hd' ∈ ((s.setFs fs).openedStream k st o d owner index).handles,
      hd'.Sealed s.history ∨ hd' ∈ s.handles := by
  intro hd' hmem
  rcases List.mem_append.mp hmem with hmem | hmem
  · exact .inr hmem
  · rw [List.mem_singleton.mp hmem]
    refine .inl ⟨hknow, fun hw hclosed => hown ?_ hclosed⟩
    simpa [Handle.writable] using hw

theorem ctorStep_parts (hq : s.Sealed path) (hk : s.stores[k]? = some st) {o : Opening}
    {pc : CtorPc} (hpc : st.pc = .ctor o pc)
    (hfresh : s.freshFlag (.sys k out) = true) (hstep : CtorStep path s k st out o pc t) :
    Goes t s k ∧ ∀ hd' ∈ t.handles, hd'.Sealed s.history ∨ hd' ∈ s.handles := by
  have hop := hq.op st (List.mem_of_getElem? hk)
  rw [hpc] at hop
  obtain ⟨hknow, hown⟩ := hop
  have hsame : ∀ hd' ∈ s.handles, hd'.Sealed s.history ∨ hd' ∈ s.handles := fun _ hmem => .inr hmem
  have hopened : ∀ {fs : LockFs (List Char) UInt8} {d : Did} {owner : Bool} {index : List Nat},
      Goes ((s.setFs fs).openedStream k st o d owner index) s k := by
    intro fs d owner index
    refine ⟨_, rfl, ?_⟩
    cases o.created <;> trivial
  cases hstep with
  | failed _ e =>
      rw [handles_fail]
      exact ⟨⟨_, stores_fail s k st e, trivial⟩, hsame⟩
  | opened => exact ⟨⟨_, rfl, hknow, fun hne => absurd rfl hne⟩, hsame⟩
  | denied => exact ⟨⟨_, rfl, hknow, fun hne => absurd rfl hne⟩, hsame⟩
  | openedRead i hcur => exact ⟨⟨_, rfl, hknow, fun hne => absurd rfl hne⟩, hsame⟩
  | locked d hok hcan =>
      subst hok
      have hflag : (s.rows.get o.name).map Row.closed = some o.closed := by
        simpa [freshFlag, hk, hpc, hcan] using hfresh
      refine ⟨⟨_, rfl, hknow, fun _ hclosed => ?_⟩, hsame⟩
      obtain ⟨row, hrow, heq⟩ := Option.map_eq_some_iff.mp hflag
      rw [← heq]
      exact hq.closed_of_row hrow hclosed
  | blocked d hcan => exact ⟨⟨_, rfl, hknow, fun hne => absurd rfl hne⟩, hsame⟩
  | lockDenied d => exact ⟨⟨_, rfl, hknow, fun hne => absurd rfl hne⟩, hsame⟩
  | stat d owner =>
      refine ⟨⟨_, rfl, hknow, fun hne => hown ?_⟩, hsame⟩
      cases owner with
      | false => exact absurd rfl hne
      | true => exact hne
  | torn d size i hcur hne => exact ⟨⟨_, rfl, hknow, fun _ => hown (by simp [CtorPc.owned])⟩, hsame⟩
  | cut d index => exact ⟨⟨_, rfl, hknow, fun _ => hown (by simp [CtorPc.owned])⟩, hsame⟩
  | scanned d owner size i hcur hend =>
      refine ⟨hopened, openedStream_handle hknow fun howner => hown ?_⟩
      subst howner
      simp [CtorPc.owned]
  | synced d index =>
      exact ⟨hopened, openedStream_handle hknow fun _ => hown (by simp [CtorPc.owned])⟩

theorem sysStep_parts (hq : s.Sealed path) (hk : s.stores[k]? = some st)
    (hfresh : s.freshFlag (.sys k out) = true) (hstep : SysStep path s k st out st.pc t) :
    Goes t s k ∧ ∀ hd' ∈ t.handles, hd'.Sealed s.history ∨ hd' ∈ s.handles := by
  have hop := hq.op st (List.mem_of_getElem? hk)
  have hsame : ∀ hd' ∈ s.handles, hd'.Sealed s.history ∨ hd' ∈ s.handles := fun _ hmem => .inr hmem
  have hclosed : ∀ {h : Hid} {hd : Handle}, ∀ hd' ∈ (s.closeFds h hd).handles,
      hd'.Sealed s.history ∨ hd' ∈ s.handles := by
    intro h hd hd' hmem
    rw [handles_closeFds] at hmem
    rcases List.mem_or_eq_of_mem_set hmem with hmem | rfl
    · exact .inr hmem
    · exact .inl ⟨fun _ => rfl, fun _ _ => rfl⟩
  generalize hpc : st.pc = pc at hstep
  rw [hpc] at hop
  cases hstep with
  | failed _ e _ _ _ =>
      rw [handles_fail]
      exact ⟨⟨_, stores_fail s k st e, trivial⟩, hsame⟩
  | found name given row hmeta hrow =>
      exact ⟨⟨_, rfl, hq.closed_of_row hrow, fun hne => absurd rfl hne⟩, hsame⟩
  | missing name given hmeta hrow =>
      refine ⟨⟨_, rfl, fun hclosed => ?_⟩, hsame⟩
      obtain ⟨contentType, hget⟩ := hq.row name hclosed
      rw [hrow] at hget
      cases hget
  | probed name why i hcur => exact ⟨⟨_, rfl, by cases why <;> exact hop⟩, hsame⟩
  | noLog name why hcur => exact ⟨⟨_, rfl, by cases why <;> exact hop⟩, hsame⟩
  | guarded name why d hcan => exact ⟨⟨_, rfl, by cases why <;> exact hop⟩, hsame⟩
  | unlinked name why guard i hok hcur =>
      have hprobe : (StorePc.probe name why).Sealed s.history := by cases why <;> exact hop
      exact ⟨⟨_, rfl, hprobe.unlinked⟩, hsame⟩
  | kept name why guard removed hkept =>
      have hprobe : (StorePc.probe name why).Sealed s.history := by cases why <;> exact hop
      exact ⟨⟨_, rfl, hprobe.unlinked⟩, hsame⟩
  | released name why d removed =>
      have hprobe : (StorePc.probe name why).Sealed s.history := by cases why <;> exact hop
      exact ⟨⟨_, rfl, hprobe.purged (some removed)⟩, hsame⟩
  | inserted name contentType asked hok hrow =>
      exact ⟨⟨_, rfl, fun hclosed => absurd hclosed hop, fun hne => absurd rfl hne⟩, hsame⟩
  | ctor o pc _ hctor => exact hq.ctorStep_parts hk hpc hfresh hctor
  | delClosed name h removed hd hget hfree =>
      refine ⟨⟨_, by rw [← stores_closeFds s h hd]; rfl, ?_⟩, hclosed⟩
      cases removed <;> trivial
  | closing h streams hd hget hfree =>
      refine ⟨⟨{ st with pc := .closing streams }, ?_, trivial⟩, hclosed⟩
      rw [← stores_closeFds s h hd]
      rfl
  | _ => exact ⟨⟨_, rfl, trivial⟩, hsame⟩

/-! ### The step that closes a stream -/

/-- After the UPDATE, no other handle or constructor may write the log. -/
theorem updated (hq : s.Sealed path) (hs : s.Ok) (hr : s.Rooted path)
    (hget : s.handles[h]? = some hd) {d : Did} {rows : Table Name Row}
    (hclosing : hd.closing = true) (hfile : hd.file = some d)
    (hrows : ∀ name, rows.get name =
      if name = hd.w.name then (s.rows.get name).map fun row => { row with closed := true }
      else s.rows.get name)
    (hlast : ClosedLast (.closed hd.w.name (Durastream.records (s.fs.file d).data) :: s.history)) :
    Sealed path { s with
      rows := rows
      handles := s.handles.set h { hd with w := { hd.w with closed := true }, closing := false }
      history := .closed hd.w.name (Durastream.records (s.fs.file d).data) :: s.history } := by
  have hmem := List.mem_of_getElem? hget
  have hw := (hs.handle hget).busy (.inr hclosing)
  have hclaim := claims_writable hget hw hfile
  obtain ⟨hexists, hcur⟩ := hr.handle hd hmem d hfile
  have hin : ∀ name, ClosedIn (.closed hd.w.name (Durastream.records (s.fs.file d).data) ::
      s.history) name → name = hd.w.name ∨ ClosedIn s.history name := by
    rintro name ⟨rs, hrs⟩
    rcases List.mem_cons.mp hrs with heq | hold
    · cases heq
      exact .inl rfl
    · exact .inr ⟨rs, hold⟩
  refine ⟨hlast, ?_, ?_, ?_, ?_⟩
  · intro name hclosed
    show ∃ contentType, rows.get name = some ⟨contentType, true⟩
    rw [hrows]
    rcases hin name hclosed with rfl | hold
    · obtain ⟨row, hrow⟩ := Option.ne_none_iff_exists'.mp hexists
      exact ⟨row.contentType, by rw [if_pos rfl, hrow]; rfl⟩
    · obtain ⟨contentType, hrow⟩ := hq.row name hold
      refine ⟨contentType, ?_⟩
      rw [hrow]
      split <;> rfl
  · intro name rs hrs
    rcases List.mem_cons.mp hrs with heq | hold
    · cases heq
      exact ⟨_, hcur, rfl⟩
    · exact hq.records name rs hold
  · intro hd₀ hmem₀
    obtain ⟨j, hj⟩ := List.mem_iff_getElem?.mp hmem₀
    by_cases hjh : h = j
    · subst hjh
      rw [List.getElem?_set_self (List.getElem?_eq_some_iff.mp hget).1] at hj
      cases hj
      exact ⟨fun _ => rfl, fun _ _ => rfl⟩
    · rw [List.getElem?_set_ne hjh] at hj
      obtain ⟨hknow, hwrite⟩ := hq.handle hd₀ (List.mem_of_getElem? hj)
      refine ⟨hknow, fun hw₀ hclosed => ?_⟩
      rcases hin _ hclosed with hname | hold
      · -- both would be owners of the log
        exfalso
        obtain ⟨d₀, hfile₀⟩ := hs.exists_file hj hw₀
        have hcur₀ := (hr.handle hd₀ (List.mem_of_getElem? hj) d₀ hfile₀).2
        rw [hname, hcur] at hcur₀
        have hsame := hs.owner_unique hclaim (claims_writable hj hw₀ hfile₀) rfl rfl
          (Option.some.inj hcur₀)
        cases hsame
        exact hjh rfl
      · exact hwrite hw₀ hold
  · intro st hmem₀
    have hst : st ∈ s.stores := hmem₀
    have hop := hq.op st hst
    cases hpc : st.pc with
    | ctor o pc =>
        rw [hpc] at hop
        refine ⟨hop.1, fun hown hclosed => ?_⟩
        rcases hin _ hclosed with hname | hold
        · exfalso
          obtain ⟨e, he⟩ := Option.ne_none_iff_exists'.mp hown
          obtain ⟨k, hk⟩ := List.mem_iff_getElem?.mp hst
          have hclaim' : s.claims (.op k) = some ⟨st.pid, e, .owner⟩ := by
            rw [claims_op hk, hpc]
            exact CtorPc.claim_of_owned st.pid he
          have hdesc : pc.desc = some e := CtorPc.desc_of_owned he
          have hcur₀ := ((hr.ctor st hst o pc hpc).2 e hdesc).2
          rw [hname, hcur] at hcur₀
          have hsame := hs.owner_unique hclaim hclaim' rfl rfl (Option.some.inj hcur₀)
          cases hsame
        · exact hop.2 hown hold
    | _ =>
        rw [hpc] at hop
        exact hop.of_ne_ctor fun _ _ heq => by cases heq

/-! ### All steps -/

/-- Handles stay as they are for the purposes of closing. -/
def Inherits (s t : World) : Prop :=
  ∀ hd' ∈ t.handles, hd'.Sealed t.history ∨ ∃ hd ∈ s.handles,
    hd'.w.name = hd.w.name ∧ hd'.asked = hd.asked ∧ (hd.w.closed = true → hd'.w.closed = true) ∧
      (hd'.writable = true → hd.writable = true)

theorem Inherits.of_eq (heq : t.handles = s.handles) : Inherits s t := by
  intro hd hmem
  rw [heq] at hmem
  exact .inr ⟨hd, hmem, rfl, rfl, id, id⟩

theorem Inherits.set (hget : s.handles[h]? = some hd) (heq : t.handles = s.handles.set h hd')
    (hname : hd'.w.name = hd.w.name) (hasked : hd'.asked = hd.asked)
    (hclosed : hd.w.closed = true → hd'.w.closed = true)
    (hw : hd'.writable = true → hd.writable = true) : Inherits s t := by
  intro hd₀ hmem
  rw [heq] at hmem
  rcases List.mem_or_eq_of_mem_set hmem with hmem | rfl
  · exact .inr ⟨hd₀, hmem, rfl, rfl, id, id⟩
  · exact .inr ⟨hd, List.mem_of_getElem? hget, hname, hasked, hclosed, hw⟩

theorem handleStep (hq : s.Sealed path) (hs : s.Ok) (hr : s.Rooted path)
    (hlast : ClosedLast t.history)
    (hrow : ∀ name contentType, s.rows.get name = some ⟨contentType, true⟩ →
      t.rows.get name = some ⟨contentType, true⟩)
    (hrecords : ∀ name rs, .closed name rs ∈ s.history →
      ∃ i, (t.fs.dir (path name)).cur = some i ∧ Durastream.records (t.fs.files i).data = rs)
    (hget : s.handles[h]? = some hd) (hstep : HandleStep s h hd a t) : t.Sealed path := by
  cases hstep with
  | refused => exact hq
  | started payloads w hfree hbegin =>
      obtain ⟨-, -, -, -, -, rfl⟩ := Writer.begin_started hbegin
      exact hq.of_parts hlast (fun _ _ hmem => hmem) hrow hrecords
        (Inherits.set hget rfl rfl rfl id id) fun st hmem => .inr hmem
  | io d f w fate hfile hw hret =>
      have hname : w.name = hd.w.name := by cases hw <;> rfl
      refine hq.of_parts hlast ?_ hrow hrecords
        (Inherits.set hget rfl hname rfl hw.closed_mono id) fun st hmem => .inr hmem
      intro name rs hmem
      rcases List.mem_append.mp hmem with hmem | hmem
      · rcases ackedBy_cases hw (s.fs.ino d) with hnone | ⟨next, start, batch, -, -, hacked⟩
        · rw [hnone] at hmem
          cases hmem
        · rw [hacked] at hmem
          cases List.mem_singleton.mp hmem
      · exact hmem
  | closing hfree hw =>
      exact hq.of_parts hlast (fun _ _ hmem => hmem) hrow hrecords
        (Inherits.set hget rfl rfl rfl id id) fun st hmem => .inr hmem
  | updated d rows hclosing hfile hrows => exact hq.updated hs hr hget hclosing hfile hrows hlast
  | updateFailed hclosing =>
      exact hq.of_parts hlast (fun _ _ hmem => hmem) hrow hrecords
        (Inherits.set hget rfl rfl rfl id id) fun st hmem => .inr hmem

/-- A process that ends leaves its handles closed. -/
theorem handle_gone (hist : List Event) (hd : Handle) : hd.gone.Sealed hist :=
  ⟨fun _ => rfl, fun _ _ => rfl⟩

/-- A call of the file system or of SQLite closes no stream. -/
theorem sysStep (hq : s.Sealed path) (hlast : ClosedLast t.history)
    (hrow : ∀ name contentType, s.rows.get name = some ⟨contentType, true⟩ →
      t.rows.get name = some ⟨contentType, true⟩)
    (hrecords : ∀ name rs, .closed name rs ∈ s.history →
      ∃ i, (t.fs.dir (path name)).cur = some i ∧ Durastream.records (t.fs.files i).data = rs)
    (hfresh : s.freshFlag (.sys k out) = true) (hk : s.stores[k]? = some st)
    (hsys : SysStep path s k st out st.pc t) : t.Sealed path := by
  obtain ⟨⟨st', hstores, hnew⟩, hhandles⟩ := hq.sysStep_parts hk hfresh hsys
  obtain ⟨es, hhist, hadds⟩ := sysStep_history hk hsys
  have hno : ∀ name rs, .closed name rs ∈ t.history → .closed name rs ∈ s.history := by
    intro name rs hmem
    rw [hhist] at hmem
    rcases List.mem_append.mp hmem with hmem | hmem
    · cases hadds with
      | none => cases hmem
      | inserted k st name' contentType asked hk hpc hrow => cases List.mem_singleton.mp hmem
      | closed _ h hd d hget hfile hclosing hon => cases hon
    · exact hmem
  have hin : ∀ name, ClosedIn t.history name → ClosedIn s.history name :=
    fun name ⟨rs, hmem⟩ => ⟨rs, hno name rs hmem⟩
  refine hq.of_parts hlast hno hrow hrecords ?_ ?_
  · intro hd hmem
    rcases hhandles hd hmem with hnew | hold
    · exact .inl (hnew.mono hin)
    · exact .inr ⟨hd, hold, rfl, rfl, id, id⟩
  · intro st₀ hmem
    rw [hstores] at hmem
    rcases List.mem_or_eq_of_mem_set hmem with hmem | rfl
    · exact .inr hmem
    · exact .inl (hnew.mono hin)

/-- The copies of a process read what its handles read. -/
theorem forkStep (hq : s.Sealed path) (hs : s.Ok) {p : Pid}
    (hlast : ClosedLast (s.forkStep p).history)
    (hrow : ∀ name contentType, s.rows.get name = some ⟨contentType, true⟩ →
      (s.forkStep p).rows.get name = some ⟨contentType, true⟩)
    (hrecords : ∀ name rs, .closed name rs ∈ s.history →
      ∃ i, ((s.forkStep p).fs.dir (path name)).cur = some i ∧
        Durastream.records ((s.forkStep p).fs.files i).data = rs) :
    (s.forkStep p).Sealed path := by
  refine hq.of_parts hlast (fun _ _ hmem => hmem) hrow hrecords ?_ ?_
  · intro hd' hmem
    rcases List.mem_append.mp hmem with hmem | hmem
    · exact .inr ⟨hd', hmem, rfl, rfl, id, id⟩
    · obtain ⟨hd, hmem₀, rfl⟩ := List.mem_map.mp hmem
      obtain ⟨h, hget⟩ := List.mem_iff_getElem?.mp hmem₀
      split
      · refine .inr ⟨hd, hmem₀, rfl, rfl, id, fun hw => ?_⟩
        rw [(hs.handle hget).not_writable_forked] at hw
        cases hw
      · exact .inl (handle_gone _ hd)
  · intro st' hmem
    rcases List.mem_append.mp hmem with hmem | hmem
    · exact .inr hmem
    · obtain ⟨st, -, rfl⟩ := List.mem_map.mp hmem
      left
      split
      · simp only [Store.forked]
        split <;> trivial
      · trivial

theorem step (hinj : Function.Injective path) (hq : s.Sealed path) (hs : s.Ok) (hl : s.Logged)
    (hr : s.Rooted path) (hu : s.fs.Unshared) (horphan : s.orphanUnlink path a = true)
    (hfresh : s.freshFlag a = true) (hsettled : s.settledClosed path a = true)
    (hstep : Step path s a t) : t.Sealed path := by
  have hlast := hq.last_step hs hl hstep
  have hrow : ∀ name contentType, s.rows.get name = some ⟨contentType, true⟩ →
      t.rows.get name = some ⟨contentType, true⟩ := fun _ _ => closed_row_step hr hstep
  have hrecords : ∀ name rs, .closed name rs ∈ s.history →
      ∃ i, (t.fs.dir (path name)).cur = some i ∧ Durastream.records (t.fs.files i).data = rs :=
    fun name rs => hq.records_step hinj hs hl hr hu horphan hsettled hstep
  cases hstep with
  | spawn =>
      exact hq.of_parts hlast (fun _ _ hmem => hmem) hrow hrecords (Inherits.of_eq rfl)
        fun st hmem => .inr hmem
  | newStore p hlive =>
      refine hq.of_parts hlast (fun _ _ hmem => hmem) hrow hrecords (Inherits.of_eq rfl) ?_
      intro st hmem
      rcases List.mem_append.mp hmem with hmem | hmem
      · exact .inr hmem
      · rw [List.mem_singleton.mp hmem]
        exact .inl trivial
  | call a k st t hk hidle hcall =>
      have hset : ∀ {st' : Store}, st'.pc.Sealed s.history →
          ∀ st₀ ∈ s.stores.set k st', st₀.pc.Sealed s.history ∨ st₀ ∈ s.stores := by
        intro st' hnew st₀ hmem
        rcases List.mem_or_eq_of_mem_set hmem with hmem | rfl
        · exact .inr hmem
        · exact .inl hnew
      cases hcall <;>
        exact hq.of_parts hlast (fun _ _ hmem => hmem) hrow hrecords (Inherits.of_eq rfl)
          (hset trivial)
  | sys k st out t hk hsys => exact hq.sysStep hlast hrow hrecords hfresh hk hsys
  | handle a h hd t hget hhandle => exact hq.handleStep hs hr hlast hrow hrecords hget hhandle
  | fork p hlive => exact hq.forkStep hs hlast hrow hrecords
  | exit p hlive =>
      refine hq.of_parts hlast (fun _ _ hmem => hmem) hrow hrecords ?_ ?_
      · intro hd' hmem
        obtain ⟨hd, hmem₀, rfl⟩ := List.mem_map.mp hmem
        split
        · exact .inl (handle_gone _ hd)
        · exact .inr ⟨hd, hmem₀, rfl, rfl, id, id⟩
      · intro st' hmem
        obtain ⟨st, hmem₀, rfl⟩ := List.mem_map.mp hmem
        split
        · exact .inl trivial
        · exact .inr hmem₀
  | powerLoss cell loss =>
      refine hq.of_parts hlast (fun _ _ hmem => hmem) hrow hrecords ?_ ?_
      · intro hd' hmem
        obtain ⟨hd, -, rfl⟩ := List.mem_map.mp hmem
        exact .inl (handle_gone _ hd)
      · intro st' hmem
        obtain ⟨st, -, rfl⟩ := List.mem_map.mp hmem
        exact .inl trivial

/-- In a state of the invariants, closed streams are final. -/
theorem final (hq : s.Sealed path) (hs : s.Ok) (hl : s.Logged) : s.Final path := by
  refine ⟨hq.last, hq.records, ?_, fun hd hmem rs hrs => (hq.handle hd hmem).1 ⟨rs, hrs⟩⟩
  rintro name rs hrs hd hmem rfl
  obtain ⟨h, hget⟩ := List.mem_iff_getElem?.mp hmem
  have hclosed : ClosedIn s.history hd.w.name := ⟨rs, hrs⟩
  refine ⟨?_, ?_⟩
  · by_contra hbusy
    have hw := (hs.handle hget).busy (.inl hbusy)
    obtain ⟨d, hfile⟩ := hs.exists_file hget hw
    exact hq.not_closed_of_busy hs hl hget hfile hbusy hclosed
  · intro payloads hne
    cases hbegin : hd.w.begin hd.writable hd.file.isSome payloads with
    | raised e => exact ⟨e, rfl⟩
    | started w =>
        obtain ⟨hfalse, hw, -⟩ := Writer.begin_started hbegin
        rw [(hq.handle hd hmem).2 hw hclosed] at hfalse
        cases hfalse
    | returned next => exact absurd hbegin (Writer.begin_ne_returned hne)

end Sealed

/-! ## The results -/

/-- Store 1 has looked up the row and not opened the log yet; Store 0 closes the
stream and itself, and then Store 1 goes on and appends. -/
def closedMeanwhile : List Act :=
  storeActs 0 ++ storeActs 1 ++ createActs 0 ['t'] ++ [.openStream 1 ['t'], .sys 1 .ok] ++
    [.close 0, .update 0 true] ++ closeActs 0 ++ List.replicate 4 (.sys 1 .ok) ++
    appendActs 1 [[1]] 9

/-- A closed stream may be appended to: so it is after `closedMeanwhile`. -/
theorem closed_appended :
    ¬∀ (disk : Disk) (acts : List Act) (s : World), (∀ a ∈ acts, a.isDelete = false) →
      Lts.run (step logEntry) (init disk) acts = some s → s.Final logEntry := by
  intro hall
  have hmap : (Lts.run (step logEntry) (init .empty) closedMeanwhile).map (fun s => s.history) =
      some [.acked ['t'] 0 0 [[1]], .closed ['t'] [], .inserted ['t'] 0] := by
    decide +kernel
  obtain ⟨s, hrun, hhist⟩ := Option.map_eq_some_iff.mp hmap
  have hlast := (hall .empty closedMeanwhile s (by decide) hrun).last
  rw [hhist] at hlast
  exact (List.pairwise_cons.mp hlast).1 _ List.mem_cons_self ['t'] [] 0 0 [[1]] rfl rfl

/-- In a run without `delete` where every constructor that is granted the lock has
the flag that is in the row, closed streams are final, as long as the unlinks find
no row and no power loss takes back a closed log. -/
theorem closed_final (disk : Disk) (acts : List Act) (s : World)
    (hacts : ∀ a ∈ acts, a.isDelete = false)
    (hrun : Lts.run (step logEntry) (init disk) acts = some s)
    (hmeets : Lts.Meets (step logEntry) (fun s a => s.freshFlag a = true ∧
      s.orphanUnlink logEntry a = true ∧ s.settledClosed logEntry a = true) (init disk) acts) :
    s.Final logEntry := by
  have hstep : ∀ (u : World) (a : Act) (v : World),
      (u.Ok ∧ u.Logged ∧ u.Rooted logEntry ∧ u.fs.Unshared ∧ u.Sealed logEntry) →
      (a.isDelete = false ∧ u.freshFlag a = true ∧ u.orphanUnlink logEntry a = true ∧
        u.settledClosed logEntry a = true) →
      step logEntry u a = some v →
      v.Ok ∧ v.Logged ∧ v.Rooted logEntry ∧ v.fs.Unshared ∧ v.Sealed logEntry := by
    rintro u a v ⟨hok, hl, hr, hu, hq⟩ ⟨hdel, hfresh, horphan, hsettled⟩ hstep
    have hcases := step_cases hstep
    exact ⟨hok.step hcases, hl.step hok hr.scansOpen hcases,
      hr.step logEntry_injective hok hdel horphan hcases, unshared_step hu hl.numbered hcases,
      hq.step logEntry_injective hok hl hr hu horphan hfresh hsettled hcases⟩
  obtain ⟨hok, hl, -, -, hq⟩ := Lts.run_invariant_of_meets hstep hrun (hmeets.and_mem hacts)
    ⟨.init disk, .init disk, .init disk, .ofDisk disk.dir_inj, .init disk⟩
  exact hq.final hok hl

/-- Store 0 creates a stream, appends to it and closes both; Store 1 opens it again. -/
def closedAndReopened : List Act :=
  storeActs 0 ++ storeActs 1 ++ createActs 0 ['t'] ++ appendActs 0 [[1]] 9 ++
    [.close 0, .update 0 true] ++ closeActs 0 ++ openActs 1 ['t']

theorem closed_final_closedAndReopened :
    ∃ s, Lts.run (step logEntry) (init .empty) closedAndReopened = some s ∧ s.Final logEntry := by
  have hsome : (Lts.run (step logEntry) (init .empty) closedAndReopened).isSome = true := by
    decide +kernel
  obtain ⟨s, hrun⟩ := Option.isSome_iff_exists.mp hsome
  exact ⟨s, hrun, closed_final .empty closedAndReopened s (by decide) hrun (by decide +kernel)⟩

end World

end Durastream

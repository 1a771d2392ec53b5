import Durastream.Store.Logged

/-!
# Names, rows and files without `delete`

Where no stream is deleted, a stream that some handle or constructor has open has
a row, and its path names the file that is open.  The invariant `World.Rooted`
says so.  It survives every step but one: the unlink in `create` is meant for a
log without a row, and nothing is held between the lookup and the unlink, so by
then there may be a row.  `orphanUnlink` says that there is none.
-/

namespace Durastream

/-- The method in progress is `delete`. -/
def StorePc.deletes : StorePc → Bool
  | .probe _ (.delete _) => true
  | .probeLock _ (.delete _) _ => true
  | .unlink _ (.delete _) _ => true
  | .closeGuard _ (.delete _) _ _ => true
  | .delClose _ _ _ => true
  | .delDirSync _ => true
  | .delRow _ => true
  | _ => false

/-- `create` goes on to no part of `delete`. -/
theorem StorePc.deletes_purged (name : Name) (contentType : ContentType) (asked : List Event)
    (removed : Option Bool) :
    (purged name (.create contentType asked) removed).deletes = false := by
  cases removed <;> rfl

theorem StorePc.deletes_unlinked {name : Name} {contentType : ContentType} {asked : List Event}
    {guard : Option Did} {removed : Option Bool} :
    (unlinked name (.create contentType asked) guard removed).deletes = false := by
  cases guard with
  | some d => rfl
  | none => exact deletes_purged name contentType asked removed

namespace World

variable (path : Name → List Char)

/-- An unlink that removes the entry of a log finds no row of its name. -/
def orphanUnlink (s : World) : Act → Bool
  | .sys k .ok =>
      match (s.stores[k]?).map Store.pc with
      | some (.unlink name _ _) =>
          (s.rows.get name).isNone || (s.fs.dir (path name)).cur.isNone
      | _ => true
  | _ => true

/-- The stream `n` has a row, and its path names the file of description `d`. -/
def RootedAt (s : World) (n : Name) (d : Did) : Prop :=
  s.rows.get n ≠ none ∧ (s.fs.dir (path n)).cur = some (s.fs.ino d)

structure Rooted (s : World) : Prop where
  handle : ∀ hd ∈ s.handles, ∀ d, hd.file = some d → s.RootedAt path hd.w.name d
  ctor : ∀ st ∈ s.stores, ∀ o pc, st.pc = .ctor o pc →
    s.rows.get o.name ≠ none ∧ ∀ d, pc.desc = some d → s.RootedAt path o.name d
  quiet : ∀ st ∈ s.stores, st.pc.deletes = false

/-- Rows stay, and so do the entries of streams with a row and the numbers of the
files that are open. -/
structure Steady (s t : World) : Prop where
  rows : ∀ n, s.rows.get n ≠ none → t.rows.get n ≠ none
  entry : ∀ n i, s.rows.get n ≠ none → (s.fs.dir (path n)).cur = some i →
    (t.fs.dir (path n)).cur = some i
  ino : ∀ d < s.fs.descs.length, t.fs.ino d = s.fs.ino d

variable {path}
variable {s t : World} {k : Sid} {h : Hid} {st st' : Store} {hd hd' : Handle}
  {out : Outcome} {a : Act}

namespace Steady

/-- Only descriptions and locks change. -/
theorem of_dir (hrows : t.rows = s.rows) (hdir : t.fs.dir = s.fs.dir)
    (hino : ∀ d < s.fs.descs.length, t.fs.ino d = s.fs.ino d) : Steady path s t := by
  refine ⟨?_, ?_, hino⟩
  · intro n hrow
    rwa [hrows]
  · intro n i _ hcur
    rwa [hdir]

theorem of_eq (hrows : t.rows = s.rows) (hfs : t.fs = s.fs) : Steady path s t :=
  of_dir hrows (by rw [hfs]) fun d _ => by rw [hfs]

theorem rootedAt {n : Name} {d : Did} (h : Steady path s t) (hd : d < s.fs.descs.length)
    (hr : s.RootedAt path n d) : t.RootedAt path n d :=
  ⟨h.rows n hr.1, by rw [h.ino d hd]; exact h.entry n _ hr.1 hr.2⟩

theorem ctorStep {o : Opening} {pc : CtorPc} (hstep : CtorStep path s k st out o pc t) :
    Steady path s t := by
  cases hstep with
  | failed _ e =>
      exact .of_dir (rows_fail s k st e) (dir_closeDesc s st.pid st.pc.desc)
        fun d _ => ino_closeDesc s st.pid st.pc.desc d
  | opened =>
      exact ⟨fun _ hn => hn, fun _ _ _ hcur => LockFs.cur_openCreate hcur,
        fun d hd => LockFs.ino_openCreate hd⟩
  | openedRead i hcur => exact .of_dir rfl rfl fun d hd => LockFs.ino_openFile hd
  | lockDenied d => exact .of_dir rfl rfl fun _ _ => LockFs.ino_close
  | _ => exact .of_dir rfl rfl fun _ _ => rfl

/-- Outside of `delete`, an unlink that finds no row takes no entry of a row. -/
theorem sysStep (hinj : Function.Injective path) (hk : s.stores[k]? = some st)
    (hquiet : st.pc.deletes = false) (horphan : s.orphanUnlink path (.sys k out) = true)
    (hstep : SysStep path s k st out st.pc t) : Steady path s t := by
  generalize hpc : st.pc = pc at hstep
  rw [hpc] at hquiet
  cases hstep with
  | failed _ e _ _ _ =>
      exact .of_dir (rows_fail s k st e) (dir_closeDesc s st.pid st.pc.desc)
        fun d _ => ino_closeDesc s st.pid st.pc.desc d
  | probed name why i hcur => exact .of_dir rfl rfl fun d hd => LockFs.ino_openFile hd
  | unlinked name why guard i hok hcur =>
      subst hok
      have hnone : s.rows.get name = none := by
        simpa [orphanUnlink, hk, hpc, hcur] using horphan
      refine ⟨fun _ hn => hn, ?_, fun _ _ => rfl⟩
      intro n j hrow hcurn
      have hne : path n ≠ path name := fun heq => hrow (hinj heq ▸ hnone)
      exact (LockFs.cur_unlink_of_ne hne).trans hcurn
  | released name why d removed => exact .of_dir rfl rfl fun _ _ => LockFs.ino_close
  | raised name why d => exact .of_dir rfl rfl fun _ _ => LockFs.ino_close
  | inserted name contentType asked hok hrow =>
      refine ⟨?_, fun _ _ _ hcur => hcur, fun _ _ => rfl⟩
      intro n hn
      show (s.rows.set name ⟨contentType, false⟩).get n ≠ none
      by_cases hname : n = name
      · rw [hname, Table.get_set_self]
        simp
      · rwa [Table.get_set_of_ne _ hname]
  | ctor o pc _ hctor => exact ctorStep hctor
  | dirSynced h => exact ⟨fun _ hn => hn, fun _ _ _ hcur => hcur, fun _ _ => rfl⟩
  | delClosed name h removed hd hget hfree => cases hquiet
  | delDirSynced name => cases hquiet
  | deleted name => cases hquiet
  | closing h streams hd hget hfree =>
      exact .of_dir (rows_closeFds s h hd) (dir_closeDesc s hd.pid hd.file)
        fun d _ => ino_closeDesc s hd.pid hd.file d
  | _ => exact .of_dir rfl rfl fun _ _ => rfl

theorem handleStep (hstep : HandleStep s h hd a t) : Steady path s t := by
  cases hstep with
  | updated d rows hclosing hfile hrows =>
      refine ⟨?_, fun _ _ _ hcur => hcur, fun _ _ => rfl⟩
      intro n hn
      rw [hrows]
      split
      · simpa using hn
      · exact hn
  | _ => exact .of_dir rfl rfl fun _ _ => rfl

end Steady

/-- What a constructor has open has been opened. -/
theorem Ok.lt_of_ctor_desc (hs : s.Ok) (hmem : st ∈ s.stores) {o : Opening} {pc : CtorPc}
    (hpc : st.pc = .ctor o pc) {d : Did} (hdesc : pc.desc = some d) : d < s.fs.descs.length := by
  obtain ⟨k, hk⟩ := List.mem_iff_getElem?.mp hmem
  have hst : st.pc.desc = some d := by rw [hpc]; exact hdesc
  obtain ⟨c, hc, rfl, -⟩ := StorePc.claim_of_desc (p := st.pid) hst
  exact hs.lt_of_claim ((claims_op hk).trans hc)

theorem Ok.lt_of_mem_file (hs : s.Ok) (hmem : hd ∈ s.handles) {d : Did}
    (hfile : hd.file = some d) : d < s.fs.descs.length := by
  obtain ⟨h, hget⟩ := List.mem_iff_getElem?.mp hmem
  exact hs.lt_of_file hget hfile

namespace Rooted

theorem init (disk : Disk) : (World.init disk).Rooted path :=
  ⟨fun _ hmem => absurd hmem List.not_mem_nil, fun _ hmem => absurd hmem List.not_mem_nil,
    fun _ hmem => absurd hmem List.not_mem_nil⟩

/-- The streams that are open now were open before, or are rooted now. -/
theorem of_steady (hr : s.Rooted path) (hs : s.Ok) (hsteady : Steady path s t)
    (hhandles : ∀ hd' ∈ t.handles, ∀ d, hd'.file = some d →
      (∃ hd ∈ s.handles, hd.file = some d ∧ hd'.w.name = hd.w.name) ∨
        t.RootedAt path hd'.w.name d)
    (hstores : ∀ st' ∈ t.stores, st' ∈ s.stores ∨ st'.pc.deletes = false ∧
      ∀ o pc, st'.pc = .ctor o pc →
        t.rows.get o.name ≠ none ∧ ∀ d, pc.desc = some d → t.RootedAt path o.name d) :
    t.Rooted path := by
  refine ⟨?_, ?_, ?_⟩
  · intro hd' hmem d hfile
    rcases hhandles hd' hmem d hfile with ⟨hd, hmem₀, hfile₀, hname⟩ | hnew
    · rw [hname]
      exact hsteady.rootedAt (hs.lt_of_mem_file hmem₀ hfile₀) (hr.handle hd hmem₀ d hfile₀)
    · exact hnew
  · intro st' hmem o pc hpc
    rcases hstores st' hmem with hmem₀ | ⟨-, hnew⟩
    · obtain ⟨hrow, hdesc⟩ := hr.ctor st' hmem₀ o pc hpc
      refine ⟨hsteady.rows _ hrow, fun d hd => ?_⟩
      exact hsteady.rootedAt (hs.lt_of_ctor_desc hmem₀ hpc hd) (hdesc d hd)
    · exact hnew o pc hpc
  · intro st' hmem
    rcases hstores st' hmem with hmem₀ | ⟨hquiet, -⟩
    · exact hr.quiet st' hmem₀
    · exact hquiet

/-- Store `k` goes on, and the handles are the same. -/
theorem ofSet (hr : s.Rooted path) (hs : s.Ok) (hsteady : Steady path s t)
    (hstores : t.stores = s.stores.set k st') (hhandles : t.handles = s.handles)
    (hquiet : st'.pc.deletes = false)
    (hctor : ∀ o pc, st'.pc = .ctor o pc →
      t.rows.get o.name ≠ none ∧ ∀ d, pc.desc = some d → t.RootedAt path o.name d) :
    t.Rooted path := by
  refine hr.of_steady hs hsteady ?_ ?_
  · intro hd hmem d hfile
    rw [hhandles] at hmem
    exact .inl ⟨hd, hmem, hfile, rfl⟩
  · intro st₀ hmem
    rw [hstores] at hmem
    rcases List.mem_or_eq_of_mem_set hmem with hmem | rfl
    · exact .inl hmem
    · exact .inr ⟨hquiet, hctor⟩

/-- Store `k` goes on to a place outside of the constructor. -/
theorem goOn (hr : s.Rooted path) (hs : s.Ok) (hsteady : Steady path s t)
    (hstores : t.stores = s.stores.set k st') (hhandles : t.handles = s.handles)
    (hquiet : st'.pc.deletes = false) (hne : ∀ o pc, st'.pc ≠ .ctor o pc) : t.Rooted path :=
  hr.ofSet hs hsteady hstores hhandles hquiet fun o pc hpc => absurd hpc (hne o pc)

theorem fail (hr : s.Rooted path) (hs : s.Ok) {e : Error}
    (hsteady : Steady path s (s.fail k st e)) :
    (s.fail k st e).Rooted path :=
  hr.goOn hs hsteady (stores_fail s k st e) (handles_fail s k st e) rfl fun _ _ heq => by cases heq

/-- The constructor returns: the handle has the file open that it had open. -/
theorem openedStream (hr : s.Rooted path) (hs : s.Ok) {fs : LockFs (List Char) UInt8}
    {o : Opening} {d : Did} {owner : Bool} {index : List Nat} (hdir : fs.dir = s.fs.dir)
    (hdescs : fs.descs = s.fs.descs) (hroot : s.RootedAt path o.name d) :
    ((s.setFs fs).openedStream k st o d owner index).Rooted path := by
  have hino : ∀ e, fs.ino e = s.fs.ino e := fun e => by rw [LockFs.ino, LockFs.ino, hdescs]
  refine hr.of_steady hs (.of_dir rfl hdir fun e _ => hino e) ?_ ?_
  · intro hd hmem e hfile
    rcases List.mem_append.mp hmem with hmem | hmem
    · exact .inl ⟨hd, hmem, hfile, rfl⟩
    · rw [List.mem_singleton.mp hmem] at hfile ⊢
      cases hfile
      right
      refine ⟨hroot.1, ?_⟩
      show (fs.dir (path o.name)).cur = some (fs.ino d)
      rw [hdir, hino]
      exact hroot.2
  · intro st₀ hmem
    rcases List.mem_or_eq_of_mem_set hmem with hmem | rfl
    · exact .inl hmem
    · right
      cases o.created with
      | false => exact ⟨rfl, fun _ _ heq => by cases heq⟩
      | true => exact ⟨rfl, fun _ _ heq => by cases heq⟩

theorem ctorStep (hr : s.Rooted path) (hs : s.Ok) (hk : s.stores[k]? = some st) {o : Opening}
    {pc : CtorPc} (hpc : st.pc = .ctor o pc) (hstep : CtorStep path s k st out o pc t) :
    t.Rooted path := by
  have hsteady := Steady.ctorStep hstep
  have hmem := List.mem_of_getElem? hk
  obtain ⟨hrow, hdesc⟩ := hr.ctor st hmem o pc hpc
  -- the constructor goes on with the description it has
  have hgo : ∀ {pc' : CtorPc}, t.stores = s.stores.set k { st with pc := .ctor o pc' } →
      t.handles = s.handles → (∀ d, pc'.desc = some d → pc.desc = some d) → t.Rooted path := by
    intro pc' hstores hhandles hsame
    refine hr.ofSet hs hsteady hstores hhandles rfl ?_
    intro o' pc'' heq
    cases heq
    refine ⟨hsteady.rows _ hrow, fun d hd => ?_⟩
    have hlt := hs.lt_of_ctor_desc hmem hpc (hsame d hd)
    exact hsteady.rootedAt hlt (hdesc d (hsame d hd))
  cases hstep with
  | failed _ e => exact hr.fail hs hsteady
  | opened =>
      refine hr.ofSet hs hsteady rfl rfl rfl ?_
      intro o' pc' heq
      cases heq
      refine ⟨hrow, fun d hd => ?_⟩
      cases hd
      exact ⟨hrow, LockFs.cur_openCreate_self⟩
  | openedRead i hcur =>
      refine hr.ofSet hs hsteady rfl rfl rfl ?_
      intro o' pc' heq
      cases heq
      refine ⟨hrow, fun d hd => ?_⟩
      cases hd
      refine ⟨hrow, ?_⟩
      show (s.fs.dir (path o.name)).cur = some ((s.fs.openFile st.pid i).ino s.fs.descs.length)
      rw [LockFs.ino_openFile_self, hcur]
  | denied => exact hgo rfl rfl fun d hd => by cases hd
  | lockDenied d => exact hgo rfl rfl fun d hd => by cases hd
  | locked d hok hcan => exact hgo rfl rfl fun _ hd => hd
  | blocked d hcan => exact hgo rfl rfl fun _ hd => hd
  | stat d owner => exact hgo rfl rfl fun _ hd => hd
  | torn d size i hcur hne => exact hgo rfl rfl fun _ hd => hd
  | cut d index => exact hgo rfl rfl fun _ hd => hd
  | scanned d owner size i hcur hend => exact hr.openedStream hs rfl rfl (hdesc d rfl)
  | synced d index => exact hr.openedStream hs rfl rfl (hdesc d rfl)

/-- Handles are closed or copied, and their Stores go on. -/
theorem ofHandles (hr : s.Rooted path) (hs : s.Ok) (hsteady : Steady path s t)
    (hhandles : ∀ hd' ∈ t.handles, ∀ d, hd'.file = some d →
      ∃ hd ∈ s.handles, hd.file = some d ∧ hd'.w.name = hd.w.name)
    (hstores : ∀ st' ∈ t.stores, st' ∈ s.stores ∨ st'.pc.deletes = false ∧
      ∀ o pc, st'.pc ≠ .ctor o pc) : t.Rooted path := by
  refine hr.of_steady hs hsteady (fun hd' hmem d hfile => .inl (hhandles hd' hmem d hfile)) ?_
  intro st' hmem
  refine (hstores st' hmem).imp_right (And.imp_right fun hne => ?_)
  exact fun o pc hpc => absurd hpc (hne o pc)

/-- One handle changes, but not its name, and opens nothing. -/
theorem setHandle (hr : s.Rooted path) (hs : s.Ok) (hget : s.handles[h]? = some hd)
    (hsteady : Steady path s t) (hhandles : t.handles = s.handles.set h hd')
    (hstores : ∀ st' ∈ t.stores, st' ∈ s.stores ∨ st'.pc.deletes = false ∧
      ∀ o pc, st'.pc ≠ .ctor o pc)
    (hfile : ∀ d, hd'.file = some d → hd.file = some d) (hname : hd'.w.name = hd.w.name) :
    t.Rooted path := by
  refine hr.ofHandles hs hsteady ?_ hstores
  intro hd₀ hmem d hfile₀
  rw [hhandles] at hmem
  rcases List.mem_or_eq_of_mem_set hmem with hmem | rfl
  · exact ⟨hd₀, hmem, hfile₀, rfl⟩
  · exact ⟨hd, List.mem_of_getElem? hget, hfile d hfile₀, hname⟩

/-- The handle that `Store.close` closes next. -/
theorem closeFds (hr : s.Rooted path) (hs : s.Ok) (hget : s.handles[h]? = some hd)
    {streams : List Hid}
    (hsteady : Steady path s ((s.closeFds h hd).goto k st (.closing streams))) :
    ((s.closeFds h hd).goto k st (.closing streams)).Rooted path := by
  refine hr.setHandle hs hget hsteady (handles_closeFds s h hd) ?_ (fun d hd => by cases hd) rfl
  intro st₀ hmem
  have hset : st₀ ∈ (s.closeFds h hd).stores.set k { st with pc := .closing streams } := hmem
  rw [stores_closeFds] at hset
  rcases List.mem_or_eq_of_mem_set hset with hmem | rfl
  · exact .inl hmem
  · exact .inr ⟨rfl, fun _ _ heq => by cases heq⟩

theorem sysStep (hinj : Function.Injective path) (hr : s.Rooted path) (hs : s.Ok)
    (hk : s.stores[k]? = some st) (horphan : s.orphanUnlink path (.sys k out) = true)
    (hstep : SysStep path s k st out st.pc t) : t.Rooted path := by
  have hquiet := hr.quiet st (List.mem_of_getElem? hk)
  have hsteady := Steady.sysStep hinj hk hquiet horphan hstep
  generalize hpc : st.pc = pc at hstep
  rw [hpc] at hquiet
  cases hstep with
  | failed _ e _ _ _ => exact hr.fail hs hsteady
  | found name given row hmeta hrow =>
      refine hr.ofSet hs hsteady rfl rfl rfl ?_
      intro o pc heq
      cases heq
      exact ⟨by simp [World.goto, World.setStore, hrow], fun d hd => by cases hd⟩
  | missing name given hmeta hrow =>
      exact hr.goOn hs hsteady rfl rfl rfl fun _ _ heq => by cases heq
  | probed name why i hcur =>
      cases why with
      | create contentType asked => exact hr.goOn hs hsteady rfl rfl rfl fun _ _ heq => by cases heq
      | delete own => cases hquiet
  | noLog name why hcur =>
      cases why with
      | create contentType asked => exact hr.goOn hs hsteady rfl rfl rfl fun _ _ heq => by cases heq
      | delete own => cases hquiet
  | guarded name why d hcan =>
      cases why with
      | create contentType asked => exact hr.goOn hs hsteady rfl rfl rfl fun _ _ heq => by cases heq
      | delete own => cases hquiet
  | unlinked name why guard i hok hcur =>
      cases why with
      | create contentType asked =>
          exact hr.goOn hs hsteady rfl rfl StorePc.deletes_unlinked unlinked_ne_ctor
      | delete own => cases hquiet
  | kept name why guard removed hkept =>
      cases why with
      | create contentType asked =>
          exact hr.goOn hs hsteady rfl rfl StorePc.deletes_unlinked unlinked_ne_ctor
      | delete own => cases hquiet
  | released name why d removed =>
      cases why with
      | create contentType asked =>
          exact hr.goOn hs hsteady rfl rfl
            (StorePc.deletes_purged name contentType asked (some removed))
            (purged_ne_ctor name (.create contentType asked) (some removed))
      | delete own => cases hquiet
  | raised name why d => exact hr.goOn hs hsteady rfl rfl rfl fun _ _ heq => by cases heq
  | inserted name contentType asked hok hrow =>
      refine hr.ofSet hs hsteady rfl rfl rfl ?_
      intro o pc heq
      cases heq
      exact ⟨by simp [World.goto, World.setStore], fun d hd => by cases hd⟩
  | ctor o pc _ hctor => exact hr.ctorStep hs hk hpc hctor
  | dirSynced h => exact hr.goOn hs hsteady rfl rfl rfl fun _ _ heq => by cases heq
  | delClosed name h removed hd hget hfree => cases hquiet
  | delDirSynced name => cases hquiet
  | deleted name => cases hquiet
  | closing h streams hd hget hfree => exact hr.closeFds hs hget hsteady
  | closed => exact hr.goOn hs hsteady rfl rfl rfl fun _ _ heq => by cases heq

theorem callStep (hr : s.Rooted path) (hs : s.Ok) (hdel : a.isDelete = false)
    (hstep : CallStep s k st a t) : t.Rooted path := by
  cases hstep with
  | deleteOwn k' name h hd ha hopened hget hw =>
      rw [ha] at hdel
      cases hdel
  | deleteOther k' name own ha hown =>
      rw [ha] at hdel
      cases hdel
  | done r => exact hr.goOn hs (.of_eq rfl rfl) rfl rfl rfl fun _ _ heq => by cases heq
  | lookup name given hnone =>
      exact hr.goOn hs (.of_eq rfl rfl) rfl rfl rfl fun _ _ heq => by cases heq
  | close => exact hr.goOn hs (.of_eq rfl rfl) rfl rfl rfl fun _ _ heq => by cases heq

theorem handleStep (hr : s.Rooted path) (hs : s.Ok) (hget : s.handles[h]? = some hd)
    (hstep : HandleStep s h hd a t) : t.Rooted path := by
  have hsteady : Steady path s t := .handleStep hstep
  have hstores : ∀ st ∈ s.stores, st ∈ s.stores ∨ st.pc.deletes = false ∧
      ∀ o pc, st.pc ≠ .ctor o pc := fun _ hmem => .inl hmem
  cases hstep with
  | refused => exact hr
  | started payloads w hfree hbegin =>
      obtain ⟨-, -, -, -, -, rfl⟩ := Writer.begin_started hbegin
      exact hr.setHandle hs hget hsteady rfl hstores (fun _ hfile => hfile) rfl
  | io d f w fate hfile hw hret =>
      have hname : w.name = hd.w.name := by cases hw <;> rfl
      exact hr.setHandle hs hget hsteady rfl hstores (fun _ hfile => hfile) hname
  | closing hfree hw => exact hr.setHandle hs hget hsteady rfl hstores (fun _ hfile => hfile) rfl
  | updated d rows hclosing hfile hrows =>
      exact hr.setHandle hs hget hsteady rfl hstores (fun _ hfile => hfile) rfl
  | updateFailed hclosing =>
      exact hr.setHandle hs hget hsteady rfl hstores (fun _ hfile => hfile) rfl

theorem forkStep {p : Pid} (hr : s.Rooted path) (hs : s.Ok) : (s.forkStep p).Rooted path := by
  refine hr.ofHandles hs (.of_dir rfl rfl fun _ _ => LockFs.ino_fork) ?_ ?_
  · intro hd' hmem d hfile
    rcases List.mem_append.mp hmem with hmem | hmem
    · exact ⟨hd', hmem, hfile, rfl⟩
    · obtain ⟨hd, hmem₀, rfl⟩ := List.mem_map.mp hmem
      by_cases hp : hd.pid = p
      · rw [if_pos hp] at hfile ⊢
        exact ⟨hd, hmem₀, hfile, rfl⟩
      · rw [if_neg hp] at hfile
        cases hfile
  · intro st' hmem
    rcases List.mem_append.mp hmem with hmem | hmem
    · exact .inl hmem
    · obtain ⟨st, -, rfl⟩ := List.mem_map.mp hmem
      right
      split
      · simp only [Store.forked]
        split <;> exact ⟨rfl, fun _ _ heq => by cases heq⟩
      · exact ⟨rfl, fun _ _ heq => by cases heq⟩

theorem exitStep {p : Pid} (hr : s.Rooted path) (hs : s.Ok) : (s.exitStep p).Rooted path := by
  refine hr.ofHandles hs (.of_dir rfl rfl fun _ _ => LockFs.ino_exit) ?_ ?_
  · intro hd' hmem d hfile
    obtain ⟨hd, hmem₀, rfl⟩ := List.mem_map.mp hmem
    by_cases hp : hd.pid = p
    · rw [if_pos hp] at hfile
      cases hfile
    · rw [if_neg hp] at hfile ⊢
      exact ⟨hd, hmem₀, hfile, rfl⟩
  · intro st' hmem
    obtain ⟨st, hmem₀, rfl⟩ := List.mem_map.mp hmem
    split
    · exact .inr ⟨rfl, fun _ _ heq => by cases heq⟩
    · exact .inl hmem₀

/-- Every step but a `delete` keeps the invariant, if its unlink finds no row. -/
theorem step (hinj : Function.Injective path) (hr : s.Rooted path) (hs : s.Ok)
    (hdel : a.isDelete = false) (horphan : s.orphanUnlink path a = true)
    (hstep : Step path s a t) : t.Rooted path := by
  cases hstep with
  | spawn => exact ⟨hr.handle, hr.ctor, hr.quiet⟩
  | newStore p hlive =>
      refine hr.ofHandles hs (.of_eq rfl rfl) (fun hd hmem d hfile => ⟨hd, hmem, hfile, rfl⟩) ?_
      intro st hmem
      rcases List.mem_append.mp hmem with hmem | hmem
      · exact .inl hmem
      · rw [List.mem_singleton.mp hmem]
        exact .inr ⟨rfl, fun _ _ heq => by cases heq⟩
  | call a k st t hk hidle hcall => exact hr.callStep hs hdel hcall
  | sys k st out t hk hsys => exact hr.sysStep hinj hs hk horphan hsys
  | handle a h hd t hget hhandle => exact hr.handleStep hs hget hhandle
  | fork p hlive => exact hr.forkStep hs
  | exit p hlive => exact hr.exitStep hs
  | powerLoss cell loss =>
      refine ⟨?_, ?_, ?_⟩
      · intro hd' hmem d hfile
        obtain ⟨hd, -, rfl⟩ := List.mem_map.mp hmem
        cases hfile
      · intro st' hmem o pc hpc
        obtain ⟨st, -, rfl⟩ := List.mem_map.mp hmem
        cases hpc
      · intro st' hmem
        obtain ⟨st, -, rfl⟩ := List.mem_map.mp hmem
        rfl

/-- Every step but a `delete` and a power loss is steady. -/
theorem steady (hinj : Function.Injective path) (hr : s.Rooted path)
    (hpower : a.isPowerLoss = false) (horphan : s.orphanUnlink path a = true)
    (hstep : Step path s a t) : Steady path s t := by
  cases hstep with
  | spawn => exact .of_eq rfl rfl
  | newStore p hlive => exact .of_eq rfl rfl
  | call a k st t hk hidle hcall => cases hcall <;> exact .of_eq rfl rfl
  | sys k st out t hk hsys =>
      exact .sysStep hinj hk (hr.quiet st (List.mem_of_getElem? hk)) horphan hsys
  | handle a h hd t hget hhandle => exact .handleStep hhandle
  | fork p hlive => exact .of_dir rfl rfl fun _ _ => LockFs.ino_fork
  | exit p hlive => exact .of_dir rfl rfl fun _ _ => LockFs.ino_exit
  | powerLoss cell loss => cases hpower

/-- What a constructor scans is what it has open. -/
theorem scansOpen (hr : s.Rooted path) : s.ScansOpen path := by
  intro k st o d owner size i hk hpc hcur
  have hroot := ((hr.ctor st (List.mem_of_getElem? hk) o _ hpc).2 d rfl).2
  exact Option.some.inj (hcur.symm.trans hroot)

end Rooted

end World

end Durastream

import Durastream.Lib.LockFrame
import Durastream.Store.Sequential

/-!
# What a method does to the directory

Two parts that methods share, each run call by call to its end.  `purge` is the
unlink under the lock of the log, in `create` and `delete`; `acquire` is
`DurableStream.__init__` where the lock is free.  `mid` is the world while Store
`k` is in the middle of a method: only the directory and the place have changed.
-/

namespace Durastream

namespace World

/-- The world in the middle of a method of Store `k`. -/
def mid (s : World) (k : Sid) (st : Store) (fs : LockFs (List Char) UInt8) (pc : StorePc) : World :=
  { s with fs := fs, stores := s.stores.set k { st with pc := pc } }

/-- The world with a new row, inserted when `nextIno` is the next number of a file. -/
def withRow (s : World) (name : Name) (contentType : ContentType) (nextIno : Nat) : World :=
  { s with
    rows := s.rows.set name ⟨contentType, false⟩
    history := .inserted name nextIno :: s.history }

/-- The log of a path is gone, and nothing is left open. -/
structure Purged (q : List Char) (fs fs' : LockFs (List Char) UInt8) : Prop where
  frame : fs.Frame (some q) fs.descs.length fs'
  tidy : fs'.Tidy
  cur : (fs'.dir q).cur = none
  closed : ∀ d, fs.descs.length ≤ d → fs'.refs d = []

/-- Process `p` has the log of a path open as `d`, and nothing else that is new. -/
structure Acquired (q : List Char) (p : Pid) (fs fs' : LockFs (List Char) UInt8) (d : Did) :
    Prop where
  frame : fs.Frame (some q) fs.descs.length fs'
  tidy : fs'.Tidy
  cur : (fs'.dir q).cur = some (fs'.ino d)
  refs : fs'.refs d = [p]
  new : fs.descs.length ≤ d
  closed : ∀ e, fs.descs.length ≤ e → e ≠ d → fs'.refs e = []

/-- Cutting and syncing the log opens nothing. -/
theorem Acquired.setFile {q : List Char} {p : Pid} {fs fs' : LockFs (List Char) UInt8} {d : Did}
    (h : Acquired q p fs fs' d) (f : CrashFile UInt8) :
    Acquired q p fs (fs'.setFile (fs'.ino d) f) d :=
  ⟨h.frame.trans (.setFile h.tidy.unshared h.cur f), h.tidy.setFile f, h.cur, h.refs, h.new,
    h.closed⟩

/-- The log is opened, made if there is none, and locked. -/
theorem acquired_lock {q : List Char} {p : Pid} {fs : LockFs (List Char) UInt8} (htidy : fs.Tidy) :
    Acquired q p fs ((fs.openCreate p q).lock fs.descs.length) fs.descs.length := by
  have hlen : (fs.openCreate p q).descs.length = fs.descs.length + 1 := LockFs.descs_openCreate
  have hframe : fs.Frame (some q) fs.descs.length (fs.openCreate p q) :=
    .openCreate htidy.numbered (Nat.le_refl _)
  refine ⟨hframe.trans .lock, htidy.openCreate.lock ?_, LockFs.cur_openCreate_self,
    LockFs.refs_openCreate_self, Nat.le_refl _, ?_⟩
  · rw [hlen]
    exact Nat.lt_succ_self _
  · intro e he hne
    have hnone : (fs.openCreate p q).refs e = [] := LockFs.refs_of_length_le (by
      rw [hlen]
      exact Nat.lt_of_le_of_ne he fun heq => hne heq.symm)
    exact hnone

variable {path : Name → List Char} {s : World} {k : Sid} {st : Store}
  {fs fs' : LockFs (List Char) UInt8} {pc pc' : StorePc} {name : Name} {why : Purpose}
  {o : Opening}

@[simp] theorem fs_mid : (s.mid k st fs pc).fs = fs := rfl

theorem stores_mid (hk : k < s.stores.length) :
    (s.mid k st fs pc).stores[k]? = some { st with pc := pc } :=
  List.getElem?_set_self hk

theorem step_mid {out : Outcome} (hk : k < s.stores.length) :
    step path (s.mid k st fs pc) (.sys k out) =
      (s.mid k st fs pc).sysStep path k { st with pc := pc } out := by
  simp only [step, stores_mid hk, Option.bind_some]

/-- From one place of a method to the next. -/
theorem goto_mid :
    ((s.mid k st fs pc).setFs fs').goto k { st with pc := pc } pc' = s.mid k st fs' pc' := by
  simp only [mid, setFs, goto, setStore, List.set_set]

/-- A method ends. -/
theorem finish_mid {r : Except Error (Option Hid)} :
    (s.mid k st fs pc).finish k { st with pc := pc } r = (s.setFs fs).finish k st r := by
  simp only [mid, setFs, finish, setStore, List.set_set]

/-- A method raises and has nothing open. -/
theorem fail_mid {e : Error} (hdesc : pc.desc = none) :
    (s.mid k st fs pc).fail k { st with pc := pc } e = (s.setFs fs).finish k st (.error e) := by
  rw [fail, hdesc]
  exact finish_mid

/-- A method raises and closes what it has open. -/
theorem fail_mid_desc {e : Error} {d : Did} (hdesc : pc.desc = some d) :
    (s.mid k st fs pc).fail k { st with pc := pc } e =
      (s.setFs (fs.close st.pid d)).finish k st (.error e) := by
  rw [fail, hdesc]
  simp only [closeDesc, mid, setFs, finish, setStore, List.set_set]

/-- The constructor returns in the middle of a method. -/
theorem openedStream_mid {d : Did} {owner : Bool} {index : List Nat} :
    (s.mid k st fs pc).openedStream k { st with pc := pc } o d owner index =
      (s.setFs fs).openedStream k st o d owner index := by
  simp only [mid, setFs, openedStream, List.set_set]

/-- From one place to the next, where the directory stays. -/
theorem goto_mid_same :
    (s.mid k st fs pc).goto k { st with pc := pc } pc' = s.mid k st fs pc' := by
  simp only [mid, goto, setStore, List.set_set]

/-- What the lookup of the row leads to. -/
theorem lookup_mid {given : Option (Option ContentType)} :
    (s.mid k st fs (.lookup name given)).sysStep path k { st with pc := .lookup name given } .ok =
      if st.metaOpen = true then
        match s.rows.get name, given with
        | some row, given =>
            match checkType name row.contentType given.join with
            | some e => some ((s.setFs fs).finish k st (.error e))
            | none =>
                some (s.mid k st fs
                  (.ctor ⟨name, row.contentType, row.closed, false, s.history⟩ .openAppend))
        | none, some given =>
            some (s.mid k st fs (.probe name (.create (given.getD defaultContentType) s.history)))
        | none, none => some ((s.setFs fs).finish k st (.error (.keyError name)))
      else some ((s.setFs fs).finish k st (.error .storeClosed)) := by
  have hraise : ∀ e, (s.mid k st fs (.lookup name given)).fail k
      { st with pc := .lookup name given } e = (s.setFs fs).finish k st (.error e) :=
    fun e => fail_mid rfl
  simp only [sysStep, hraise, goto_mid_same, ite_not]
  rfl

/-- The INSERT of a name that has no row. -/
theorem insert_mid {contentType : ContentType} {asked : List Event} (hmeta : st.metaOpen = true)
    (hrow : s.rows.get name = none) :
    (s.mid k st fs (.insert name contentType asked)).sysStep path k
        { st with pc := .insert name contentType asked } .ok =
      some ((s.withRow name contentType fs.nextIno).mid k st fs
        (.ctor ⟨name, contentType, false, true, asked⟩ .openAppend)) := by
  have hrow' : (s.mid k st fs (.insert name contentType asked)).rows.get name = none := hrow
  have hgoto : ((s.withRow name contentType fs.nextIno).mid k st fs
        (.insert name contentType asked)).goto k { st with pc := .insert name contentType asked }
      (.ctor ⟨name, contentType, false, true, asked⟩ .openAppend) =
      (s.withRow name contentType fs.nextIno).mid k st fs
        (.ctor ⟨name, contentType, false, true, asked⟩ .openAppend) := goto_mid_same
  simp only [sysStep, hrow']
  rw [if_neg (not_not.mpr hmeta)]
  exact congrArg some hgoto

theorem Succeeds.mid (hk : k < s.stores.length)
    (hsys : (s.mid k st fs pc).sysStep path k { st with pc := pc } .ok =
      some (((s.mid k st fs pc).setFs fs').goto k { st with pc := pc } pc')) :
    Succeeds path k 1 (s.mid k st fs pc) (s.mid k st fs' pc') := by
  rw [goto_mid] at hsys
  exact .one (stores_mid hk) hsys

section Lookup

variable {given : Option (Option ContentType)} {row : Row} {e : Error}

theorem Succeeds.lookup_closed (hk : k < s.stores.length) (hmeta : ¬st.metaOpen = true) :
    Succeeds path k 1 (s.mid k st fs (.lookup name given))
      ((s.setFs fs).finish k st (.error .storeClosed)) := by
  refine .one (stores_mid hk) ?_
  rw [lookup_mid, if_neg hmeta]

/-- There is a row, of another content type. -/
theorem Succeeds.lookup_mismatch (given : Option (Option ContentType)) (hk : k < s.stores.length)
    (hmeta : st.metaOpen = true) (hrow : s.rows.get name = some row)
    (htype : checkType name row.contentType given.join = some e) :
    Succeeds path k 1 (s.mid k st fs (.lookup name given))
      ((s.setFs fs).finish k st (.error e)) := by
  refine .one (stores_mid hk) ?_
  rw [lookup_mid, if_pos hmeta, hrow]
  simp only [htype]

theorem Succeeds.lookup_found (given : Option (Option ContentType)) (hk : k < s.stores.length)
    (hmeta : st.metaOpen = true) (hrow : s.rows.get name = some row)
    (htype : checkType name row.contentType given.join = none) :
    Succeeds path k 1 (s.mid k st fs (.lookup name given))
      (s.mid k st fs
        (.ctor ⟨name, row.contentType, row.closed, false, s.history⟩ .openAppend)) := by
  refine .one (stores_mid hk) ?_
  rw [lookup_mid, if_pos hmeta, hrow]
  simp only [htype]

/-- There is no row, and `create` goes on. -/
theorem Succeeds.lookup_missing (st : Store) (given : Option ContentType) (hk : k < s.stores.length)
    (hmeta : st.metaOpen = true) (hrow : s.rows.get name = none) :
    Succeeds path k 1 (s.mid k st fs (.lookup name (some given)))
      (s.mid k st fs (.probe name (.create (given.getD defaultContentType) s.history))) := by
  refine .one (stores_mid hk) ?_
  rw [lookup_mid, if_pos hmeta, hrow]

/-- There is no row, and `open` raises. -/
theorem Succeeds.lookup_keyError (hk : k < s.stores.length) (hmeta : st.metaOpen = true)
    (hrow : s.rows.get name = none) :
    Succeeds path k 1 (s.mid k st fs (.lookup name none))
      ((s.setFs fs).finish k st (.error (.keyError name))) := by
  refine .one (stores_mid hk) ?_
  rw [lookup_mid, if_pos hmeta, hrow]

end Lookup

/-- `_lock_for_removal`, `_remove_if_exists` and the close of the guard. -/
theorem Succeeds.purge (st : Store) (why : Purpose) (hk : k < s.stores.length) (htidy : fs.Tidy)
    (hfree : fs.Unlocked (path name)) :
    ∃ n ≤ 4, ∃ fs' removed,
      Succeeds path k n (s.mid k st fs (.probe name why))
        (s.mid k st fs' (purged name why (some removed))) ∧
        Purged (path name) fs fs' := by
  cases hcur : (fs.dir (path name)).cur with
  | none =>
      have hprobe : Succeeds path k 1 (s.mid k st fs (.probe name why))
          (s.mid k st fs (.unlink name why none)) :=
        .mid hk (by simp [sysStep, World.mid, hcur, setFs])
      have hunlink : Succeeds path k 1 (s.mid k st fs (.unlink name why none))
          (s.mid k st fs (purged name why (some false))) :=
        .mid hk (by simp [sysStep, World.mid, hcur, setFs, unlinked])
      exact ⟨2, by decide, fs, false, hprobe.trans hunlink, .refl _ _ _, htidy, hcur,
        fun d hd => LockFs.refs_of_length_le hd⟩
  | some i =>
      let opened := fs.openFile st.pid i
      let d := fs.descs.length
      have hopened : opened.Tidy := htidy.openFile ((htidy.numbered.entry (path name)).cur i hcur)
      have hlen : opened.descs.length = d + 1 := by simp [opened, d, LockFs.openFile]
      have hcan : opened.canLock d = true := by
        refine LockFs.canLock_of fun e hlock => ?_
        rw [LockFs.ino_openFile_self] at hlock
        rw [LockFs.refs_openFile (htidy.locked i e hlock).2]
        exact hfree i e hcur hlock
      have hprobe : Succeeds path k 1 (s.mid k st fs (.probe name why))
          (s.mid k st opened (.probeLock name why d)) :=
        .mid hk (by simp [sysStep, World.mid, hcur, opened, d])
      have hlock : Succeeds path k 1 (s.mid k st opened (.probeLock name why d))
          (s.mid k st (opened.lock d) (.unlink name why (some d))) :=
        .mid hk (by simp [sysStep, World.mid, hcan])
      have hunlink : Succeeds path k 1 (s.mid k st (opened.lock d) (.unlink name why (some d)))
          (s.mid k st ((opened.lock d).unlink (path name)) (.closeGuard name why d (some true))) :=
        .mid hk (by simp [sysStep, World.mid, LockFs.lock, opened, LockFs.openFile, hcur,
          unlinked])
      have hclose : Succeeds path k 1
          (s.mid k st ((opened.lock d).unlink (path name)) (.closeGuard name why d (some true)))
          (s.mid k st (((opened.lock d).unlink (path name)).close st.pid d)
            (purged name why (some true))) :=
        .mid hk (by simp [sysStep, World.mid, setFs])
      refine ⟨4, Nat.le_refl _, _, true, ((hprobe.trans hlock).trans hunlink).trans hclose, ?_, ?_,
        ?_, ?_⟩
      · have hopen : fs.Frame (some (path name)) d opened := .openFile (Nat.le_refl _)
        exact ((hopen.trans .lock).trans .unlink).trans (.close (Nat.le_refl _))
      · have hlt : d < opened.descs.length := by
          rw [hlen]
          exact Nat.lt_succ_self _
        exact (hopened.lock hlt).unlink.close
      · exact LockFs.cur_unlink_self
      · intro e he
        rcases Nat.eq_or_lt_of_le he with rfl | hlt
        · exact LockFs.refs_close_self LockFs.refs_openFile_self
        · rw [LockFs.refs_close_of_ne (Nat.ne_of_gt hlt)]
          have hnone : opened.refs e = [] := LockFs.refs_of_length_le (by rw [hlen]; exact hlt)
          exact hnone

/-- The first part of `DurableStream.__init__`: the log is open and locked, and its
size is known. -/
theorem Succeeds.locked (hk : k < s.stores.length) (htidy : fs.Tidy)
    (hfree : fs.Unlocked (path o.name)) :
    Succeeds path k 3 (s.mid k st fs (.ctor o .openAppend))
      (s.mid k st ((fs.openCreate st.pid (path o.name)).lock fs.descs.length)
        (.ctor o (.scan fs.descs.length true (fs.contents (path o.name)).length))) := by
  have hcan := LockFs.canLock_openCreate (p := st.pid) htidy hfree
  have hdata : ((fs.openCreate st.pid (path o.name)).file fs.descs.length).data =
      fs.contents (path o.name) := by
    rw [LockFs.file, ← LockFs.contents_of_cur LockFs.cur_openCreate_self]
    exact LockFs.contents_openCreate
  have hopen : Succeeds path k 1 (s.mid k st fs (.ctor o .openAppend))
      (s.mid k st (fs.openCreate st.pid (path o.name)) (.ctor o (.lock fs.descs.length))) :=
    .mid hk rfl
  have hlock : Succeeds path k 1
      (s.mid k st (fs.openCreate st.pid (path o.name)) (.ctor o (.lock fs.descs.length)))
      (s.mid k st ((fs.openCreate st.pid (path o.name)).lock fs.descs.length)
        (.ctor o (.stat fs.descs.length true))) :=
    .mid hk (by simp [sysStep, ctorStep, World.mid, hcan])
  have hstat : Succeeds path k 1
      (s.mid k st ((fs.openCreate st.pid (path o.name)).lock fs.descs.length)
        (.ctor o (.stat fs.descs.length true)))
      (s.mid k st ((fs.openCreate st.pid (path o.name)).lock fs.descs.length)
        (.ctor o (.scan fs.descs.length true (fs.contents (path o.name)).length))) := by
    refine .mid hk ?_
    rw [← hdata]
    rfl
  exact (hopen.trans hlock).trans hstat

/-- The second part: the log is scanned, and a torn tail is cut off. -/
theorem Succeeds.scanned (st : Store) (o : Opening) (hk : k < s.stores.length) {d : Did}
    {data : Bytes}
    (hcur : (fs.dir (path o.name)).cur = some (fs.ino d)) (hdata : (fs.file d).data = data) :
    ∃ n ≤ 3, ∃ fs',
      Succeeds path k n (s.mid k st fs (.ctor o (.scan d true data.length)))
        ((s.setFs fs').openedStream k st o d true (marks (records data))) ∧
      (fs'.file d).data = frames (records data) ∧
      (fs' = fs ∨ ∃ f g, fs' = (fs.setFile (fs.ino d) f).setFile (fs.ino d) g) := by
  have hfront := frames_records_isPrefix data
  have hscan : Durastream.scan (fs.files (fs.ino d)).data data.length = marks (records data) := by
    have hdata' : (fs.files (fs.ino d)).data = data := hdata
    rw [hdata', scan_length]
  have hscanned : (s.mid k st fs (.ctor o (.scan d true data.length))).sysStep path k
      { st with pc := .ctor o (.scan d true data.length) } .ok =
        some (if lastMark (marks (records data)) ≠ data.length then
          s.mid k st fs (.ctor o (.truncate d (marks (records data))))
        else (s.setFs fs).openedStream k st o d true (marks (records data))) := by
    have hgoto : (s.mid k st fs (.ctor o (.scan d true data.length))).goto k
        { st with pc := .ctor o (.scan d true data.length) }
        (.ctor o (.truncate d (marks (records data)))) =
          s.mid k st fs (.ctor o (.truncate d (marks (records data)))) := goto_mid_same
    simp only [sysStep, ctorStep, fs_mid, hcur, hscan, hgoto, openedStream_mid, true_and]
  by_cases hend : lastMark (marks (records data)) = data.length
  · -- there is no torn tail
    rw [if_neg (not_not.mpr hend)] at hscanned
    refine ⟨1, by decide, fs, .one (stores_mid hk) hscanned, ?_, .inl rfl⟩
    rw [lastMark_marks] at hend
    rw [hdata]
    exact (hfront.eq_of_length hend).symm
  · rw [if_pos hend] at hscanned
    let cut := fs.setFile (fs.ino d) ((fs.file d).truncate (lastMark (marks (records data))))
    let synced := cut.setFile (cut.ino d) (cut.file d).sync
    have hscan₁ : Succeeds path k 1 (s.mid k st fs (.ctor o (.scan d true data.length)))
        (s.mid k st fs (.ctor o (.truncate d (marks (records data))))) :=
      .one (stores_mid hk) hscanned
    have hcut : Succeeds path k 1 (s.mid k st fs (.ctor o (.truncate d (marks (records data)))))
        (s.mid k st cut (.ctor o (.sync d (marks (records data))))) :=
      .mid hk rfl
    have hsync : Succeeds path k 1 (s.mid k st cut (.ctor o (.sync d (marks (records data)))))
        ((s.setFs synced).openedStream k st o d true (marks (records data))) := by
      refine .one (stores_mid hk) ?_
      have hopened : (s.mid k st synced (.ctor o (.sync d (marks (records data))))).openedStream k
          { st with pc := .ctor o (.sync d (marks (records data))) } o d true
            (marks (records data)) =
          (s.setFs synced).openedStream k st o d true (marks (records data)) := openedStream_mid
      rw [← hopened]
      rfl
    refine ⟨3, Nat.le_refl _, synced, (hscan₁.trans hcut).trans hsync, ?_, .inr ⟨_, _, rfl⟩⟩
    subst hdata
    rw [LockFs.file_setFile_self, CrashFile.data_sync, LockFs.file_setFile_self]
    exact (recovered_cut rfl).2.2

/-- `DurableStream.__init__` of the only one that has the log open. -/
theorem Succeeds.acquire (st : Store) (o : Opening) (hk : k < s.stores.length) (htidy : fs.Tidy)
    (hfree : fs.Unlocked (path o.name)) :
    ∃ n ≤ 6, ∃ fs' d,
      Succeeds path k n (s.mid k st fs (.ctor o .openAppend))
        ((s.setFs fs').openedStream k st o d true (marks (records (fs.contents (path o.name))))) ∧
      Acquired (path o.name) st.pid fs fs' d ∧
      (fs'.file d).data = frames (records (fs.contents (path o.name))) := by
  have hlocked := acquired_lock (q := path o.name) (p := st.pid) htidy
  have hdata : (((fs.openCreate st.pid (path o.name)).lock fs.descs.length).file
      fs.descs.length).data = fs.contents (path o.name) := by
    rw [LockFs.file, ← LockFs.contents_of_cur hlocked.cur]
    exact LockFs.contents_openCreate
  obtain ⟨n, hn, fs', hscanned, hdata', hfs⟩ := Succeeds.scanned st o hk hlocked.cur hdata
  refine ⟨3 + n, Nat.add_le_add_left hn 3, fs', fs.descs.length,
    (Succeeds.locked hk htidy hfree).trans hscanned, ?_, hdata'⟩
  rcases hfs with rfl | ⟨f, g, rfl⟩
  · exact hlocked
  · exact (hlocked.setFile f).setFile g

end World

end Durastream

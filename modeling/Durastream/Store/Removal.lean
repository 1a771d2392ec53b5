import Durastream.Lib.Paths
import Durastream.Store.Linked
import Durastream.Store.Methods

/-!
# What `delete` removes

`create` checks the name; `delete` takes any string and removes the file to which
`os.path.join(<root>/streams, name + ".log")` leads.  For a name without a slash this
is an entry of the streams directory.  A name with a slash leads elsewhere, as `../x`
and `/etc/x` do, or to the log of another stream, as `./a` does.

`World.Spares` says what a `delete` must leave alone: rows, logs and handles of the
other names, and every file but its own log.  `delete_spares_iff` says when it does.
The rows, `_open` and the handles have the name as their key, so these are left alone
by every `delete`; what counts is the path.
-/

namespace Durastream

/-! ## Paths of logs -/

/-- The directory of streams of a Store with this root. -/
def streamsDir (root : List Char) : List Char :=
  Posix.join root ['s', 't', 'r', 'e', 'a', 'm', 's']

/-- A tree of directories, with a Store's root in it. -/
structure Tree where
  isDir : List Posix.Part → Bool
  cwd : List Posix.Part
  root : List Char
  /-- `_streams_dir`. -/
  streams : List Posix.Part
  /-- `__init__` has made it. -/
  made : Posix.resolveDir isDir cwd (streamsDir root) = some streams

namespace Tree

variable (tr : Tree) {name : Name}

/-- `_path`. -/
def logPath (name : Name) : List Char := Posix.join (streamsDir tr.root) (logEntry name)

/-- The absolute path of the file that `_path` leads to, and no path if it leads
nowhere. -/
def path (name : Name) : List Char :=
  (Posix.resolve tr.isDir tr.cwd (tr.logPath name)).elim [] Posix.render

/-- The absolute path of the entry `<name>.log` of the streams directory. -/
def ownLog (name : Name) : List Char := Posix.render (tr.streams ++ [logEntry name])

theorem not_dots : ¬Posix.Dots (logEntry name) := by
  have hlen : 4 ≤ (logEntry name).length := by simp [logEntry]
  rintro (h | h | h) <;> simp [h] at hlen

/-- The log of a name without a slash is directly inside the streams directory. -/
theorem path_of_plain (hplain : '/' ∉ name) : tr.path name = tr.ownLog name := by
  have hentry : '/' ∉ logEntry name := by simp [logEntry, hplain]
  have hrel : (logEntry name).head? ≠ some '/' := fun h => hentry (List.mem_of_head? h)
  rw [path, logPath, Posix.resolve_join tr.made hrel, Posix.fileIn_single hentry not_dots]
  rfl

/-- Two names without a slash never share a log. -/
theorem path_injOn_plain {m n : Name} (hm : '/' ∉ m) (hn : '/' ∉ n) (h : tr.path m = tr.path n) :
    m = n := by
  rw [path_of_plain tr hm, path_of_plain tr hn] at h
  exact logEntry_injective (Posix.render_concat_injective h)

end Tree

/-- The names that `create` accepts have no slash. -/
theorem plain_of_checkName {name : Name} (h : checkName name = .ok name) : '/' ∉ name := by
  unfold checkName at h
  split at h
  · next hvalid =>
      intro hmem
      have hchar := List.all_eq_true.mp hvalid.2 '/' hmem
      revert hchar
      decide
  · cases h

namespace World

/-- `delete` of `n` by this Store gets as far as removing a file: there is one at the
path, and its lock is the Store's or free. -/
def Removes (path : Name → List Char) (s : World) (st : Store) (n : Name) : Prop :=
  st.metaOpen = true ∧ ∃ i, (s.fs.dir (path n)).cur = some i ∧
    ((∃ h hd, st.opened.get n = some h ∧ s.handles[h]? = some hd ∧ hd.writable = true) ∨
      (s.fs.openFile st.pid i).canLock s.fs.descs.length = true)

/-- The bytes of the log of a stream, if there is one. -/
def log (tr : Tree) (s : World) (name : Name) : Option Bytes :=
  (s.fs.dir (tr.path name)).cur.map fun i => (s.fs.files i).data

/-- From `s` to `t`, nothing has happened to streams other than `n`, nor to any file but
the entry `<n>.log` of the streams directory. -/
structure Spares (tr : Tree) (n : Name) (s t : World) : Prop where
  row : ∀ m, m ≠ n → t.rows.get m = s.rows.get m
  log : ∀ m, m ≠ n → s.rows.get m ≠ none → t.log tr m = s.log tr m
  opened : ∀ (j : Sid) (st : Store), s.stores[j]? = some st →
    ∃ st', t.stores[j]? = some st' ∧ ∀ m, m ≠ n → st'.opened.get m = st.opened.get m
  handle : ∀ (h : Hid) (hd : Handle), s.handles[h]? = some hd → hd.w.name ≠ n →
    t.handles[h]? = some hd
  removed : ∀ q, (s.fs.dir q).cur ≠ none → (t.fs.dir q).cur = none → '/' ∉ n ∧ q = tr.ownLog n

variable {path : Name → List Char} {s t u : World} {k : Sid} {st st' : Store} {n : Name}
  {out : Outcome}

/-! ## A `delete` in progress -/

/-- `why` is the purpose of a `delete` of `n`. -/
def OwnPurpose (st : Store) (n : Name) (why : Purpose) : Prop :=
  ∃ own, why = .delete own ∧ ∀ h, own = some h → st.opened.get n = some h

/-- Where a `delete` of `n` called in `s` may stand. -/
def Deletes (path : Name → List Char) (s : World) (st : Store) (n : Name)
    (fs : LockFs (List Char) UInt8) : StorePc → Prop
  | .idle => True
  | .probe name why => name = n ∧ OwnPurpose st n why ∧ st.metaOpen = true ∧ fs = s.fs
  | .probeLock name why d =>
      name = n ∧ OwnPurpose st n why ∧ st.metaOpen = true ∧ d = s.fs.descs.length ∧
        ∃ i, (s.fs.dir (path n)).cur = some i ∧ fs = s.fs.openFile st.pid i
  | .unlink name why _ =>
      name = n ∧ OwnPurpose st n why ∧ ∀ i, (fs.dir (path n)).cur = some i → s.Removes path st n
  | .closeGuard name why _ _ => name = n ∧ OwnPurpose st n why
  | .delClose name h _ => name = n ∧ st.opened.get n = some h
  | .delDirSync name => name = n
  | .delRow name => name = n
  | _ => False

/-- What a `delete` of `n` in Store `k`, called in `s`, has done so far. -/
structure InDelete (path : Name → List Char) (s : World) (k : Sid) (st : Store) (n : Name)
    (t : World) : Prop where
  row : ∀ m, m ≠ n → t.rows.get m = s.rows.get m
  files : t.fs.files = s.fs.files
  entry : ∀ q, (t.fs.dir q).cur = (s.fs.dir q).cur ∨ q = path n ∧ s.Removes path st n
  handle : ∀ h, st.opened.get n ≠ some h → t.handles[h]? = s.handles[h]?
  store : ∃ st', t.stores = s.stores.set k st' ∧ st'.pid = st.pid ∧
    (∀ m, m ≠ n → st'.opened.get m = st.opened.get m) ∧ Deletes path s st n t.fs st'.pc

namespace InDelete

theorem goOn (hd : InDelete path s k st n t) (ht : t.stores = s.stores.set k st')
    {st'' : Store} (hstores : u.stores = t.stores.set k st'') (hpid : st''.pid = st.pid)
    (hopened : ∀ m, m ≠ n → st''.opened.get m = st.opened.get m)
    (hpc : Deletes path s st n u.fs st''.pc) (hrow : ∀ m, m ≠ n → u.rows.get m = t.rows.get m)
    (hfiles : u.fs.files = t.fs.files)
    (hentry : ∀ q, (u.fs.dir q).cur = (t.fs.dir q).cur ∨ q = path n ∧ s.Removes path st n)
    (hhandle : ∀ h, st.opened.get n ≠ some h → u.handles[h]? = t.handles[h]?) :
    InDelete path s k st n u := by
  refine ⟨fun m hm => (hrow m hm).trans (hd.row m hm), hfiles.trans hd.files, fun q => ?_,
    fun h hne => (hhandle h hne).trans (hd.handle h hne), st'', ?_, hpid, hopened, hpc⟩
  · rcases hentry q with heq | hremoves
    · rw [heq]
      exact hd.entry q
    · exact .inr hremoves
  · rw [hstores, ht, List.set_set]

/-- The method goes on, with the same entries and files. -/
theorem moves (hd : InDelete path s k st n t) (ht : t.stores = s.stores.set k st')
    (hpid : st'.pid = st.pid) (hopened : ∀ m, m ≠ n → st'.opened.get m = st.opened.get m)
    {fs : LockFs (List Char) UInt8} {pc : StorePc} (hdir : ∀ q, (fs.dir q).cur = (t.fs.dir q).cur)
    (hfiles : fs.files = t.fs.files) (hpc : Deletes path s st n fs pc) :
    InDelete path s k st n ((t.setFs fs).goto k st' pc) :=
  hd.goOn ht rfl hpid hopened hpc (fun _ _ => rfl) hfiles (fun q => .inl (hdir q)) fun _ _ => rfl

theorem deletes_purged {own : Option Hid} {removed : Bool} {fs : LockFs (List Char) UInt8}
    (hown : ∀ h, own = some h → st.opened.get n = some h) :
    Deletes path s st n fs (purged n (.delete own) (some removed)) := by
  cases own with
  | none => cases removed <;> exact rfl
  | some h => exact ⟨rfl, hown h rfl⟩

/-- After the unlink. -/
theorem deletes_unlinked {why : Purpose} {guard : Option Did} {removed : Option Bool}
    {fs : LockFs (List Char) UInt8} (hwhy : OwnPurpose st n why) :
    Deletes path s st n fs (unlinked n why guard removed) := by
  obtain ⟨own, rfl, hown⟩ := hwhy
  cases guard with
  | some d => exact ⟨rfl, own, rfl, hown⟩
  | none =>
      cases removed with
      | none => trivial
      | some removed =>
          exact deletes_purged hown

/-- One call of the file system or of SQLite. -/
theorem sysStep (hd : InDelete path s k st n t) (hk : t.stores[k]? = some st')
    (hstep : t.sysStep path k st' out = some u) : InDelete path s k st n u := by
  obtain ⟨st₀, ht, hpid, hopened, hpc⟩ := hd.store
  have hlt : k < s.stores.length := by
    have hlt := (List.getElem?_eq_some_iff.mp hk).1
    rwa [ht, List.length_set] at hlt
  have heq : st₀ = st' := by
    rw [ht, List.getElem?_set_self hlt] at hk
    exact Option.some.inj hk
  subst heq
  have hcases := sysStep_cases hstep
  generalize st₀.pc = pc at hpc hcases
  cases hcases with
  | failed _ e _ _ _ =>
      refine hd.goOn ht (stores_fail t k st₀ e) hpid hopened trivial (fun m _ => ?_) ?_
        (fun q => .inl ?_) fun h _ => ?_
      · rw [rows_fail]
      · exact files_closeDesc t _ _
      · exact congrArg (fun dir => (dir q).cur) (dir_closeDesc t _ _)
      · rw [handles_fail]
  | probed name why i hcur =>
      obtain ⟨rfl, hwhy, hmeta, hfs⟩ := hpc
      refine hd.moves ht hpid hopened (fun _ => rfl) rfl ⟨rfl, hwhy, hmeta, ?_, i, ?_, ?_⟩
      · rw [hfs]
      · rw [← hfs, hcur]
      · rw [hfs, hpid]
  | noLog name why hcur =>
      obtain ⟨rfl, hwhy, -, -⟩ := hpc
      refine hd.moves ht hpid hopened (fun _ => rfl) rfl ⟨rfl, hwhy, fun i hi => ?_⟩
      rw [hcur] at hi
      cases hi
  | guarded name why d hcan =>
      obtain ⟨rfl, hwhy, hmeta, rfl, i, hcur, hfs⟩ := hpc
      refine hd.moves ht hpid hopened (fun _ => rfl) rfl ⟨rfl, hwhy, fun _ _ => ?_⟩
      rw [hfs] at hcan
      exact ⟨hmeta, i, hcur, .inr hcan⟩
  | unlinked name why guard i hok hcur =>
      obtain ⟨rfl, hwhy, hremoves⟩ := hpc
      refine hd.goOn ht rfl hpid hopened (deletes_unlinked hwhy) (fun _ _ => rfl) rfl (fun q => ?_)
        fun _ _ => rfl
      by_cases hq : q = path name
      · exact .inr ⟨hq, hremoves i hcur⟩
      · exact .inl (LockFs.cur_unlink_of_ne hq)
  | kept name why guard removed hkept =>
      obtain ⟨rfl, hwhy, -⟩ := hpc
      exact hd.moves ht hpid hopened (fun _ => rfl) rfl (deletes_unlinked hwhy)
  | released name why d removed =>
      obtain ⟨rfl, own, rfl, hown⟩ := hpc
      refine hd.moves ht hpid hopened (fun _ => rfl) rfl ?_
      exact deletes_purged hown
  | raised name why d =>
      exact hd.goOn ht rfl hpid hopened trivial (fun _ _ => rfl) rfl (fun _ => .inl rfl)
        fun _ _ => rfl
  | delClosed name h removed hd' hget hfree =>
      obtain ⟨rfl, hown⟩ := hpc
      have hstores : ((t.closeFds h hd').setStore k { st₀ with
          opened := st₀.opened.erase name, pc := delNext name removed }).stores =
            t.stores.set k { st₀ with
              opened := st₀.opened.erase name, pc := delNext name removed } := by
        show (t.closeFds h hd').stores.set k _ = _
        rw [stores_closeFds]
      refine hd.goOn ht hstores hpid (fun m hm => ?_) ?_ (fun m _ => ?_) ?_ (fun q => .inl ?_)
        fun j hj => ?_
      · exact (Table.get_erase_of_ne _ hm).trans (hopened m hm)
      · cases removed <;> exact rfl
      · show (t.closeFds h hd').rows.get m = _
        rw [rows_closeFds]
      · exact files_closeDesc t _ _
      · exact congrArg (fun dir => (dir q).cur) (dir_closeDesc t _ _)
      · have hne : h ≠ j := fun heq => hj (heq ▸ hown)
        show (t.closeFds h hd').handles[j]? = _
        rw [handles_closeFds, List.getElem?_set_ne hne]
  | delDirSynced name =>
      obtain rfl := hpc
      exact hd.moves ht hpid hopened (fun _ => rfl) rfl rfl
  | deleted name =>
      obtain rfl := hpc
      refine hd.goOn ht rfl hpid hopened trivial (fun m hm => ?_) rfl (fun _ => .inl rfl)
        fun _ _ => rfl
      exact Table.get_erase_of_ne _ hm
  | _ => exact hpc.elim

/-- The call itself. -/
theorem called (hcall : s.call k st (.delete k n) = some t) :
    InDelete path s k st n t := by
  have hgoto : ∀ st', st'.pid = st.pid → st'.opened = st.opened → Deletes path s st n s.fs st'.pc →
      InDelete path s k st n (s.setStore k st') := by
    intro st' hpid hopened hpc
    exact ⟨fun _ _ => rfl, rfl, fun _ => .inl rfl, fun _ _ => rfl, st', rfl, hpid,
      fun _ _ => by rw [hopened], hpc⟩
  simp only [call] at hcall
  split at hcall
  · cases hcall
    exact hgoto _ rfl rfl trivial
  · next hopen =>
      have hmeta : st.metaOpen = true := by simpa using hopen
      split at hcall
      · next h hd hbind =>
          obtain ⟨h', hget, hmap⟩ := Option.bind_eq_some_iff.mp hbind
          obtain ⟨hd', hhandle, heq⟩ := Option.map_eq_some_iff.mp hmap
          cases heq
          have hown : OwnPurpose st n (.delete (some h)) :=
            ⟨some h, rfl, fun j hj => Option.some.inj hj ▸ hget⟩
          split at hcall
          · next hw =>
              cases hcall
              refine hgoto _ rfl rfl ⟨rfl, hown, fun i hcur => ?_⟩
              exact ⟨hmeta, i, hcur, .inl ⟨h, hd, hget, hhandle, hw⟩⟩
          · cases hcall
            exact hgoto _ rfl rfl ⟨rfl, hown, hmeta, rfl⟩
      · cases hcall
        exact hgoto _ rfl rfl ⟨rfl, ⟨none, rfl, fun h hh => by cases hh⟩, hmeta, rfl⟩

/-- Any number of calls. -/
theorem run {outs : List Outcome} (hd : InDelete path s k st n t)
    (hrun : Lts.run (World.step path) t (outs.map (.sys k)) = some u) :
    InDelete path s k st n u := by
  induction outs generalizing t with
  | nil =>
      cases hrun
      exact hd
  | cons out outs ih =>
      obtain ⟨v, hstep, hrest⟩ := Lts.run_cons_eq_some hrun
      obtain ⟨st', hk, hsys⟩ := Option.bind_eq_some_iff.mp hstep
      exact ih (hd.sysStep hk hsys) hrest

end InDelete

/-- A `delete` does nothing else, whatever becomes of its calls. -/
theorem inDelete_of_run {outs : List Outcome} (hidle : s.idleStore k = some st)
    (hrun : Lts.run (step path) s (.delete k n :: outs.map (.sys k)) = some t) :
    InDelete path s k st n t := by
  obtain ⟨u, hstep, hrest⟩ := Lts.run_cons_eq_some hrun
  simp only [step, hidle, Option.bind_some] at hstep
  exact (InDelete.called hstep).run hrest

/-- The unlink. -/
theorem step_unlink {fs : LockFs (List Char) UInt8} {why : Purpose} {guard : Option Did} {i : Nat}
    (hk : k < s.stores.length) (hcur : (fs.dir (path n)).cur = some i) :
    step path (s.mid k st fs (.unlink n why guard)) (.sys k .ok) =
      some (s.mid k st (fs.unlink (path n)) (unlinked n why guard (some true))) := by
  rw [step_mid hk]
  simp only [sysStep, fs_mid, hcur, goto_mid]

/-- A `delete` by the writer of the log unlinks it. -/
theorem run_unlink {fs : LockFs (List Char) UInt8} (st : Store) (why : Purpose) {i : Nat}
    (hk : k < s.stores.length) (hcur : (fs.dir (path n)).cur = some i) :
    ∃ t, Lts.run (step path) (s.mid k st fs (.unlink n why none)) ([.ok].map (.sys k)) = some t ∧
      (t.fs.dir (path n)).cur = none := by
  have hstep : step path (s.mid k st fs (.unlink n why none)) (.sys k .ok) =
      some (s.mid k st (fs.unlink (path n)) (unlinked n why none (some true))) :=
    step_unlink hk hcur
  refine ⟨s.mid k st (fs.unlink (path n)) (unlinked n why none (some true)), ?_,
    LockFs.cur_unlink_self⟩
  show Lts.run (step path) _ [.sys k .ok] = _
  rw [Lts.run_cons, hstep]
  rfl

/-- Another `delete` opens the log, locks it and unlinks it. -/
theorem run_probe (why : Purpose) {i : Nat} (hk : k < s.stores.length)
    (hcur : (s.fs.dir (path n)).cur = some i)
    (hcan : (s.fs.openFile st.pid i).canLock s.fs.descs.length = true) :
    ∃ t, Lts.run (step path) (s.mid k st s.fs (.probe n why)) ([.ok, .ok, .ok].map (.sys k)) =
      some t ∧ (t.fs.dir (path n)).cur = none := by
  let opened := s.fs.openFile st.pid i
  let d := s.fs.descs.length
  have hstep₁ : step path (s.mid k st s.fs (.probe n why)) (.sys k .ok) =
      some (s.mid k st opened (.probeLock n why d)) := by
    rw [step_mid hk]
    simp only [sysStep, fs_mid, hcur, goto_mid, opened, d]
  have hstep₂ : step path (s.mid k st opened (.probeLock n why d)) (.sys k .ok) =
      some (s.mid k st (opened.lock d) (.unlink n why (some d))) := by
    rw [step_mid hk]
    simp only [sysStep, fs_mid, opened, d, hcan, if_true, goto_mid]
  have hstep₃ : step path (s.mid k st (opened.lock d) (.unlink n why (some d))) (.sys k .ok) =
      some (s.mid k st ((opened.lock d).unlink (path n)) (unlinked n why (some d) (some true))) :=
    step_unlink hk hcur
  refine ⟨s.mid k st ((opened.lock d).unlink (path n)) (unlinked n why (some d) (some true)), ?_,
    LockFs.cur_unlink_self⟩
  show Lts.run (step path) _ [.sys k .ok, .sys k .ok, .sys k .ok] = _
  rw [Lts.run_cons, hstep₁, Option.bind_some, Lts.run_cons, hstep₂, Option.bind_some,
    Lts.run_cons, hstep₃]
  rfl

/-- A `delete` that can remove the file does so, if nothing fails. -/
theorem run_of_removes (hidle : s.idleStore k = some st) (hremoves : s.Removes path st n) :
    ∃ (outs : List Outcome) (t : World),
      Lts.run (step path) s (.delete k n :: outs.map (.sys k)) = some t ∧
        (t.fs.dir (path n)).cur = none := by
  obtain ⟨hmeta, i, hcur, hfree⟩ := hremoves
  have hk := (List.getElem?_eq_some_iff.mp (idleStore_cases hidle).1).1
  -- the call, with the `s` of `delete`
  have hcall : ∀ t, s.call k st (.delete k n) = some t → ∀ acts u,
      Lts.run (step path) t acts = some u →
        Lts.run (step path) s (.delete k n :: acts) = some u := by
    intro t hcall acts u hrun
    rw [Lts.run_cons]
    simp only [step, hidle, Option.bind_some, hcall, hrun]
  have hbind : ∀ h hd, st.opened.get n = some h → s.handles[h]? = some hd →
      (st.opened.get n).bind (fun h => (s.handles[h]?).map fun hd => (h, hd)) = some (h, hd) := by
    intro h hd hget hhandle
    simp only [hget, Option.bind_some, hhandle, Option.map_some]
  cases hown : (st.opened.get n).bind fun h => (s.handles[h]?).map fun hd => (h, hd) with
  | none =>
      have hcan := hfree.resolve_left fun hwriter => by
        obtain ⟨h, hd, hget, hhandle, -⟩ := hwriter
        rw [hbind h hd hget hhandle] at hown
        cases hown
      obtain ⟨u, hrun, hcur'⟩ := run_probe (.delete none) hk hcur hcan
      refine ⟨_, u, hcall _ ?_ _ u hrun, hcur'⟩
      simp only [call, hmeta, not_true_eq_false, if_false, hown]
      rfl
  | some p =>
      obtain ⟨h, hd⟩ := p
      by_cases hw : hd.writable = true
      · obtain ⟨u, hrun, hcur'⟩  := run_unlink st (.delete (some h)) hk hcur
        refine ⟨_, u, hcall _ ?_ _ u hrun, hcur'⟩
        simp only [call, hmeta, not_true_eq_false, if_false, hown, hw, if_true]
        rfl
      · have hcan := hfree.resolve_left fun hwriter => by
          obtain ⟨h', hd', hget, hhandle, hw'⟩ := hwriter
          rw [hbind h' hd' hget hhandle] at hown
          cases hown
          exact hw hw'
        obtain ⟨u, hrun, hcur'⟩ := run_probe (.delete (some h)) hk hcur hcan
        refine ⟨_, u, hcall _ ?_ _ u hrun, hcur'⟩
        simp only [call, hmeta, not_true_eq_false, if_false, hown, hw, Bool.false_eq_true]
        rfl

/-! ## The results -/

/-- The file that a `delete` of `n` would remove, if any, is its own log and no other. -/
def Careful (tr : Tree) (s : World) (st : Store) (n : Name) : Prop :=
  s.Removes tr.path st n →
    '/' ∉ n ∧ ∀ m, m ≠ n → s.rows.get m ≠ none → tr.path m ≠ tr.path n

theorem InDelete.spares {tr : Tree} (hd : InDelete tr.path s k st n t) (hlinked : s.Linked)
    (hk : s.stores[k]? = some st) (hcareful : s.Careful tr st n) : s.Spares tr n t := by
  refine ⟨hd.row, fun m hm hrow => ?_, fun j st₀ hj => ?_, fun h hd₀ hget hname => ?_,
    fun q hthere hgone => ?_⟩
  · have hentry : (t.fs.dir (tr.path m)).cur = (s.fs.dir (tr.path m)).cur := by
      rcases hd.entry (tr.path m) with heq | ⟨hpath, hremoves⟩
      · exact heq
      · exact absurd hpath ((hcareful hremoves).2 m hm hrow)
    rw [log, log, hentry, hd.files]
  · obtain ⟨st', hstores, -, hopened, -⟩ := hd.store
    by_cases hjk : k = j
    · subst hjk
      rw [hk] at hj
      cases hj
      refine ⟨st', ?_, hopened⟩
      rw [hstores, List.getElem?_set_self (List.getElem?_eq_some_iff.mp hk).1]
    · exact ⟨st₀, by rw [hstores, List.getElem?_set_ne hjk, hj], fun _ _ => rfl⟩
  · rw [hd.handle h ?_, hget]
    -- a handle that `_open` has under a name has this name
    intro hopened
    obtain ⟨hd', hget', -, hname'⟩ := hlinked.opened k st n h hk hopened
    rw [hget] at hget'
    cases hget'
    exact hname hname'
  · rcases hd.entry q with heq | ⟨hpath, hremoves⟩
    · rw [heq] at hgone
      exact absurd hgone hthere
    · have hplain := (hcareful hremoves).1
      exact ⟨hplain, hpath.trans (tr.path_of_plain hplain)⟩

/-- A name that `create` accepts is deleted with care in a Store whose rows all have such
names. -/
theorem careful_of_checkName {tr : Tree} (hrows : ∀ m, s.rows.get m ≠ none → checkName m = .ok m)
    (hname : checkName n = .ok n) : s.Careful tr st n := by
  have hplain := plain_of_checkName hname
  exact fun _ => ⟨hplain, fun m hm hrow h =>
    hm (tr.path_injOn_plain (plain_of_checkName (hrows m hrow)) hplain h)⟩

/-- A root `/r`. -/
def rootTree : Tree where
  isDir d := d == [['r']] || d == [['r'], ['s', 't', 'r', 'e', 'a', 'm', 's']]
  cwd := []
  root := ['/', 'r']
  streams := [['r'], ['s', 't', 'r', 'e', 'a', 'm', 's']]
  made := by decide +kernel

/-- A stream `a` with a record, of a Store that is closed, and a second Store. -/
def createdAndReleased : List Act :=
  storeActs 0 ++ createActs 0 ['a'] ++ appendActs 0 [[1]] 9 ++ closeActs 0 ++ [.newStore 0]

/-- To delete `./a` is to remove the log of the stream `a`. -/
theorem delete_removes_other :
    ¬∀ (tr : Tree) (disk : Disk) (acts : List Act) (s : World) (k : Sid) (n : Name)
      (outs : List Outcome) (t : World),
      Lts.run (step tr.path) (init disk) acts = some s →
      Lts.run (step tr.path) s (.delete k n :: outs.map (.sys k)) = some t → s.Spares tr n t := by
  intro hall
  let delete : List Act := .delete 1 ['.', '/', 'a'] :: (List.replicate 6 .ok).map (.sys 1)
  have hmap : ((Lts.run (step rootTree.path) (init .empty) createdAndReleased).bind fun s =>
      (Lts.run (step rootTree.path) s delete).map fun t =>
        ((s.rows.get ['a']).isSome, s.log rootTree ['a'], t.log rootTree ['a'])) =
          some (true, some (frame [1]), none) := by decide +kernel
  obtain ⟨s, hrun, hmap⟩ := Option.bind_eq_some_iff.mp hmap
  obtain ⟨t, hdelete, heq⟩ := Option.map_eq_some_iff.mp hmap
  simp only [Prod.mk.injEq] at heq
  obtain ⟨hrow, hlog, hgone⟩ := heq
  have hspares := hall rootTree .empty createdAndReleased s 1 ['.', '/', 'a']
    (List.replicate 6 .ok) t hrun hdelete
  have hsame := hspares.log ['a'] (by decide) (Option.isSome_iff_ne_none.mp hrow)
  rw [hlog, hgone] at hsame
  cases hsame

/-- A `delete` spares the others, however its calls end, exactly if the file it gets as
far as removing is its own: the name has no slash, and no other stream has its log
there. -/
theorem delete_spares_iff (tr : Tree) (disk : Disk) (acts : List Act) (s : World) (k : Sid)
    (st : Store) (n : Name) (hrun : Lts.run (step tr.path) (init disk) acts = some s)
    (hidle : s.idleStore k = some st) :
    (∀ (outs : List Outcome) (t : World),
      Lts.run (step tr.path) s (.delete k n :: outs.map (.sys k)) = some t → s.Spares tr n t) ↔
        s.Careful tr st n := by
  have hlinked : s.Linked :=
    Lts.run_invariant (fun _ _ _ hl hstep => Linked.step hl (step_cases hstep)) hrun (.init disk)
  constructor
  · intro hspares hremoves
    obtain ⟨outs, t, hdelete, hgone⟩ := run_of_removes hidle hremoves
    have hspares := hspares outs t hdelete
    obtain ⟨-, i, hcur, -⟩ := hremoves
    refine ⟨(hspares.removed (tr.path n) (by simp [hcur]) hgone).1, fun m hm hrow hpath => ?_⟩
    have hlog := hspares.log m hm hrow
    simp [log, hpath, hcur, hgone] at hlog
  · intro hcareful outs t hdelete
    exact (inDelete_of_run hidle hdelete).spares hlinked (idleStore_cases hidle).1 hcareful

/-- The stream itself is deleted. -/
theorem delete_spares_iff_createdAndReleased :
    ∃ s st, Lts.run (step rootTree.path) (init .empty) createdAndReleased = some s ∧
      s.idleStore 1 = some st ∧
      ((∀ (outs : List Outcome) (t : World),
        Lts.run (step rootTree.path) s (.delete 1 ['a'] :: outs.map (.sys 1)) = some t →
          s.Spares rootTree ['a'] t) ↔ s.Careful rootTree st ['a']) := by
  have hmap : ((Lts.run (step rootTree.path) (init .empty) createdAndReleased).bind fun s =>
      s.idleStore 1).isSome = true := by decide +kernel
  obtain ⟨st, hst⟩ := Option.isSome_iff_exists.mp hmap
  obtain ⟨s, hrun, hidle⟩ := Option.bind_eq_some_iff.mp hst
  exact ⟨s, st, hrun, hidle,
    delete_spares_iff rootTree .empty createdAndReleased s 1 st ['a'] hrun hidle⟩

end World

end Durastream

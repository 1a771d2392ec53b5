import Durastream.Store.Linked

/-!
# One live writer per stream

The lock belongs to a file, a stream to a path.  The two agree as long as no
entry is removed under somebody: `safeUnlink` says that an unlink removes the
entry of a file only while the remover has locked this very file, and nobody has
opened the file and is about to lock it.  In a run whose unlinks are all safe, a
stream has at most one writable handle and the stream's path names its file
(`one_writer`).

The code does not ensure it.  A Store may open a log, then another one deletes
and creates the stream again, and then the first one gets the lock of a file
that no path names any more (`two_writers`).
-/

namespace Durastream

/-- The description a constructor has open and writes, or may still lock. -/
def CtorPc.writes : CtorPc → Option Did
  | .lock d => some d
  | .stat d true => some d
  | .scan d true _ => some d
  | .truncate d _ => some d
  | .sync d _ => some d
  | _ => none

/-- A constructor that writes is an owner, or it has not asked for the lock yet. -/
theorem CtorPc.claim_of_writes {pc : CtorPc} {d : Did} (p : Pid) (h : pc.writes = some d) :
    pc = .lock d ∧ pc.claim p = some ⟨p, d, .candidate⟩ ∨ pc.claim p = some ⟨p, d, .owner⟩ := by
  cases pc with
  | openAppend => cases h
  | openRead => cases h
  | lock d' =>
      cases h
      exact .inl ⟨rfl, rfl⟩
  | stat d' owner =>
      cases owner with
      | false => cases h
      | true =>
          cases h
          exact .inr rfl
  | scan d' owner size =>
      cases owner with
      | false => cases h
      | true =>
          cases h
          exact .inr rfl
  | truncate d' index =>
      cases h
      exact .inr rfl
  | sync d' index =>
      cases h
      exact .inr rfl

namespace World

variable (path : Name → List Char)

/-- The Store of this handle is in `delete`, after the unlink and before it
closes the handle. -/
def Deleting (s : World) (h : Hid) (hd : Handle) : Prop :=
  ∃ st name removed, s.stores[hd.store]? = some st ∧ st.pc = .delClose name h removed

/-- The writable handles, less those being deleted, are one for each name, and
the path of the name is that of the file they write. -/
structure OneWriter (s : World) : Prop where
  named : ∀ (h : Hid) (hd : Handle), s.handles[h]? = some hd → hd.writable = true →
    ¬s.Deleting h hd →
    ∃ d, hd.file = some d ∧ (s.fs.dir (path hd.w.name)).cur = some (s.fs.ino d)
  unique : ∀ (h : Hid) (hd : Handle) (h' : Hid) (hd' : Handle), s.handles[h]? = some hd →
    hd.writable = true → ¬s.Deleting h hd →
    s.handles[h']? = some hd' → hd'.writable = true → ¬s.Deleting h' hd' →
    hd.w.name = hd'.w.name → h = h'
  /-- Only a writable handle is ever in the middle of an append. -/
  appending : ∀ (h : Hid) (hd : Handle), s.handles[h]? = some hd → hd.w.pc ≠ .idle →
    hd.writable = true

/-- The remover has locked file `i`: by its guard, or by the handle it deletes. -/
def holdsLock (s : World) (why : Purpose) (guard : Option Did) (i : Nat) : Bool :=
  match guard, why with
  | some d, _ => s.fs.ino d == i
  | none, .delete (some h) =>
      match s.handles[h]? with
      | some hd => hd.writable && hd.file.map s.fs.ino == some i
      | none => false
  | none, _ => false

/-- Some method has opened file `i` as a log and not locked it yet. -/
def awaitsLock (s : World) (i : Nat) : Bool :=
  s.stores.any fun st =>
    match st.pc with
    | .ctor _ (.lock d) => s.fs.ino d == i
    | _ => false

/-- An unlink that removes an entry removes that of a file the remover has
locked, and that nobody is about to lock. -/
def safeUnlink (s : World) : Act → Bool
  | .sys k .ok =>
      match (s.stores[k]?).map Store.pc with
      | some (.unlink name why guard) =>
          match (s.fs.dir (path name)).cur with
          | some i => s.holdsLock why guard i && !s.awaitsLock i
          | none => true
      | _ => true
  | _ => true

/-! ## The invariant -/

/-- The path of each log that is written, or may still be locked, names the file
that is open. -/
structure Named (s : World) : Prop where
  handle : ∀ (h : Hid) (hd : Handle) (d : Did), s.handles[h]? = some hd → hd.writable = true →
    hd.file = some d →
    ¬s.Deleting h hd → (s.fs.dir (path hd.w.name)).cur = some (s.fs.ino d)
  ctor : ∀ (k : Sid) (st : Store) (o : Opening) (pc : CtorPc) (d : Did),
    s.stores[k]? = some st → st.pc = .ctor o pc → pc.writes = some d →
    (s.fs.dir (path o.name)).cur = some (s.fs.ino d)

variable {path}
variable {s t : World} {k : Sid} {h : Hid} {st st' : Store} {hd hd' : Handle}
  {out : Outcome} {a : Act}

theorem Ok.lt_of_writes (hs : s.Ok) (hk : s.stores[k]? = some st) {o : Opening} {pc : CtorPc}
    (hpc : st.pc = .ctor o pc) {d : Did} (hw : pc.writes = some d) : d < s.fs.descs.length := by
  have hclaim : s.claims (.op k) = pc.claim st.pid := by rw [claims_op hk, hpc]; rfl
  rcases CtorPc.claim_of_writes st.pid hw with ⟨-, hc⟩ | hc
  · exact hs.lt_of_claim (hclaim.trans hc)
  · exact hs.lt_of_claim (hclaim.trans hc)

/-- What a Store deletes, it still deletes when it or another Store has gone on from
something else. -/
theorem Deleting.set (hdel : s.Deleting h hd) (hk : s.stores[k]? = some st)
    (hstores : t.stores = s.stores.set k st')
    (hnodel : ∀ name removed, st.pc ≠ .delClose name h removed) : t.Deleting h hd := by
  obtain ⟨st₀, name, removed, hst, hpc⟩ := hdel
  refine ⟨st₀, name, removed, ?_, hpc⟩
  have hne : k ≠ hd.store := by
    intro heq
    rw [← heq, hk] at hst
    cases hst
    exact hnodel _ _ hpc
  rw [hstores, List.getElem?_set_ne hne, hst]

theorem Deleting.append {sts : List Store} (hdel : s.Deleting h hd)
    (hstores : t.stores = s.stores ++ sts) : t.Deleting h hd := by
  obtain ⟨st, name, removed, hst, hpc⟩ := hdel
  refine ⟨st, name, removed, ?_, hpc⟩
  rw [hstores, List.getElem?_append_left (List.getElem?_eq_some_iff.mp hst).1, hst]

/-- An entry that names an open file is still there and still names it. -/
def Stable (path : Name → List Char) (fs fs' : LockFs (List Char) UInt8) : Prop :=
  ∀ n d, d < fs.descs.length → (fs.dir (path n)).cur = some (fs.ino d) →
    (fs'.dir (path n)).cur = some (fs'.ino d)

theorem Stable.of_eq {fs fs' : LockFs (List Char) UInt8}
    (hdir : ∀ n, (fs'.dir (path n)).cur = (fs.dir (path n)).cur)
    (hino : ∀ d, fs'.ino d = fs.ino d) :
    Stable path fs fs' := by
  intro n d _ hcur
  rw [hdir, hino, hcur]

theorem Stable.openFile {fs : LockFs (List Char) UInt8} {p i : Nat} :
    Stable path fs (fs.openFile p i) := by
  intro n d hlt hcur
  rw [LockFs.ino_openFile hlt]
  exact hcur

theorem Stable.openCreate {fs : LockFs (List Char) UInt8} {p : Nat} {q : List Char} :
    Stable path fs (fs.openCreate p q) := by
  intro n d hlt hcur
  rw [LockFs.ino_openCreate hlt]
  exact LockFs.cur_openCreate hcur

namespace Named

theorem init (disk : Disk) : (World.init disk).Named path :=
  ⟨fun _ _ _ hget => absurd hget (by simp [World.init]),
    fun _ _ _ _ _ hk => absurd hk (by simp [World.init])⟩

/-- Store `k` goes on and was not deleting a handle. -/
theorem ofSet (hn : s.Named path) (hs : s.Ok) (hk : s.stores[k]? = some st)
    (hstores : t.stores = s.stores.set k st') (hhandles : t.handles = s.handles)
    (hnodel : ∀ name h removed, st.pc ≠ .delClose name h removed)
    (hstable : Stable path s.fs t.fs)
    (hnew : ∀ o pc d, st'.pc = .ctor o pc → pc.writes = some d →
      (t.fs.dir (path o.name)).cur = some (t.fs.ino d)) : t.Named path := by
  constructor
  · intro h hd d hget hw hfile hdel
    rw [hhandles] at hget
    refine hstable _ _ (hs.lt_of_file hget hfile) (hn.handle h hd d hget hw hfile fun hold => ?_)
    exact hdel (hold.set hk hstores fun name removed => hnodel name h removed)
  · intro j st₀ o pc d hj hpc hw
    rw [hstores] at hj
    rcases List.getElem?_set_cases hj with ⟨rfl, rfl⟩ | ⟨-, hj⟩
    · exact hnew o pc d hpc hw
    · exact hstable _ _ (hs.lt_of_writes hj hpc hw) (hn.ctor j st₀ o pc d hj hpc hw)

/-- Store `k` goes on to a place where it constructs no handle. -/
theorem quiet (hn : s.Named path) (hs : s.Ok) (hk : s.stores[k]? = some st)
    (hstores : t.stores = s.stores.set k st') (hhandles : t.handles = s.handles)
    (hnodel : ∀ name h removed, st.pc ≠ .delClose name h removed)
    (hstable : Stable path s.fs t.fs) (hquiet : ∀ o pc, st'.pc = .ctor o pc → pc.writes = none) :
    t.Named path := by
  refine hn.ofSet hs hk hstores hhandles hnodel hstable ?_
  intro o pc d hpc hw
  rw [hquiet o pc hpc] at hw
  cases hw

theorem fail (hn : s.Named path) (hs : s.Ok) (hk : s.stores[k]? = some st)
    (hnodel : ∀ name h removed, st.pc ≠ .delClose name h removed) (e : Error) :
    (s.fail k st e).Named path := by
  refine hn.quiet hs hk (stores_fail s k st e) (handles_fail s k st e) hnodel ?_
    fun o pc hpc => by cases hpc
  refine .of_eq (fun n => ?_) fun d => ino_closeDesc s st.pid st.pc.desc d
  exact congrArg (fun dir => (dir (path n)).cur) (dir_closeDesc s st.pid st.pc.desc)

/-- The handle under construction becomes one of the Store. -/
theorem openedStream (hn : s.Named path) (hk : s.stores[k]? = some st)
    {fs : LockFs (List Char) UInt8} {o : Opening} {d : Did} {owner : Bool} {index : List Nat}
    (hdir : fs.dir = s.fs.dir) (hdescs : fs.descs = s.fs.descs)
    (hnodel : ∀ name h removed, st.pc ≠ .delClose name h removed)
    (hnew : owner = true → (s.fs.dir (path o.name)).cur = some (s.fs.ino d)) :
    ((s.setFs fs).openedStream k st o d owner index).Named path := by
  have hino : ∀ e, fs.ino e = s.fs.ino e := fun e => by rw [LockFs.ino, LockFs.ino, hdescs]
  constructor
  · intro h hd e hget hw hfile hdel
    show (fs.dir (path hd.w.name)).cur = some (fs.ino e)
    rw [hdir, hino]
    have hcases : (s.handles ++ [_])[h]? = some hd := hget
    rcases List.getElem?_concat_cases hcases with hget₀ | ⟨-, rfl⟩
    · refine hn.handle h hd e hget₀ hw hfile fun hold => ?_
      exact hdel (hold.set hk rfl fun name removed => hnodel name h removed)
    · cases hfile
      refine hnew ?_
      simpa [Handle.writable] using hw
  · intro j st₀ o' pc e hj hpc hw
    show (fs.dir (path o'.name)).cur = some (fs.ino e)
    rw [hdir, hino]
    have hcases : (s.stores.set k _)[j]? = some st₀ := hj
    rcases List.getElem?_set_cases hcases with ⟨rfl, rfl⟩ | ⟨-, hj⟩
    · cases hcreated : o.created <;> simp [hcreated] at hpc
    · exact hn.ctor j st₀ o' pc e hj hpc hw

theorem ctorStep (hn : s.Named path) (hs : s.Ok) (hk : s.stores[k]? = some st) {o : Opening}
    {pc : CtorPc} (hpc : st.pc = .ctor o pc) (hstep : CtorStep path s k st out o pc t) :
    t.Named path := by
  have hnodel : ∀ name h removed, st.pc ≠ .delClose name h removed := by
    intro name h removed heq
    rw [hpc] at heq
    cases heq
  have hctor : ∀ d, pc.writes = some d → (s.fs.dir (path o.name)).cur = some (s.fs.ino d) :=
    fun d hw => hn.ctor k st o pc d hk hpc hw
  cases hstep with
  | failed _ e => exact hn.fail hs hk hnodel e
  | opened =>
      refine hn.ofSet hs hk rfl rfl hnodel .openCreate ?_
      intro o' pc' d heq hw
      cases heq
      cases hw
      exact LockFs.cur_openCreate_self
  | denied =>
      refine hn.quiet hs hk rfl rfl hnodel (.of_eq (fun _ => rfl) fun _ => rfl) ?_
      intro o' pc' heq
      cases heq
      rfl
  | openedRead i hcur =>
      refine hn.quiet hs hk rfl rfl hnodel .openFile ?_
      intro o' pc' heq
      cases heq
      rfl
  | locked d hok hcan =>
      refine hn.ofSet hs hk rfl rfl hnodel (.of_eq (fun _ => rfl) fun _ => rfl) ?_
      intro o' pc' d' heq hw
      cases heq
      cases hw
      exact hctor d rfl
  | blocked d hcan =>
      refine hn.quiet hs hk rfl rfl hnodel (.of_eq (fun _ => rfl) fun _ => rfl) ?_
      intro o' pc' heq
      cases heq
      rfl
  | lockDenied d =>
      refine hn.quiet hs hk rfl rfl hnodel (.of_eq (fun _ => rfl) fun _ => LockFs.ino_close) ?_
      intro o' pc' heq
      cases heq
      rfl
  | stat d owner =>
      refine hn.ofSet hs hk rfl rfl hnodel (.of_eq (fun _ => rfl) fun _ => rfl) ?_
      intro o' pc' d' heq hw
      cases heq
      cases owner with
      | false => cases hw
      | true =>
          cases hw
          exact hctor d rfl
  | torn d size i hcur hne =>
      refine hn.ofSet hs hk rfl rfl hnodel (.of_eq (fun _ => rfl) fun _ => rfl) ?_
      intro o' pc' d' heq hw
      cases heq
      cases hw
      exact hctor d rfl
  | scanned d owner size i hcur hend =>
      refine hn.openedStream hk rfl rfl hnodel ?_
      intro howner
      subst howner
      exact hctor d rfl
  | cut d index =>
      refine hn.ofSet hs hk rfl rfl hnodel (.of_eq (fun _ => rfl) fun _ => rfl) ?_
      intro o' pc' d' heq hw
      cases heq
      cases hw
      exact hctor d rfl
  | synced d index => exact hn.openedStream hk rfl rfl hnodel fun _ => hctor d rfl

/-- One handle changes but not its name and what it has open. -/
theorem setHandle (hn : s.Named path) (hget : s.handles[h]? = some hd)
    (hhandles : t.handles = s.handles.set h hd') (hstores : t.stores = s.stores)
    (hdir : t.fs.dir = s.fs.dir) (hdescs : t.fs.descs = s.fs.descs)
    (hsame : hd'.writable = true → hd.writable = true ∧ hd'.file = hd.file)
    (hstore : hd'.store = hd.store) (hname : hd'.w.name = hd.w.name) : t.Named path := by
  have hino : ∀ e, t.fs.ino e = s.fs.ino e := fun e => by rw [LockFs.ino, LockFs.ino, hdescs]
  constructor
  · intro j hj d hgetj hw hfile hdel
    rw [hdir, hino]
    rw [hhandles] at hgetj
    rcases List.getElem?_set_cases hgetj with ⟨rfl, rfl⟩ | ⟨-, hgetj⟩
    · obtain ⟨hw₀, hfile₀⟩ := hsame hw
      rw [hname]
      refine hn.handle j hd d hget hw₀ (hfile₀ ▸ hfile) ?_
      rintro ⟨st₀, name, removed, hst, hpc⟩
      exact hdel ⟨st₀, name, removed, by rw [hstores, hstore, hst], hpc⟩
    · refine hn.handle j hj d hgetj hw hfile ?_
      rintro ⟨st₀, name, removed, hst, hpc⟩
      exact hdel ⟨st₀, name, removed, by rw [hstores, hst], hpc⟩
  · intro j st₀ o pc d hj hpc hw
    rw [hstores] at hj
    rw [hdir, hino]
    exact hn.ctor j st₀ o pc d hj hpc hw

/-- A handle is closed, and its Store goes on. -/
theorem closeFds (hn : s.Named path) (hget : s.handles[h]? = some hd)
    (hk : s.stores[k]? = some st) (hstores : t.stores = s.stores.set k st')
    (hhandles : t.handles = (s.closeFds h hd).handles) (hfs : t.fs = (s.closeFds h hd).fs)
    (hdel : ∀ name h' removed, st.pc = .delClose name h' removed → h' = h)
    (hquiet : ∀ o pc, st'.pc ≠ .ctor o pc) : t.Named path := by
  have hdir : ∀ q, t.fs.dir q = s.fs.dir q := by
    intro q
    rw [hfs]
    exact congrFun (dir_closeDesc s hd.pid hd.file) q
  have hino : ∀ e, t.fs.ino e = s.fs.ino e := by
    intro e
    rw [hfs]
    exact ino_closeDesc s hd.pid hd.file e
  have hset : t.handles = s.handles.set h hd.closeFds := by rw [hhandles, handles_closeFds]
  constructor
  · intro j hj d hgetj hw hfile hdelj
    rw [hdir, hino]
    rw [hset] at hgetj
    rcases List.getElem?_set_cases hgetj with ⟨rfl, rfl⟩ | ⟨hjh, hgetj⟩
    · cases hw
    · refine hn.handle j hj d hgetj hw hfile fun hold => hdelj (hold.set hk hstores ?_)
      exact fun name removed hpc => hjh (hdel name j removed hpc)
  · intro j st₀ o pc d hj hpc hw
    rw [hdir, hino]
    rw [hstores] at hj
    rcases List.getElem?_set_cases hj with ⟨rfl, rfl⟩ | ⟨-, hj⟩
    · exact absurd hpc (hquiet o pc)
    · exact hn.ctor j st₀ o pc d hj hpc hw

/-- What a remover has locked, only it has locked. -/
theorem holdsLock_owner (hl : s.Linked) (hk : s.stores[k]? = some st) {name : Name}
    {why : Purpose} {guard : Option Did} (hpc : st.pc = .unlink name why guard) {i : Nat}
    (hlock : s.holdsLock why guard i = true) :
    (∃ d c, guard = some d ∧ s.claims (.op k) = some c ∧ c.role = .owner ∧ s.fs.ino c.did = i) ∨
      ∃ h hd c, guard = none ∧ why = .delete (some h) ∧ s.handles[h]? = some hd ∧ hd.store = k ∧
        s.claims (.handle h) = some c ∧ c.role = .owner ∧ s.fs.ino c.did = i := by
  cases guard with
  | some d =>
      refine .inl ⟨d, ⟨st.pid, d, .owner⟩, rfl, ?_, rfl, ?_⟩
      · rw [claims_op hk, hpc]
        rfl
      · simpa [holdsLock] using hlock
  | none =>
      cases why with
      | create contentType asked => cases hlock
      | delete own =>
          cases own with
          | none => cases hlock
          | some h =>
              have hmem : h ∈ st.pc.mentions := by
                rw [hpc]
                exact List.mem_singleton_self h
              obtain ⟨hd, hget, hstore⟩ := hl.mentions k st h hk hmem
              simp only [holdsLock, hget, Bool.and_eq_true, beq_iff_eq] at hlock
              obtain ⟨hw, hfile⟩ := hlock
              obtain ⟨d, hd₀, hino⟩ := Option.map_eq_some_iff.mp hfile
              exact .inr ⟨h, hd, _, rfl, rfl, hget, hstore, claims_writable hget hw hd₀, rfl, hino⟩

/-- A safe unlink takes the entry of no other writer. -/
theorem unlink (hn : s.Named path) (hs : s.Ok) (hl : s.Linked) (hk : s.stores[k]? = some st)
    {name : Name} {why : Purpose} {guard : Option Did} (hpc : st.pc = .unlink name why guard)
    {i : Nat} (hcur : (s.fs.dir (path name)).cur = some i)
    (hlock : s.holdsLock why guard i = true) (hawait : s.awaitsLock i = false) :
    ((s.setFs (s.fs.unlink (path name))).goto k st
      (unlinked name why guard (some true))).Named path := by
  have hlt := (List.getElem?_eq_some_iff.mp hk).1
  have howner := holdsLock_owner hl hk hpc hlock
  constructor
  · intro h hd d hget hw hfile hdel
    have hget₀ : s.handles[h]? = some hd := hget
    have hold : ¬s.Deleting h hd := fun hold => hdel (hold.set hk rfl (by simp [hpc]))
    have hcur₀ := hn.handle h hd d hget₀ hw hfile hold
    show ((s.fs.unlink (path name)).dir (path hd.w.name)).cur = some (s.fs.ino d)
    by_cases hq : path hd.w.name = path name
    · -- the file is the one the remover has locked, so the handle is the one it deletes
      rw [hq, hcur] at hcur₀
      have hclaim := claims_writable hget₀ hw hfile
      have hino : s.fs.ino d = i := (Option.some.inj hcur₀).symm
      rcases howner with ⟨d₀, c, -, hc, hrole, hi⟩ |
        ⟨h₀, hd₀, c, hg, hwhy, hget₁, hstore, hc, hrole, hi⟩
      · cases hs.owner_unique hclaim hc rfl hrole (by rw [hi]; exact hino)
      · cases hs.owner_unique hclaim hc rfl hrole (by rw [hi]; exact hino)
        rw [hget₀] at hget₁
        cases hget₁
        refine absurd ⟨{ st with pc := unlinked name why guard (some true) }, name, true, ?_, ?_⟩
          hdel
        · rw [hstore]
          exact List.getElem?_set_self hlt
        · rw [hg, hwhy]
          rfl
    · rw [LockFs.cur_unlink_of_ne hq]
      exact hcur₀
  · intro j st₀ o pc d hj hpcj hw
    have hkj : k ≠ j := by
      intro heq
      subst heq
      have hself : (s.stores.set k _)[k]? = some st₀ := hj
      rw [List.getElem?_set_self hlt] at hself
      cases hself
      cases guard with
      | some d₀ => cases hpcj
      | none =>
          cases why with
          | create contentType asked => cases hpcj
          | delete own =>
              cases own <;> cases hpcj
    have hj₀ : s.stores[j]? = some st₀ := by
      have hother : (s.stores.set k _)[j]? = some st₀ := hj
      rwa [List.getElem?_set_ne hkj] at hother
    have hcur₀ := hn.ctor j st₀ o pc d hj₀ hpcj hw
    show ((s.fs.unlink (path name)).dir (path o.name)).cur = some (s.fs.ino d)
    by_cases hq : path o.name = path name
    · rw [hq, hcur] at hcur₀
      have hino : s.fs.ino d = i := (Option.some.inj hcur₀).symm
      rcases CtorPc.claim_of_writes st₀.pid hw with ⟨hlk, -⟩ | hc
      · -- it is about to lock the file
        subst hlk
        refine absurd hawait ?_
        rw [awaitsLock, Bool.not_eq_false, List.any_eq_true]
        refine ⟨st₀, List.mem_of_getElem? hj₀, ?_⟩
        rw [hpcj]
        simpa using hino
      · have hclaim : s.claims (.op j) = some ⟨st₀.pid, d, .owner⟩ := by
          rw [claims_op hj₀, hpcj]
          exact hc
        rcases howner with ⟨d₀, c, -, hc₀, hrole, hi⟩ | ⟨h₀, hd₀, c, -, -, -, -, hc₀, hrole, hi⟩
        · cases hs.owner_unique hclaim hc₀ rfl hrole (by rw [hi]; exact hino)
          exact absurd rfl hkj
        · cases hs.owner_unique hclaim hc₀ rfl hrole (by rw [hi]; exact hino)
    · rw [LockFs.cur_unlink_of_ne hq]
      exact hcur₀

theorem sysStep (hn : s.Named path) (hs : s.Ok) (hl : s.Linked) (hk : s.stores[k]? = some st)
    (hsafe : s.safeUnlink path (.sys k out) = true) (hstep : SysStep path s k st out st.pc t) :
    t.Named path := by
  have hsame : Stable path s.fs s.fs := .of_eq (fun _ => rfl) fun _ => rfl
  generalize hpc : st.pc = pc at hstep
  have hnodel : (∀ name h removed, pc ≠ .delClose name h removed) →
      ∀ name h removed, st.pc ≠ .delClose name h removed := by
    intro hne
    rwa [hpc]
  cases hstep with
  | failed _ e _ _ hlocals =>
      refine hn.fail hs hk ?_ e
      intro name h removed heq
      rw [hpc] at heq
      rw [heq] at hlocals
      cases hlocals
  | found name given row hmeta hrow =>
      refine hn.quiet hs hk rfl rfl (hnodel (by simp)) hsame ?_
      intro o pc heq
      cases heq
      rfl
  | probed name why i hcur =>
      exact hn.quiet hs hk rfl rfl (hnodel (by simp)) .openFile fun o pc heq => by cases heq
  | unlinked name why guard i hok hcur =>
      subst hok
      simp only [safeUnlink, hk, Option.map_some, hpc, hcur, Bool.and_eq_true,
        Bool.not_eq_true'] at hsafe
      exact hn.unlink hs hl hk hpc hcur hsafe.1 hsafe.2
  | kept name why guard removed hkept =>
      exact hn.quiet hs hk rfl rfl (hnodel (by simp)) hsame fun o pc heq =>
        absurd heq (unlinked_ne_ctor o pc)
  | released name why d removed =>
      exact hn.quiet hs hk rfl rfl (hnodel (by simp))
        (.of_eq (fun _ => rfl) fun _ => LockFs.ino_close) fun o pc heq =>
          absurd heq (purged_ne_ctor name why (some removed) o pc)
  | raised name why d =>
      exact hn.quiet hs hk rfl rfl (hnodel (by simp))
        (.of_eq (fun _ => rfl) fun _ => LockFs.ino_close) fun o pc heq => by cases heq
  | inserted name contentType asked hok hrow =>
      refine hn.quiet hs hk rfl rfl (hnodel (by simp)) hsame ?_
      intro o pc heq
      cases heq
      rfl
  | ctor o pc _ hctor => exact hn.ctorStep hs hk hpc hctor
  | delClosed name h removed hd hget hfree =>
      refine hn.closeFds hget hk (by rw [← stores_closeFds s h hd]; rfl) rfl rfl ?_ ?_
      · intro name' h' removed' heq
        rw [hpc] at heq
        cases heq
        rfl
      · intro o pc heq
        cases removed <;> cases heq
  | closing h streams hd hget hfree =>
      refine hn.closeFds hget hk (by rw [← stores_closeFds s h hd]; rfl) rfl rfl ?_ ?_
      · intro name' h' removed' heq
        rw [hpc] at heq
        cases heq
      · intro o pc heq
        cases heq
  | _ => exact hn.quiet hs hk rfl rfl (hnodel (by simp)) hsame fun o pc heq => by cases heq

theorem callStep (hn : s.Named path) (hs : s.Ok) (hk : s.stores[k]? = some st)
    (hidle : st.pc = .idle) (hstep : CallStep s k st a t) : t.Named path := by
  have hsame : Stable path s.fs s.fs := .of_eq (fun _ => rfl) fun _ => rfl
  have hnodel : ∀ name h removed, st.pc ≠ .delClose name h removed := by
    intro name h removed heq
    rw [hidle] at heq
    cases heq
  cases hstep <;> exact hn.quiet hs hk rfl rfl hnodel hsame fun o pc heq => by cases heq

theorem handleStep (hn : s.Named path) (hget : s.handles[h]? = some hd)
    (hstep : HandleStep s h hd a t) : t.Named path := by
  cases hstep with
  | refused => exact hn
  | started payloads w hfree hbegin =>
      obtain ⟨-, -, -, -, -, rfl⟩ := Writer.begin_started hbegin
      exact hn.setHandle hget rfl rfl rfl rfl (fun hw => ⟨hw, rfl⟩) rfl rfl
  | io d f w fate hfile hw hret =>
      have hname : w.name = hd.w.name := by cases hw <;> rfl
      exact hn.setHandle hget rfl rfl rfl rfl (fun hw => ⟨hw, rfl⟩) rfl hname
  | closing hfree hw => exact hn.setHandle hget rfl rfl rfl rfl (fun hw => ⟨hw, rfl⟩) rfl rfl
  | updated d rows hclosing hfile hrows =>
      exact hn.setHandle hget rfl rfl rfl rfl (fun hw => ⟨hw, rfl⟩) rfl rfl
  | updateFailed hclosing =>
      exact hn.setHandle hget rfl rfl rfl rfl (fun hw => ⟨hw, rfl⟩) rfl rfl

/-- Copies of a fork write nothing. -/
theorem forkStep {p : Pid} (hn : s.Named path) (hs : s.Ok) : (s.forkStep p).Named path := by
  constructor
  · intro h hd d hget hw hfile hdel
    have hold : s.handles[h]? = some hd := by
      rcases List.getElem?_append_map_cases hget with hold | ⟨h₀, hd₀, -, hget₀, rfl⟩
      · exact hold
      · split at hw
        · rw [(hs.handle hget₀).not_writable_forked] at hw
          cases hw
        · cases hw
    show (s.fs.dir (path hd.w.name)).cur = some ((s.fs.fork p s.nextPid).ino d)
    rw [LockFs.ino_fork]
    exact hn.handle h hd d hold hw hfile fun hd₀ => hdel (hd₀.append rfl)
  · intro k st o pc d hk hpc hw
    have hold : s.stores[k]? = some st := by
      rcases List.getElem?_append_map_cases hk with hold | ⟨k₀, st₀, -, -, rfl⟩
      · exact hold
      · split at hpc
        · simp only [Store.forked] at hpc
          split at hpc <;> cases hpc
        · cases hpc
    show (s.fs.dir (path o.name)).cur = some ((s.fs.fork p s.nextPid).ino d)
    rw [LockFs.ino_fork]
    exact hn.ctor k st o pc d hold hpc hw

theorem exitStep {p : Pid} (hn : s.Named path) (hl : s.Linked) : (s.exitStep p).Named path := by
  constructor
  · intro h hd d hget hw hfile hdel
    rw [World.exitStep, List.getElem?_map] at hget
    obtain ⟨hd₀, hget₀, rfl⟩ := Option.map_eq_some_iff.mp hget
    by_cases hp : hd₀.pid = p
    · rw [if_pos hp] at hw
      cases hw
    · rw [if_neg hp] at hw hfile hdel ⊢
      show (s.fs.dir (path hd₀.w.name)).cur = some ((s.fs.exit p).ino d)
      rw [LockFs.ino_exit]
      refine hn.handle h hd₀ d hget₀ hw hfile ?_
      rintro ⟨st, name, removed, hst, hpc⟩
      obtain ⟨st', hst', hpid⟩ := hl.pid hd₀ (List.mem_of_getElem? hget₀)
      rw [hst] at hst'
      cases hst'
      refine hdel ⟨st, name, removed, ?_, hpc⟩
      rw [World.exitStep, List.getElem?_map, hst, Option.map_some, if_neg (hpid ▸ hp)]
  · intro k st o pc d hk hpc hw
    rw [World.exitStep, List.getElem?_map] at hk
    obtain ⟨st₀, hget₀, rfl⟩ := Option.map_eq_some_iff.mp hk
    split at hpc
    · cases hpc
    · show (s.fs.dir (path o.name)).cur = some ((s.fs.exit p).ino d)
      rw [LockFs.ino_exit]
      exact hn.ctor k st₀ o pc d hget₀ hpc hw

/-- Every step whose unlink is safe keeps the invariant. -/
theorem step (hn : s.Named path) (hs : s.Ok) (hl : s.Linked)
    (hsafe : s.safeUnlink path a = true) (hstep : Step path s a t) : t.Named path := by
  cases hstep with
  | spawn => exact ⟨hn.handle, hn.ctor⟩
  | newStore p hlive =>
      have hget : ∀ (j : Sid) (st : Store), (s.stores ++ [Store.new p])[j]? = some st →
          s.stores[j]? = some st ∨ st.pc = .idle := by
        intro j st hj
        rcases List.getElem?_concat_cases hj with hold | ⟨-, rfl⟩
        · exact .inl hold
        · exact .inr rfl
      constructor
      · intro h hd d hgeth hw hfile hdel
        exact hn.handle h hd d hgeth hw hfile fun hold => hdel (hold.append rfl)
      · intro k st o pc d hk hpc hw
        rcases hget k st hk with hk | hidle
        · exact hn.ctor k st o pc d hk hpc hw
        · rw [hidle] at hpc
          cases hpc
  | call a k st t hk hidle hcall => exact hn.callStep hs hk hidle hcall
  | sys k st out t hk hsys => exact hn.sysStep hs hl hk hsafe hsys
  | handle a h hd t hget hhandle => exact hn.handleStep hget hhandle
  | fork p hlive => exact hn.forkStep hs
  | exit p hlive => exact hn.exitStep hl
  | powerLoss cell loss =>
      constructor
      · intro h hd d hget hw
        simp only [List.getElem?_map] at hget
        obtain ⟨hd₀, -, rfl⟩ := Option.map_eq_some_iff.mp hget
        cases hw
      · intro k st o pc d hk hpc
        simp only [List.getElem?_map] at hk
        obtain ⟨st₀, -, rfl⟩ := Option.map_eq_some_iff.mp hk
        cases hpc

/-- In a state of the invariants, a stream has one writer. -/
theorem oneWriter (hn : s.Named path) (hs : s.Ok) : s.OneWriter path := by
  have hnamed : ∀ (h : Hid) (hd : Handle), s.handles[h]? = some hd → hd.writable = true →
      ¬s.Deleting h hd →
      ∃ d, hd.file = some d ∧ (s.fs.dir (path hd.w.name)).cur = some (s.fs.ino d) := by
    intro h hd hget hw hdel
    obtain ⟨d, hfile⟩ := hs.exists_file hget hw
    exact ⟨d, hfile, hn.handle h hd d hget hw hfile hdel⟩
  refine ⟨hnamed, ?_, ?_⟩
  · intro h hd h' hd' hget hw hdel hget' hw' hdel' hname
    obtain ⟨d, hfile, hcur⟩ := hnamed h hd hget hw hdel
    obtain ⟨d', hfile', hcur'⟩ := hnamed h' hd' hget' hw' hdel'
    rw [hname, hcur'] at hcur
    have hino : s.fs.ino d = s.fs.ino d' := (Option.some.inj hcur).symm
    cases hs.owner_unique (claims_writable hget hw hfile) (claims_writable hget' hw' hfile')
      rfl rfl hino
    rfl
  · intro h hd hget hpc
    exact (hs.handle hget).busy (.inl hpc)

end Named

/-! ## The results -/

/-- While Store 1 is between opening the log and locking it, Store 0 deletes the
stream and creates it again. -/
def recreatedUnderOpen : List Act :=
  storeActs 0 ++ storeActs 1 ++ createActs 0 ['t'] ++
    [.openStream 1 ['t'], .sys 1 .ok, .sys 1 .ok] ++ deleteActs 0 ['t'] ++ createActs 0 ['t'] ++
    List.replicate 3 (.sys 1 .ok)

/-- A handle is not being deleted while all Stores are idle. -/
theorem not_deleting_of_idle (hidle : ∀ st ∈ s.stores, st.pc = .idle) (h : Hid) (hd : Handle) :
    ¬s.Deleting h hd := by
  rintro ⟨st, name, removed, hget, hpc⟩
  rw [hidle st (List.mem_of_getElem? hget)] at hpc
  cases hpc

/-- A stream may have two writable handles: after `recreatedUnderOpen`, each of
the Stores has one. -/
theorem two_writers :
    ¬∀ (path : Name → List Char) (disk : Disk) (acts : List Act) (s : World),
      Lts.run (step path) (init disk) acts = some s → s.OneWriter path := by
  intro hall
  have hmap : (Lts.run (step logEntry) (init .empty)
      recreatedUnderOpen).map (fun s => (s.handles.map fun hd => (hd.writable, hd.w.name),
        s.stores.map Store.pc)) =
      some ([(false, ['t']), (true, ['t']), (true, ['t'])], [.idle, .idle]) := by
    decide +kernel
  obtain ⟨s, hrun, heq⟩ := Option.map_eq_some_iff.mp hmap
  simp only [Prod.mk.injEq] at heq
  obtain ⟨hhandles, hstores⟩ := heq
  have hone := hall logEntry .empty recreatedUnderOpen s hrun
  have hidle : ∀ st ∈ s.stores, st.pc = .idle := by
    intro st hmem
    have hpc : st.pc ∈ s.stores.map Store.pc := List.mem_map_of_mem hmem
    rw [hstores] at hpc
    simpa using hpc
  have hget : ∀ i, i = 1 ∨ i = 2 →
      ∃ hd, s.handles[i]? = some hd ∧ hd.writable = true ∧ hd.w.name = ['t'] := by
    intro i hi
    have hmapi : (s.handles[i]?).map (fun hd => (hd.writable, hd.w.name)) = some (true, ['t']) := by
      rw [← List.getElem?_map, hhandles]
      rcases hi with rfl | rfl <;> rfl
    obtain ⟨hd, hgeti, hpair⟩ := Option.map_eq_some_iff.mp hmapi
    simp only [Prod.mk.injEq] at hpair
    exact ⟨hd, hgeti, hpair⟩
  obtain ⟨hd, hget₁, hw₁, hname₁⟩ := hget 1 (.inl rfl)
  obtain ⟨hd', hget₂, hw₂, hname₂⟩ := hget 2 (.inr rfl)
  have heq := hone.unique 1 hd 2 hd' hget₁ hw₁ (not_deleting_of_idle hidle 1 hd) hget₂ hw₂
    (not_deleting_of_idle hidle 2 hd') (hname₁.trans hname₂.symm)
  cases heq

/-- In a run whose unlinks are all safe, a stream has at most one writable handle
at every moment, and its path names the file the handle writes. -/
theorem one_writer (path : Name → List Char) (disk : Disk) (acts : List Act) (s : World)
    (hrun : Lts.run (step path) (init disk) acts = some s)
    (hsafe : Lts.Meets (step path) (fun s a => s.safeUnlink path a = true) (init disk) acts) :
    s.OneWriter path := by
  have hstep : ∀ (u : World) (a : Act) (v : World), u.Ok ∧ u.Linked ∧ u.Named path →
      u.safeUnlink path a = true → step path u a = some v → v.Ok ∧ v.Linked ∧ v.Named path := by
    rintro u a v ⟨hok, hl, hn⟩ hsafe hstep
    have hcases := step_cases hstep
    exact ⟨hok.step hcases, hl.step hcases, hn.step hok hl hsafe hcases⟩
  have hinv := Lts.run_invariant_of_meets hstep hrun hsafe
    ⟨.init disk, .init disk, .init disk⟩
  exact hinv.2.2.oneWriter hinv.1

/-- Store 1 opens a view, Store 0 deletes the stream and creates it again, and
its process forks. -/
def recreatedUnderView : List Act :=
  storeActs 0 ++ storeActs 1 ++ createActs 0 ['t'] ++ .openStream 1 ['t'] ::
    List.replicate 5 (.sys 1 .ok) ++ deleteActs 0 ['t'] ++ createActs 0 ['t'] ++ [.fork 0]

theorem one_writer_recreatedUnderView :
    ∃ s, Lts.run (step logEntry) (init .empty)
      recreatedUnderView = some s ∧ s.OneWriter logEntry := by
  have hsome : (Lts.run (step logEntry) (init .empty)
      recreatedUnderView).isSome = true := by
    decide +kernel
  obtain ⟨s, hrun⟩ := Option.isSome_iff_exists.mp hsome
  exact ⟨s, hrun, one_writer logEntry .empty recreatedUnderView s
    hrun (by decide +kernel)⟩

end World

end Durastream

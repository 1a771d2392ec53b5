import Durastream.Store.Step

/-!
# What the variables of the world have open

The handles and the methods in progress are the variables that hold open file
descriptions.  `World.claims` says which they are and in which role.  A handle
that may write and a method that has locked the log are owners; a copy made by a
fork is a reader, since `_pid` is another process there.

`World.Ok` is the invariant of every run, whatever the steps: all claims are
valid, so a log has one owner at most (`World.Ok.owner_unique`), and only a
handle that may write is ever in the middle of an append or a `close`.
-/

namespace Durastream

/-- A variable that may have a description open. -/
inductive Var where
  | handle (h : Hid)
  /-- A local variable of the method in progress. -/
  | op (k : Sid)
deriving DecidableEq

def Handle.claim (hd : Handle) : Option Claim :=
  hd.file.map fun d => ⟨hd.pid, d, if hd.writable then .owner else .reader⟩

def CtorPc.claim (p : Pid) : CtorPc → Option Claim
  | .openAppend => none
  | .openRead => none
  | .lock d => some ⟨p, d, .candidate⟩
  | .stat d owner => some ⟨p, d, if owner then .owner else .reader⟩
  | .scan d owner _ => some ⟨p, d, if owner then .owner else .reader⟩
  | .truncate d _ => some ⟨p, d, .owner⟩
  | .sync d _ => some ⟨p, d, .owner⟩

def StorePc.claim (p : Pid) : StorePc → Option Claim
  | .probeLock _ _ d => some ⟨p, d, .candidate⟩
  | .unlink _ _ guard => guard.map fun d => ⟨p, d, .owner⟩
  | .closeGuard _ _ d _ => some ⟨p, d, .owner⟩
  | .ctor _ pc => pc.claim p
  | _ => none

/-- The description a method claims is the one its local variable has open. -/
theorem StorePc.claim_desc {p : Pid} {pc : StorePc} {c : Claim} (h : pc.claim p = some c) :
    pc.desc = some c.did ∧ c.pid = p := by
  cases pc with
  | unlink name why guard =>
      cases guard with
      | none => cases h
      | some d =>
          cases h
          exact ⟨rfl, rfl⟩
  | ctor o pc =>
      cases pc with
      | openAppend => cases h
      | openRead => cases h
      | _ =>
          cases h
          exact ⟨rfl, rfl⟩
  | probeLock name why d =>
      cases h
      exact ⟨rfl, rfl⟩
  | closeGuard name why d removed =>
      cases h
      exact ⟨rfl, rfl⟩
  | _ => cases h

theorem StorePc.claim_of_desc {p : Pid} {pc : StorePc} {d : Did} (h : pc.desc = some d) :
    ∃ c, pc.claim p = some c ∧ c.did = d ∧ c.pid = p := by
  cases pc with
  | unlink name why guard =>
      cases h
      exact ⟨_, rfl, rfl, rfl⟩
  | ctor o pc =>
      cases pc with
      | openAppend => cases h
      | openRead => cases h
      | _ =>
          cases h
          exact ⟨_, rfl, rfl, rfl⟩
  | probeLock name why d =>
      cases h
      exact ⟨_, rfl, rfl, rfl⟩
  | closeGuard name why d removed =>
      cases h
      exact ⟨_, rfl, rfl, rfl⟩
  | _ => cases h

/-- What is true of each handle on its own. -/
structure Handle.Ok (n : Pid) (hd : Handle) : Prop where
  pid : hd.pid < n
  takenBy : hd.takenBy < n
  busy : hd.w.pc ≠ .idle ∨ hd.closing = true → hd.writable = true
  atRest : hd.closing = true → hd.w.pc = .idle
  file : hd.owner = true → hd.file ≠ none

namespace Handle.Ok

variable {n : Pid} {hd : Handle}

theorem mono {m : Pid} (h : hd.Ok n) (hle : n ≤ m) : hd.Ok m :=
  ⟨Nat.lt_of_lt_of_le h.pid hle, Nat.lt_of_lt_of_le h.takenBy hle, h.busy, h.atRest, h.file⟩

theorem gone (h : hd.Ok n) : hd.gone.Ok n := by
  refine ⟨h.pid, h.takenBy, ?_, fun _ => rfl, ?_⟩
  · intro hbusy
    rcases hbusy with hpc | hclosing
    · exact absurd rfl hpc
    · cases hclosing
  · intro howner
    cases howner

theorem closeFds (h : hd.Ok n) (hfree : hd.Free) : hd.closeFds.Ok n := by
  refine ⟨h.pid, h.takenBy, ?_, h.atRest, ?_⟩
  · intro hbusy
    rcases hbusy with hpc | hclosing
    · exact absurd hfree.1 hpc
    · exact absurd hclosing (by rw [Handle.closeFds, hfree.2.1]; simp)
  · intro howner
    cases howner

theorem forked {k : Sid} (h : hd.Ok n) : (hd.forked n k).Ok (n + 1) := by
  refine ⟨Nat.lt_succ_self n, Nat.lt_succ_of_lt h.takenBy, ?_, fun _ => rfl, h.file⟩
  intro hbusy
  rcases hbusy with hpc | hclosing
  · exact absurd rfl hpc
  · cases hclosing

/-- The copy in a new process never writes. -/
theorem not_writable_forked {k : Sid} (h : hd.Ok n) : (hd.forked n k).writable = false := by
  have hne : hd.takenBy ≠ n := Nat.ne_of_lt h.takenBy
  simp [Handle.writable, Handle.forked, hne]

end Handle.Ok

namespace World

/-- What the variables of all processes have open. -/
def claims (s : World) : Claims Var
  | .handle h => (s.handles[h]?).bind Handle.claim
  | .op k => (s.stores[k]?).bind fun st => st.pc.claim st.pid

structure Ok (s : World) : Prop where
  claims : Claims.Valid s.fs s.claims
  stores : ∀ st ∈ s.stores, st.pid < s.nextPid
  handles : ∀ hd ∈ s.handles, hd.Ok s.nextPid
  live : ∀ p ∈ s.live, p < s.nextPid

variable {s t : World} {k : Sid} {h : Hid} {st st' : Store} {hd hd' : Handle}
  {out : Outcome} {a : Act}

theorem claims_handle (hget : s.handles[h]? = some hd) : s.claims (.handle h) = hd.claim := by
  simp [claims, hget]

/-- A handle claims the file that it has open. -/
theorem claims_file (hget : s.handles[h]? = some hd) {d : Did} (hfile : hd.file = some d) :
    s.claims (.handle h) = some ⟨hd.pid, d, if hd.writable then .owner else .reader⟩ := by
  rw [claims_handle hget, Handle.claim, hfile]
  rfl

/-- A handle that may write is an owner. -/
theorem claims_writable (hget : s.handles[h]? = some hd) (hw : hd.writable = true) {d : Did}
    (hfile : hd.file = some d) : s.claims (.handle h) = some ⟨hd.pid, d, .owner⟩ := by
  rw [claims_file hget hfile, if_pos hw]

theorem claims_op (hk : s.stores[k]? = some st) : s.claims (.op k) = st.pc.claim st.pid := by
  simp [claims, hk]

section Set

variable (hk : s.stores[k]? = some st) (hstores : t.stores = s.stores.set k st')
  (hhandles : t.handles = s.handles)

include hk hstores

theorem claims_set_self : t.claims (.op k) = st'.pc.claim st'.pid := by
  have hlt := (List.getElem?_eq_some_iff.mp hk).1
  simp [claims, hstores, hlt]

omit hk in
include hhandles in
theorem claims_set_of_ne {v : Var} (hne : v ≠ .op k) : t.claims v = s.claims v := by
  cases v with
  | handle h => simp [claims, hhandles]
  | op j =>
      have hjk : k ≠ j := fun heq => hne (heq ▸ rfl)
      simp [claims, hstores, hjk]

end Set

theorem claims_setHandle_self (hget : s.handles[h]? = some hd) :
    (s.setHandle h hd').claims (.handle h) = hd'.claim := by
  have hlt := (List.getElem?_eq_some_iff.mp hget).1
  simp [claims, setHandle, hlt]

theorem claims_setHandle_of_ne {v : Var} (hne : v ≠ .handle h) :
    (s.setHandle h hd').claims v = s.claims v := by
  cases v with
  | op k => rfl
  | handle j =>
      have hjh : h ≠ j := fun heq => hne (heq ▸ rfl)
      simp [claims, setHandle, hjh]

namespace Ok

theorem init (disk : Disk) : (World.init disk).Ok :=
  ⟨.none fun v => by cases v <;> rfl, fun _ hst => absurd hst List.not_mem_nil,
    fun _ hhd => absurd hhd List.not_mem_nil, fun _ hp => absurd hp List.not_mem_nil⟩

/-- One handle at most may write a log, and no method has locked it then. -/
theorem owner_unique (hs : s.Ok) {v v' : Var} {c c' : Claim} (hv : s.claims v = some c)
    (hv' : s.claims v' = some c') (hrole : c.role = .owner) (hrole' : c'.role = .owner)
    (hino : s.fs.ino c.did = s.fs.ino c'.did) : v = v' :=
  hs.claims.owner_unique hv hv' hrole hrole' hino

theorem handle (hs : s.Ok) (hget : s.handles[h]? = some hd) : hd.Ok s.nextPid :=
  hs.handles hd (List.mem_of_getElem? hget)

/-- What is claimed has been opened. -/
theorem lt_of_claim (hs : s.Ok) {v : Var} {c : Claim} (hv : s.claims v = some c) :
    c.did < s.fs.descs.length := LockFs.lt_of_mem_refs (hs.claims.valid v c hv).ref

theorem lt_of_file (hs : s.Ok) (hget : s.handles[h]? = some hd) {d : Did}
    (hfile : hd.file = some d) : d < s.fs.descs.length :=
  hs.lt_of_claim (claims_file hget hfile)

/-- A handle that may write has its file open. -/
theorem exists_file (hs : s.Ok) (hget : s.handles[h]? = some hd) (hw : hd.writable = true) :
    ∃ d, hd.file = some d := by
  have howner : hd.owner = true := by
    rw [Handle.writable, Bool.and_eq_true] at hw
    exact hw.1
  exact Option.ne_none_iff_exists'.mp ((hs.handle hget).file howner)

/-! ### Steps of a method -/

/-- Store `k` goes on, with claims that are valid. -/
theorem ofSet (hs : s.Ok) (hk : s.stores[k]? = some st) (hstores : t.stores = s.stores.set k st')
    (hpid : st'.pid = st.pid) (hhandles : t.handles = s.handles)
    (hnext : t.nextPid = s.nextPid) (hlive : t.live = s.live)
    (hclaims : Claims.Valid t.fs t.claims) : t.Ok := by
  refine ⟨hclaims, ?_, ?_, ?_⟩
  · intro st₀ hmem
    rw [hstores] at hmem
    rw [hnext]
    rcases List.mem_or_eq_of_mem_set hmem with hmem | rfl
    · exact hs.stores st₀ hmem
    · rw [hpid]
      exact hs.stores st (List.mem_of_getElem? hk)
  · rw [hhandles, hnext]
    exact hs.handles
  · rw [hlive, hnext]
    exact hs.live

/-- Store `k` goes on with the same claim, and entries and contents may change. -/
theorem goOn (hs : s.Ok) (hk : s.stores[k]? = some st) (hstores : t.stores = s.stores.set k st')
    (hpid : st'.pid = st.pid) (hhandles : t.handles = s.handles)
    (hnext : t.nextPid = s.nextPid) (hlive : t.live = s.live)
    (hdescs : t.fs.descs = s.fs.descs) (hlocks : t.fs.locks = s.fs.locks)
    (hclaim : ∀ c, st'.pc.claim st.pid = some c → st.pc.claim st.pid = some c) : t.Ok := by
  refine hs.ofSet hk hstores hpid hhandles hnext hlive (hs.claims.sub hdescs hlocks ?_)
  intro v c hv
  by_cases hvk : v = .op k
  · subst hvk
    rw [claims_set_self hk hstores, hpid] at hv
    rw [claims_op hk]
    exact hclaim c hv
  · rwa [claims_set_of_ne hstores hhandles hvk] at hv

/-- The method in Store `k` opens a file. -/
theorem opens (hs : s.Ok) (hk : s.stores[k]? = some st) (hstores : t.stores = s.stores.set k st')
    (hpid : st'.pid = st.pid) (hhandles : t.handles = s.handles)
    (hnext : t.nextPid = s.nextPid) (hlive : t.live = s.live) {fs : LockFs (List Char) UInt8}
    {i : Nat} (hdescs : fs.descs = s.fs.descs) (hlocks : fs.locks = s.fs.locks)
    (hfs : t.fs = fs.openFile st.pid i) {role : Role} (hrole : role ≠ .owner)
    (hclaim : st'.pc.claim st.pid = some ⟨st.pid, s.fs.descs.length, role⟩) : t.Ok := by
  refine hs.ofSet hk hstores hpid hhandles hnext hlive ?_
  have hvalid : Claims.Valid fs s.claims := hs.claims.sub hdescs hlocks fun _ _ hv => hv
  rw [hfs]
  refine hvalid.openFile (u := .op k) hrole ?_ fun v hne =>
    claims_set_of_ne hstores hhandles hne
  rw [claims_set_self hk hstores, hpid, hclaim, hdescs]

/-- The method in Store `k` is granted the lock of what it has open. -/
theorem locks (hs : s.Ok) (hk : s.stores[k]? = some st) (hstores : t.stores = s.stores.set k st')
    (hpid : st'.pid = st.pid) (hhandles : t.handles = s.handles)
    (hnext : t.nextPid = s.nextPid) (hlive : t.live = s.live) {d : Did}
    (hcan : s.fs.canLock d = true) (hfs : t.fs = s.fs.lock d)
    (hbefore : st.pc.claim st.pid = some ⟨st.pid, d, .candidate⟩)
    (hafter : st'.pc.claim st.pid = some ⟨st.pid, d, .owner⟩) : t.Ok := by
  refine hs.ofSet hk hstores hpid hhandles hnext hlive ?_
  rw [hfs]
  refine hs.claims.lock (u := .op k) (p := st.pid) ?_ ?_
    (fun v hne => claims_set_of_ne hstores hhandles hne) hcan
  · rw [claims_op hk, hbefore]
  · rw [claims_set_self hk hstores, hpid, hafter]

/-- The method in Store `k` closes what it has open. -/
theorem closes (hs : s.Ok) (hk : s.stores[k]? = some st) (hstores : t.stores = s.stores.set k st')
    (hpid : st'.pid = st.pid) (hhandles : t.handles = s.handles)
    (hnext : t.nextPid = s.nextPid) (hlive : t.live = s.live) {d : Did}
    (hdesc : st.pc.desc = some d) (hfs : t.fs = s.fs.close st.pid d)
    (hafter : st'.pc.claim st.pid = none) : t.Ok := by
  refine hs.ofSet hk hstores hpid hhandles hnext hlive ?_
  obtain ⟨c, hc, hdid, hcpid⟩ := StorePc.claim_of_desc (p := st.pid) hdesc
  rw [hfs, ← hdid, ← hcpid]
  refine hs.claims.close (u := .op k) ?_ ?_ fun v hne => claims_set_of_ne hstores hhandles hne
  · rw [claims_op hk, hc]
  · rw [claims_set_self hk hstores, hpid, hafter]

/-- The method in Store `k` raises. -/
theorem fail (hs : s.Ok) (hk : s.stores[k]? = some st) (e : Error) : (s.fail k st e).Ok := by
  cases hdesc : st.pc.desc with
  | none =>
      have hfail : s.fail k st e = s.finish k st (.error e) := by rw [World.fail, hdesc]; rfl
      rw [hfail]
      exact hs.goOn hk rfl rfl rfl rfl rfl rfl rfl fun c hc => by cases hc
  | some d =>
      have hfail : s.fail k st e = (s.setFs (s.fs.close st.pid d)).finish k st (.error e) := by
        rw [World.fail, hdesc]
        rfl
      rw [hfail]
      exact hs.closes hk rfl rfl rfl rfl rfl hdesc rfl rfl

/-- The handle under construction becomes one of the Store. -/
theorem openedStream (hs : s.Ok) (hk : s.stores[k]? = some st) {fs : LockFs (List Char) UInt8}
    {o : Opening} {d : Did} {owner : Bool} {index : List Nat} (hdescs : fs.descs = s.fs.descs)
    (hlocks : fs.locks = s.fs.locks)
    (hclaim : st.pc.claim st.pid = some ⟨st.pid, d, if owner then .owner else .reader⟩) :
    ((s.setFs fs).openedStream k st o d owner index).Ok := by
  have hlt := (List.getElem?_eq_some_iff.mp hk).1
  have hpid := hs.stores st (List.mem_of_getElem? hk)
  have hvalid : Claims.Valid fs s.claims := hs.claims.sub hdescs hlocks fun _ _ hv => hv
  refine ⟨?_, ?_, ?_, hs.live⟩
  · have hbefore : s.claims (.op k) =
        some ⟨st.pid, d, if owner then .owner else .reader⟩ := by
      rw [claims_op hk, hclaim]
    have hop : ((s.setFs fs).openedStream k st o d owner index).claims (.op k) = none := by
      cases hcreated : o.created <;>
        simp [World.openedStream, World.claims, setFs, hlt, hcreated, StorePc.claim]
    have hhandle : ((s.setFs fs).openedStream k st o d owner index).claims
        (.handle s.handles.length) = some ⟨st.pid, d, if owner then .owner else .reader⟩ := by
      simp [World.openedStream, World.claims, setFs, Handle.claim, Handle.writable]
    refine hvalid.move hbefore (by simp) hop hhandle ?_
    intro v hne hne'
    cases v with
    | op j =>
        have hjk : k ≠ j := fun heq => hne (heq ▸ rfl)
        simp [World.openedStream, World.claims, setFs, hjk]
    | handle j =>
        have hj : j ≠ s.handles.length := fun heq => hne' (heq ▸ rfl)
        rcases Nat.lt_or_gt_of_ne hj with hj | hj
        · simp [World.openedStream, World.claims, setFs, List.getElem?_append_left hj]
        · have hnone : s.handles[j]? = none := List.getElem?_eq_none (by omega)
          simp only [World.openedStream, World.claims, setFs, hnone]
          rw [List.getElem?_eq_none (by simp; omega)]
  · intro st₀ hmem
    rcases List.mem_or_eq_of_mem_set hmem with hmem | rfl
    · exact hs.stores st₀ hmem
    · exact hpid
  · intro hd hmem
    rcases List.mem_append.mp hmem with hmem | hmem
    · exact hs.handles hd hmem
    · rw [List.mem_singleton.mp hmem]
      refine ⟨hpid, hpid, ?_, fun _ => rfl, ?_⟩
      · intro hbusy
        rcases hbusy with hpc | hclosing
        · exact absurd rfl hpc
        · cases hclosing
      · intro _ hnone
        cases hnone

theorem ctorStep {path : Name → List Char} (hs : s.Ok) (hk : s.stores[k]? = some st) {o : Opening}
    {pc : CtorPc} (hpc : st.pc = .ctor o pc) (hstep : CtorStep path s k st out o pc t) : t.Ok := by
  have hclaim : st.pc.claim st.pid = pc.claim st.pid := by
    rw [hpc]
    rfl
  have hdesc : st.pc.desc = pc.desc := by
    rw [hpc]
    rfl
  cases hstep with
  | failed _ e => exact hs.fail hk e
  | opened =>
      have hrole : Role.candidate ≠ .owner := by simp
      cases hcur : (s.fs.dir (path o.name)).cur with
      | some i =>
          have hfs : s.fs.openCreate st.pid (path o.name) = s.fs.openFile st.pid i := by
            rw [LockFs.openCreate, hcur]
          exact hs.opens hk rfl rfl rfl rfl rfl rfl rfl hfs hrole rfl
      | none =>
          have hfs : s.fs.openCreate st.pid (path o.name) =
              (s.fs.create (path o.name)).openFile st.pid s.fs.nextIno := by
            rw [LockFs.openCreate, hcur]
          have hdescs : (s.fs.create (path o.name)).descs = s.fs.descs := rfl
          exact hs.opens hk rfl rfl rfl rfl rfl hdescs rfl hfs hrole rfl
  | denied => exact hs.goOn hk rfl rfl rfl rfl rfl rfl rfl fun c hc => by cases hc
  | openedRead i hcur =>
      have hrole : Role.reader ≠ .owner := by simp
      exact hs.opens hk rfl rfl rfl rfl rfl rfl rfl rfl hrole rfl
  | locked d hok hcan => exact hs.locks hk rfl rfl rfl rfl rfl hcan rfl hclaim rfl
  | blocked d hcan =>
      have hstores : (s.goto k st (.ctor o (.stat d false))).stores =
          s.stores.set k { st with pc := .ctor o (.stat d false) } := rfl
      refine hs.ofSet hk hstores rfl rfl rfl rfl ?_
      have hbefore : s.claims (.op k) = some ⟨st.pid, d, .candidate⟩ := by
        rw [claims_op hk, hclaim]
        rfl
      exact hs.claims.toReader hbefore (claims_set_self hk hstores) fun v hne =>
        claims_set_of_ne hstores rfl hne
  | lockDenied d => exact hs.closes hk rfl rfl rfl rfl rfl hdesc rfl rfl
  | stat d owner =>
      exact hs.goOn hk rfl rfl rfl rfl rfl rfl rfl fun c hc => hclaim ▸ hc
  | torn d size i hcur hne =>
      exact hs.goOn hk rfl rfl rfl rfl rfl rfl rfl fun c hc => hclaim ▸ hc
  | scanned d owner size i hcur hend => exact hs.openedStream hk rfl rfl hclaim
  | cut d index =>
      exact hs.goOn hk rfl rfl rfl rfl rfl rfl rfl fun c hc => hclaim ▸ hc
  | synced d index => exact hs.openedStream hk rfl rfl hclaim

/-! ### Steps of a handle -/

/-- A handle changes, and with it entries and contents, but not its claim. -/
theorem setHandle (hs : s.Ok) (hget : s.handles[h]? = some hd)
    (hstores : t.stores = s.stores) (hhandles : t.handles = s.handles.set h hd')
    (hnext : t.nextPid = s.nextPid) (hlive : t.live = s.live) (hok : hd'.Ok s.nextPid)
    (hdescs : t.fs.descs = s.fs.descs) (hlocks : t.fs.locks = s.fs.locks)
    (hclaim : hd'.claim = hd.claim) : t.Ok := by
  have hlt := (List.getElem?_eq_some_iff.mp hget).1
  refine ⟨hs.claims.sub hdescs hlocks ?_, ?_, ?_, ?_⟩
  · intro v c hv
    cases v with
    | op k => simpa [World.claims, hstores] using hv
    | handle j =>
        by_cases hj : h = j
        · subst hj
          rw [World.claims, hhandles, List.getElem?_set_self hlt, Option.bind_some, hclaim] at hv
          rw [claims_handle hget, hv]
        · simpa [World.claims, hhandles, hj] using hv
  · rw [hstores, hnext]
    exact hs.stores
  · intro hd₀ hmem
    rw [hhandles] at hmem
    rw [hnext]
    rcases List.mem_or_eq_of_mem_set hmem with hmem | rfl
    · exact hs.handles hd₀ hmem
    · exact hok
  · rw [hlive, hnext]
    exact hs.live

/-- A handle is closed. -/
theorem closeFds (hs : s.Ok) (hget : s.handles[h]? = some hd) (hfree : hd.Free) :
    (s.closeFds h hd).Ok := by
  have hok := (hs.handle hget).closeFds hfree
  cases hfile : hd.file with
  | none =>
      have hclose : s.closeFds h hd = s.setHandle h hd.closeFds := by
        rw [World.closeFds, hfile]
        rfl
      rw [hclose]
      refine hs.setHandle hget rfl rfl rfl rfl hok rfl rfl ?_
      rw [Handle.claim, Handle.claim, hfile]
      rfl
  | some d =>
      have hclose : s.closeFds h hd =
          (s.setFs (s.fs.close hd.pid d)).setHandle h hd.closeFds := by
        rw [World.closeFds, hfile]
        rfl
      rw [hclose]
      have hvalid : Claims.Valid (s.fs.close hd.pid d)
          ((s.setFs (s.fs.close hd.pid d)).setHandle h hd.closeFds).claims := by
        refine hs.claims.close (claims_file hget hfile) ?_ ?_
        · rw [claims_setHandle_self (s := s.setFs (s.fs.close hd.pid d)) hget]
          rfl
        · intro v hne
          rw [claims_setHandle_of_ne hne]
          cases v <;> rfl
      refine ⟨hvalid, hs.stores, ?_, hs.live⟩
      intro hd₀ hmem
      rcases List.mem_or_eq_of_mem_set hmem with hmem | rfl
      · exact hs.handles hd₀ hmem
      · exact hok

/-- Store `k` goes on and claims nothing. -/
theorem quiet (hs : s.Ok) (hk : s.stores[k]? = some st) (hpid : st'.pid = st.pid)
    (hclaim : st'.pc.claim st.pid = none) : (s.setStore k st').Ok :=
  hs.goOn hk rfl hpid rfl rfl rfl rfl rfl fun c hc => by
    rw [hclaim] at hc
    cases hc

theorem unlinked_claim {p : Pid} {name : Name} {why : Purpose} {guard : Option Did}
    {removed : Option Bool} :
    (unlinked name why guard removed).claim p = guard.map fun d => ⟨p, d, .owner⟩ := by
  cases guard with
  | some d => rfl
  | none =>
      cases removed with
      | none => rfl
      | some removed =>
          cases why with
          | create contentType asked => rfl
          | delete own =>
              cases own with
              | some h => rfl
              | none => cases removed <;> rfl

theorem sysStep {path : Name → List Char} (hs : s.Ok) (hk : s.stores[k]? = some st)
    {pc : StorePc} (hpc : st.pc = pc) (hstep : SysStep path s k st out pc t) : t.Ok := by
  have hclaim : st.pc.claim st.pid = pc.claim st.pid := by rw [hpc]
  have hdesc : st.pc.desc = pc.desc := by rw [hpc]
  cases hstep with
  | failed _ e _ _ _ => exact hs.fail hk e
  | found name given row hmeta hrow => exact hs.quiet hk rfl rfl
  | missing name given hmeta hrow => exact hs.quiet hk rfl rfl
  | probed name why i hcur =>
      have hrole : Role.candidate ≠ .owner := by simp
      exact hs.opens hk rfl rfl rfl rfl rfl rfl rfl rfl hrole rfl
  | noLog name why hcur => exact hs.quiet hk rfl rfl
  | guarded name why d hcan => exact hs.locks hk rfl rfl rfl rfl rfl hcan rfl hclaim rfl
  | unlinked name why guard i hok hcur =>
      refine hs.goOn hk rfl rfl rfl rfl rfl rfl rfl fun c hc => ?_
      rw [hclaim]
      rw [unlinked_claim] at hc
      exact hc
  | kept name why guard removed hkept =>
      refine hs.goOn hk rfl rfl rfl rfl rfl rfl rfl fun c hc => ?_
      rw [hclaim]
      rw [unlinked_claim] at hc
      exact hc
  | released name why d removed =>
      refine hs.closes hk rfl rfl rfl rfl rfl hdesc rfl ?_
      show (Durastream.unlinked name why none (some removed)).claim st.pid = none
      exact unlinked_claim
  | raised name why d => exact hs.closes hk rfl rfl rfl rfl rfl hdesc rfl rfl
  | inserted name contentType asked hok hrow =>
      exact hs.goOn hk rfl rfl rfl rfl rfl rfl rfl fun c hc => by cases hc
  | ctor o pc _ hctor => exact hs.ctorStep hk hpc hctor
  | dirSynced h => exact hs.goOn hk rfl rfl rfl rfl rfl rfl rfl fun c hc => by cases hc
  | delClosed name h removed hd hget hfree =>
      have hk' : (s.closeFds h hd).stores[k]? = some st := by rw [stores_closeFds, hk]
      refine (hs.closeFds hget hfree).quiet hk' rfl ?_
      cases removed <;> rfl
  | delDirSynced name => exact hs.goOn hk rfl rfl rfl rfl rfl rfl rfl fun c hc => by cases hc
  | deleted name => exact hs.goOn hk rfl rfl rfl rfl rfl rfl rfl fun c hc => by cases hc
  | closing h streams hd hget hfree =>
      have hk' : (s.closeFds h hd).stores[k]? = some st := by rw [stores_closeFds, hk]
      exact (hs.closeFds hget hfree).quiet hk' rfl rfl
  | closed => exact hs.quiet hk rfl rfl

theorem callStep (hs : s.Ok) (hk : s.stores[k]? = some st) (hstep : CallStep s k st a t) :
    t.Ok := by
  cases hstep with
  | done r => exact hs.quiet hk rfl rfl
  | lookup name given hnone => exact hs.quiet hk rfl rfl
  | deleteOwn k' name h hd ha hopened hget hw => exact hs.quiet hk rfl rfl
  | deleteOther k' name own ha hown => exact hs.quiet hk rfl rfl
  | close => exact hs.quiet hk rfl rfl

/-- Only a handle that may write is in the middle of an append. -/
theorem writable_of_io {f f' : CrashFile UInt8} {w : Writer} {fate : Option Fate}
    (hok : hd.Ok s.nextPid) (hw : Writer.Step f hd.w f' w fate) : hd.writable = true :=
  hok.busy (.inl hw.busy)

theorem handleStep (hs : s.Ok) (hget : s.handles[h]? = some hd) (hstep : HandleStep s h hd a t) :
    t.Ok := by
  have hok := hs.handle hget
  cases hstep with
  | refused => exact hs
  | started payloads w hfree hbegin =>
      have hw := (Writer.begin_started hbegin).2.1
      have hrest : hd.closing = true → w.pc = .idle := by
        intro hclosing
        rw [hfree.2.1] at hclosing
        cases hclosing
      exact hs.setHandle hget rfl rfl rfl rfl
        ⟨hok.pid, hok.takenBy, fun _ => hw, hrest, hok.file⟩ rfl rfl rfl
  | io d f w fate hfile hw hret =>
      have hwritable := writable_of_io hok hw
      have hrest : hd.closing = true → w.pc = .idle := fun hclosing =>
        absurd (hok.atRest hclosing) hw.busy
      exact hs.setHandle hget rfl rfl rfl rfl
        ⟨hok.pid, hok.takenBy, fun _ => hwritable, hrest, hok.file⟩ rfl rfl rfl
  | closing hfree hw =>
      exact hs.setHandle hget rfl rfl rfl rfl
        ⟨hok.pid, hok.takenBy, fun _ => hw, fun _ => hfree.1, hok.file⟩ rfl rfl rfl
  | updated d rows hclosing hfile hrows =>
      have hw := hok.busy (.inr hclosing)
      exact hs.setHandle hget rfl rfl rfl rfl
        ⟨hok.pid, hok.takenBy, fun _ => hw, (fun h => by cases h), hok.file⟩ rfl rfl rfl
  | updateFailed hclosing =>
      have hw := hok.busy (.inr hclosing)
      exact hs.setHandle hget rfl rfl rfl rfl
        ⟨hok.pid, hok.takenBy, fun _ => hw, (fun h => by cases h), hok.file⟩ rfl rfl rfl

/-! ### Processes -/

/-- The original of each variable of a forked child. -/
def origin (s : World) : Var → Var
  | .handle h => .handle (h - s.handles.length)
  | .op k => .op k

/-- After a fork, a claim is an old one or that of a copy. -/
theorem claims_forkStep {p : Pid} (hs : s.Ok) {v : Var} {c : Claim}
    (hv : (s.forkStep p).claims v = some c) :
    s.claims v = some c ∨
      ∃ h₀ c₀, v = .handle (s.handles.length + h₀) ∧ s.claims (.handle h₀) = some c₀ ∧
        c₀.pid = p ∧ c = c₀.inherited s.nextPid := by
  cases v with
  | op j =>
      obtain ⟨st', hget', hclaim⟩ := Option.bind_eq_some_iff.mp hv
      rcases List.getElem?_append_map_cases hget' with hget | ⟨k, st, -, hget, rfl⟩
      · exact .inl ((claims_op hget).trans hclaim)
      · exfalso
        split at hclaim
        · simp only [Store.forked] at hclaim
          split at hclaim <;> cases hclaim
        · cases hclaim
  | handle j =>
      obtain ⟨hd', hget', hclaim⟩ := Option.bind_eq_some_iff.mp hv
      rcases List.getElem?_append_map_cases hget' with hget | ⟨h₀, hd, rfl, hget, rfl⟩
      · exact .inl ((claims_handle hget).trans hclaim)
      · right
        split at hclaim
        · next hp =>
            have hw := (hs.handle hget).not_writable_forked (k := s.stores.length + hd.store)
            rw [Handle.claim, hw] at hclaim
            obtain ⟨d, hd₀, rfl⟩ := Option.map_eq_some_iff.mp hclaim
            have hfile : hd.file = some d := hd₀
            exact ⟨h₀, _, rfl, claims_file hget hfile, hp, rfl⟩
        · cases hclaim

theorem forkStep {p : Pid} (hs : s.Ok) : (s.forkStep p).Ok := by
  have hpid : ∀ v c, s.claims v = some c → c.pid ≠ s.nextPid := by
    intro v c hv
    refine Nat.ne_of_lt ?_
    cases v with
    | handle h =>
        obtain ⟨hd, hget, hclaim⟩ := Option.bind_eq_some_iff.mp hv
        obtain ⟨d, -, rfl⟩ := Option.map_eq_some_iff.mp hclaim
        exact (hs.handle hget).pid
    | op k =>
        obtain ⟨st, hget, hclaim⟩ := Option.bind_eq_some_iff.mp hv
        rw [(StorePc.claim_desc hclaim).2]
        exact hs.stores st (List.mem_of_getElem? hget)
  refine ⟨?_, ?_, ?_, ?_⟩
  · refine hs.claims.fork (origin s) hpid ?_ ?_
    · intro v c hv
      rcases claims_forkStep hs hv with hv | ⟨h₀, c₀, rfl, hc₀, hp, rfl⟩
      · exact .inl hv
      · refine .inr ⟨c₀, ?_, hp, rfl⟩
        rw [origin, Nat.add_sub_cancel_left]
        exact hc₀
    · intro v v' c c' hv hv' hq hq' horig
      rcases claims_forkStep hs hv with hv | ⟨h₀, c₀, rfl, -, -, rfl⟩
      · exact absurd hq (hpid v c hv)
      · rcases claims_forkStep hs hv' with hv' | ⟨h₁, c₁, rfl, hc₁, hp', rfl⟩
        · exact absurd hq' (hpid v' c' hv')
        · rw [origin, origin, Nat.add_sub_cancel_left, Nat.add_sub_cancel_left] at horig
          cases horig
          rfl
  · intro st hmem
    rcases List.mem_append.mp hmem with hmem | hmem
    · exact Nat.lt_succ_of_lt (hs.stores st hmem)
    · obtain ⟨st₀, hmem₀, rfl⟩ := List.mem_map.mp hmem
      split
      · exact Nat.lt_succ_self _
      · exact Nat.lt_succ_of_lt (hs.stores st₀ hmem₀)
  · intro hd hmem
    rcases List.mem_append.mp hmem with hmem | hmem
    · exact (hs.handles hd hmem).mono (Nat.le_succ _)
    · obtain ⟨hd₀, hmem₀, rfl⟩ := List.mem_map.mp hmem
      split
      · exact (hs.handles hd₀ hmem₀).forked
      · exact (hs.handles hd₀ hmem₀).gone.mono (Nat.le_succ _)
  · intro q hmem
    rcases List.mem_cons.mp hmem with rfl | hmem
    · exact Nat.lt_succ_self _
    · exact Nat.lt_succ_of_lt (hs.live q hmem)

/-- After the end of a process, the claims are those of the others. -/
theorem claims_exitStep {p : Pid} {v : Var} {c : Claim} (hv : (s.exitStep p).claims v = some c) :
    s.claims v = some c ∧ c.pid ≠ p := by
  cases v with
  | op j =>
      obtain ⟨st, hget, hclaim⟩ := Option.bind_eq_some_iff.mp hv
      simp only [World.exitStep, List.getElem?_map] at hget
      obtain ⟨st₀, hget₀, rfl⟩ := Option.map_eq_some_iff.mp hget
      split at hclaim
      · cases hclaim
      · next hp =>
          rw [claims_op hget₀]
          exact ⟨hclaim, (StorePc.claim_desc hclaim).2 ▸ hp⟩
  | handle j =>
      obtain ⟨hd, hget, hclaim⟩ := Option.bind_eq_some_iff.mp hv
      simp only [World.exitStep, List.getElem?_map] at hget
      obtain ⟨hd₀, hget₀, rfl⟩ := Option.map_eq_some_iff.mp hget
      split at hclaim
      · cases hclaim
      · next hp =>
          refine ⟨(claims_handle hget₀).trans hclaim, ?_⟩
          obtain ⟨d, -, rfl⟩ := Option.map_eq_some_iff.mp hclaim
          exact hp

theorem exitStep {p : Pid} (hs : s.Ok) : (s.exitStep p).Ok := by
  refine ⟨hs.claims.exit fun v c hv => claims_exitStep hv, ?_, ?_, ?_⟩
  · intro st hmem
    obtain ⟨st₀, hmem₀, rfl⟩ := List.mem_map.mp hmem
    split
    · exact hs.stores st₀ hmem₀
    · exact hs.stores st₀ hmem₀
  · intro hd hmem
    obtain ⟨hd₀, hmem₀, rfl⟩ := List.mem_map.mp hmem
    split
    · exact (hs.handles hd₀ hmem₀).gone
    · exact hs.handles hd₀ hmem₀
  · intro q hmem
    exact hs.live q (List.mem_of_mem_filter hmem)

/-- Every step keeps the invariant. -/
theorem step {path : Name → List Char} (hs : s.Ok) (hstep : Step path s a t) : t.Ok := by
  cases hstep with
  | spawn =>
      refine ⟨hs.claims, ?_, ?_, ?_⟩
      · exact fun st hmem => Nat.lt_succ_of_lt (hs.stores st hmem)
      · exact fun hd hmem => (hs.handles hd hmem).mono (Nat.le_succ _)
      · intro q hmem
        rcases List.mem_cons.mp hmem with rfl | hmem
        · exact Nat.lt_succ_self _
        · exact Nat.lt_succ_of_lt (hs.live q hmem)
  | newStore p hlive =>
      refine ⟨hs.claims.sub rfl rfl ?_, ?_, hs.handles, hs.live⟩
      · intro v c hv
        cases v with
        | handle h => exact hv
        | op j =>
            by_cases hj : j < s.stores.length
            · simpa [World.claims, List.getElem?_append_left hj] using hv
            · exfalso
              obtain ⟨st, hget, hclaim⟩ := Option.bind_eq_some_iff.mp hv
              rw [List.getElem?_append_right (Nat.le_of_not_lt hj)] at hget
              rw [List.mem_singleton.mp (List.mem_of_getElem? hget)] at hclaim
              cases hclaim
      · intro st hmem
        rcases List.mem_append.mp hmem with hmem | hmem
        · exact hs.stores st hmem
        · rw [List.mem_singleton.mp hmem]
          exact hs.live p hlive
  | call a k st t hk hidle hcall => exact hs.callStep hk hcall
  | sys k st out t hk hsys => exact hs.sysStep hk rfl hsys
  | handle a h hd t hget hhandle => exact hs.handleStep hget hhandle
  | fork p hlive => exact hs.forkStep
  | exit p hlive => exact hs.exitStep
  | powerLoss cell loss =>
      refine ⟨.none ?_, ?_, ?_, fun q hmem => absurd hmem List.not_mem_nil⟩
      · intro v
        cases v with
        | op j =>
            simp only [World.claims, List.getElem?_map]
            cases s.stores[j]? <;> rfl
        | handle j =>
            simp only [World.claims, List.getElem?_map]
            cases s.handles[j]? <;> rfl
      · intro st hmem
        obtain ⟨st₀, hmem₀, rfl⟩ := List.mem_map.mp hmem
        exact hs.stores st₀ hmem₀
      · intro hd hmem
        obtain ⟨hd₀, hmem₀, rfl⟩ := List.mem_map.mp hmem
        exact (hs.handles hd₀ hmem₀).gone

end Ok

end World

end Durastream

import Durastream.Lib.Held
import Durastream.Store.Claims

/-!
# Which logs are locked

Other Stores and processes get `StreamLocked` for a log as long as it is locked, so a
lock that nobody can release is a stream that nobody can write.  Methods close what they
have opened, however they end, and a log is locked exactly as long as somebody holds it:
a handle with `_owner` that has it open, be it the copy in a forked child, or a method in
progress that has locked it (`locked_iff`).

This is so if a process only forks while no method of a Store of it is in progress.  A
child gets all open files, also the one that a method of another thread has open, and no
object of the child knows of that one.  So a log may stay locked until the child ends
(`lock_leaked`).
-/

namespace Durastream

namespace World

/-- The variable has the lock of the file that it has open. -/
def holds (s : World) : Var → Bool
  | .handle h => (s.handles[h]?).any Handle.owner
  | .op k => (s.claims (.op k)).any fun c => c.role = .owner

/-- What the processes have open and locked is what the variables hold. -/
def Tidy (s : World) : Prop := Claims.Held s.fs s.claims s.holds

/-- A process only forks while no method of a Store of it is in progress. -/
def quietFork (s : World) : Act → Bool
  | .fork p => s.stores.all fun st => st.pid ≠ p ∨ st.pc = .idle
  | _ => true

variable {path : Name → List Char} {s t : World} {k : Sid} {h : Hid} {st st' : Store}
  {hd hd' : Handle} {out : Outcome} {a : Act}

theorem holds_handle (hget : s.handles[h]? = some hd) : s.holds (.handle h) = hd.owner := by
  simp [holds, hget]

theorem holds_op (hc : t.claims (.op k) = s.claims (.op k)) :
    t.holds (.op k) = s.holds (.op k) := by
  rw [holds, holds, hc]

section Set

variable (hk : s.stores[k]? = some st) (hstores : t.stores = s.stores.set k st')
  (hhandles : t.handles = s.handles)

include hstores hhandles

theorem holds_set_of_ne {v : Var} (hne : v ≠ .op k) : t.holds v = s.holds v := by
  cases v with
  | handle h => simp [holds, hhandles]
  | op j => exact holds_op (claims_set_of_ne hstores hhandles hne)

end Set

namespace Tidy

theorem init (disk : Disk) : (World.init disk).Tidy :=
  .none (fun _ => rfl) (fun _ => rfl) fun v => by cases v <;> rfl

/-- No variable opens or closes anything. -/
theorem same (hh : s.Tidy) (hdescs : t.fs.descs = s.fs.descs) (hlocks : t.fs.locks = s.fs.locks)
    (hclaims : ∀ v, t.claims v = s.claims v)
    (hholds : ∀ v c, s.claims v = some c → t.holds v = s.holds v) : t.Tidy := by
  refine Claims.Held.keep hh hdescs hlocks ?_ ?_
  · intro v c hc
    rw [hclaims v] at hc
    exact ⟨v, c, hc, rfl, rfl, id, hholds v c hc⟩
  · intro v c hc
    exact ⟨v, c, (hclaims v).trans hc, rfl, rfl⟩

/-! ## Steps of a method -/

/-- Store `k` goes on with the same claim, and entries and contents may change. -/
theorem goOn (hh : s.Tidy) (hk : s.stores[k]? = some st)
    (hstores : t.stores = s.stores.set k st') (hpid : st'.pid = st.pid)
    (hhandles : t.handles = s.handles) (hdescs : t.fs.descs = s.fs.descs)
    (hlocks : t.fs.locks = s.fs.locks)
    (hclaim : st'.pc.claim st.pid = st.pc.claim st.pid) : t.Tidy := by
  have hclaims : ∀ v, t.claims v = s.claims v := by
    intro v
    by_cases hvk : v = .op k
    · subst hvk
      rw [claims_set_self hk hstores, claims_op hk, hpid, hclaim]
    · exact claims_set_of_ne hstores hhandles hvk
  refine hh.same hdescs hlocks hclaims fun v c hc => ?_
  by_cases hvk : v = .op k
  · subst hvk
    exact holds_op (hclaims _)
  · exact holds_set_of_ne hstores hhandles hvk

/-- The method in Store `k` opens a file. -/
theorem opens (hh : s.Tidy) (hs : s.Ok) (hk : s.stores[k]? = some st)
    (hstores : t.stores = s.stores.set k st') (hpid : st'.pid = st.pid)
    (hhandles : t.handles = s.handles) {fs : LockFs (List Char) UInt8} {i : Nat}
    (hdescs : fs.descs = s.fs.descs) (hlocks : fs.locks = s.fs.locks)
    (hfs : t.fs = fs.openFile st.pid i) {role : Role} (hrole : role ≠ .owner)
    (hbefore : st.pc.claim st.pid = none)
    (hclaim : st'.pc.claim st.pid = some ⟨st.pid, s.fs.descs.length, role⟩) : t.Tidy := by
  have hvalid : Claims.Valid fs s.claims := hs.claims.sub hdescs hlocks fun _ _ hv => hv
  have hheld : Claims.Held fs s.claims s.holds :=
    Claims.Held.keep hh hdescs hlocks (fun v c hc => ⟨v, c, hc, rfl, rfl, id, rfl⟩)
      fun v c hc => ⟨v, c, hc, rfl, rfl⟩
  have hself : t.claims (.op k) = some ⟨st.pid, fs.descs.length, role⟩ := by
    rw [claims_set_self hk hstores, hpid, hclaim, hdescs]
  rw [Tidy, hfs]
  refine hheld.openFile hvalid (u := .op k) ?_ hself
    (fun v hne => claims_set_of_ne hstores hhandles hne) ?_
    fun v hne => holds_set_of_ne hstores hhandles hne
  · rw [claims_op hk, hbefore]
  · rw [holds, hself]
    simpa using hrole

/-- The method in Store `k` is granted the lock of what it has open. -/
theorem locks (hh : s.Tidy) (hs : s.Ok) (hk : s.stores[k]? = some st)
    (hstores : t.stores = s.stores.set k st') (hpid : st'.pid = st.pid)
    (hhandles : t.handles = s.handles) {d : Did} (hcan : s.fs.canLock d = true)
    (hfs : t.fs = s.fs.lock d)
    (hbefore : st.pc.claim st.pid = some ⟨st.pid, d, .candidate⟩)
    (hafter : st'.pc.claim st.pid = some ⟨st.pid, d, .owner⟩) : t.Tidy := by
  have hself : t.claims (.op k) = some ⟨st.pid, d, .owner⟩ := by
    rw [claims_set_self hk hstores, hpid, hafter]
  rw [Tidy, hfs]
  refine Claims.Held.lock hh hs.claims (u := .op k) ?_ hself
    (fun v hne => claims_set_of_ne hstores hhandles hne) hcan ?_
    fun v hne => holds_set_of_ne hstores hhandles hne
  · rw [claims_op hk, hbefore]
  · rw [holds, hself]
    rfl

/-- The method in Store `k` closes what it has open. -/
theorem closes (hh : s.Tidy) (hk : s.stores[k]? = some st)
    (hstores : t.stores = s.stores.set k st') (hpid : st'.pid = st.pid)
    (hhandles : t.handles = s.handles) {d : Did} (hdesc : st.pc.desc = some d)
    (hfs : t.fs = s.fs.close st.pid d) (hafter : st'.pc.claim st.pid = none) : t.Tidy := by
  obtain ⟨c, hc, hdid, hcpid⟩ := StorePc.claim_of_desc (p := st.pid) hdesc
  rw [Tidy, hfs, ← hdid, ← hcpid]
  refine Claims.Held.close hh (u := .op k) ?_ ?_
    (fun v hne => claims_set_of_ne hstores hhandles hne)
    fun v hne => holds_set_of_ne hstores hhandles hne
  · rw [claims_op hk, hc]
  · rw [claims_set_self hk hstores, hpid, hafter]

/-- The method in Store `k` raises. -/
theorem fail (hh : s.Tidy) (hk : s.stores[k]? = some st) (e : Error) : (s.fail k st e).Tidy := by
  cases hdesc : st.pc.desc with
  | none =>
      have hfail : s.fail k st e = s.finish k st (.error e) := by rw [World.fail, hdesc]; rfl
      have hclaim : st.pc.claim st.pid = none := by
        cases hclaim : st.pc.claim st.pid with
        | none => rfl
        | some c =>
            rw [(StorePc.claim_desc hclaim).1] at hdesc
            cases hdesc
      rw [hfail]
      exact hh.goOn hk rfl rfl rfl rfl rfl hclaim.symm
  | some d =>
      have hfail : s.fail k st e = (s.setFs (s.fs.close st.pid d)).finish k st (.error e) := by
        rw [World.fail, hdesc]
        rfl
      rw [hfail]
      exact hh.closes hk rfl rfl rfl hdesc rfl rfl

/-- The handle under construction becomes one of the Store. -/
theorem openedStream (hh : s.Tidy) (hk : s.stores[k]? = some st) {fs : LockFs (List Char) UInt8}
    {o : Opening} {d : Did} {owner : Bool} {index : List Nat} (hdescs : fs.descs = s.fs.descs)
    (hlocks : fs.locks = s.fs.locks)
    (hclaim : st.pc.claim st.pid = some ⟨st.pid, d, if owner then .owner else .reader⟩) :
    ((s.setFs fs).openedStream k st o d owner index).Tidy := by
  have hlt := (List.getElem?_eq_some_iff.mp hk).1
  have hbefore : s.claims (.op k) = some ⟨st.pid, d, if owner then .owner else .reader⟩ := by
    rw [claims_op hk, hclaim]
  have hop : ((s.setFs fs).openedStream k st o d owner index).claims (.op k) = none := by
    cases hcreated : o.created <;>
      simp [World.openedStream, World.claims, setFs, hlt, hcreated, StorePc.claim]
  have hself : ((s.setFs fs).openedStream k st o d owner index).claims
      (.handle s.handles.length) = some ⟨st.pid, d, if owner then .owner else .reader⟩ := by
    simp [World.openedStream, World.claims, setFs, Handle.claim, Handle.writable]
  have hother : ∀ v, v ≠ .op k → v ≠ .handle s.handles.length →
      ((s.setFs fs).openedStream k st o d owner index).claims v = s.claims v ∧
      ((s.setFs fs).openedStream k st o d owner index).holds v = s.holds v := by
    intro v hne hne'
    cases v with
    | op j =>
        have hjk : k ≠ j := fun heq => hne (heq ▸ rfl)
        have hc : ((s.setFs fs).openedStream k st o d owner index).claims (.op j) =
            s.claims (.op j) := by
          simp [World.openedStream, World.claims, setFs, hjk]
        exact ⟨hc, holds_op hc⟩
    | handle j =>
        have hj : j ≠ s.handles.length := fun heq => hne' (heq ▸ rfl)
        have hget : ((s.setFs fs).openedStream k st o d owner index).handles[j]? =
            s.handles[j]? := by
          rcases Nat.lt_or_gt_of_ne hj with hj | hj
          · exact List.getElem?_append_left hj
          · rw [List.getElem?_eq_none (Nat.le_of_lt hj)]
            refine List.getElem?_eq_none ?_
            simp only [World.openedStream, setFs, List.length_append, List.length_singleton]
            exact hj
        exact ⟨by rw [World.claims, World.claims, hget], by rw [holds, holds, hget]⟩
  refine Claims.Held.keep hh hdescs hlocks ?_ ?_
  · intro v c hc
    by_cases hvk : v = .op k
    · rw [hvk, hop] at hc
      cases hc
    · by_cases hvh : v = .handle s.handles.length
      · subst hvh
        rw [hself] at hc
        cases hc
        refine ⟨.op k, _, hbefore, rfl, rfl, id, ?_⟩
        have hheld : s.holds (.op k) = owner := by
          rw [holds, hbefore]
          cases owner <;> rfl
        rw [hheld]
        simp [World.openedStream, holds, setFs]
      · obtain ⟨hclaims, hholds⟩ := hother v hvk hvh
        exact ⟨v, c, hclaims ▸ hc, rfl, rfl, id, hholds⟩
  · intro v c hc
    by_cases hvk : v = .op k
    · subst hvk
      rw [hbefore] at hc
      cases hc
      exact ⟨_, _, hself, rfl, rfl⟩
    · refine ⟨v, c, ?_, rfl, rfl⟩
      rw [(hother v hvk ?_).1, hc]
      rintro rfl
      simp [World.claims] at hc

theorem ctorStep (hh : s.Tidy) (hs : s.Ok) (hk : s.stores[k]? = some st) {o : Opening}
    {pc : CtorPc} (hpc : st.pc = .ctor o pc) (hstep : CtorStep path s k st out o pc t) :
    t.Tidy := by
  have hclaim : st.pc.claim st.pid = pc.claim st.pid := by
    rw [hpc]
    rfl
  have hdesc : st.pc.desc = pc.desc := by
    rw [hpc]
    rfl
  cases hstep with
  | failed _ e => exact hh.fail hk e
  | opened =>
      have hrole : Role.candidate ≠ .owner := by simp
      cases hcur : (s.fs.dir (path o.name)).cur with
      | some i =>
          have hfs : s.fs.openCreate st.pid (path o.name) = s.fs.openFile st.pid i := by
            rw [LockFs.openCreate, hcur]
          exact hh.opens hs hk rfl rfl rfl rfl rfl hfs hrole hclaim rfl
      | none =>
          have hfs : s.fs.openCreate st.pid (path o.name) =
              (s.fs.create (path o.name)).openFile st.pid s.fs.nextIno := by
            rw [LockFs.openCreate, hcur]
          have hdescs : (s.fs.create (path o.name)).descs = s.fs.descs := rfl
          exact hh.opens hs hk rfl rfl rfl hdescs rfl hfs hrole hclaim rfl
  | denied => exact hh.goOn hk rfl rfl rfl rfl rfl hclaim.symm
  | openedRead i hcur =>
      have hrole : Role.reader ≠ .owner := by simp
      exact hh.opens hs hk rfl rfl rfl rfl rfl rfl hrole hclaim rfl
  | locked d hok hcan => exact hh.locks hs hk rfl rfl rfl hcan rfl hclaim rfl
  | blocked d hcan =>
      have hstores : (s.goto k st (.ctor o (.stat d false))).stores =
          s.stores.set k { st with pc := .ctor o (.stat d false) } := rfl
      have hbefore : s.claims (.op k) = some ⟨st.pid, d, .candidate⟩ := by
        rw [claims_op hk, hclaim]
        rfl
      have hself : (s.goto k st (.ctor o (.stat d false))).claims (.op k) =
          some ⟨st.pid, d, .reader⟩ := claims_set_self hk hstores
      refine Claims.Held.keep hh rfl rfl ?_ ?_
      · intro v c hc
        by_cases hvk : v = .op k
        · subst hvk
          rw [hself] at hc
          cases hc
          refine ⟨_, _, hbefore, rfl, rfl, (fun hrole => by cases hrole), ?_⟩
          rw [holds, holds, hself, hbefore]
          rfl
        · rw [claims_set_of_ne hstores rfl hvk] at hc
          exact ⟨v, c, hc, rfl, rfl, id, holds_set_of_ne hstores rfl hvk⟩
      · intro v c hc
        by_cases hvk : v = .op k
        · subst hvk
          rw [hbefore] at hc
          cases hc
          exact ⟨_, _, hself, rfl, rfl⟩
        · exact ⟨v, c, by rw [claims_set_of_ne hstores rfl hvk, hc], rfl, rfl⟩
  | lockDenied d => exact hh.closes hk rfl rfl rfl hdesc rfl rfl
  | stat d owner => exact hh.goOn hk rfl rfl rfl rfl rfl hclaim.symm
  | torn d size i hcur hne => exact hh.goOn hk rfl rfl rfl rfl rfl hclaim.symm
  | scanned d owner size i hcur hend => exact hh.openedStream hk rfl rfl hclaim
  | cut d index => exact hh.goOn hk rfl rfl rfl rfl rfl hclaim.symm
  | synced d index => exact hh.openedStream hk rfl rfl hclaim

/-! ## Steps of a handle -/

/-- A handle changes, and with it entries and contents, but not what it has open. -/
theorem setHandle (hh : s.Tidy) (hget : s.handles[h]? = some hd)
    (hstores : t.stores = s.stores) (hhandles : t.handles = s.handles.set h hd')
    (hdescs : t.fs.descs = s.fs.descs) (hlocks : t.fs.locks = s.fs.locks)
    (hclaim : hd'.claim = hd.claim) (howner : hd.file ≠ none → hd'.owner = hd.owner) : t.Tidy := by
  have hlt := (List.getElem?_eq_some_iff.mp hget).1
  have hother : ∀ j, j ≠ h → t.handles[j]? = s.handles[j]? := fun j hj => by
    rw [hhandles, List.getElem?_set_ne (Ne.symm hj)]
  have hself : t.handles[h]? = some hd' := by rw [hhandles, List.getElem?_set_self hlt]
  have hclaims : ∀ v, t.claims v = s.claims v := by
    intro v
    cases v with
    | op k => rw [World.claims, World.claims, hstores]
    | handle j =>
        by_cases hj : j = h
        · subst hj
          rw [claims_handle hself, claims_handle hget, hclaim]
        · rw [World.claims, World.claims, hother j hj]
  refine hh.same hdescs hlocks hclaims fun v c hc => ?_
  cases v with
  | op k => exact holds_op (hclaims _)
  | handle j =>
      by_cases hj : j = h
      · subst hj
        rw [holds_handle hself, holds_handle hget]
        refine howner fun hnone => ?_
        rw [claims_handle hget, Handle.claim, hnone] at hc
        cases hc
      · rw [holds, holds, hother j hj]

/-- A handle is closed. -/
theorem closeFds (hh : s.Tidy) (hget : s.handles[h]? = some hd) : (s.closeFds h hd).Tidy := by
  have hlt := (List.getElem?_eq_some_iff.mp hget).1
  cases hfile : hd.file with
  | none =>
      have hclose : s.closeFds h hd = s.setHandle h hd.closeFds := by
        rw [World.closeFds, hfile]
        rfl
      rw [hclose]
      refine hh.setHandle hget rfl rfl rfl rfl ?_ fun hne => absurd hfile hne
      rw [Handle.claim, Handle.claim, hfile]
      rfl
  | some d =>
      have hclose : s.closeFds h hd =
          (s.setFs (s.fs.close hd.pid d)).setHandle h hd.closeFds := by
        rw [World.closeFds, hfile]
        rfl
      rw [hclose]
      refine Claims.Held.close hh (claims_file hget hfile) ?_ ?_ ?_
      · rw [claims_setHandle_self (s := s.setFs (s.fs.close hd.pid d)) hget]
        rfl
      · intro v hne
        rw [claims_setHandle_of_ne hne]
        cases v <;> rfl
      · intro v hne
        cases v with
        | op k => rfl
        | handle j =>
            have hj : h ≠ j := fun heq => hne (heq ▸ rfl)
            simp [holds, World.setHandle, setFs, hj]

/-- Store `k` goes on, and has nothing open before and after. -/
theorem quiet (hh : s.Tidy) (hk : s.stores[k]? = some st) (hpid : st'.pid = st.pid)
    (hbefore : st.pc.claim st.pid = none) (hclaim : st'.pc.claim st.pid = none) :
    (s.setStore k st').Tidy :=
  hh.goOn hk rfl hpid rfl rfl rfl (hclaim.trans hbefore.symm)

theorem sysStep (hh : s.Tidy) (hs : s.Ok) (hk : s.stores[k]? = some st) {pc : StorePc}
    (hpc : st.pc = pc) (hstep : SysStep path s k st out pc t) : t.Tidy := by
  have hclaim : st.pc.claim st.pid = pc.claim st.pid := by rw [hpc]
  have hdesc : st.pc.desc = pc.desc := by rw [hpc]
  cases hstep with
  | failed _ e _ _ _ => exact hh.fail hk e
  | found name given row hmeta hrow => exact hh.quiet hk rfl hclaim rfl
  | missing name given hmeta hrow => exact hh.quiet hk rfl hclaim rfl
  | probed name why i hcur =>
      have hrole : Role.candidate ≠ .owner := by simp
      exact hh.opens hs hk rfl rfl rfl rfl rfl rfl hrole hclaim rfl
  | noLog name why hcur => exact hh.quiet hk rfl hclaim rfl
  | guarded name why d hcan => exact hh.locks hs hk rfl rfl rfl hcan rfl hclaim rfl
  | unlinked name why guard i hok hcur =>
      exact hh.goOn hk rfl rfl rfl rfl rfl (Ok.unlinked_claim.trans hclaim.symm)
  | kept name why guard removed hkept =>
      exact hh.goOn hk rfl rfl rfl rfl rfl (Ok.unlinked_claim.trans hclaim.symm)
  | released name why d removed =>
      refine hh.closes hk rfl rfl rfl hdesc rfl ?_
      show (Durastream.unlinked name why none (some removed)).claim st.pid = none
      exact Ok.unlinked_claim
  | raised name why d => exact hh.closes hk rfl rfl rfl hdesc rfl rfl
  | inserted name contentType asked hok hrow => exact hh.goOn hk rfl rfl rfl rfl rfl hclaim.symm
  | ctor o pc _ hctor => exact hh.ctorStep hs hk hpc hctor
  | dirSynced h => exact hh.goOn hk rfl rfl rfl rfl rfl hclaim.symm
  | delClosed name h removed hd hget hfree =>
      have hk' : (s.closeFds h hd).stores[k]? = some st := by rw [stores_closeFds, hk]
      refine (hh.closeFds hget).quiet hk' rfl hclaim ?_
      cases removed <;> rfl
  | delDirSynced name => exact hh.goOn hk rfl rfl rfl rfl rfl hclaim.symm
  | deleted name => exact hh.goOn hk rfl rfl rfl rfl rfl hclaim.symm
  | closing h streams hd hget hfree =>
      have hk' : (s.closeFds h hd).stores[k]? = some st := by rw [stores_closeFds, hk]
      exact (hh.closeFds hget).quiet hk' rfl hclaim rfl
  | closed => exact hh.quiet hk rfl hclaim rfl

theorem callStep (hh : s.Tidy) (hk : s.stores[k]? = some st) (hidle : st.pc = .idle)
    (hstep : CallStep s k st a t) : t.Tidy := by
  have hclaim : st.pc.claim st.pid = none := by rw [hidle]; rfl
  cases hstep with
  | done r => exact hh.quiet hk rfl hclaim rfl
  | lookup name given hnone => exact hh.quiet hk rfl hclaim rfl
  | deleteOwn k' name h hd ha hopened hget hw => exact hh.quiet hk rfl hclaim rfl
  | deleteOther k' name own ha hown => exact hh.quiet hk rfl hclaim rfl
  | close => exact hh.quiet hk rfl hclaim rfl

theorem handleStep (hh : s.Tidy) (hget : s.handles[h]? = some hd)
    (hstep : HandleStep s h hd a t) : t.Tidy := by
  cases hstep with
  | refused => exact hh
  | _ => exact hh.setHandle hget rfl rfl rfl rfl rfl fun _ => rfl

/-! ## Processes -/

theorem forkStep {p : Pid} (hh : s.Tidy) (hs : s.Ok)
    (hquiet : s.quietFork (.fork p) = true) : (s.forkStep p).Tidy := by
  have hold : ∀ {j : Hid}, j < s.handles.length →
      (s.forkStep p).handles[j]? = s.handles[j]? := fun hj => List.getElem?_append_left hj
  have hcopy : ∀ {h₀ : Hid} {hd₀ : Handle}, s.handles[h₀]? = some hd₀ → hd₀.pid = p →
      (s.forkStep p).handles[s.handles.length + h₀]? =
        some (hd₀.forked s.nextPid (s.stores.length + hd₀.store)) := by
    intro h₀ hd₀ hget hpid
    rw [World.forkStep, List.getElem?_append_map hget, if_pos hpid]
  have hkept : ∀ v c, s.claims v = some c → (s.forkStep p).claims v = some c := by
    intro v c hc
    cases v with
    | handle j =>
        obtain ⟨hd, hget, hclaim⟩ := Option.bind_eq_some_iff.mp hc
        have hget' := (hold (List.getElem?_eq_some_iff.mp hget).1).trans hget
        exact (claims_handle hget').trans hclaim
    | op k =>
        obtain ⟨st, hget, hclaim⟩ := Option.bind_eq_some_iff.mp hc
        have hget' : (s.forkStep p).stores[k]? = some st :=
          (List.getElem?_append_left (List.getElem?_eq_some_iff.mp hget).1).trans hget
        exact (claims_op hget').trans hclaim
  refine Claims.Held.fork hh ?_ hkept ?_
  · intro v c hc
    rcases Ok.claims_forkStep hs hc with hc₀ | ⟨h₀, c₀, rfl, hc₀, hp, rfl⟩
    · refine ⟨v, c, hc₀, ?_, .inl rfl⟩
      cases v with
      | op k => exact holds_op ((hkept _ c hc₀).trans hc₀.symm)
      | handle j =>
          obtain ⟨hd, hget, -⟩ := Option.bind_eq_some_iff.mp hc₀
          rw [holds, holds, hold (List.getElem?_eq_some_iff.mp hget).1]
    · refine ⟨.handle h₀, c₀, hc₀, ?_, .inr rfl⟩
      obtain ⟨hd₀, hget, hclaim⟩ := Option.bind_eq_some_iff.mp hc₀
      obtain ⟨d, -, rfl⟩ := Option.map_eq_some_iff.mp hclaim
      rw [holds_handle hget, holds_handle (hcopy hget hp)]
      rfl
  · intro v c hc hp
    cases v with
    | op k =>
        -- no method of the process is in progress
        obtain ⟨st, hget, hclaim⟩ := Option.bind_eq_some_iff.mp hc
        have hidle := List.all_eq_true.mp hquiet st (List.mem_of_getElem? hget)
        have hpid : st.pid = p := (StorePc.claim_desc hclaim).2.symm.trans hp
        have hpc : st.pc = .idle := by simpa [hpid] using hidle
        rw [hpc] at hclaim
        cases hclaim
    | handle j =>
        obtain ⟨hd, hget, hclaim⟩ := Option.bind_eq_some_iff.mp hc
        obtain ⟨d, hfile, rfl⟩ := Option.map_eq_some_iff.mp hclaim
        refine ⟨by dsimp only; split <;> simp, .handle (s.handles.length + j), ?_⟩
        have hw := (hs.handle hget).not_writable_forked (k := s.stores.length + hd.store)
        rw [claims_handle (hcopy hget hp), Handle.claim, hw]
        show hd.file.map _ = _
        rw [hfile]
        rfl

theorem exitStep {p : Pid} (hh : s.Tidy) : (s.exitStep p).Tidy := by
  have hkept : ∀ v c, s.claims v = some c → c.pid ≠ p →
      (s.exitStep p).claims v = some c ∧ (s.exitStep p).holds v = s.holds v := by
    intro v c hc hne
    cases v with
    | op k =>
        obtain ⟨st, hget, hclaim⟩ := Option.bind_eq_some_iff.mp hc
        have hpid : st.pid ≠ p := (StorePc.claim_desc hclaim).2 ▸ hne
        have hget' : (s.exitStep p).stores[k]? = some st := by
          simp [World.exitStep, hget, hpid]
        have hc' : (s.exitStep p).claims (.op k) = some c := (claims_op hget').trans hclaim
        exact ⟨hc', holds_op (hc'.trans hc.symm)⟩
    | handle j =>
        obtain ⟨hd, hget, hclaim⟩ := Option.bind_eq_some_iff.mp hc
        obtain ⟨d, -, rfl⟩ := Option.map_eq_some_iff.mp hclaim
        have hpid : hd.pid ≠ p := hne
        have hget' : (s.exitStep p).handles[j]? = some hd := by
          simp [World.exitStep, hget, hpid]
        exact ⟨(claims_handle hget').trans hclaim, by rw [holds_handle hget', holds_handle hget]⟩
  refine Claims.Held.exit hh ?_ fun v c hc hne => (hkept v c hc hne).1
  intro v c hc
  obtain ⟨hc₀, hne⟩ := Ok.claims_exitStep hc
  exact ⟨hc₀, (hkept v c hc₀ hne).2⟩

/-- Every step keeps the invariant, if processes fork while their Stores rest. -/
theorem step (hh : s.Tidy) (hs : s.Ok) (hquiet : s.quietFork a = true)
    (hstep : Step path s a t) : t.Tidy := by
  cases hstep with
  | spawn => exact hh.same rfl rfl (fun v => by cases v <;> rfl) fun v c hc => by cases v <;> rfl
  | newStore p hlive =>
      have hclaims : ∀ v, World.claims { s with stores := s.stores ++ [.new p] } v =
          s.claims v := by
        intro v
        cases v with
        | handle h => rfl
        | op k =>
            by_cases hk : k < s.stores.length
            · simp [World.claims, List.getElem?_append_left hk]
            · have hnone : s.stores[k]? = none := List.getElem?_eq_none (Nat.le_of_not_lt hk)
              have hnew : ((s.stores ++ [.new p])[k]?).bind
                  (fun st => st.pc.claim st.pid) = none := by
                rw [List.getElem?_append_right (Nat.le_of_not_lt hk)]
                cases hget : [Store.new p][k - s.stores.length]? with
                | none => rfl
                | some st =>
                    rw [List.mem_singleton.mp (List.mem_of_getElem? hget)]
                    rfl
              rw [World.claims, World.claims, hnone]
              exact hnew
      refine hh.same rfl rfl hclaims fun v c hc => ?_
      cases v with
      | handle h => rfl
      | op k => exact holds_op (hclaims _)
  | call a k st t hk hidle hcall => exact hh.callStep hk hidle hcall
  | sys k st out t hk hsys => exact hh.sysStep hs hk rfl hsys
  | handle a h hd t hget hhandle => exact hh.handleStep hget hhandle
  | fork p hlive => exact hh.forkStep hs hquiet
  | exit p hlive => exact hh.exitStep
  | powerLoss cell loss =>
      refine .none (fun d => LockFs.refs_powerLoss) (fun i => rfl) fun v => ?_
      cases v with
      | op j =>
          simp only [World.claims, List.getElem?_map]
          cases s.stores[j]? <;> rfl
      | handle j =>
          simp only [World.claims, List.getElem?_map]
          cases s.handles[j]? <;> rfl

end Tidy

/-! ## The results -/

/-- A process forks while another thread of it is in `create`, and then closes its Store. -/
def forkedInCreate : List Act :=
  storeActs 0 ++ .create 0 ['t'] none :: List.replicate 6 (.sys 0 .ok) ++ [.fork 0] ++
    List.replicate 3 (.sys 0 .ok) ++ closeActs 0

/-- The log stays locked, and no variable of any process has it open. -/
theorem lock_leaked :
    ∃ s, Lts.run (step logEntry) (init .empty) forkedInCreate = some s ∧
      s.fs.locked 0 = true ∧ ∀ v, s.claims v = none := by
  have hsome : (Lts.run (step logEntry) (init .empty) forkedInCreate).map (fun s =>
      (s.fs.locked 0, s.stores.all fun st => (st.pc.claim st.pid).isNone,
        s.handles.all fun hd => hd.claim.isNone)) = some (true, true, true) := by
    decide +kernel
  obtain ⟨s, hrun, heq⟩ := Option.map_eq_some_iff.mp hsome
  simp only [Prod.mk.injEq, List.all_eq_true, Option.isNone_iff_eq_none] at heq
  obtain ⟨hlocked, hstores, hhandles⟩ := heq
  refine ⟨s, hrun, hlocked, fun v => ?_⟩
  cases v with
  | op k =>
      cases hk : s.stores[k]? with
      | none => simp [claims, hk]
      | some st => exact (claims_op hk).trans (hstores st (List.mem_of_getElem? hk))
  | handle h =>
      cases hget : s.handles[h]? with
      | none => simp [claims, hget]
      | some hd => exact (claims_handle hget).trans (hhandles hd (List.mem_of_getElem? hget))

end World

end Durastream

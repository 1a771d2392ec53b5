import Durastream.Store.Machine

/-!
# What a step of the world can do

The steps of `World.step` once more, one constructor for each way a call can
end, with the conditions under which it does and the world it leaves.
`World.step_cases` says that there are no others, so an invariant is proved by
cases on `World.Step` and never unfolds the step function.
-/

namespace Durastream

namespace World

variable (path : Name → List Char) (s : World) (k : Sid) (st : Store) (out : Outcome)

/-- The calls of `DurableStream.__init__`. -/
inductive CtorStep (o : Opening) : CtorPc → World → Prop where
  | failed (pc : CtorPc) (e : Error) : CtorStep o pc (s.fail k st e)
  | opened :
      CtorStep o .openAppend
        ((s.setFs (s.fs.openCreate st.pid (path o.name))).goto k st
          (.ctor o (.lock s.fs.descs.length)))
  | denied : CtorStep o .openAppend (s.goto k st (.ctor o .openRead))
  | openedRead (i : Nat) :
      (s.fs.dir (path o.name)).cur = some i →
      CtorStep o .openRead
        ((s.setFs (s.fs.openFile st.pid i)).goto k st (.ctor o (.stat s.fs.descs.length false)))
  | locked (d : Did) :
      out = .ok → s.fs.canLock d = true →
      CtorStep o (.lock d) ((s.setFs (s.fs.lock d)).goto k st (.ctor o (.stat d true)))
  | blocked (d : Did) :
      s.fs.canLock d = false → CtorStep o (.lock d) (s.goto k st (.ctor o (.stat d false)))
  | lockDenied (d : Did) :
      CtorStep o (.lock d) ((s.setFs (s.fs.close st.pid d)).goto k st (.ctor o .openRead))
  | stat (d : Did) (owner : Bool) :
      CtorStep o (.stat d owner)
        (s.goto k st (.ctor o (.scan d owner (s.fs.file d).data.length)))
  | torn (d : Did) (size i : Nat) :
      (s.fs.dir (path o.name)).cur = some i →
      lastMark (scan (s.fs.files i).data size) ≠ size →
      CtorStep o (.scan d true size)
        (s.goto k st (.ctor o (.truncate d (scan (s.fs.files i).data size))))
  | scanned (d : Did) (owner : Bool) (size i : Nat) :
      (s.fs.dir (path o.name)).cur = some i →
      (owner = true → lastMark (scan (s.fs.files i).data size) = size) →
      CtorStep o (.scan d owner size)
        (s.openedStream k st o d owner (scan (s.fs.files i).data size))
  | cut (d : Did) (index : List Nat) :
      CtorStep o (.truncate d index)
        ((s.setFs (s.fs.setFile (s.fs.ino d) ((s.fs.file d).truncate (lastMark index)))).goto k st
          (.ctor o (.sync d index)))
  | synced (d : Did) (index : List Nat) :
      CtorStep o (.sync d index)
        ((s.setFs (s.fs.setFile (s.fs.ino d) (s.fs.file d).sync)).openedStream k st o d true index)

/-- The calls of the method in progress. -/
inductive SysStep : StorePc → World → Prop where
  | failed (pc : StorePc) (e : Error) :
      pc ≠ .idle → pc ≠ .stuck → pc.locals = [] → SysStep pc (s.fail k st e)
  | found (name : Name) (given : Option (Option ContentType)) (row : Row) :
      st.metaOpen = true → s.rows.get name = some row →
      SysStep (.lookup name given)
        (s.goto k st (.ctor ⟨name, row.contentType, row.closed, false, s.history⟩ .openAppend))
  | missing (name : Name) (given : Option ContentType) :
      st.metaOpen = true → s.rows.get name = none →
      SysStep (.lookup name (some given))
        (s.goto k st (.probe name (.create (given.getD defaultContentType) s.history)))
  | probed (name : Name) (why : Purpose) (i : Nat) :
      (s.fs.dir (path name)).cur = some i →
      SysStep (.probe name why)
        ((s.setFs (s.fs.openFile st.pid i)).goto k st (.probeLock name why s.fs.descs.length))
  | noLog (name : Name) (why : Purpose) :
      (s.fs.dir (path name)).cur = none →
      SysStep (.probe name why) (s.goto k st (.unlink name why none))
  | guarded (name : Name) (why : Purpose) (d : Did) :
      s.fs.canLock d = true →
      SysStep (.probeLock name why d)
        ((s.setFs (s.fs.lock d)).goto k st (.unlink name why (some d)))
  | unlinked (name : Name) (why : Purpose) (guard : Option Did) (i : Nat) :
      out = .ok → (s.fs.dir (path name)).cur = some i →
      SysStep (.unlink name why guard)
        ((s.setFs (s.fs.unlink (path name))).goto k st
          (Durastream.unlinked name why guard (some true)))
  | kept (name : Name) (why : Purpose) (guard : Option Did) (removed : Option Bool) :
      (removed = some false ∧ (s.fs.dir (path name)).cur = none) ∨
        (removed = none ∧ guard ≠ none) →
      SysStep (.unlink name why guard)
        (s.goto k st (Durastream.unlinked name why guard removed))
  | released (name : Name) (why : Purpose) (d : Did) (removed : Bool) :
      SysStep (.closeGuard name why d (some removed))
        ((s.setFs (s.fs.close st.pid d)).goto k st (purged name why (some removed)))
  | raised (name : Name) (why : Purpose) (d : Did) :
      SysStep (.closeGuard name why d none)
        ((s.setFs (s.fs.close st.pid d)).finish k st (.error .osError))
  | inserted (name : Name) (contentType : ContentType) (asked : List Event) :
      out = .ok → s.rows.get name = none →
      SysStep (.insert name contentType asked)
        (({ s with
          rows := s.rows.set name ⟨contentType, false⟩
          history := .inserted name s.fs.nextIno :: s.history } : World).goto k st
            (.ctor ⟨name, contentType, false, true, asked⟩ .openAppend))
  | ctor (o : Opening) (pc : CtorPc) (t : World) :
      CtorStep path s k st out o pc t → SysStep (.ctor o pc) t
  | dirSynced (h : Hid) :
      SysStep (.dirSync h) ((s.setFs s.fs.syncDir).finish k st (.ok (some h)))
  | delClosed (name : Name) (h : Hid) (removed : Bool) (hd : Handle) :
      s.handles[h]? = some hd → hd.Free →
      SysStep (.delClose name h removed)
        ((s.closeFds h hd).setStore k
          { st with opened := st.opened.erase name, pc := delNext name removed })
  | delDirSynced (name : Name) :
      SysStep (.delDirSync name) ((s.setFs s.fs.syncDir).goto k st (.delRow name))
  | deleted (name : Name) :
      SysStep (.delRow name) (({ s with rows := s.rows.erase name } : World).finish k st (.ok none))
  | closing (h : Hid) (streams : List Hid) (hd : Handle) :
      s.handles[h]? = some hd → hd.Free →
      SysStep (.closing (h :: streams)) ((s.closeFds h hd).goto k st (.closing streams))
  | closed :
      SysStep (.closing [])
        (s.setStore k { st with metaOpen := false, pc := .idle, result := .ok none })

/-- A call of a method of an idle Store. -/
inductive CallStep (a : Act) : World → Prop where
  | done (r : Except Error (Option Hid)) : CallStep a (s.finish k st r)
  | lookup (name : Name) (given : Option (Option ContentType)) :
      (st.opened.get name).bind (fun h => (s.handles[h]?).map fun hd => (h, hd)) = none →
      CallStep a (s.goto k st (.lookup name given))
  | deleteOwn (k' : Sid) (name : Name) (h : Hid) (hd : Handle) :
      a = .delete k' name → st.opened.get name = some h → s.handles[h]? = some hd →
      hd.writable = true → st.metaOpen = true →
        CallStep a (s.goto k st (.unlink name (.delete (some h)) none))
  | deleteOther (k' : Sid) (name : Name) (own : Option Hid) :
      a = .delete k' name → (∀ h, own = some h → st.opened.get name = some h) →
      st.metaOpen = true → CallStep a (s.goto k st (.probe name (.delete own)))
  | close :
      CallStep a (s.setStore k { st with opened := .empty, pc := .closing st.opened.values })

/-- A call on a handle. -/
inductive HandleStep (h : Hid) (hd : Handle) (a : Act) : World → Prop where
  | refused : HandleStep h hd a s
  | started (payloads : List Bytes) (w : Writer) :
      hd.Free → hd.w.begin hd.writable hd.file.isSome payloads = .started w →
      HandleStep h hd a (s.setHandle h { hd with w := w })
  | io (d : Did) (f : CrashFile UInt8) (w : Writer) (fate : Option Fate) :
      hd.file = some d → Writer.Step (s.fs.file d) hd.w f w fate →
      (∀ next, fate = some (.returned next) → a = .io h (.sync true)) →
      HandleStep h hd a { s with
        fs := s.fs.setFile (s.fs.ino d) f
        handles := s.handles.set h { hd with w := w }
        history := ackedBy hd (s.fs.ino d) fate ++ s.history }
  | closing :
      hd.Free → hd.writable = true → HandleStep h hd a (s.setHandle h { hd with closing := true })
  | updated (d : Did) (rows : Table Name Row) :
      hd.closing = true → hd.file = some d →
      (∀ name, rows.get name =
        if name = hd.w.name then (s.rows.get name).map fun row => { row with closed := true }
        else s.rows.get name) →
      HandleStep h hd a { s with
        rows := rows
        handles := s.handles.set h { hd with w := { hd.w with closed := true }, closing := false }
        history := .closed hd.w.name (records (s.fs.file d).data) :: s.history }
  | updateFailed :
      hd.closing = true → HandleStep h hd a (s.setHandle h { hd with closing := false })

/-- Every step of the world. -/
inductive Step : Act → World → Prop where
  | spawn : Step .spawn { s with live := s.nextPid :: s.live, nextPid := s.nextPid + 1 }
  | newStore (p : Pid) :
      p ∈ s.live → Step (.newStore p) { s with stores := s.stores ++ [.new p] }
  | call (a : Act) (k : Sid) (st : Store) (t : World) :
      s.stores[k]? = some st → st.pc = .idle → CallStep s k st a t → a.onStore = true →
      Step a t
  | sys (k : Sid) (st : Store) (out : Outcome) (t : World) :
      s.stores[k]? = some st → SysStep path s k st out st.pc t → Step (.sys k out) t
  | handle (a : Act) (h : Hid) (hd : Handle) (t : World) :
      s.handles[h]? = some hd → HandleStep s h hd a t → a.onHandle = true → Step a t
  | fork (p : Pid) : p ∈ s.live → Step (.fork p) (s.forkStep p)
  | exit (p : Pid) : p ∈ s.live → Step (.exit p) (s.exitStep p)
  | powerLoss (cell : List Char → Nat) (loss : Nat → LockFs.Loss) :
      Step (.powerLoss cell loss) { s with
        fs := s.fs.powerLoss cell loss
        stores := s.stores.map Store.gone
        handles := s.handles.map Handle.gone
        live := [] }

/-! ## There are no other steps -/

variable {path s k st}

theorem ctorStep_cases {o : Opening} {pc : CtorPc} {out : Outcome} :
    CtorStep path s k st out o pc (s.ctorStep path k st o pc out) := by
  cases pc with
  | openAppend =>
      cases out with
      | ok => exact .opened
      | denied => exact .denied
      | failed => exact .failed _ _
  | openRead =>
      cases out with
      | ok =>
          cases hcur : (s.fs.dir (path o.name)).cur with
          | none =>
              simp only [ctorStep, hcur]
              exact .failed _ _
          | some i =>
              simp only [ctorStep, hcur]
              exact .openedRead i hcur
      | denied => exact .failed _ _
      | failed => exact .failed _ _
  | lock d =>
      cases out with
      | ok =>
          cases hcan : s.fs.canLock d with
          | false =>
              simp only [ctorStep, hcan, Bool.false_eq_true, if_false]
              exact .blocked d hcan
          | true =>
              simp only [ctorStep, hcan, if_true]
              exact .locked d rfl hcan
      | denied => exact .lockDenied d
      | failed => exact .failed _ _
  | stat d owner =>
      cases out with
      | ok => exact .stat d owner
      | denied => exact .failed _ _
      | failed => exact .failed _ _
  | scan d owner size =>
      cases out with
      | ok =>
          cases hcur : (s.fs.dir (path o.name)).cur with
          | none =>
              simp only [ctorStep, hcur]
              exact .failed _ _
          | some i =>
              simp only [ctorStep, hcur]
              split
              · next htorn =>
                  obtain ⟨howner, hne⟩ := htorn
                  subst howner
                  exact .torn d size i hcur hne
              · next hwhole =>
                  refine .scanned d owner size i hcur fun howner => ?_
                  exact Decidable.not_not.mp fun hne => hwhole ⟨howner, hne⟩
      | denied => exact .failed _ _
      | failed => exact .failed _ _
  | truncate d index =>
      cases out with
      | ok => exact .cut d index
      | denied => exact .failed _ _
      | failed => exact .failed _ _
  | sync d index =>
      cases out with
      | ok => exact .synced d index
      | denied => exact .failed _ _
      | failed => exact .failed _ _

theorem lookup_cases {name : Name} {given : Option (Option ContentType)} {out : Outcome}
    {t : World} (hpc : st.pc = .lookup name given) (h : s.sysStep path k st out = some t) :
    SysStep path s k st out (.lookup name given) t := by
  have hfail : ∀ e, SysStep path s k st out (.lookup name given) (s.fail k st e) :=
    fun e => .failed _ e (by simp) (by simp) rfl
  cases out with
  | ok =>
      simp only [sysStep, hpc] at h
      split at h
      · cases h
        exact hfail _
      · next hopen =>
          have hmeta : st.metaOpen = true := by simpa using hopen
          cases hrow : s.rows.get name with
          | some row =>
              simp only [hrow] at h
              split at h
              · cases h
                exact hfail _
              · cases h
                exact .found name given row hmeta hrow
          | none =>
              cases given with
              | none =>
                  simp only [hrow] at h
                  cases h
                  exact hfail _
              | some given =>
                  simp only [hrow] at h
                  cases h
                  exact .missing name given hmeta hrow
  | denied =>
      simp only [sysStep, hpc] at h
      cases h
      exact hfail _
  | failed =>
      simp only [sysStep, hpc] at h
      cases h
      exact hfail _

theorem unlink_cases {name : Name} {why : Purpose} {guard : Option Did} {out : Outcome}
    {t : World} (hpc : st.pc = .unlink name why guard) (h : s.sysStep path k st out = some t) :
    SysStep path s k st out (.unlink name why guard) t := by
  have hraise : out ≠ .ok → SysStep path s k st out (.unlink name why guard) t := by
    intro hout
    cases guard with
    | none =>
        have ht : s.fail k st .osError = t := by
          cases out with
          | ok => exact absurd rfl hout
          | denied => simpa [sysStep, hpc, StorePc.error] using h
          | failed => simpa [sysStep, hpc, StorePc.error] using h
        rw [← ht]
        exact .failed _ _ (by simp) (by simp) rfl
    | some d =>
        have ht : s.goto k st (Durastream.unlinked name why (some d) none) = t := by
          cases out with
          | ok => exact absurd rfl hout
          | denied => simpa [sysStep, hpc] using h
          | failed => simpa [sysStep, hpc] using h
        rw [← ht]
        exact .kept name why (some d) none (.inr ⟨rfl, by simp⟩)
  cases out with
  | ok =>
      simp only [sysStep, hpc] at h
      cases hcur : (s.fs.dir (path name)).cur with
      | none =>
          simp only [hcur] at h
          cases h
          exact .kept name why guard (some false) (.inl ⟨rfl, hcur⟩)
      | some i =>
          simp only [hcur] at h
          cases h
          exact .unlinked name why guard i rfl hcur
  | denied => exact hraise (by simp)
  | failed => exact hraise (by simp)

/-- A call that fails in the same way whatever the error. -/
theorem failed_cases {out : Outcome} {t : World} (h : s.sysStep path k st out = some t)
    (hout : out ≠ .ok) (hunlink : ∀ name why guard, st.pc ≠ .unlink name why guard)
    (hctor : ∀ o pc, st.pc ≠ .ctor o pc) : SysStep path s k st out st.pc t := by
  have hfail : ∀ e, st.pc ≠ .idle → st.pc ≠ .stuck → st.pc.locals = [] →
      SysStep path s k st out st.pc (s.fail k st e) := fun e h₁ h₂ h₃ => .failed _ e h₁ h₂ h₃
  cases hpc : st.pc with
  | idle => simp [sysStep, hpc] at h
  | stuck => simp [sysStep, hpc] at h
  | unlink name why guard => exact absurd hpc (hunlink name why guard)
  | ctor o pc => exact absurd hpc (hctor o pc)
  | closeGuard name why d removed => cases out <;> simp_all [sysStep]
  | delClose name h removed => cases out <;> simp_all [sysStep]
  | closing streams => cases out <;> cases streams <;> simp_all [sysStep]
  | _ =>
      rw [hpc] at hfail
      cases out with
      | ok => exact absurd rfl hout
      | denied =>
          simp only [sysStep, hpc] at h
          cases h
          exact hfail _ (by simp) (by simp) rfl
      | failed =>
          simp only [sysStep, hpc] at h
          cases h
          exact hfail _ (by simp) (by simp) rfl

theorem sysStep_cases {out : Outcome} {t : World} (h : s.sysStep path k st out = some t) :
    SysStep path s k st out st.pc t := by
  by_cases hout : out = .ok
  · subst hout
    cases hpc : st.pc with
    | idle => simp [sysStep, hpc] at h
    | stuck => simp [sysStep, hpc] at h
    | lookup name given => exact lookup_cases hpc h
    | probe name why =>
        simp only [sysStep, hpc] at h
        cases hcur : (s.fs.dir (path name)).cur with
        | none =>
            simp only [hcur] at h
            cases h
            exact .noLog name why hcur
        | some i =>
            simp only [hcur] at h
            cases h
            exact .probed name why i hcur
    | probeLock name why d =>
        simp only [sysStep, hpc] at h
        split at h
        · next hcan =>
            cases h
            exact .guarded name why d hcan
        · cases h
          exact .failed _ _ (by simp) (by simp) rfl
    | unlink name why guard => exact unlink_cases hpc h
    | closeGuard name why d removed =>
        simp only [sysStep, hpc] at h
        cases removed with
        | none =>
            cases h
            exact .raised name why d
        | some removed =>
            cases h
            exact .released name why d removed
    | insert name contentType asked =>
        simp only [sysStep, hpc] at h
        split at h
        · cases h
          exact .failed _ _ (by simp) (by simp) rfl
        · cases hrow : s.rows.get name with
          | some row =>
              simp only [hrow] at h
              cases h
              exact .failed _ _ (by simp) (by simp) rfl
          | none =>
              simp only [hrow] at h
              cases h
              exact .inserted name contentType asked rfl hrow
    | ctor o pc =>
        simp only [sysStep, hpc] at h
        cases h
        exact .ctor o pc _ ctorStep_cases
    | dirSync h' =>
        simp only [sysStep, hpc] at h
        cases h
        exact .dirSynced h'
    | delClose name h' removed =>
        simp only [sysStep, hpc] at h
        split at h
        · next hd hget =>
            split at h
            · next hfree =>
                cases h
                exact .delClosed name h' removed hd hget hfree
            · cases h
        · cases h
    | delDirSync name =>
        simp only [sysStep, hpc] at h
        cases h
        exact .delDirSynced name
    | delRow name =>
        simp only [sysStep, hpc] at h
        split at h
        · cases h
          exact .failed _ _ (by simp) (by simp) rfl
        · cases h
          exact .deleted name
    | closing streams =>
        cases streams with
        | nil =>
            simp only [sysStep, hpc] at h
            cases h
            exact .closed
        | cons h' streams =>
            simp only [sysStep, hpc] at h
            split at h
            · next hd hget =>
                split at h
                · next hfree =>
                    cases h
                    exact .closing h' streams hd hget hfree
                · cases h
            · cases h
  · cases hpc : st.pc with
    | unlink name why guard => exact unlink_cases hpc h
    | ctor o pc =>
        simp only [sysStep, hpc] at h
        cases h
        exact .ctor o pc _ ctorStep_cases
    | _ =>
        rw [← hpc]
        exact failed_cases h hout (by simp [hpc]) (by simp [hpc])

theorem call_cases {a : Act} {t : World} (h : s.call k st a = some t) : CallStep s k st a t := by
  cases a with
  | create k' name given =>
      simp only [call] at h
      split at h
      · cases h
        exact .done _
      · split at h
        · split at h
          · cases h
            exact .done _
          · cases h
            exact .done _
        · next hnone =>
            cases h
            exact .lookup name _ hnone
  | openStream k' name =>
      simp only [call] at h
      split at h
      · cases h
        exact .done _
      · next hnone =>
          cases h
          exact .lookup name _ (by rw [hnone]; rfl)
  | delete k' name =>
      simp only [call] at h
      split at h
      · cases h
        exact .done _
      · next hopen =>
          have hmeta : st.metaOpen = true := Decidable.not_not.mp hopen
          split at h
          · next h' hd hsome =>
              obtain ⟨h'', hopened, hmap⟩ := Option.bind_eq_some_iff.mp hsome
              obtain ⟨hd', hget, heq⟩ := Option.map_eq_some_iff.mp hmap
              cases heq
              split at h
              · next hw =>
                  cases h
                  exact .deleteOwn k' name h' hd rfl hopened hget hw hmeta
              · cases h
                refine .deleteOther k' name (some h') rfl ?_ hmeta
                intro h'' heq
                cases heq
                exact hopened
          · cases h
            exact .deleteOther k' name none rfl (by simp) hmeta
  | closeStore k' =>
      simp only [call] at h
      cases h
      exact .close
  | _ => simp [call] at h

theorem handleStep_cases {h : Hid} {hd : Handle} {a : Act} {t : World}
    (hio : ∀ h' act, a = .io h' act → h' = h) (hstep : s.handleStep h hd a = some t) :
    HandleStep s h hd a t := by
  cases a with
  | append h' payloads =>
      simp only [handleStep] at hstep
      split at hstep
      · next hfree =>
          split at hstep
          · next w hbegin =>
              cases hstep
              exact .started payloads w hfree hbegin
          · cases hstep
            exact .refused
      · cases hstep
  | io h' act =>
      cases hio h' act rfl
      simp only [handleStep] at hstep
      split at hstep
      · next d hfile =>
          split at hstep
          · next f w fate hw =>
              cases hstep
              refine .io d f w fate hfile (Writer.step_cases hw) ?_
              rintro next rfl
              rw [Writer.act_of_returned hw]
          · cases hstep
      · cases hstep
  | close h' =>
      simp only [handleStep] at hstep
      split at hstep
      · next hfree =>
          split at hstep
          · next hw =>
              cases hstep
              exact .closing hfree hw
          · cases hstep
            exact .refused
      · cases hstep
  | update h' ok =>
      simp only [handleStep] at hstep
      split at hstep
      · next hclosing =>
          split at hstep
          · next d _ hfile =>
              cases hstep
              refine .updated d _ hclosing hfile ?_
              intro name
              cases hrow : s.rows.get hd.w.name with
              | none =>
                  by_cases hname : name = hd.w.name
                  · rw [if_pos hname, hname, hrow]
                    rfl
                  · rw [if_neg hname]
              | some row =>
                  by_cases hname : name = hd.w.name
                  · rw [if_pos hname, hname, hrow]
                    exact Table.get_set_self _ _ _
                  · rw [if_neg hname]
                    exact Table.get_set_of_ne _ hname _
          · cases hstep
            exact .updateFailed hclosing
      · cases hstep
  | _ => simp [handleStep] at hstep

theorem idleStore_cases {st : Store} (h : s.idleStore k = some st) :
    s.stores[k]? = some st ∧ st.pc = .idle := by
  unfold idleStore at h
  split at h
  · next st' hget =>
      split at h
      · next hidle =>
          cases h
          exact ⟨hget, hidle⟩
      · cases h
  · cases h

theorem step_cases {a : Act} {t : World} (h : s.step path a = some t) : Step path s a t := by
  have hcall : ∀ k, a.onStore = true →
      (s.idleStore k).bind (fun st => s.call k st a) = some t → Step path s a t := by
    intro k hon h
    obtain ⟨st, hst, h⟩ := Option.bind_eq_some_iff.mp h
    obtain ⟨hget, hidle⟩ := idleStore_cases hst
    exact .call a k st t hget hidle (call_cases h) hon
  have hhandle : ∀ h', (∀ j act, a = .io j act → j = h') → a.onHandle = true →
      (s.handles[h']?).bind (fun hd => s.handleStep h' hd a) = some t → Step path s a t := by
    intro h' hio hon h
    obtain ⟨hd, hget, h⟩ := Option.bind_eq_some_iff.mp h
    exact .handle a h' hd t hget (handleStep_cases hio h) hon
  cases a with
  | spawn =>
      cases h
      exact .spawn
  | newStore p =>
      simp only [step] at h
      split at h
      · next hlive =>
          cases h
          exact .newStore p hlive
      · cases h
  | create k name given => exact hcall k rfl h
  | openStream k name => exact hcall k rfl h
  | delete k name => exact hcall k rfl h
  | closeStore k => exact hcall k rfl h
  | sys k out =>
      obtain ⟨st, hget, h⟩ := Option.bind_eq_some_iff.mp h
      exact .sys k st out t hget (sysStep_cases h)
  | append h' payloads => exact hhandle h' (by simp) rfl h
  | io h' act => exact hhandle h' (by simp +contextual) rfl h
  | close h' => exact hhandle h' (by simp) rfl h
  | update h' ok => exact hhandle h' (by simp) rfl h
  | fork p =>
      simp only [step] at h
      split at h
      · next hlive =>
          cases h
          exact .fork p hlive
      · cases h
  | exit p =>
      simp only [step] at h
      split at h
      · next hlive =>
          cases h
          exact .exit p hlive
      · cases h
  | powerLoss cell loss =>
      cases h
      exact .powerLoss cell loss

/-! ## What a step adds to the history -/

/-- The events of one step, at most one. -/
inductive Adds (s : World) : Act → List Event → Prop where
  | none (a : Act) : Adds s a []
  | inserted (k : Sid) (st : Store) (name : Name) (contentType : ContentType)
      (asked : List Event) :
      s.stores[k]? = some st → st.pc = .insert name contentType asked →
      s.rows.get name = Option.none → Adds s (.sys k .ok) [.inserted name s.fs.nextIno]
  | acked (h : Hid) (hd : Handle) (d : Did) (start : Nat) (batch : List Bytes) :
      s.handles[h]? = some hd → hd.file = some d → hd.w.pc = .syncing batch →
      Adds s (.io h (.sync true)) [.acked hd.w.name (s.fs.ino d) start batch]
  | closed (a : Act) (h : Hid) (hd : Handle) (d : Did) :
      s.handles[h]? = some hd → hd.file = some d → hd.closing = true → a.onHandle = true →
      Adds s a [.closed hd.w.name (records (s.fs.file d).data)]

theorem isPowerLoss_of_onStore {a : Act} (h : a.onStore = true) : a.isPowerLoss = false := by
  cases a <;> first | rfl | cases h

theorem isPowerLoss_of_onHandle {a : Act} (h : a.onHandle = true) : a.isPowerLoss = false := by
  cases a <;> first | rfl | cases h

/-- Only the sync that ends an append adds an event. -/
theorem ackedBy_cases {hd : Handle} {f f' : CrashFile UInt8} {w : Writer} {fate : Option Fate}
    (hw : Writer.Step f hd.w f' w fate) (i : Nat) :
    ackedBy hd i fate = [] ∨ ∃ next start batch, fate = some (.returned next) ∧
      hd.w.pc = .syncing batch ∧ ackedBy hd i fate = [.acked hd.w.name i start batch] := by
  cases hw with
  | synced b hpc => exact .inr ⟨_, _, b, rfl, hpc, by rw [ackedBy, hpc]; rfl⟩
  | _ => exact .inl rfl

theorem sysStep_history {out : Outcome} {t : World} (hk : s.stores[k]? = some st)
    (hstep : SysStep path s k st out st.pc t) :
    ∃ es, t.history = es ++ s.history ∧ Adds s (.sys k out) es := by
  generalize hpc : st.pc = pc at hstep
  cases hstep with
  | failed _ e _ _ _ => exact ⟨[], history_fail s k st e, .none _⟩
  | inserted name contentType asked hok hrow =>
      subst hok
      exact ⟨_, rfl, .inserted k st name contentType asked hk hpc hrow⟩
  | ctor o pc _ hctor =>
      refine ⟨[], ?_, .none _⟩
      cases hctor with
      | failed _ e => exact history_fail s k st e
      | _ => rfl
  | delClosed name h removed hd hget hfree => exact ⟨[], history_closeFds s h hd, .none _⟩
  | closing h streams hd hget hfree => exact ⟨[], history_closeFds s h hd, .none _⟩
  | _ => exact ⟨[], rfl, .none _⟩

theorem handleStep_history {h : Hid} {hd : Handle} {a : Act} {t : World}
    (hget : s.handles[h]? = some hd) (hon : a.onHandle = true) (hstep : HandleStep s h hd a t) :
    ∃ es, t.history = es ++ s.history ∧ Adds s a es := by
  cases hstep with
  | io d f w fate hfile hw hret =>
      rcases ackedBy_cases hw (s.fs.ino d) with
        hnone | ⟨next, start, batch, hfate, hpc, hacked⟩
      · exact ⟨[], by rw [hnone], .none _⟩
      · rw [hret next hfate]
        exact ⟨_, by rw [hacked], .acked h hd d start batch hget hfile hpc⟩
  | updated d rows hclosing hfile hrows =>
      exact ⟨_, rfl, .closed a h hd d hget hfile hclosing hon⟩
  | _ => exact ⟨[], rfl, .none _⟩

theorem step_history {a : Act} {t : World} (hstep : Step path s a t) :
    ∃ es, t.history = es ++ s.history ∧ Adds s a es := by
  cases hstep with
  | call a k st t hk hidle hcall => cases hcall <;> exact ⟨[], rfl, .none _⟩
  | sys k st out t hk hsys => exact sysStep_history hk hsys
  | handle a h hd t hget hhandle hon => exact handleStep_history hget hon hhandle
  | _ => exact ⟨[], rfl, .none _⟩

/-- A batch was acknowledged before, or its sync ends an append on a handle now. -/
theorem acked_cases {a : Act} {t : World} {name : Name} {i start : Nat} {b : List Bytes}
    (hstep : Step path s a t) (hmem : .acked name i start b ∈ t.history) :
    .acked name i start b ∈ s.history ∨ ∃ (h : Hid) (hd : Handle) (d : Did),
      s.handles[h]? = some hd ∧ hd.file = some d ∧ hd.w.pc = .syncing b ∧
        a = .io h (.sync true) ∧ hd.w.name = name ∧ s.fs.ino d = i := by
  obtain ⟨es, hhist, hadds⟩ := step_history hstep
  rw [hhist] at hmem
  rcases List.mem_append.mp hmem with hnew | hold
  · cases hadds with
    | none => cases hnew
    | inserted k st name' contentType asked hk hpc hrow => cases List.mem_singleton.mp hnew
    | acked h hd d start' batch hget hfile hpc =>
        cases List.mem_singleton.mp hnew
        exact .inr ⟨h, hd, d, hget, hfile, hpc, rfl, rfl, rfl⟩
    | closed _ h hd d hget hfile hclosing hon => cases List.mem_singleton.mp hnew
  · exact .inl hold

end World

end Durastream

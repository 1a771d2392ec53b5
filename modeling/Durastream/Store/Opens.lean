import Durastream.Store.Step

/-!
# What a step does to the directory and what it opens

`step_entry` says how the entry at a path can change in one step, and
`step_openAs` which descriptions are open for a stream after it: those that were
open before, and the file its path names.  The invariants about entries and open
files follow from these.
-/

namespace Durastream

theorem purged_ne_ctor (name : Name) (why : Purpose) (removed : Option Bool) (o : Opening)
    (pc : CtorPc) : purged name why removed ≠ .ctor o pc := by
  intro heq
  cases removed with
  | none => cases heq
  | some removed =>
      cases why with
      | create contentType asked => cases heq
      | delete own =>
          cases own with
          | some h => cases heq
          | none => cases removed <;> cases heq

/-- After an unlink, no handle is under construction. -/
theorem unlinked_ne_ctor {name : Name} {why : Purpose} {guard : Option Did}
    {removed : Option Bool} (o : Opening) (pc : CtorPc) :
    unlinked name why guard removed ≠ .ctor o pc := by
  cases guard with
  | some d => exact fun heq => by cases heq
  | none => exact purged_ne_ctor name why removed o pc

namespace World

variable {path : Name → List Char} {s t : World} {k : Sid} {st : Store} {out : Outcome} {a : Act}

/-! ## Entries and numbers -/

/-- The entry at `q` after a step. -/
inductive EntryStep (path : Name → List Char) (s : World) (q : List Char) :
    Act → CrashCell (Option Nat) → Prop where
  | same (a : Act) : EntryStep path s q a (s.fs.dir q)
  | synced (a : Act) : EntryStep path s q a (s.fs.dir q).sync
  | lost (cell : List Char → Nat) (loss : Nat → LockFs.Loss) :
      EntryStep path s q (.powerLoss cell loss) ((s.fs.dir q).powerLoss (cell q))
  | unlinked (k : Sid) (st : Store) (name : Name) (why : Purpose) (guard : Option Did) (i : Nat) :
      s.stores[k]? = some st → st.pc = .unlink name why guard → path name = q →
      (s.fs.dir q).cur = some i → EntryStep path s q (.sys k .ok) ((s.fs.dir q).set none)
  | created (k : Sid) (st : Store) (o : Opening) (out : Outcome) :
      s.stores[k]? = some st → st.pc = .ctor o .openAppend → path o.name = q →
      (s.fs.dir q).cur = none →
      EntryStep path s q (.sys k out) ((s.fs.dir q).set (some s.fs.nextIno))

theorem sysStep_entry (q : List Char) (hk : s.stores[k]? = some st)
    (hstep : SysStep path s k st out st.pc t) :
    EntryStep path s q (.sys k out) (t.fs.dir q) := by
  have hsame : ∀ {c : CrashCell (Option Nat)}, c = s.fs.dir q →
      EntryStep path s q (.sys k out) c := by
    rintro _ rfl
    exact .same _
  generalize hpc : st.pc = pc at hstep
  cases hstep with
  | failed _ e _ _ _ => exact hsame (congrFun (dir_closeDesc s st.pid st.pc.desc) q)
  | unlinked name why guard i hok hcur =>
      subst hok
      by_cases hq : q = path name
      · subst hq
        show EntryStep path s _ _ (Function.update s.fs.dir (path name) _ (path name))
        rw [Function.update_self]
        exact .unlinked k st name why guard i hk hpc rfl hcur
      · exact hsame (Function.update_of_ne hq _ _)
  | ctor o pc _ hctor =>
      cases hctor with
      | failed _ e => exact hsame (congrFun (dir_closeDesc s st.pid st.pc.desc) q)
      | opened =>
          show EntryStep path s q _ ((s.fs.openCreate st.pid (path o.name)).dir q)
          cases hcur : (s.fs.dir (path o.name)).cur with
          | some i =>
              rw [LockFs.openCreate, hcur]
              exact .same _
          | none =>
              rw [LockFs.openCreate, hcur]
              by_cases hq : q = path o.name
              · subst hq
                show EntryStep path s _ _ (Function.update s.fs.dir (path o.name) _ (path o.name))
                rw [Function.update_self]
                exact .created k st o out hk hpc rfl hcur
              · exact hsame (Function.update_of_ne hq _ _)
      | _ => exact .same _
  | dirSynced h => exact .synced _
  | delDirSynced name => exact .synced _
  | delClosed name h removed hd hget hfree =>
      exact hsame (congrFun (dir_closeDesc s hd.pid hd.file) q)
  | closing h streams hd hget hfree => exact hsame (congrFun (dir_closeDesc s hd.pid hd.file) q)
  | _ => exact .same _

theorem step_entry (q : List Char) (hstep : Step path s a t) :
    EntryStep path s q a (t.fs.dir q) := by
  cases hstep with
  | call a k st t hk hidle hcall => cases hcall <;> exact .same _
  | sys k st out t hk hsys => exact sysStep_entry q hk hsys
  | handle a h hd t hget hhandle => cases hhandle <;> exact .same _
  | powerLoss cell loss => exact .lost cell loss
  | _ => exact .same _

/-- Numbers are not used again. -/
theorem step_nextIno (hstep : Step path s a t) :
    s.fs.nextIno ≤ t.fs.nextIno := by
  cases hstep with
  | call a k st t hk hidle hcall => cases hcall <;> exact Nat.le_refl _
  | sys k st out t hk hsys =>
      generalize st.pc = pc at hsys
      cases hsys with
      | failed _ e _ _ _ => exact (grows_closeDesc s st.pid st.pc.desc).nextIno
      | ctor o pc _ hctor =>
          cases hctor with
          | failed _ e => exact (grows_closeDesc s st.pid st.pc.desc).nextIno
          | opened => exact LockFs.Grows.openCreate.nextIno
          | _ => exact Nat.le_refl _
      | delClosed name h removed hd hget hfree =>
          exact (grows_closeDesc s hd.pid hd.file).nextIno
      | closing h streams hd hget hfree => exact (grows_closeDesc s hd.pid hd.file).nextIno
      | _ => exact Nat.le_refl _
  | handle a h hd t hget hhandle => cases hhandle <;> exact Nat.le_refl _
  | _ => exact Nat.le_refl _

/-- A description stays on its file. -/
theorem step_ino (hstep : Step path s a t) {d : Did} (hd : d < s.fs.descs.length) :
    t.fs.ino d = s.fs.ino d := by
  cases hstep with
  | call a k st t hk hidle hcall => cases hcall <;> rfl
  | sys k st out t hk hsys =>
      generalize st.pc = pc at hsys
      cases hsys with
      | failed _ e _ _ _ => exact ino_closeDesc s st.pid st.pc.desc d
      | probed name why i hcur => exact LockFs.ino_openFile hd
      | released name why e removed => exact LockFs.ino_close
      | raised name why e => exact LockFs.ino_close
      | ctor o pc _ hctor =>
          cases hctor with
          | failed _ e => exact ino_closeDesc s st.pid st.pc.desc d
          | opened => exact LockFs.ino_openCreate hd
          | openedRead i hcur => exact LockFs.ino_openFile hd
          | lockDenied e => exact LockFs.ino_close
          | _ => rfl
      | delClosed name h removed hd hget hfree => exact ino_closeDesc s hd.pid hd.file d
      | closing h streams hd hget hfree => exact ino_closeDesc s hd.pid hd.file d
      | _ => rfl
  | handle a h hd t hget hhandle => cases hhandle <;> rfl
  | fork p hlive => exact LockFs.ino_fork
  | exit p hlive => exact LockFs.ino_exit
  | powerLoss cell loss => exact LockFs.ino_powerLoss
  | _ => rfl

/-! ## Open streams -/

/-- Description `d` is open for the stream `n`, by a handle or a constructor. -/
inductive OpenAs (s : World) (n : Name) (d : Did) : Prop where
  | handle (hd : Handle) : hd ∈ s.handles → hd.file = some d → hd.w.name = n → OpenAs s n d
  | ctor (st : Store) (o : Opening) (pc : CtorPc) :
      st ∈ s.stores → st.pc = .ctor o pc → pc.desc = some d → o.name = n → OpenAs s n d

namespace OpenAs

variable {st' : Store} {h : Hid} {hd hd' : Handle} {n : Name} {d : Did}

/-- What handles and Stores have open after the step was open before. -/
theorem back (ho : t.OpenAs n d)
    (hhandles : ∀ hd' ∈ t.handles, ∀ d, hd'.file = some d → s.OpenAs hd'.w.name d)
    (hstores : ∀ st' ∈ t.stores, st' ∈ s.stores ∨ ∀ o pc d, st'.pc = .ctor o pc →
      pc.desc = some d → s.OpenAs o.name d) : s.OpenAs n d := by
  cases ho with
  | handle hd hmem hfile hname => exact hname ▸ hhandles hd hmem d hfile
  | ctor st o pc hmem hpc hdesc hname =>
      rcases hstores st hmem with hmem | hnew
      · exact .ctor st o pc hmem hpc hdesc hname
      · exact hname ▸ hnew o pc d hpc hdesc

/-- Store `k` goes on, and the handles are the same. -/
theorem goOn (ho : t.OpenAs n d) (hstores : t.stores = s.stores.set k st')
    (hhandles : t.handles = s.handles)
    (hctor : ∀ o pc d, st'.pc = .ctor o pc → pc.desc = some d → s.OpenAs o.name d) :
    s.OpenAs n d := by
  refine ho.back ?_ ?_
  · intro hd hmem d hfile
    rw [hhandles] at hmem
    exact .handle hd hmem hfile rfl
  · intro st hmem
    rw [hstores] at hmem
    rcases List.mem_or_eq_of_mem_set hmem with hmem | rfl
    · exact .inl hmem
    · exact .inr hctor

/-- One handle changes, but not its name, and opens nothing. -/
theorem setHandle (ho : t.OpenAs n d) (hget : s.handles[h]? = some hd)
    (hhandles : t.handles = s.handles.set h hd')
    (hstores : ∀ st' ∈ t.stores, st' ∈ s.stores ∨ ∀ o pc, st'.pc ≠ .ctor o pc)
    (hfile : ∀ d, hd'.file = some d → hd.file = some d) (hname : hd'.w.name = hd.w.name) :
    s.OpenAs n d := by
  refine ho.back ?_ fun st hmem => (hstores st hmem).imp_right ?_
  · intro hd₀ hmem d hfile₀
    rw [hhandles] at hmem
    rcases List.mem_or_eq_of_mem_set hmem with hmem | rfl
    · exact .handle hd₀ hmem hfile₀ rfl
    · exact .handle hd (List.mem_of_getElem? hget) (hfile d hfile₀) hname.symm
  · exact fun hne o pc d hpc => absurd hpc (hne o pc)

/-- A constructor opens the file its path names. -/
theorem opened (ho : t.OpenAs n d) {o : Opening} {pc : CtorPc} {e : Did}
    (hstores : t.stores = s.stores.set k { st with pc := .ctor o pc })
    (hhandles : t.handles = s.handles) (hdesc : pc.desc = some e) :
    s.OpenAs n d ∨ (n = o.name ∧ d = e) := by
  cases ho with
  | handle hd hmem hfile hname =>
      rw [hhandles] at hmem
      exact .inl (.handle hd hmem hfile hname)
  | ctor st₀ o' pc' hmem hpc hdesc' hname =>
      rw [hstores] at hmem
      rcases List.mem_or_eq_of_mem_set hmem with hmem | rfl
      · exact .inl (.ctor st₀ o' pc' hmem hpc hdesc' hname)
      · right
        cases hpc
        rw [hdesc] at hdesc'
        exact ⟨hname.symm, (Option.some.inj hdesc').symm⟩

/-- The constructor returns: the handle has open what the constructor had. -/
theorem openedStream {fs : LockFs (List Char) UInt8} {o : Opening} {pc : CtorPc} {e : Did}
    {owner : Bool} {index : List Nat}
    (ho : ((s.setFs fs).openedStream k st o e owner index).OpenAs n d)
    (hk : s.stores[k]? = some st) (hpc : st.pc = .ctor o pc) (hdesc : pc.desc = some e) :
    s.OpenAs n d := by
  refine ho.back ?_ ?_
  · intro hd hmem d hfile
    rcases List.mem_append.mp hmem with hmem | hmem
    · exact .handle hd hmem hfile rfl
    · rw [List.mem_singleton.mp hmem] at hfile ⊢
      cases hfile
      exact .ctor st o pc (List.mem_of_getElem? hk) hpc hdesc rfl
  · intro st₀ hmem
    rcases List.mem_or_eq_of_mem_set hmem with hmem | rfl
    · exact .inl hmem
    · right
      cases o.created with
      | false => exact fun _ _ _ heq => by cases heq
      | true => exact fun _ _ _ heq => by cases heq

/-- Some of the processes end. -/
theorem mapGone (ho : t.OpenAs n d) (p : Pid → Bool)
    (hstores : t.stores = s.stores.map fun st => if p st.pid then st.gone else st)
    (hhandles : t.handles = s.handles.map fun hd => if p hd.pid then hd.gone else hd) :
    s.OpenAs n d := by
  refine ho.back ?_ ?_
  · intro hd' hmem d hfile
    rw [hhandles] at hmem
    obtain ⟨hd, hmem₀, rfl⟩ := List.mem_map.mp hmem
    cases hp : p hd.pid with
    | true =>
        rw [hp] at hfile
        cases hfile
    | false =>
        rw [hp] at hfile
        exact .handle hd hmem₀ hfile rfl
  · intro st' hmem
    rw [hstores] at hmem
    obtain ⟨st, hmem₀, rfl⟩ := List.mem_map.mp hmem
    cases p st.pid with
    | true => exact .inr fun _ _ _ heq => by cases heq
    | false => exact .inl hmem₀

theorem forkStep {p : Pid} (ho : (s.forkStep p).OpenAs n d) : s.OpenAs n d := by
  refine ho.back ?_ ?_
  · intro hd' hmem d hfile
    rcases List.mem_append.mp hmem with hmem | hmem
    · exact .handle hd' hmem hfile rfl
    · obtain ⟨hd, hmem₀, rfl⟩ := List.mem_map.mp hmem
      by_cases hp : hd.pid = p
      · rw [if_pos hp] at hfile ⊢
        exact .handle hd hmem₀ hfile rfl
      · rw [if_neg hp] at hfile
        cases hfile
  · intro st' hmem
    rcases List.mem_append.mp hmem with hmem | hmem
    · exact .inl hmem
    · obtain ⟨st, -, rfl⟩ := List.mem_map.mp hmem
      right
      split
      · simp only [Store.forked]
        split <;> exact fun _ _ _ heq => by cases heq
      · exact fun _ _ _ heq => by cases heq

end OpenAs

variable {n : Name} {d : Did}

theorem ctorStep_openAs {o : Opening} {pc : CtorPc} (hk : s.stores[k]? = some st)
    (hpc : st.pc = .ctor o pc) (hstep : CtorStep path s k st out o pc t) (ho : t.OpenAs n d) :
    s.OpenAs n d ∨ (t.fs.dir (path n)).cur = some (t.fs.ino d) := by
  have hsame : ∀ {pc' : CtorPc}, pc'.desc = pc.desc →
      ∀ o' pc'' d, StorePc.ctor o pc' = .ctor o' pc'' → pc''.desc = some d →
        s.OpenAs o'.name d := by
    intro pc' hdescs o' pc'' d heq hdesc
    cases heq
    exact .ctor st o pc (List.mem_of_getElem? hk) hpc (hdescs ▸ hdesc) rfl
  cases hstep with
  | failed _ e =>
      left
      exact ho.goOn (stores_fail s k st e) (handles_fail s k st e) fun _ _ _ heq => by cases heq
  | opened =>
      refine (ho.opened (s := s) rfl rfl rfl).imp_right ?_
      rintro ⟨rfl, rfl⟩
      exact LockFs.cur_openCreate_self
  | openedRead i hcur =>
      refine (ho.opened (s := s) rfl rfl rfl).imp_right ?_
      rintro ⟨rfl, rfl⟩
      show (s.fs.dir (path o.name)).cur = some ((s.fs.openFile st.pid i).ino s.fs.descs.length)
      rw [LockFs.ino_openFile_self, hcur]
  | denied => exact .inl (ho.goOn rfl rfl (hsame rfl))
  | lockDenied e =>
      refine .inl (ho.goOn rfl rfl fun o' pc' d heq hdesc => ?_)
      cases heq
      cases hdesc
  | scanned e owner size i hcur hend => exact .inl (ho.openedStream hk hpc rfl)
  | synced e index => exact .inl (ho.openedStream hk hpc rfl)
  | locked e hok hcan => exact .inl (ho.goOn rfl rfl (hsame rfl))
  | blocked e hcan => exact .inl (ho.goOn rfl rfl (hsame rfl))
  | stat e owner => exact .inl (ho.goOn rfl rfl (hsame rfl))
  | torn e size i hcur hne => exact .inl (ho.goOn rfl rfl (hsame rfl))
  | cut e index => exact .inl (ho.goOn rfl rfl (hsame rfl))

theorem sysStep_openAs (hk : s.stores[k]? = some st)
    (hstep : SysStep path s k st out st.pc t) (ho : t.OpenAs n d) :
    s.OpenAs n d ∨ (t.fs.dir (path n)).cur = some (t.fs.ino d) := by
  have hne : ∀ {pc : StorePc}, (∀ o pc', pc ≠ .ctor o pc') →
      ∀ o pc' d, pc = .ctor o pc' → pc'.desc = some d → s.OpenAs o.name d :=
    fun hne o pc' d heq => absurd heq (hne o pc')
  generalize hpc : st.pc = pc at hstep
  cases hstep with
  | ctor o pc _ hctor => exact ctorStep_openAs hk hpc hctor ho
  | failed _ e _ _ _ =>
      left
      exact ho.goOn (stores_fail s k st e) (handles_fail s k st e) fun _ _ _ heq => by cases heq
  | found name given row hmeta hrow =>
      refine .inl (ho.goOn rfl rfl fun o pc d heq hdesc => ?_)
      cases heq
      cases hdesc
  | inserted name contentType asked hok hrow =>
      refine .inl (ho.goOn rfl rfl fun o pc d heq hdesc => ?_)
      cases heq
      cases hdesc
  | unlinked name why guard i hok hcur => exact .inl (ho.goOn rfl rfl (hne unlinked_ne_ctor))
  | kept name why guard removed hkept => exact .inl (ho.goOn rfl rfl (hne unlinked_ne_ctor))
  | released name why e removed =>
      exact .inl (ho.goOn rfl rfl (hne (purged_ne_ctor name why (some removed))))
  | delClosed name h removed hd hget hfree =>
      refine .inl (ho.setHandle hget (handles_closeFds s h hd) ?_ (fun _ heq => by cases heq) rfl)
      intro st' hmem
      rw [World.setStore, stores_closeFds] at hmem
      rcases List.mem_or_eq_of_mem_set hmem with hmem | rfl
      · exact .inl hmem
      · right
        cases removed <;> exact fun _ _ heq => by cases heq
  | closing h streams hd hget hfree =>
      refine .inl (ho.setHandle hget (handles_closeFds s h hd) ?_ (fun _ heq => by cases heq) rfl)
      intro st' hmem
      rw [World.goto, World.setStore, stores_closeFds] at hmem
      rcases List.mem_or_eq_of_mem_set hmem with hmem | rfl
      · exact .inl hmem
      · exact .inr fun _ _ heq => by cases heq
  | _ => exact .inl (ho.goOn rfl rfl fun _ _ _ heq => by cases heq)

/-- What is open for a stream after a step was open for it before, or is the file its
path names. -/
theorem step_openAs (hstep : Step path s a t) (ho : t.OpenAs n d) :
    s.OpenAs n d ∨ (t.fs.dir (path n)).cur = some (t.fs.ino d) := by
  have hkeep : ∀ {hds : List Handle}, hds = s.handles → ∀ hd ∈ hds, ∀ d, hd.file = some d →
      s.OpenAs hd.w.name d := by
    rintro _ rfl hd hmem d hfile
    exact .handle hd hmem hfile rfl
  cases hstep with
  | spawn => exact .inl (ho.back (hkeep rfl) fun _ hmem => .inl hmem)
  | newStore p hlive =>
      refine .inl (ho.back (hkeep rfl) fun st hmem => ?_)
      rcases List.mem_append.mp hmem with hmem | hmem
      · exact .inl hmem
      · rw [List.mem_singleton.mp hmem]
        exact .inr fun _ _ _ heq => by cases heq
  | call a k st t hk hidle hcall =>
      left
      cases hcall <;> exact ho.goOn rfl rfl fun _ _ _ heq => by cases heq
  | sys k st out t hk hsys => exact sysStep_openAs hk hsys ho
  | handle a h hd t hget hhandle =>
      left
      have hstores : ∀ st ∈ s.stores, st ∈ s.stores ∨ ∀ o pc, st.pc ≠ .ctor o pc :=
        fun _ hmem => .inl hmem
      cases hhandle with
      | refused => exact ho
      | started payloads w hfree hbegin =>
          obtain ⟨-, -, -, -, -, rfl⟩ := Writer.begin_started hbegin
          exact ho.setHandle hget rfl hstores (fun _ hfile => hfile) rfl
      | io e f w fate hfile hw hret =>
          have hname : w.name = hd.w.name := by cases hw <;> rfl
          exact ho.setHandle hget rfl hstores (fun _ hfile => hfile) hname
      | closing hfree hw => exact ho.setHandle hget rfl hstores (fun _ hfile => hfile) rfl
      | updated e rows hclosing hfile hrows =>
          exact ho.setHandle hget rfl hstores (fun _ hfile => hfile) rfl
      | updateFailed hclosing => exact ho.setHandle hget rfl hstores (fun _ hfile => hfile) rfl
  | fork p hlive => exact .inl ho.forkStep
  | exit p hlive =>
      exact .inl (ho.mapGone (fun q => q == p) (by simp [exitStep]) (by simp [exitStep]))
  | powerLoss cell loss => exact .inl (ho.mapGone (fun _ => true) (by simp) (by simp))

end World

end Durastream

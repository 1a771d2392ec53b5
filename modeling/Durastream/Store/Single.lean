import Durastream.Store.Rooted

/-!
# One Store at a time

Runs in which a Store is only made while no other is open, and no process forks.
The code runs a method of a Store under its lock, so in such a run nothing
happens to rows and entries between two steps of a method: what `create` or
`delete` has found out is still true when it acts on it.  `Store.Fits` says what
that is for each place in a method, and `World.Single` that it holds of every
Store, that only one of them is open, and that an open handle is one the Store
knows of.
-/

namespace Durastream

/-- What the caller of `_lock_for_removal` has found out about the stream. -/
def Purpose.Fits (rows : Table Name Row) (opened : Table Name Hid) (name : Name) : Purpose → Prop
  | .create _ _ => rows.get name = none ∧ opened.get name = none
  | .delete own => ∀ h, own = some h → opened.get name = some h

/-- What a method has found out is still true. -/
def Store.Fits (rows : Table Name Row) (st : Store) : Prop :=
  match st.pc with
  | .idle => True
  | .stuck => True
  | .lookup name _ => st.opened.get name = none
  | .probe name why => st.metaOpen = true ∧ why.Fits rows st.opened name
  | .probeLock name why _ => st.metaOpen = true ∧ why.Fits rows st.opened name
  | .unlink name why _ => st.metaOpen = true ∧ why.Fits rows st.opened name
  | .closeGuard name why _ _ => st.metaOpen = true ∧ why.Fits rows st.opened name
  | .insert name _ _ =>
      st.metaOpen = true ∧ rows.get name = none ∧ st.opened.get name = none
  | .ctor o _ => st.metaOpen = true ∧ st.opened.get o.name = none
  | .dirSync _ => st.metaOpen = true
  | .delClose name h _ => st.metaOpen = true ∧ st.opened.get name = some h
  | .delDirSync _ => st.metaOpen = true
  | .delRow _ => st.metaOpen = true
  | .closing _ => ∀ name, st.opened.get name = none

/-- The Store has handle `h` of the stream. -/
def Store.Holds (st : Store) (name : Name) (h : Hid) : Prop :=
  st.opened.get name = some h ∨ h ∈ st.pc.locals

section Fits

variable {rows rows' : Table Name Row} {st : Store}

theorem Purpose.Fits.mono {opened : Table Name Hid} {name : Name} {why : Purpose}
    (h : why.Fits rows opened name) (hrows : ∀ n, rows.get n = none → rows'.get n = none) :
    why.Fits rows' opened name := by
  cases why with
  | create contentType asked => exact ⟨hrows name h.1, h.2⟩
  | delete own => exact h

theorem Store.Fits.mono (h : st.Fits rows) (hrows : ∀ n, rows.get n = none → rows'.get n = none) :
    st.Fits rows' := by
  unfold Store.Fits at h ⊢
  cases hpc : st.pc <;> rw [hpc] at h
  case probe name why => exact ⟨h.1, h.2.mono hrows⟩
  case probeLock name why d => exact ⟨h.1, h.2.mono hrows⟩
  case unlink name why guard => exact ⟨h.1, h.2.mono hrows⟩
  case closeGuard name why d removed => exact ⟨h.1, h.2.mono hrows⟩
  case insert name contentType asked => exact ⟨h.1, hrows name h.2.1, h.2.2⟩
  all_goals exact h

/-- A Store that is not open has found out nothing about rows. -/
theorem Store.Fits.of_not_open (h : st.Fits rows) (hshut : st.metaOpen = false) :
    st.Fits rows' := by
  unfold Store.Fits at h ⊢
  cases hpc : st.pc <;> rw [hpc] at h
  case lookup name given => exact h
  case closing streams => exact h
  case idle => trivial
  case stuck => trivial
  case ctor o pc => exact h
  case dirSync h' => exact h
  case delClose name h' removed => exact h
  case delDirSync name => exact h
  case delRow name => exact h
  all_goals
    rw [hshut] at h
    cases h.1

/-- After the unlink, the method still knows what it has found out. -/
theorem Store.Fits.purged {name : Name} {why : Purpose} (removed : Option Bool)
    (hopen : st.metaOpen = true) (h : why.Fits rows st.opened name) :
    ({ st with pc := purged name why removed } : Store).Fits rows := by
  cases removed with
  | none => trivial
  | some removed =>
      cases why with
      | create contentType asked => exact ⟨hopen, h⟩
      | delete own =>
          cases own with
          | some h' => exact ⟨hopen, h h' rfl⟩
          | none => cases removed <;> exact hopen

theorem Store.Fits.unlinked {name : Name} {why : Purpose} {guard : Option Did}
    (removed : Option Bool) (hopen : st.metaOpen = true) (h : why.Fits rows st.opened name) :
    ({ st with pc := unlinked name why guard removed } : Store).Fits rows := by
  cases guard with
  | some d => exact ⟨hopen, h⟩
  | none => exact .purged removed hopen h

end Fits

namespace World

/-- A Store is only made while no other is open, and no process forks. -/
def oneStore (s : World) : Act → Bool
  | .newStore _ => s.stores.all fun st => !st.metaOpen
  | .fork _ => false
  | _ => true

structure Single (s : World) : Prop where
  one : ∀ (k k' : Sid) (st st' : Store), s.stores[k]? = some st → st.metaOpen = true →
    s.stores[k']? = some st' → st'.metaOpen = true → k = k'
  fits : ∀ st ∈ s.stores, st.Fits s.rows
  held : ∀ (h : Hid) (hd : Handle), s.handles[h]? = some hd → hd.file ≠ none →
    ∃ st, s.stores[hd.store]? = some st ∧ st.metaOpen = true ∧ st.Holds hd.w.name h

variable {s t : World} {k : Sid} {h : Hid} {st st' : Store} {hd hd' : Handle}
  {out : Outcome} {a : Act}

namespace Single

theorem init (disk : Disk) : (World.init disk).Single :=
  ⟨fun _ _ _ _ hk => absurd hk (by simp [World.init]), fun _ hmem => absurd hmem List.not_mem_nil,
    fun _ _ hget => absurd hget (by simp [World.init])⟩

/-- Store `k` goes on, and either the others learn of no new row, or it is open
and they are not. -/
theorem ofSet (hs : s.Single) (hk : s.stores[k]? = some st)
    (hstores : t.stores = s.stores.set k st') (hopen : st'.metaOpen = true → st.metaOpen = true)
    (hfits : st'.Fits t.rows)
    (hothers : (∀ n, s.rows.get n = none → t.rows.get n = none) ∨ st.metaOpen = true)
    (hheld : ∀ (h : Hid) (hd' : Handle), t.handles[h]? = some hd' → hd'.file ≠ none →
      (hd'.store = k ∧ st'.metaOpen = true ∧ st'.Holds hd'.w.name h) ∨
        ∃ hd : Handle, s.handles[h]? = some hd ∧ hd.file ≠ none ∧ hd'.store = hd.store ∧
          hd'.w.name = hd.w.name ∧ hd.store ≠ k) : t.Single := by
  have hlt := (List.getElem?_eq_some_iff.mp hk).1
  have hget : ∀ (j : Sid) (st₀ : Store), t.stores[j]? = some st₀ →
      (j = k ∧ st₀ = st') ∨ (j ≠ k ∧ s.stores[j]? = some st₀) := by
    intro j st₀ hj
    rw [hstores] at hj
    exact List.getElem?_set_cases hj
  -- a Store that is open now was open before
  have hback : ∀ (j : Sid) (st₀ : Store), t.stores[j]? = some st₀ → st₀.metaOpen = true →
      ∃ st₁, s.stores[j]? = some st₁ ∧ st₁.metaOpen = true := by
    intro j st₀ hj hmeta
    rcases hget j st₀ hj with ⟨rfl, rfl⟩ | ⟨-, hj⟩
    · exact ⟨st, hk, hopen hmeta⟩
    · exact ⟨st₀, hj, hmeta⟩
  refine ⟨?_, ?_, ?_⟩
  · intro i j st₀ st₁ hi hmeta hj hmeta'
    obtain ⟨st₂, hi', hmeta₂⟩ := hback i st₀ hi hmeta
    obtain ⟨st₃, hj', hmeta₃⟩ := hback j st₁ hj hmeta'
    exact hs.one i j st₂ st₃ hi' hmeta₂ hj' hmeta₃
  · intro st₀ hmem
    obtain ⟨j, hj⟩ := List.mem_iff_getElem?.mp hmem
    rcases hget j st₀ hj with ⟨-, rfl⟩ | ⟨hne, hj⟩
    · exact hfits
    · have hold := hs.fits st₀ (List.mem_of_getElem? hj)
      rcases hothers with hrows | hmeta
      · exact hold.mono hrows
      · refine hold.of_not_open ?_
        cases hmeta₀ : st₀.metaOpen with
        | false => rfl
        | true => exact absurd (hs.one j k st₀ st hj hmeta₀ hk hmeta) hne
  · intro h hd' hgeth hfile
    rcases hheld h hd' hgeth hfile with ⟨hstore, hmeta, hholds⟩ |
      ⟨hd, hgeth₀, hfile₀, hstore, hname, hne⟩
    · refine ⟨st', ?_, hmeta, hholds⟩
      rw [hstore, hstores]
      exact List.getElem?_set_self hlt
    · obtain ⟨st₀, hst₀, hmeta, hholds⟩ := hs.held h hd hgeth₀ hfile₀
      refine ⟨st₀, ?_, hmeta, hname ▸ hholds⟩
      rw [hstore, hstores, List.getElem?_set_ne fun heq => hne heq.symm]
      exact hst₀

/-- Store `k` goes on, and the handles are the same. -/
theorem goOn (hs : s.Single) (hk : s.stores[k]? = some st)
    (hstores : t.stores = s.stores.set k st') (hhandles : t.handles = s.handles)
    (hopen : st'.metaOpen = st.metaOpen) (hfits : st'.Fits t.rows)
    (hothers : (∀ n, s.rows.get n = none → t.rows.get n = none) ∨ st.metaOpen = true)
    (hholds : ∀ n h, st.Holds n h → st'.Holds n h) : t.Single := by
  refine hs.ofSet hk hstores (fun hmeta => hopen ▸ hmeta) hfits hothers ?_
  intro h hd hget hfile
  rw [hhandles] at hget
  by_cases hstore : hd.store = k
  · obtain ⟨st₀, hst₀, hmeta, hheld⟩ := hs.held h hd hget hfile
    rw [hstore, hk] at hst₀
    cases hst₀
    exact .inl ⟨hstore, hopen ▸ hmeta, hholds _ _ hheld⟩
  · exact .inr ⟨hd, hget, hfile, rfl, rfl, hstore⟩

/-- Store `k` goes on from a place without handles of its own. -/
theorem moves (hs : s.Single) (hk : s.stores[k]? = some st) {pc : StorePc}
    {r : Except Error (Option Hid)}
    (hstores : t.stores = s.stores.set k ⟨st.pid, st.opened, st.metaOpen, pc, r⟩)
    (hhandles : t.handles = s.handles) (hrows : t.rows = s.rows)
    (hlocals : st.pc.locals = [])
    (hfits : Store.Fits s.rows ⟨st.pid, st.opened, st.metaOpen, pc, r⟩) :
    t.Single := by
  refine hs.goOn hk hstores hhandles rfl (hrows ▸ hfits) (.inl fun n hn => by rwa [hrows]) ?_
  intro n h hholds
  rcases hholds with hopened | hlocal
  · exact .inl hopened
  · rw [hlocals] at hlocal
    cases hlocal

/-- The constructor returns: the Store has no other handle of this name. -/
theorem openedStream (hs : s.Single) (hk : s.stores[k]? = some st)
    {fs : LockFs (List Char) UInt8} {o : Opening} {pc : CtorPc} {d : Did} {owner : Bool}
    {index : List Nat} (hpc : st.pc = .ctor o pc) (hmeta : st.metaOpen = true)
    (hnone : st.opened.get o.name = none) :
    ((s.setFs fs).openedStream k st o d owner index).Single := by
  have hlocals : st.pc.locals = [] := by rw [hpc]; rfl
  refine hs.ofSet hk rfl (fun _ => hmeta) ?_ (.inl fun _ hn => hn) ?_
  · cases hcreated : o.created
    · trivial
    · exact hmeta
  · intro h hd' hget hfile
    have hcases : (s.handles ++ [_])[h]? = some hd' := hget
    rcases List.getElem?_concat_cases hcases with hget₀ | ⟨rfl, rfl⟩
    · by_cases hstore : hd'.store = k
      · left
        obtain ⟨st₀, hst₀, -, hheld⟩ := hs.held h hd' hget₀ hfile
        rw [hstore, hk] at hst₀
        cases hst₀
        refine ⟨hstore, hmeta, ?_⟩
        rcases hheld with hopened | hlocal
        · have hne : hd'.w.name ≠ o.name := by
            intro heq
            rw [heq, hnone] at hopened
            cases hopened
          exact .inl ((Table.get_set_of_ne _ hne _).trans hopened)
        · rw [hlocals] at hlocal
          cases hlocal
      · exact .inr ⟨hd', hget₀, hfile, rfl, rfl, hstore⟩
    · left
      exact ⟨rfl, hmeta, .inl (Table.get_set_self _ _ _)⟩

theorem ctorStep {path : Name → List Char} (hs : s.Single) (hk : s.stores[k]? = some st)
    {o : Opening} {pc : CtorPc} (hpc : st.pc = .ctor o pc)
    (hstep : CtorStep path s k st out o pc t) : t.Single := by
  have hfits := hs.fits st (List.mem_of_getElem? hk)
  rw [Store.Fits, hpc] at hfits
  have hlocals : st.pc.locals = [] := by rw [hpc]; rfl
  cases hstep with
  | failed _ e =>
      exact hs.moves hk (stores_fail s k st e) (handles_fail s k st e) (rows_fail s k st e) hlocals
        trivial
  | scanned d owner size i hcur hend => exact hs.openedStream hk hpc hfits.1 hfits.2
  | synced d index => exact hs.openedStream hk hpc hfits.1 hfits.2
  | _ => exact hs.moves hk rfl rfl rfl hlocals hfits

/-- A handle is closed, and its Store forgets it. -/
theorem closeFds (hs : s.Single) (hk : s.stores[k]? = some st)
    (hget : s.handles[h]? = some hd) (hstores : t.stores = s.stores.set k st')
    (hhandles : t.handles = s.handles.set h hd.closeFds) (hrows : t.rows = s.rows)
    (hopen : st'.metaOpen = st.metaOpen) (hfits : st'.Fits s.rows)
    (hholds : ∀ n j, j ≠ h → st.Holds n j → st'.Holds n j) : t.Single := by
  refine hs.ofSet hk hstores (fun hmeta => hopen ▸ hmeta) (hrows ▸ hfits)
    (.inl fun n hn => by rwa [hrows]) ?_
  intro j hd' hgetj hfile
  rw [hhandles] at hgetj
  rcases List.getElem?_set_cases hgetj with ⟨rfl, rfl⟩ | ⟨hne, hgetj⟩
  · exact absurd rfl hfile
  · by_cases hstore : hd'.store = k
    · obtain ⟨st₀, hst₀, hmeta, hheld⟩ := hs.held j hd' hgetj hfile
      rw [hstore, hk] at hst₀
      cases hst₀
      exact .inl ⟨hstore, hopen ▸ hmeta, hholds _ _ hne hheld⟩
    · exact .inr ⟨hd', hgetj, hfile, rfl, rfl, hstore⟩

theorem sysStep {path : Name → List Char} (hs : s.Single) (hk : s.stores[k]? = some st)
    (hstep : SysStep path s k st out st.pc t) : t.Single := by
  have hfits := hs.fits st (List.mem_of_getElem? hk)
  generalize hpc : st.pc = pc at hstep
  rw [Store.Fits, hpc] at hfits
  have hlocals : st.pc.locals = pc.locals := by rw [hpc]
  cases hstep with
  | failed _ e _ _ hnone =>
      exact hs.moves hk (stores_fail s k st e) (handles_fail s k st e) (rows_fail s k st e)
        (hlocals.trans hnone) trivial
  | found name given row hmeta hrow =>
      exact hs.moves hk rfl rfl rfl hlocals ⟨hmeta, hfits⟩
  | missing name given hmeta hrow =>
      exact hs.moves hk rfl rfl rfl hlocals ⟨hmeta, hrow, hfits⟩
  | probed name why i hcur => exact hs.moves hk rfl rfl rfl hlocals hfits
  | noLog name why hcur => exact hs.moves hk rfl rfl rfl hlocals hfits
  | guarded name why d hcan => exact hs.moves hk rfl rfl rfl hlocals hfits
  | unlinked name why guard i hok hcur =>
      exact hs.moves hk rfl rfl rfl hlocals (.unlinked (some true) hfits.1 hfits.2)
  | kept name why guard removed hkept =>
      exact hs.moves hk rfl rfl rfl hlocals (.unlinked removed hfits.1 hfits.2)
  | released name why d removed =>
      exact hs.moves hk rfl rfl rfl hlocals (.purged (some removed) hfits.1 hfits.2)
  | raised name why d => exact hs.moves hk rfl rfl rfl hlocals trivial
  | inserted name contentType asked hok hrow =>
      refine hs.goOn hk rfl rfl rfl ⟨hfits.1, hfits.2.2⟩ (.inr hfits.1) ?_
      intro n h hholds
      rcases hholds with hopened | hlocal
      · exact .inl hopened
      · rw [hlocals] at hlocal
        cases hlocal
  | ctor o pc _ hctor => exact hs.ctorStep hk hpc hctor
  | dirSynced h => exact hs.moves hk rfl rfl rfl hlocals trivial
  | delClosed name h removed hd hget hfree =>
      have hstores : ((s.closeFds h hd).setStore k
          { st with opened := st.opened.erase name, pc := delNext name removed }).stores =
            s.stores.set k
              { st with opened := st.opened.erase name, pc := delNext name removed } := by
        rw [← stores_closeFds s h hd]
        rfl
      refine hs.closeFds hk hget hstores (handles_closeFds s h hd) (rows_closeFds s h hd) rfl
        ?_ ?_
      · cases removed <;> exact hfits.1
      · intro n j hne hholds
        rcases hholds with hopened | hlocal
        · left
          have hname : n ≠ name := by
            intro heq
            rw [heq, hfits.2] at hopened
            cases hopened
            exact hne rfl
          exact (Table.get_erase_of_ne _ hname).trans hopened
        · rw [hlocals] at hlocal
          exact absurd (List.mem_singleton.mp hlocal) hne
  | delDirSynced name => exact hs.moves hk rfl rfl rfl hlocals hfits
  | deleted name =>
      refine hs.goOn hk rfl rfl rfl trivial (.inr hfits) ?_
      intro n h hholds
      rcases hholds with hopened | hlocal
      · exact .inl hopened
      · rw [hlocals] at hlocal
        cases hlocal
  | closing h streams hd hget hfree =>
      have hstores : ((s.closeFds h hd).goto k st (.closing streams)).stores =
          s.stores.set k { st with pc := .closing streams } := by
        rw [← stores_closeFds s h hd]
        rfl
      refine hs.closeFds hk hget hstores (handles_closeFds s h hd)
        (rows_closeFds s h hd) rfl hfits ?_
      intro n j hne hholds
      rcases hholds with hopened | hlocal
      · exact .inl hopened
      · rw [hlocals] at hlocal
        exact .inr ((List.mem_cons.mp hlocal).resolve_left hne)
  | closed =>
      refine hs.ofSet hk rfl (fun hmeta => by cases hmeta) trivial (.inl fun _ hn => hn) ?_
      intro h hd hget hfile
      right
      refine ⟨hd, hget, hfile, rfl, rfl, ?_⟩
      -- a Store that has closed everything holds no handle
      intro hstore
      obtain ⟨st₀, hst₀, -, hheld⟩ := hs.held h hd hget hfile
      rw [hstore, hk] at hst₀
      cases hst₀
      rcases hheld with hopened | hlocal
      · rw [hfits] at hopened
        cases hopened
      · rw [hlocals] at hlocal
        cases hlocal

theorem callStep (hs : s.Single) (hl : s.Linked) (hk : s.stores[k]? = some st)
    (hidle : st.pc = .idle) (hstep : CallStep s k st a t) : t.Single := by
  have hlocals : st.pc.locals = [] := by rw [hidle]; rfl
  cases hstep with
  | done r => exact hs.moves hk rfl rfl rfl hlocals trivial
  | lookup name given hnone =>
      refine hs.moves hk rfl rfl rfl hlocals ?_
      show st.opened.get name = none
      cases hopened : st.opened.get name with
      | none => rfl
      | some h =>
          obtain ⟨hd, hget, -⟩ := hl.opened k st name h hk hopened
          simp [hopened, hget] at hnone
  | deleteOwn k' name h hd ha hopened hget hw hmeta =>
      refine hs.moves hk rfl rfl rfl hlocals ⟨hmeta, fun h' heq => ?_⟩
      cases heq
      exact hopened
  | deleteOther k' name own ha hown hmeta => exact hs.moves hk rfl rfl rfl hlocals ⟨hmeta, hown⟩
  | close =>
      refine hs.goOn hk rfl rfl rfl (fun _ => rfl) (.inl fun _ hn => hn) ?_
      intro n h hholds
      rcases hholds with hopened | hlocal
      · exact .inr (Table.mem_values hopened)
      · rw [hlocals] at hlocal
        cases hlocal

/-- A handle changes but stays where it is, and no row is new. -/
theorem setHandle (hs : s.Single) (hget : s.handles[h]? = some hd)
    (hhandles : t.handles = s.handles.set h hd') (hstores : t.stores = s.stores)
    (hrows : ∀ n, s.rows.get n = none → t.rows.get n = none)
    (hfile : hd'.file = hd.file) (hstore : hd'.store = hd.store) (hname : hd'.w.name = hd.w.name) :
    t.Single := by
  refine ⟨?_, ?_, ?_⟩
  · rw [hstores]
    exact hs.one
  · rw [hstores]
    exact fun st hmem => (hs.fits st hmem).mono hrows
  · intro j hd₀ hgetj hfile₀
    rw [hstores]
    rw [hhandles] at hgetj
    rcases List.getElem?_set_cases hgetj with ⟨rfl, rfl⟩ | ⟨-, hgetj⟩
    · rw [hstore, hname]
      exact hs.held j hd hget (hfile ▸ hfile₀)
    · exact hs.held j hd₀ hgetj hfile₀

theorem handleStep (hs : s.Single) (hget : s.handles[h]? = some hd)
    (hstep : HandleStep s h hd a t) : t.Single := by
  cases hstep with
  | refused => exact hs
  | started payloads w hfree hbegin =>
      obtain ⟨-, -, -, -, -, rfl⟩ := Writer.begin_started hbegin
      exact hs.setHandle hget rfl rfl (fun _ hn => hn) rfl rfl rfl
  | io d f w fate hfile hw hret =>
      have hname : w.name = hd.w.name := by cases hw <;> rfl
      exact hs.setHandle hget rfl rfl (fun _ hn => hn) rfl rfl hname
  | closing hfree hw => exact hs.setHandle hget rfl rfl (fun _ hn => hn) rfl rfl rfl
  | updated d rows hclosing hfile hrows =>
      refine hs.setHandle hget rfl rfl ?_ rfl rfl rfl
      intro n hn
      rw [hrows, hn]
      split <;> rfl
  | updateFailed hclosing => exact hs.setHandle hget rfl rfl (fun _ hn => hn) rfl rfl rfl

/-- Some of the processes end. -/
theorem mapGone (hs : s.Single) (hl : s.Linked) (p : Pid → Bool) (hrows : t.rows = s.rows)
    (hstores : t.stores = s.stores.map fun st => if p st.pid then st.gone else st)
    (hhandles : t.handles = s.handles.map fun hd => if p hd.pid then hd.gone else hd) :
    t.Single := by
  have hback : ∀ (k : Sid) (st' : Store), t.stores[k]? = some st' → st'.metaOpen = true →
      s.stores[k]? = some st' := by
    intro k st' hk hmeta
    rw [hstores, List.getElem?_map] at hk
    obtain ⟨st, hget, rfl⟩ := Option.map_eq_some_iff.mp hk
    split at hmeta
    · cases hmeta
    · next hp => rw [if_neg hp, hget]
  refine ⟨?_, ?_, ?_⟩
  · intro i j st₀ st₁ hi hmeta hj hmeta'
    exact hs.one i j st₀ st₁ (hback i st₀ hi hmeta) hmeta (hback j st₁ hj hmeta') hmeta'
  · intro st' hmem
    rw [hstores] at hmem
    rw [hrows]
    obtain ⟨st, hmem₀, rfl⟩ := List.mem_map.mp hmem
    split
    · trivial
    · exact hs.fits st hmem₀
  · intro h hd' hget hfile
    rw [hhandles, List.getElem?_map] at hget
    obtain ⟨hd, hget₀, rfl⟩ := Option.map_eq_some_iff.mp hget
    by_cases hp : p hd.pid = true
    · rw [if_pos hp] at hfile
      exact absurd rfl hfile
    · rw [if_neg hp] at hfile ⊢
      obtain ⟨st, hst, hmeta, hholds⟩ := hs.held h hd hget₀ hfile
      obtain ⟨st₁, hst₁, hpid⟩ := hl.pid hd (List.mem_of_getElem? hget₀)
      rw [hst] at hst₁
      cases hst₁
      refine ⟨st, ?_, hmeta, hholds⟩
      rw [hstores, List.getElem?_map, hst, Option.map_some, if_neg (hpid ▸ hp)]

theorem newStore (hs : s.Single) (p : Pid)
    (hshut : ∀ st ∈ s.stores, st.metaOpen = false) :
    ({ s with stores := s.stores ++ [.new p] } : World).Single := by
  have hget : ∀ (j : Sid) (st : Store), (s.stores ++ [Store.new p])[j]? = some st →
      st.metaOpen = true → j = s.stores.length := by
    intro j st hj hmeta
    rcases List.getElem?_concat_cases hj with hj | ⟨hlen, -⟩
    · rw [hshut st (List.mem_of_getElem? hj)] at hmeta
      cases hmeta
    · exact hlen
  refine ⟨?_, ?_, ?_⟩
  · intro i j st st' hi hmeta hj hmeta'
    rw [hget i st hi hmeta, hget j st' hj hmeta']
  · intro st hmem
    rcases List.mem_append.mp hmem with hmem | hmem
    · exact hs.fits st hmem
    · rw [List.mem_singleton.mp hmem]
      trivial
  · intro h hd hgeth hfile
    obtain ⟨st, hst, hmeta, -⟩ := hs.held h hd hgeth hfile
    rw [hshut st (List.mem_of_getElem? hst)] at hmeta
    cases hmeta

/-- Every step of a run with one Store at a time keeps the invariant. -/
theorem step {path : Name → List Char} (hs : s.Single) (hl : s.Linked)
    (hone : s.oneStore a = true) (hstep : Step path s a t) : t.Single := by
  cases hstep with
  | spawn => exact ⟨hs.one, hs.fits, hs.held⟩
  | newStore p hlive =>
      refine hs.newStore p fun st hmem => ?_
      simpa using List.all_eq_true.mp hone st hmem
  | call a k st t hk hidle hcall => exact hs.callStep hl hk hidle hcall
  | sys k st out t hk hsys => exact hs.sysStep hk hsys
  | handle a h hd t hget hhandle => exact hs.handleStep hget hhandle
  | fork p hlive => cases hone
  | exit p hlive =>
      exact hs.mapGone hl (fun q => q == p) rfl (by simp [exitStep]) (by simp [exitStep])
  | powerLoss cell loss => exact hs.mapGone hl (fun _ => true) rfl (by simp) (by simp)

/-- Where nothing is deleted, an unlink finds no row. -/
theorem orphanUnlink {path : Name → List Char} (hs : s.Single)
    (hquiet : ∀ st ∈ s.stores, st.pc.deletes = false) (a : Act) : s.orphanUnlink path a = true := by
  cases a with
  | sys k out =>
      cases out with
      | ok =>
          cases hk : s.stores[k]? with
          | none => simp [World.orphanUnlink, hk]
          | some st =>
              simp only [World.orphanUnlink, hk, Option.map_some]
              split
              · next name why guard heq =>
                  have hpc : st.pc = .unlink name why guard := Option.some.inj heq
                  have hfits := hs.fits st (List.mem_of_getElem? hk)
                  have hquiet := hquiet st (List.mem_of_getElem? hk)
                  rw [Store.Fits, hpc] at hfits
                  rw [hpc] at hquiet
                  cases why with
                  | create contentType asked => simp [hfits.2.1]
                  | delete own => cases hquiet
              · rfl
      | denied => rfl
      | failed => rfl
  | _ => rfl

end Single

end World

end Durastream

import Durastream.Store.Single

/-!
# The open handles of one Store

A method of a Store runs under its lock, so whatever other Stores and processes do, what
it has found out about `_open` is still true when it acts on it (`Store.Alone`).  So a
Store has every handle that it opened and that is not closed, and under the name of the
stream (`World.Tracked`): it never has two open handles of one name.

Steps of others keep this as well.  They do not touch the Store, and no handle of it opens
or changes its name (`World.Fades`).
-/

namespace Durastream

/-- What the caller of `_lock_for_removal` knows of `_open`. -/
def Purpose.Alone (opened : Table Name Hid) (name : Name) : Purpose → Prop
  | .create _ _ => opened.get name = none
  | .delete own => ∀ h, own = some h → opened.get name = some h

/-- What a method knows of `_open`. -/
def Store.Alone (st : Store) : Prop :=
  match st.pc with
  | .lookup name _ => st.opened.get name = none
  | .probe name why => why.Alone st.opened name
  | .probeLock name why _ => why.Alone st.opened name
  | .unlink name why _ => why.Alone st.opened name
  | .closeGuard name why _ _ => why.Alone st.opened name
  | .insert name _ _ => st.opened.get name = none
  | .ctor o _ => st.opened.get o.name = none
  | .delClose name h _ => st.opened.get name = some h
  | .closing _ => ∀ name, st.opened.get name = none
  | _ => True

theorem Store.Alone.purged {st : Store} {name : Name} {why : Purpose} (removed : Option Bool)
    (h : why.Alone st.opened name) : ({ st with pc := purged name why removed } : Store).Alone := by
  cases removed with
  | none => trivial
  | some removed =>
      cases why with
      | create contentType asked => exact h
      | delete own =>
          cases own with
          | some h' => exact h h' rfl
          | none => cases removed <;> trivial

theorem Store.Alone.unlinked {st : Store} {name : Name} {why : Purpose} {guard : Option Did}
    (removed : Option Bool) (h : why.Alone st.opened name) :
    ({ st with pc := unlinked name why guard removed } : Store).Alone := by
  cases guard with
  | some d => exact h
  | none => exact .purged removed h

namespace World

/-- The open handles of Store `k` are those it knows of. -/
structure Tracked (s : World) (k : Sid) (st : Store) : Prop where
  alone : st.Alone
  held : ∀ (h : Hid) (hd : Handle), s.handles[h]? = some hd → hd.store = k →
    hd.w.closed = false → st.Holds hd.w.name h
  result : ∀ h, st.result = .ok (some h) → s.Owned k h

/-- From `s` to `t`, no handle of Store `k` opens or changes its name. -/
def Fades (k : Sid) (s t : World) : Prop :=
  ∀ (h : Hid) (hd' : Handle), t.handles[h]? = some hd' → hd'.store = k → hd'.w.closed = false →
    ∃ hd : Handle, s.handles[h]? = some hd ∧ hd.store = k ∧ hd.w.closed = false ∧
      hd.w.name = hd'.w.name

variable {path : Name → List Char} {s t : World} {k j : Sid} {h : Hid} {st st' : Store}
  {hd hd' : Handle} {out : Outcome} {a : Act}

theorem Fades.of_eq (heq : t.handles = s.handles) : Fades k s t := by
  intro h hd hget hstore hopen
  exact ⟨hd, heq ▸ hget, hstore, hopen, rfl⟩

theorem Fades.set (hget : s.handles[h]? = some hd) (hhandles : t.handles = s.handles.set h hd')
    (hstore : hd'.store = hd.store) (hname : hd'.w.name = hd.w.name)
    (hclosed : hd.w.closed = true → hd'.w.closed = true) : Fades k s t := by
  intro i hd₀ hget₀ hstore₀ hopen₀
  rw [hhandles] at hget₀
  rcases List.getElem?_set_cases hget₀ with ⟨rfl, rfl⟩ | ⟨-, hget₀⟩
  · refine ⟨hd, hget, hstore ▸ hstore₀, Bool.eq_false_iff.mpr fun h => ?_, hname.symm⟩
    rw [hclosed h] at hopen₀
    cases hopen₀
  · exact ⟨hd₀, hget₀, hstore₀, hopen₀, rfl⟩

theorem Fades.append {hds : List Handle} (hhandles : t.handles = s.handles ++ hds)
    (hnew : ∀ hd' ∈ hds, hd'.store = k → hd'.w.closed = true) : Fades k s t := by
  intro i hd₀ hget₀ hstore₀ hopen₀
  rw [hhandles] at hget₀
  by_cases hlt : i < s.handles.length
  · rw [List.getElem?_append_left hlt] at hget₀
    exact ⟨hd₀, hget₀, hstore₀, hopen₀, rfl⟩
  · rw [List.getElem?_append_right (Nat.le_of_not_lt hlt)] at hget₀
    rw [hnew hd₀ (List.mem_of_getElem? hget₀) hstore₀] at hopen₀
    cases hopen₀

theorem Fades.mapGone (p : Pid → Bool)
    (hhandles : t.handles = s.handles.map fun hd => if p hd.pid then hd.gone else hd) :
    Fades k s t := by
  intro i hd₀ hget₀ hstore₀ hopen₀
  rw [hhandles, List.getElem?_map] at hget₀
  obtain ⟨hd, hget, rfl⟩ := Option.map_eq_some_iff.mp hget₀
  by_cases hp : p hd.pid = true
  · rw [if_pos hp] at hopen₀
    cases hopen₀
  · rw [if_neg hp] at hstore₀ hopen₀ ⊢
    exact ⟨hd, hget, hstore₀, hopen₀, rfl⟩

/-! ## Steps of the Store -/

namespace Tracked

/-- The Store goes on, and the handles stay as they are. -/
theorem moves (ht : s.Tracked k st) (hhandles : t.handles = s.handles)
    (hopened : st'.opened = st.opened) (hlocals : st.pc.locals = []) (halone : st'.Alone)
    (hresult : st'.result = st.result ∨ ∀ h, st'.result = .ok (some h) → s.Owned k h) :
    t.Tracked k st' := by
  have hkeep : Keeps s t := .of_eq hhandles
  refine ⟨halone, fun h hd hget hstore hopen => ?_, fun h hres => hkeep.owned ?_⟩
  · rcases ht.held h hd (hhandles ▸ hget) hstore hopen with hheld | hlocal
    · exact .inl (hopened ▸ hheld)
    · rw [hlocals] at hlocal
      cases hlocal
  · rcases hresult with heq | hnew
    · exact ht.result h (heq ▸ hres)
    · exact hnew h hres

theorem fail (ht : s.Tracked k st) (hlocals : st.pc.locals = []) (e : Error) :
    (s.fail k st e).Tracked k { st with pc := .idle, result := .error e } :=
  ht.moves (handles_fail s k st e) rfl hlocals trivial (.inr fun _ hres => by cases hres)

/-- The constructor returns: the Store has no other open handle of this name. -/
theorem openedStream (ht : s.Tracked k st) (hlocals : st.pc.locals = [])
    {fs : LockFs (List Char) UInt8} {o : Opening} {d : Did} {owner : Bool} {index : List Nat}
    (hnone : st.opened.get o.name = none) :
    ((s.setFs fs).openedStream k st o d owner index).Tracked k
      { st with
        opened := st.opened.set o.name s.handles.length
        pc := if o.created then .dirSync s.handles.length else .idle
        result := .ok (some s.handles.length) } := by
  have hget : ∀ {h : Hid} {hd' : Handle},
      ((s.setFs fs).openedStream k st o d owner index).handles[h]? = some hd' →
        s.handles[h]? = some hd' ∨ h = s.handles.length ∧ hd'.w.name = o.name := by
    intro h hd' hgeth
    have hcases : (s.handles ++ [_])[h]? = some hd' := hgeth
    rcases List.getElem?_concat_cases hcases with hold | ⟨hlen, rfl⟩
    · exact .inl hold
    · exact .inr ⟨hlen, rfl⟩
  refine ⟨?_, fun h hd' hgeth hstore hopen => .inl ?_, fun h hres => ?_⟩
  · cases hcreated : o.created <;> trivial
  · rcases hget hgeth with hold | ⟨rfl, hname⟩
    · rcases ht.held h hd' hold hstore hopen with hheld | hlocal
      · have hne : hd'.w.name ≠ o.name := by
          intro heq
          rw [heq, hnone] at hheld
          cases hheld
        exact (Table.get_set_of_ne _ hne _).trans hheld
      · rw [hlocals] at hlocal
        cases hlocal
    · rw [hname]
      exact Table.get_set_self _ _ _
  · cases hres
    exact ⟨_, List.getElem?_concat_length, rfl⟩

theorem ctorStep (ht : s.Tracked k st) (hk : s.stores[k]? = some st) {o : Opening} {pc : CtorPc}
    (hpc : st.pc = .ctor o pc) (hstep : CtorStep path s k st out o pc t) :
    ∃ st', t.stores[k]? = some st' ∧ t.Tracked k st' := by
  have hlt := (List.getElem?_eq_some_iff.mp hk).1
  have halone := ht.alone
  rw [Store.Alone, hpc] at halone
  have hlocals : st.pc.locals = [] := by rw [hpc]; rfl
  cases hstep with
  | failed _ e => exact ⟨_, by rw [stores_fail, List.getElem?_set_self hlt], ht.fail hlocals e⟩
  | scanned d owner size i hcur hend =>
      exact ⟨_, List.getElem?_set_self hlt, ht.openedStream hlocals halone⟩
  | synced d index => exact ⟨_, List.getElem?_set_self hlt, ht.openedStream hlocals halone⟩
  | _ => exact ⟨_, List.getElem?_set_self hlt, ht.moves rfl rfl hlocals halone (.inl rfl)⟩

/-- A handle is closed, and the Store forgets it. -/
theorem closeFds (ht : s.Tracked k st) (hget : s.handles[h]? = some hd)
    (hhandles : t.handles = s.handles.set h hd.closeFds) (halone : st'.Alone)
    (hresult : st'.result = st.result) (hholds : ∀ n i, i ≠ h → st.Holds n i → st'.Holds n i) :
    t.Tracked k st' := by
  have hkeep : Keeps s t := by
    refine .set hget ?_ ?_ ?_ hhandles <;> rfl
  refine ⟨halone, fun i hd' hgeti hstore hopen => ?_, fun i hres =>
    hkeep.owned (ht.result i (hresult ▸ hres))⟩
  rw [hhandles] at hgeti
  rcases List.getElem?_set_cases hgeti with ⟨rfl, rfl⟩ | ⟨hne, hgeti⟩
  · cases hopen
  · exact hholds _ i hne (ht.held i hd' hgeti hstore hopen)

theorem sysStep (ht : s.Tracked k st) (hl : s.Linked) (hk : s.stores[k]? = some st)
    (hstep : SysStep path s k st out st.pc t) :
    ∃ st', t.stores[k]? = some st' ∧ t.Tracked k st' := by
  have hlt := (List.getElem?_eq_some_iff.mp hk).1
  have halone := ht.alone
  generalize hpc : st.pc = pc at hstep
  rw [Store.Alone, hpc] at halone
  have hlocals : st.pc.locals = pc.locals := by rw [hpc]
  cases hstep with
  | failed _ e _ _ hnone =>
      exact ⟨_, by rw [stores_fail, List.getElem?_set_self hlt], ht.fail (hlocals.trans hnone) e⟩
  | found name given row hmeta hrow =>
      exact ⟨_, List.getElem?_set_self hlt, ht.moves rfl rfl hlocals halone (.inl rfl)⟩
  | missing name given hmeta hrow =>
      exact ⟨_, List.getElem?_set_self hlt, ht.moves rfl rfl hlocals halone (.inl rfl)⟩
  | probed name why i hcur =>
      exact ⟨_, List.getElem?_set_self hlt, ht.moves rfl rfl hlocals halone (.inl rfl)⟩
  | noLog name why hcur =>
      exact ⟨_, List.getElem?_set_self hlt, ht.moves rfl rfl hlocals halone (.inl rfl)⟩
  | guarded name why d hcan =>
      exact ⟨_, List.getElem?_set_self hlt, ht.moves rfl rfl hlocals halone (.inl rfl)⟩
  | unlinked name why guard i hok hcur =>
      exact ⟨_, List.getElem?_set_self hlt,
        ht.moves rfl rfl hlocals (.unlinked (some true) halone) (.inl rfl)⟩
  | kept name why guard removed hkept =>
      exact ⟨_, List.getElem?_set_self hlt,
        ht.moves rfl rfl hlocals (.unlinked removed halone) (.inl rfl)⟩
  | released name why d removed =>
      exact ⟨_, List.getElem?_set_self hlt,
        ht.moves rfl rfl hlocals (.purged (some removed) halone) (.inl rfl)⟩
  | raised name why d =>
      exact ⟨_, List.getElem?_set_self hlt,
        ht.moves rfl rfl hlocals trivial (.inr fun h hres => by cases hres)⟩
  | inserted name contentType asked hok hrow =>
      exact ⟨_, List.getElem?_set_self hlt, ht.moves rfl rfl hlocals halone (.inl rfl)⟩
  | ctor o pc _ hctor => exact ht.ctorStep hk hpc hctor
  | dirSynced h =>
      refine ⟨_, List.getElem?_set_self hlt, ht.moves rfl rfl hlocals trivial (.inr ?_)⟩
      intro h' hres
      cases hres
      exact hl.mentions k st h hk (by rw [hpc]; exact List.mem_singleton_self h)
  | delClosed name h removed hd hget hfree =>
      refine ⟨{ st with opened := st.opened.erase name, pc := delNext name removed }, ?_,
        ht.closeFds hget (handles_closeFds s h hd) ?_ rfl ?_⟩
      · show ((s.closeFds h hd).stores.set k _)[k]? = _
        rw [stores_closeFds, List.getElem?_set_self hlt]
      · cases removed <;> trivial
      · intro n i hne hholds
        rcases hholds with hopened | hlocal
        · left
          have hname : n ≠ name := by
            intro heq
            rw [heq, halone] at hopened
            cases hopened
            exact hne rfl
          exact (Table.get_erase_of_ne _ hname).trans hopened
        · rw [hlocals] at hlocal
          exact absurd (List.mem_singleton.mp hlocal) hne
  | delDirSynced name =>
      exact ⟨_, List.getElem?_set_self hlt, ht.moves rfl rfl hlocals trivial (.inl rfl)⟩
  | deleted name =>
      exact ⟨_, List.getElem?_set_self hlt,
        ht.moves rfl rfl hlocals trivial (.inr fun h hres => by cases hres)⟩
  | closing h streams hd hget hfree =>
      refine ⟨{ st with pc := .closing streams }, ?_,
        ht.closeFds hget (handles_closeFds s h hd) halone rfl ?_⟩
      · show ((s.closeFds h hd).stores.set k _)[k]? = _
        rw [stores_closeFds, List.getElem?_set_self hlt]
      · intro n i hne hholds
        rcases hholds with hopened | hlocal
        · exact .inl hopened
        · rw [hlocals] at hlocal
          exact .inr ((List.mem_cons.mp hlocal).resolve_left hne)
  | closed =>
      exact ⟨_, List.getElem?_set_self hlt,
        ht.moves rfl rfl hlocals trivial (.inr fun h hres => by cases hres)⟩

theorem callStep (ht : s.Tracked k st) (hl : s.Linked) (hk : s.stores[k]? = some st)
    (hidle : st.pc = .idle) (hcall : s.call k st a = some t) :
    ∃ st', t.stores[k]? = some st' ∧ t.Tracked k st' := by
  have hlt := (List.getElem?_eq_some_iff.mp hk).1
  have hlocals : st.pc.locals = [] := by rw [hidle]; rfl
  -- the method returns or raises at once, or goes on
  have hfinish : ∀ r : Except Error (Option Hid), (∀ h, r = .ok (some h) → s.Owned k h) →
      ∃ st', (s.finish k st r).stores[k]? = some st' ∧ (s.finish k st r).Tracked k st' :=
    fun r howned => ⟨_, List.getElem?_set_self hlt, ht.moves rfl rfl hlocals trivial (.inr howned)⟩
  have hgoto : ∀ pc, Store.Alone { st with pc := pc } →
      ∃ st', (s.goto k st pc).stores[k]? = some st' ∧ (s.goto k st pc).Tracked k st' :=
    fun pc halone => ⟨_, List.getElem?_set_self hlt, ht.moves rfl rfl hlocals halone (.inl rfl)⟩
  have hopened : ∀ {name : Name} {h : Hid}, st.opened.get name = some h → s.Owned k h :=
    fun hget => (hl.opened k st _ _ hk hget).owned
  have hnone : ∀ {name : Name},
      (st.opened.get name).bind (fun h => (s.handles[h]?).map fun hd => (h, hd)) = none →
        st.opened.get name = none := by
    intro name hbind
    cases hget : st.opened.get name with
    | none => rfl
    | some h =>
        obtain ⟨hd, hgeth, -⟩ := hl.opened k st name h hk hget
        simp [hget, hgeth] at hbind
  have hsome : ∀ {name : Name} {h : Hid} {hd : Handle},
      (st.opened.get name).bind (fun h => (s.handles[h]?).map fun hd => (h, hd)) = some (h, hd) →
        st.opened.get name = some h := by
    intro name h hd hbind
    obtain ⟨h', hget, hmap⟩ := Option.bind_eq_some_iff.mp hbind
    obtain ⟨hd', -, heq⟩ := Option.map_eq_some_iff.mp hmap
    cases heq
    exact hget
  cases a with
  | create k' name given =>
      simp only [call] at hcall
      split at hcall
      · cases hcall
        exact hfinish _ fun h hres => by cases hres
      · split at hcall
        · next h hd hbind =>
            split at hcall <;> cases hcall
            · exact hfinish _ fun h hres => by cases hres
            · refine hfinish _ fun h' hres => ?_
              cases hres
              exact hopened (hsome hbind)
        · next hbind =>
            cases hcall
            exact hgoto _ (hnone hbind)
  | openStream k' name =>
      simp only [call] at hcall
      split at hcall <;> cases hcall
      · next h hget =>
          refine hfinish _ fun h' hres => ?_
          cases hres
          exact hopened hget
      · next hget => exact hgoto _ hget
  | delete k' name =>
      simp only [call] at hcall
      split at hcall
      · cases hcall
        exact hfinish _ fun h hres => by cases hres
      · split at hcall
        · next h hd hbind =>
            have hown : ∀ h', some h = some h' → st.opened.get name = some h' :=
              fun h' heq => heq ▸ hsome hbind
            split at hcall <;> cases hcall <;> exact hgoto _ hown
        · cases hcall
          exact hgoto _ fun h' heq => by cases heq
  | closeStore k' =>
      cases hcall
      refine ⟨_, List.getElem?_set_self hlt, fun name => rfl, fun h hd hget hstore hopen => ?_,
        fun h hres => ht.result h hres⟩
      rcases ht.held h hd hget hstore hopen with hheld | hlocal
      · exact .inr (Table.mem_values hheld)
      · rw [hlocals] at hlocal
        cases hlocal
  | _ => cases hcall

/-! ## Steps of others -/

/-- The Store is as it was, and its handles have not opened. -/
theorem fades (ht : s.Tracked k st) (hfades : Fades k s t) (hkeep : Keeps s t) :
    t.Tracked k st := by
  refine ⟨ht.alone, fun h hd' hget hstore hopen => ?_, fun h hres => hkeep.owned (ht.result h hres)⟩
  obtain ⟨hd, hget₀, hstore₀, hopen₀, hname⟩ := hfades h hd' hget hstore hopen
  exact hname ▸ ht.held h hd hget₀ hstore₀ hopen₀

end Tracked

/-- The step is one of Store `k`, or ends its process. -/
def touches (s : World) (k : Sid) : Act → Bool
  | .create j _ _ => j == k
  | .openStream j _ => j == k
  | .delete j _ => j == k
  | .closeStore j => j == k
  | .sys j _ => j == k
  | .exit p => (s.stores[k]?).any fun st => st.pid == p
  | .powerLoss _ _ => true
  | _ => false

/-- What the constructor does to Stores and handles. -/
theorem ctorStep_fades {o : Opening} {pc : CtorPc} (hstep : CtorStep path s j st out o pc t) :
    (∃ st', t.stores = s.stores.set j st') ∧ Keeps s t ∧ (j ≠ k → Fades k s t) := by
  have hsame : t.handles = s.handles → Keeps s t ∧ (j ≠ k → Fades k s t) :=
    fun heq => ⟨.of_eq heq, fun _ => .of_eq heq⟩
  have hnew : ∀ {hd₀ : Handle}, hd₀.store = j → t.handles = s.handles ++ [hd₀] →
      Keeps s t ∧ (j ≠ k → Fades k s t) := by
    refine fun {hd₀} hstore heq => ⟨.append heq, fun hjk => .append heq fun hd' hmem hk => ?_⟩
    rw [List.mem_singleton.mp hmem, hstore] at hk
    exact absurd hk hjk
  cases hstep with
  | failed _ e => exact ⟨⟨_, stores_fail s j st e⟩, hsame (handles_fail s j st e)⟩
  | scanned d owner size i hcur hend => exact ⟨⟨_, rfl⟩, hnew rfl rfl⟩
  | synced d index => exact ⟨⟨_, rfl⟩, hnew rfl rfl⟩
  | _ => exact ⟨⟨_, rfl⟩, hsame rfl⟩

/-- What a method does to Stores and handles. -/
theorem sysStep_fades {pc : StorePc} (hstep : SysStep path s j st out pc t) :
    (∃ st', t.stores = s.stores.set j st') ∧ Keeps s t ∧ (j ≠ k → Fades k s t) := by
  have hsame : t.handles = s.handles → Keeps s t ∧ (j ≠ k → Fades k s t) :=
    fun heq => ⟨.of_eq heq, fun _ => .of_eq heq⟩
  have hstores : ∀ (h : Hid) (hd : Handle) (st' : Store),
      ((s.closeFds h hd).setStore j st').stores = s.stores.set j st' := by
    intro h hd st'
    show (s.closeFds h hd).stores.set j st' = _
    rw [stores_closeFds]
  have hclosed : ∀ {h : Hid} {hd : Handle}, s.handles[h]? = some hd →
      t.handles = s.handles.set h hd.closeFds → Keeps s t ∧ (j ≠ k → Fades k s t) := by
    intro h hd hget heq
    have hkeep : Keeps s t := by
      refine .set hget ?_ ?_ ?_ heq <;> rfl
    refine ⟨hkeep, fun _ => .set hget heq ?_ ?_ fun _ => ?_⟩ <;> rfl
  cases hstep with
  | failed _ e _ _ _ => exact ⟨⟨_, stores_fail s j st e⟩, hsame (handles_fail s j st e)⟩
  | ctor o pc _ hctor => exact ctorStep_fades hctor
  | delClosed name h removed hd hget hfree =>
      exact ⟨⟨_, hstores h hd _⟩, hclosed hget (handles_closeFds s h hd)⟩
  | closing h streams hd hget hfree =>
      exact ⟨⟨_, hstores h hd _⟩, hclosed hget (handles_closeFds s h hd)⟩
  | _ => exact ⟨⟨_, rfl⟩, hsame rfl⟩

/-- A call on a handle. -/
theorem handleStep_fades (hget : s.handles[h]? = some hd) (hstep : HandleStep s h hd a t) :
    t.stores = s.stores ∧ Keeps s t ∧ Fades k s t := by
  have hset : ∀ {hd' : Handle}, t.handles = s.handles.set h hd' → hd'.store = hd.store →
      hd'.pid = hd.pid → hd'.w.name = hd.w.name → (hd.w.closed = true → hd'.w.closed = true) →
      Keeps s t ∧ Fades k s t :=
    fun heq hstore hpid hname hclosed =>
      ⟨.set hget hstore hpid hname heq, .set hget heq hstore hname hclosed⟩
  cases hstep with
  | refused => exact ⟨rfl, .of_eq rfl, .of_eq rfl⟩
  | started payloads w hfree hbegin =>
      obtain ⟨-, -, -, -, -, rfl⟩ := Writer.begin_started hbegin
      exact ⟨rfl, hset rfl rfl rfl rfl id⟩
  | io d f w fate hfile hw hret =>
      have hname : w.name = hd.w.name := by cases hw <;> rfl
      exact ⟨rfl, hset rfl rfl rfl hname hw.closed_mono⟩
  | closing hfree hw => exact ⟨rfl, hset rfl rfl rfl rfl id⟩
  | updated d rows hclosing hfile hrows => exact ⟨rfl, hset rfl rfl rfl rfl fun _ => rfl⟩
  | updateFailed hclosing => exact ⟨rfl, hset rfl rfl rfl rfl id⟩

/-- A fork. -/
theorem forkStep_fades (hk : k < s.stores.length) (p : Pid) :
    Keeps s (s.forkStep p) ∧ Fades k s (s.forkStep p) := by
  refine ⟨.append rfl, .append rfl fun hd' hmem hstore => ?_⟩
  obtain ⟨hd, -, rfl⟩ := List.mem_map.mp hmem
  by_cases hp : hd.pid = p
  · rw [if_pos hp] at hstore
    have hbound : k < s.stores.length + hd.store := Nat.lt_add_right _ hk
    rw [← hstore] at hbound
    exact absurd rfl (Nat.ne_of_lt hbound)
  · rw [if_neg hp]
    rfl

/-- No step of others changes the Store or opens a handle of it. -/
theorem fades_step (hk : s.stores[k]? = some st) (hother : s.touches k a = false)
    (hstep : s.step path a = some t) : t.stores[k]? = some st ∧ Keeps s t ∧ Fades k s t := by
  have hlt := (List.getElem?_eq_some_iff.mp hk).1
  have hset : ∀ {j : Sid} {st' : Store}, j ≠ k → t.stores = s.stores.set j st' →
      t.stores[k]? = some st :=
    fun hjk heq => by rw [heq, List.getElem?_set_ne hjk, hk]
  have hcall : ∀ j, j ≠ k → (s.idleStore j).bind (fun st => s.call j st a) = some t →
      t.stores[k]? = some st ∧ Keeps s t ∧ Fades k s t := by
    intro j hjk h
    obtain ⟨st', -, h⟩ := Option.bind_eq_some_iff.mp h
    cases call_cases h <;> exact ⟨hset hjk rfl, .of_eq rfl, .of_eq rfl⟩
  have hhandle : ∀ h, (∀ j act, a = .io j act → j = h) →
      (s.handles[h]?).bind (fun hd => s.handleStep h hd a) = some t →
        t.stores[k]? = some st ∧ Keeps s t ∧ Fades k s t := by
    intro h hio hbind
    obtain ⟨hd, hget, hstep⟩ := Option.bind_eq_some_iff.mp hbind
    obtain ⟨hstores, hfades⟩ := handleStep_fades hget (handleStep_cases hio hstep)
    exact ⟨hstores ▸ hk, hfades⟩
  cases a with
  | spawn =>
      cases hstep
      exact ⟨hk, .of_eq rfl, .of_eq rfl⟩
  | newStore p =>
      simp only [step] at hstep
      split at hstep
      · cases hstep
        exact ⟨(List.getElem?_append_left hlt).trans hk, .of_eq rfl, .of_eq rfl⟩
      · cases hstep
  | create j name given => exact hcall j (by simpa [touches] using hother) hstep
  | openStream j name => exact hcall j (by simpa [touches] using hother) hstep
  | delete j name => exact hcall j (by simpa [touches] using hother) hstep
  | closeStore j => exact hcall j (by simpa [touches] using hother) hstep
  | sys j out =>
      have hjk : j ≠ k := by simpa [touches] using hother
      obtain ⟨st', -, hsys⟩ := Option.bind_eq_some_iff.mp hstep
      obtain ⟨⟨st'', hstores⟩, hkeep, hfades⟩ := sysStep_fades (sysStep_cases hsys)
      exact ⟨hset hjk hstores, hkeep, hfades hjk⟩
  | append h payloads => exact hhandle h (by simp) hstep
  | io h act => exact hhandle h (by simp +contextual) hstep
  | close h => exact hhandle h (by simp) hstep
  | update h ok => exact hhandle h (by simp) hstep
  | fork p =>
      simp only [step] at hstep
      split at hstep
      · cases hstep
        exact ⟨(List.getElem?_append_left hlt).trans hk, forkStep_fades hlt p⟩
      · cases hstep
  | exit p =>
      simp only [step] at hstep
      split at hstep
      · cases hstep
        have hp : st.pid ≠ p := by simpa [touches, hk] using hother
        refine ⟨?_, ?_⟩
        · simp [exitStep, hk, hp]
        · have hhandles : (s.exitStep p).handles =
              s.handles.map fun hd => if (fun q => q == p) hd.pid then hd.gone else hd := by
            simp [exitStep]
          exact ⟨Keeps.mapGone (fun q => q == p) hhandles, .mapGone (fun q => q == p) hhandles⟩
      · cases hstep
  | powerLoss cell loss => cases hother

/-! ## Whole methods -/

/-- A new Store has no handles. -/
theorem Tracked.new (hl : s.Linked) (p : Pid) :
    ({ s with stores := s.stores ++ [.new p] } : World).Tracked s.stores.length (.new p) := by
  refine ⟨trivial, fun h hd hget hstore _ => ?_, fun h hres => by cases hres⟩
  obtain ⟨st, hst, -⟩ := hl.pid hd (List.mem_of_getElem? hget)
  exact absurd (List.getElem?_eq_some_iff.mp hst).1 (hstore ▸ Nat.lt_irrefl _)

/-- Calls of the method in progress. -/
theorem Tracked.run {outs : List Outcome} (ht : s.Tracked k st) (hl : s.Linked)
    (hk : s.stores[k]? = some st)
    (hrun : Lts.run (World.step path) s (outs.map (.sys k)) = some t) :
    t.Linked ∧ Keeps s t ∧ ∃ st', t.stores[k]? = some st' ∧ t.Tracked k st' := by
  induction outs generalizing s st with
  | nil =>
      cases hrun
      exact ⟨hl, .of_eq rfl, st, hk, ht⟩
  | cons out outs ih =>
      obtain ⟨u, hstep, hrest⟩ := Lts.run_cons_eq_some hrun
      have hl' := hl.step (step_cases hstep)
      obtain ⟨st₀, hk₀, hsys⟩ := Option.bind_eq_some_iff.mp hstep
      rw [hk] at hk₀
      cases hk₀
      obtain ⟨st', hk', ht'⟩ := ht.sysStep hl hk (sysStep_cases hsys)
      have hkeep := (sysStep_fades (k := k) (sysStep_cases hsys)).2.1
      obtain ⟨hl'', hkeep', hst''⟩ := ih ht' hl' hk' hrest
      exact ⟨hl'', hkeep.trans hkeep', hst''⟩

/-- A method, from its call on. -/
theorem Tracked.method {outs : List Outcome} (ht : s.Tracked k st) (hl : s.Linked)
    (hk : s.stores[k]? = some st)
    (hcall : s.step path a = (s.idleStore k).bind fun st => s.call k st a)
    (hrun : Lts.run (World.step path) s (a :: outs.map (.sys k)) = some t) :
    t.Linked ∧ Keeps s t ∧ ∃ st', t.stores[k]? = some st' ∧ t.Tracked k st' := by
  obtain ⟨u, hstep, hrest⟩ := Lts.run_cons_eq_some hrun
  have hl' := hl.step (step_cases hstep)
  rw [hcall] at hstep
  obtain ⟨st₀, hidle, hstep⟩ := Option.bind_eq_some_iff.mp hstep
  obtain ⟨hk₀, hpc⟩ := idleStore_cases hidle
  rw [hk] at hk₀
  cases hk₀
  obtain ⟨st', hk', ht'⟩ := ht.callStep hl hk hpc hstep
  have hkeep : Keeps s u := by
    cases call_cases hstep <;> exact .of_eq rfl
  obtain ⟨hl'', hkeep', hst''⟩ := ht'.run hl' hk' hrest
  exact ⟨hl'', hkeep.trans hkeep', hst''⟩

end World

end Durastream

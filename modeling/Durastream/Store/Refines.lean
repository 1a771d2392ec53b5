import Durastream.Store.Methods
import Durastream.Store.Mirrors

/-!
# A Store refines a map of streams

`Represents` relates a world in which no call is in progress to the abstract
streams: rows, logs and handles mirror them, and a Store that is open has exactly
the live handles.  Every call keeps it and gives the reply of the abstract
machine, so every sequence of calls does.
-/

namespace Durastream

/-- A Store between two calls. -/
structure Store.Stands (a : Streams) (k : Sid) (st : Store) : Prop where
  idle : st.pc = .idle
  isOpen : st.metaOpen = true ↔ a.current = some k
  opened : ∀ name h, st.opened.get name = some h ↔
    a.current = some k ∧ a.handles[h]? = some (.live name)

/-- A Store that ends with another result. -/
theorem Store.Stands.result {a : Streams} {k : Sid} {st : Store} (hstands : st.Stands a k)
    (r : Except Error (Option Hid)) :
    ({ st with pc := .idle, result := r } : Store).Stands a k :=
  ⟨rfl, hstands.isOpen, hstands.opened⟩

/-- A Store with one more handle. -/
theorem Store.Stands.handle {a : Streams} {k : Sid} {st : Store} {name : Name}
    (hstands : st.Stands a k) (hcurrent : a.current = some k)
    (hnone : ∀ h : Hid, a.handles[h]? ≠ some (.live name)) (r : Except Error (Option Hid)) :
    ({ st with
      opened := st.opened.set name a.handles.length, pc := .idle, result := r } : Store).Stands
      { a with handles := a.handles ++ [.live name] } k := by
  refine ⟨rfl, hstands.isOpen, ?_⟩
  intro n h
  show (st.opened.set name a.handles.length).get n = some h ↔
    a.current = some k ∧ (a.handles ++ [Ref.live name])[h]? = some (.live n)
  by_cases hn : n = name
  · subst hn
    rw [Table.get_set_self]
    constructor
    · intro heq
      cases heq
      exact ⟨hcurrent, List.getElem?_concat_length⟩
    · rintro ⟨-, hlive⟩
      rcases List.getElem?_concat_cases hlive with hold | ⟨hlen, -⟩
      · exact absurd hold (hnone h)
      · rw [hlen]
  · rw [Table.get_set_of_ne _ hn, hstands.opened]
    constructor
    · rintro ⟨-, hlive⟩
      have hlt := (List.getElem?_eq_some_iff.mp hlive).1
      exact ⟨hcurrent, by rw [List.getElem?_append_left hlt, hlive]⟩
    · rintro ⟨-, hlive⟩
      rcases List.getElem?_concat_cases hlive with hold | ⟨-, heq⟩
      · exact ⟨hcurrent, hold⟩
      · cases heq
        exact absurd rfl hn

namespace Streams

variable {a : Streams} {gone gone' : Name → Bool} {name : Name}

theorem bury_bury : (a.bury gone).bury gone' = a.bury fun n => gone n || gone' n := by
  have hmap : (a.handles.map (Ref.bury gone a.length)).map (Ref.bury gone' a.length) =
      a.handles.map (Ref.bury (fun n => gone n || gone' n) a.length) := by
    rw [List.map_map]
    refine List.map_congr_left fun r _ => ?_
    cases r with
    | dead n len => rfl
    | live n => cases hg : gone n <;> simp [Ref.bury, hg]
  rw [bury, bury]
  exact congrArg (fun hs => { a with handles := hs }) hmap

/-- Only the live handles count. -/
theorem bury_congr (h : ∀ name, .live name ∈ a.handles → gone name = gone' name) :
    a.bury gone = a.bury gone' := by
  have hmap : a.handles.map (Ref.bury gone a.length) = a.handles.map (Ref.bury gone' a.length) := by
    refine List.map_congr_left fun r hmem => ?_
    cases r with
    | dead n len => rfl
    | live n => rw [Ref.bury, Ref.bury, h n hmem]
  rw [bury, bury, hmap]

/-- Nothing to bury. -/
theorem bury_of_not_live (h : ∀ i : Nat, a.handles[i]? ≠ some (.live name)) :
    a.bury (· == name) = a := by
  have hmap : a.handles.map (Ref.bury (· == name) a.length) = a.handles := by
    refine (List.map_congr_left fun r hmem => ?_).trans (List.map_id _)
    cases r with
    | dead n len => rfl
    | live n =>
        refine Ref.bury_of_not (· == name) (beq_eq_false_iff_ne.mpr ?_)
        rintro rfl
        obtain ⟨i, hi⟩ := List.mem_iff_getElem?.mp hmem
        exact h i hi
  rw [bury, hmap]

/-- A handle that is still live after some streams are gone. -/
theorem live_bury {h : Nat} :
    (a.bury gone).handles[h]? = some (.live name) ↔
      a.handles[h]? = some (.live name) ∧ gone name = false := by
  show (a.handles.map _)[h]? = _ ↔ _
  rw [List.getElem?_map]
  constructor
  · intro hlive
    obtain ⟨r, hr, hbury⟩ := Option.map_eq_some_iff.mp hlive
    obtain ⟨rfl, hgone⟩ := Ref.bury_eq_live hbury
    exact ⟨hr, hgone⟩
  · rintro ⟨hlive, hgone⟩
    rw [hlive, Option.map_some, Ref.bury_of_not gone hgone]

end Streams

namespace World

structure Represents (path : Name → List Char) (s : World) (a : Streams) : Prop where
  mirrors : Mirrors path none s.fs s.rows s.handles a
  stores : s.stores.length = a.stores
  current : ∀ k, a.current = some k → k < a.stores
  stands : ∀ (k : Sid) (st : Store), s.stores[k]? = some st → st.Stands a k
  live : s.live ≠ []

variable {path : Name → List Char} {s t u : World} {a a' : Streams} {k : Sid} {st st' : Store}
  {name : Name} {x : Stream} {n : Nat} {h : Hid} {hd : Handle}
  {fs : LockFs (List Char) UInt8} {o : Opening}

/-- A Store is at rest again, and the others have not noticed. -/
theorem Represents.set (hr : Represents path s a) (hk : s.stores[k]? = some st)
    (hm : Mirrors path none t.fs t.rows t.handles a') (hstores : t.stores = s.stores.set k st')
    (hlive : t.live = s.live) (hlength : a'.stores = a.stores) (hcurrent : a'.current = a.current)
    (hstands : st'.Stands a' k) (hothers : a.current = some k ∨ a'.handles = a.handles) :
    Represents path t a' := by
  have hlt := (List.getElem?_eq_some_iff.mp hk).1
  refine ⟨hm, ?_, ?_, ?_, ?_⟩
  · rw [hstores, List.length_set, hr.stores, hlength]
  · intro j hj
    rw [hlength]
    exact hr.current j (hcurrent ▸ hj)
  · intro j st₀ hj
    rw [hstores] at hj
    by_cases hkj : k = j
    · subst hkj
      rw [List.getElem?_set_self hlt] at hj
      cases hj
      exact hstands
    · rw [List.getElem?_set_ne hkj] at hj
      have hold := hr.stands j st₀ hj
      refine ⟨hold.idle, ?_, ?_⟩
      · rw [hcurrent]
        exact hold.isOpen
      · intro name h
        rw [hold.opened, hcurrent]
        rcases hothers with hopen | hhandles
        · rw [hopen]
          constructor <;> exact fun heq => absurd (Option.some.inj heq.1) hkj
        · rw [hhandles]
  · rw [hlive]
    exact hr.live

/-- A call that changes nothing. -/
theorem Represents.finish (hr : Represents path s a) (hk : s.stores[k]? = some st)
    (r : Except Error (Option Hid)) : Represents path (s.finish k st r) a :=
  hr.set hk hr.mirrors rfl rfl rfl rfl ((hr.stands k st hk).result r) (.inr rfl)

/-- The Store has the handle that the abstract machine finds. -/
theorem Represents.opened_get (hr : Represents path s a) (hk : s.stores[k]? = some st)
    (hcurrent : a.current = some k) (name : Name) :
    st.opened.get name = a.handles.findIdx? (· = .live name) := by
  have hopened := (hr.stands k st hk).opened name
  cases hfind : a.handles.findIdx? (· = .live name) with
  | some h =>
      obtain ⟨hlt, hlive, -⟩ := List.findIdx?_eq_some_iff_getElem.mp hfind
      refine (hopened h).mpr ⟨hcurrent, ?_⟩
      rw [List.getElem?_eq_getElem hlt, of_decide_eq_true hlive]
  | none =>
      cases hget : st.opened.get name with
      | none => rfl
      | some h =>
          have hmem := List.mem_of_getElem? ((hopened h).mp hget).2
          have hne := List.findIdx?_eq_none_iff.mp hfind _ hmem
          simp at hne

/-! ## Parts of the calls -/

/-- A method is called. -/
theorem step_call (act : Act) (hr : Represents path s a) (hk : s.stores[k]? = some st)
    (hstep : s.step path act = (s.idleStore k).bind fun st => s.call k st act) :
    s.step path act = s.call k st act := by
  rw [hstep, idleStore, hk]
  dsimp only
  rw [if_pos (hr.stands k st hk).idle, Option.bind_some]

/-- The end of `create` and `open`: the constructor runs, and its handle is the live
one of the stream. -/
theorem Succeeds.handle (st : Store) (o : Opening) (hpath : Function.Injective path)
    (hk : k < s.stores.length)
    (hm : Mirrors path (some o.name) fs s.rows s.handles a) (hx : a.streams.get o.name = some x)
    (htype : o.contentType = x.contentType) (hclosed : o.closed = x.closed)
    (hcurrent : a.current = some k) (hrecords : records (fs.contents (path o.name)) = x.payloads)
    (hfree : ∀ i e, (fs.dir (path o.name)).cur = some i → fs.locks i = some e → fs.refs e = [])
    (hnone : ∀ h : Hid, a.handles[h]? ≠ some (.live o.name)) :
    ∃ n ≤ 6, ∃ t, Succeeds path k n (s.mid k st fs (.ctor o .openAppend)) t ∧
      t.stores = s.stores.set k { st with
        opened := st.opened.set o.name s.handles.length
        pc := if o.created then .dirSync s.handles.length else .idle
        result := .ok (some s.handles.length) } ∧
      t.live = s.live ∧
      Mirrors path none t.fs t.rows t.handles
        { a with handles := a.handles ++ [.live o.name] } := by
  obtain ⟨n, hn, fs', d, hdrives, hacq, hdata⟩ :=
    Succeeds.acquire st o hk hm.tidy hfree
  rw [hrecords] at hdrives hdata
  have hfit : Fits x.payloads := by
    rw [← hrecords]
    exact Fits.records _
  refine ⟨n, hn, _, hdrives, rfl, rfl, ?_⟩
  refine hm.handle hpath hacq.frame hacq.tidy hx ?_ ⟨hacq.cur, hdata⟩ hfit hacq.new hacq.closed
    hnone
  exact ⟨hcurrent, by rw [hclosed], htype, rfl, rfl, rfl, ⟨rfl, rfl⟩, hacq.refs⟩

/-! ## `create` and `open` -/

/-- A name without live handle. -/
theorem not_live_of_find (hfind : a.handles.findIdx? (· = .live name) = none) (h : Hid) :
    a.handles[h]? ≠ some (.live name) := by
  intro hlive
  have hne := List.findIdx?_eq_none_iff.mp hfind _ (List.mem_of_getElem? hlive)
  simp at hne

/-- The lookup on a Store that is closed. -/
theorem Represents.lookup_closed (hr : Represents path s a) (hk : s.stores[k]? = some st)
    (hclosed : a.current ≠ some k) {act : Act} {given : Option (Option ContentType)}
    (hcall : s.step path act = some (s.goto k st (.lookup name given))) :
    ∃ s', s.execStore path k act = some (s', .error .storeClosed) ∧ Represents path s' a := by
  have hlt := (List.getElem?_eq_some_iff.mp hk).1
  have hmeta : ¬st.metaOpen = true := fun hopen => hclosed ((hr.stands k st hk).isOpen.mp hopen)
  have hend : Succeeds path k 1 (s.mid k st s.fs (.lookup name given))
      (s.finish k st (.error .storeClosed)) := .lookup_closed hlt hmeta
  have hget : (s.finish k st (.error .storeClosed)).stores[k]? =
      some { st with pc := .idle, result := .error .storeClosed } := List.getElem?_set_self hlt
  have hexec := execStore_of hk hcall hend (Nat.le_add_left _ _) hget rfl
  exact ⟨_, hexec, hr.finish hk _⟩

/-- The lookup that raises. -/
theorem Represents.lookup_raises (hr : Represents path s a) (hk : s.stores[k]? = some st)
    (hcurrent : a.current = some k) {act : Act} {given : Option (Option ContentType)} {e : Error}
    (hraises : match a.streams.get name with
      | some x => checkType name x.contentType given.join = some e
      | none => given = none ∧ e = .keyError name)
    (hcall : s.step path act = some (s.goto k st (.lookup name given))) :
    ∃ s', s.execStore path k act = some (s', .error e) ∧ Represents path s' a := by
  have hlt := (List.getElem?_eq_some_iff.mp hk).1
  have hmeta : st.metaOpen = true := (hr.stands k st hk).isOpen.mpr hcurrent
  have hrow := hr.mirrors.row name
  have hend :
      Succeeds path k 1 (s.mid k st s.fs (.lookup name given)) (s.finish k st (.error e)) := by
    cases hx : a.streams.get name with
    | some x =>
        rw [hx] at hraises hrow
        exact .lookup_mismatch given hlt hmeta hrow hraises
    | none =>
        rw [hx] at hraises hrow
        obtain ⟨rfl, rfl⟩ := hraises
        exact .lookup_keyError hlt hmeta hrow
  have hget : (s.finish k st (.error e)).stores[k]? =
      some { st with pc := .idle, result := .error e } := List.getElem?_set_self hlt
  have hexec := execStore_of hk hcall hend (Nat.le_add_left _ _) hget rfl
  exact ⟨_, hexec, hr.finish hk _⟩

/-- The lookup that finds a row, and no handle is there. -/
theorem Represents.lookup_found (hpath : Function.Injective path) (hr : Represents path s a)
    (hk : s.stores[k]? = some st) (hcurrent : a.current = some k)
    (hx : a.streams.get name = some x) (hfind : a.handles.findIdx? (· = .live name) = none)
    {act : Act} {given : Option (Option ContentType)}
    (htype : checkType name x.contentType given.join = none)
    (hcall : s.step path act = some (s.goto k st (.lookup name given))) :
    ∃ s', s.execStore path k act = some (s', .ok (.handle a.handles.length)) ∧
      Represents path s' { a with handles := a.handles ++ [.live name] } := by
  have hlt := (List.getElem?_eq_some_iff.mp hk).1
  have hstands := hr.stands k st hk
  have hmeta : st.metaOpen = true := hstands.isOpen.mpr hcurrent
  have hnone := not_live_of_find hfind
  have hm := hr.mirrors
  have hrow := hm.row name
  rw [hx] at hrow
  let o : Opening := ⟨name, x.contentType, x.closed, false, s.history⟩
  have hlookup : Succeeds path k 1 (s.mid k st s.fs (.lookup name given))
      (s.mid k st s.fs (.ctor o .openAppend)) := .lookup_found given hlt hmeta hrow htype
  obtain ⟨n, hn, t, hdrives, hstores, hlive, hm'⟩ := Succeeds.handle st o hpath hlt
    (hm.widen name) hx rfl rfl hcurrent (hm.logs name x (by simp) hx)
    (fun i e hcur => hm.unlocked hnone hcur hpath e) hnone
  rw [hm.length] at hstores
  have hstands' := hstands.handle hcurrent hnone (.ok (some a.handles.length))
  have hget : t.stores[k]? = some { st with
      opened := st.opened.set name a.handles.length
      pc := .idle, result := .ok (some a.handles.length) } := by
    rw [hstores]
    exact List.getElem?_set_self hlt
  have hbound : 1 + n < callBound st := by
    rw [callBound]
    omega
  exact ⟨t, execStore_of hk hcall (hlookup.trans hdrives) hbound hget rfl,
    hr.set hk hm' hstores hlive rfl rfl hstands' (.inl hcurrent)⟩

/-- The middle of `create`: an old log goes and the row comes. -/
theorem Succeeds.inserted (st : Store) (hpath : Function.Injective path) (hlt : k < s.stores.length)
    (hmeta : st.metaOpen = true) (hm : Mirrors path none s.fs s.rows s.handles a)
    (hx : a.streams.get name = none) (hnone : ∀ h : Hid, a.handles[h]? ≠ some (.live name))
    {contentType : ContentType} {asked : List Event} :
    ∃ n ≤ 5, ∃ (s₁ : World) (fs' : LockFs (List Char) UInt8),
      Succeeds path k n (s.mid k st s.fs (.probe name (.create contentType asked)))
        (s₁.mid k st fs' (.ctor ⟨name, contentType, false, true, asked⟩ .openAppend)) ∧
      s₁.stores = s.stores ∧ s₁.live = s.live ∧ (fs'.dir (path name)).cur = none ∧
      Mirrors path (some name) fs' s₁.rows s₁.handles
        { a with streams := a.streams.set name ⟨contentType, false, []⟩ } := by
  have hrow := hm.row name
  rw [hx] at hrow
  obtain ⟨n, hn, fs', removed, hpurge, hpurged⟩ := Succeeds.purge st (.create contentType asked) hlt
    hm.tidy (fun i e hcur => hm.unlocked hnone hcur hpath e)
  let s₁ := s.withRow name contentType fs'.nextIno
  have hinsert : Succeeds path k 1 (s.mid k st fs' (.insert name contentType asked))
      (s₁.mid k st fs' (.ctor ⟨name, contentType, false, true, asked⟩ .openAppend)) :=
    .one (stores_mid hlt) (insert_mid hmeta hrow)
  refine ⟨n + 1, Nat.add_le_add_right hn 1, s₁, fs', hpurge.trans hinsert, rfl, rfl, hpurged.cur,
    ?_⟩
  have hframe := (hm.widen name).frame hpath hpurged.frame hpurged.tidy hpurged.closed
  exact hframe.insert hx contentType

/-- `create` of a name without row. -/
theorem Represents.lookup_missing (hpath : Function.Injective path) (hr : Represents path s a)
    (hk : s.stores[k]? = some st) (hcurrent : a.current = some k)
    (hx : a.streams.get name = none) (hfind : a.handles.findIdx? (· = .live name) = none)
    {act : Act} {given : Option ContentType}
    (hcall : s.step path act = some (s.goto k st (.lookup name (some given)))) :
    ∃ s', s.execStore path k act = some (s', .ok (.handle a.handles.length)) ∧
      Represents path s' { a with
        streams := a.streams.set name ⟨given.getD defaultContentType, false, []⟩
        handles := a.handles ++ [.live name] } := by
  have hlt := (List.getElem?_eq_some_iff.mp hk).1
  have hstands := hr.stands k st hk
  have hmeta : st.metaOpen = true := hstands.isOpen.mpr hcurrent
  have hnone := not_live_of_find hfind
  have hrow := hr.mirrors.row name
  rw [hx] at hrow
  have hlookup : Succeeds path k 1 (s.mid k st s.fs (.lookup name (some given)))
      (s.mid k st s.fs (.probe name (.create (given.getD defaultContentType) s.history))) :=
    .lookup_missing st given hlt hmeta hrow
  obtain ⟨m, hm, s₁, fs', hinserted, hstores₁, hlive₁, hcur, hm₁⟩ :=
    Succeeds.inserted st hpath hlt hmeta hr.mirrors hx hnone
  let o : Opening := ⟨name, given.getD defaultContentType, false, true, s.history⟩
  have hlt₁ : k < s₁.stores.length := by rwa [hstores₁]
  have hrecords : records (fs'.contents (path name)) = [] := by
    rw [LockFs.contents_of_none hcur]
    rfl
  obtain ⟨n, hn, t, hctor, hstores, hlive, hm'⟩ := Succeeds.handle st o hpath hlt₁ hm₁
    (Table.get_set_self _ _ _) rfl rfl hcurrent hrecords
    (fun i e hcur' => absurd (hcur.symm.trans hcur') (by simp)) hnone
  have hlength : s₁.handles.length = a.handles.length := hm₁.length
  rw [hstores₁, hlength] at hstores
  have hget : t.stores[k]? = some { st with
      opened := st.opened.set name a.handles.length
      pc := .dirSync a.handles.length, result := .ok (some a.handles.length) } := by
    rw [hstores]
    exact List.getElem?_set_self hlt
  -- the sync of the directory
  have hsync : Succeeds path k 1 t ((t.setFs t.fs.syncDir).finish k
      { st with
        opened := st.opened.set name a.handles.length
        pc := .dirSync a.handles.length, result := .ok (some a.handles.length) }
      (.ok (some a.handles.length))) := .one hget rfl
  have hstands₁ : st.Stands
      { a with streams := a.streams.set name ⟨given.getD defaultContentType, false, []⟩ } k :=
    ⟨hstands.idle, hstands.isOpen, hstands.opened⟩
  have hstands' := hstands₁.handle hcurrent hnone (.ok (some a.handles.length))
  have hstores' : ((t.setFs t.fs.syncDir).finish k
      { st with
        opened := st.opened.set name a.handles.length
        pc := .dirSync a.handles.length, result := .ok (some a.handles.length) }
      (.ok (some a.handles.length))).stores = s.stores.set k
        { st with
          opened := st.opened.set name a.handles.length
          pc := .idle, result := .ok (some a.handles.length) } := by
    show t.stores.set k _ = _
    rw [hstores, List.set_set]
  have hget' := (congrArg (·[k]?) hstores').trans (List.getElem?_set_self hlt)
  have hbound : 1 + m + n + 1 < callBound st := by
    rw [callBound]
    omega
  have hclosed : ∀ d, t.fs.descs.length ≤ d → t.fs.refs d = [] := fun d hd =>
    LockFs.refs_of_length_le hd
  have hsynced := hm'.frame hpath .syncDir hm'.tidy.syncDir hclosed
  exact ⟨_, execStore_of hk hcall (((hlookup.trans hinserted).trans hctor).trans hsync) hbound hget'
    rfl, hr.set hk hsynced hstores' (hlive.trans hlive₁) rfl rfl hstands' (.inl hcurrent)⟩

/-- The Store a call names, and whether it is the one that is open. -/
theorem Represents.store {call : Streams × Reply} {r : Reply} (hr : Represents path s a)
    (hcall : a.onStore k call = some (a', r)) :
    ∃ st, s.stores[k]? = some st ∧ (a.current = some k ∧ call = (a', r) ∨
      a.current ≠ some k ∧ a' = a ∧ r = .error .storeClosed) := by
  rw [Streams.onStore] at hcall
  split at hcall
  · next hcurrent =>
      have hlt : k < s.stores.length := by
        rw [hr.stores]
        exact hr.current k hcurrent
      cases hcall
      exact ⟨_, List.getElem?_eq_getElem hlt, .inl ⟨hcurrent, rfl⟩⟩
  · next hclosed =>
      split at hcall
      · next hlt =>
          rw [← hr.stores] at hlt
          cases hcall
          exact ⟨_, List.getElem?_eq_getElem hlt, .inr ⟨hclosed, rfl, rfl⟩⟩
      · cases hcall

/-- A call that returns at once. -/
theorem Represents.returns (hr : Represents path s a) (hk : s.stores[k]? = some st) {act : Act}
    {r : Except Error (Option Hid)} (hcall : s.step path act = some (s.finish k st r)) :
    ∃ s', s.execStore path k act = some (s', r.map fun h => h.elim .unit .handle) ∧
      Represents path s' a := by
  have hlt := (List.getElem?_eq_some_iff.mp hk).1
  have hget : (s.finish k st r).stores[k]? = some { st with pc := .idle, result := r } :=
    List.getElem?_set_self hlt
  exact ⟨_, execStore_of hk hcall (.refl _) (Nat.zero_lt_succ _) hget rfl, hr.finish hk r⟩

/-- A Store that is closed has no handles. -/
theorem Represents.opened_of_closed (hr : Represents path s a) (hk : s.stores[k]? = some st)
    (hclosed : a.current ≠ some k) (name : Name) : st.opened.get name = none := by
  cases hget : st.opened.get name with
  | none => rfl
  | some h => exact absurd (((hr.stands k st hk).opened name h).mp hget).1 hclosed

/-- The live handle that the abstract machine finds. -/
theorem live_of_find {h : Hid} (hfind : a.handles.findIdx? (· = .live name) = some h) :
    a.handles[h]? = some (.live name) := by
  obtain ⟨hlt, hlive, -⟩ := List.findIdx?_eq_some_iff_getElem.mp hfind
  rw [List.getElem?_eq_getElem hlt, of_decide_eq_true hlive]

theorem Represents.create (hpath : Function.Injective path) (hr : Represents path s a)
    (hname : checkName name = .ok name) {given : Option ContentType} {r : Reply}
    (hcall : a.onStore k (a.create name given) = some (a', r)) :
    ∃ s', s.execStore path k (.create k name given) = some (s', r) ∧ Represents path s' a' := by
  obtain ⟨st, hk, hcases⟩ := hr.store hcall
  have hstep := step_call (.create k name given) hr hk rfl
  simp only [call, hname] at hstep
  rcases hcases with ⟨hcurrent, hcreate⟩ | ⟨hclosed, rfl, rfl⟩
  · have hopened := hr.opened_get hk hcurrent name
    cases hfind : a.handles.findIdx? (· = .live name) with
    | some h =>
        obtain ⟨hd, x, d, hget, hx, hlive, -⟩ := hr.mirrors.live (live_of_find hfind)
        rw [hopened, hfind] at hstep
        simp only [Option.bind_some, hget, Option.map_some, hlive.contentType, checkType] at hstep
        simp only [Streams.create, hx] at hcreate
        cases given with
        | none =>
            simp only [Streams.handle, hfind] at hcreate
            cases hcreate
            exact hr.returns hk hstep
        | some given =>
            by_cases htype : given = x.contentType
            · subst htype
              simp only [if_true, Streams.handle, hfind] at hcreate
              cases hcreate
              simp only [ne_eq, not_true_eq_false, if_false] at hstep
              exact hr.returns hk hstep
            · simp only [htype, if_false] at hcreate
              cases hcreate
              simp only [ne_eq, htype, not_false_eq_true, if_true] at hstep
              exact hr.returns hk hstep
    | none =>
        rw [hopened, hfind] at hstep
        simp only [Option.bind_none] at hstep
        cases hx : a.streams.get name with
        | none =>
            simp only [Streams.create, hx, Streams.handle, hfind] at hcreate
            cases hcreate
            exact hr.lookup_missing hpath hk hcurrent hx hfind hstep
        | some x =>
            simp only [Streams.create, hx] at hcreate
            cases given with
            | none =>
                simp only [Streams.handle, hfind] at hcreate
                cases hcreate
                exact hr.lookup_found hpath hk hcurrent hx hfind rfl hstep
            | some given =>
                by_cases htype : given = x.contentType
                · simp only [htype, if_true, Streams.handle, hfind] at hcreate
                  cases hcreate
                  refine hr.lookup_found hpath hk hcurrent hx hfind ?_ hstep
                  simp [checkType, htype]
                · simp only [htype, if_false] at hcreate
                  cases hcreate
                  refine hr.lookup_raises hk hcurrent ?_ hstep
                  rw [hx]
                  simp [checkType, htype]
  · rw [hr.opened_of_closed hk hclosed] at hstep
    exact hr.lookup_closed hk hclosed hstep

theorem Represents.openStream (hpath : Function.Injective path) (hr : Represents path s a)
    {r : Reply} (hcall : a.onStore k (a.openStream name) = some (a', r)) :
    ∃ s', s.execStore path k (.openStream k name) = some (s', r) ∧ Represents path s' a' := by
  obtain ⟨st, hk, hcases⟩ := hr.store hcall
  have hstep := step_call (.openStream k name) hr hk rfl
  simp only [call] at hstep
  rcases hcases with ⟨hcurrent, hopen⟩ | ⟨hclosed, rfl, rfl⟩
  · have hopened := hr.opened_get hk hcurrent name
    rw [hopened] at hstep
    cases hx : a.streams.get name with
    | none =>
        have hfind : a.handles.findIdx? (· = .live name) = none := by
          cases hfind : a.handles.findIdx? (· = .live name) with
          | none => rfl
          | some h =>
              obtain ⟨hd, x, d, -, hx', -⟩ := hr.mirrors.live (live_of_find hfind)
              rw [hx] at hx'
              cases hx'
        rw [Streams.openStream, hx] at hopen
        cases hopen
        rw [hfind] at hstep
        refine hr.lookup_raises hk hcurrent ?_ hstep
        rw [hx]
        exact ⟨rfl, rfl⟩
    | some x =>
        rw [Streams.openStream, hx] at hopen
        cases hfind : a.handles.findIdx? (· = .live name) with
        | some h =>
            simp only [Streams.handle, hfind] at hopen
            cases hopen
            rw [hfind] at hstep
            exact hr.returns hk hstep
        | none =>
            simp only [Streams.handle, hfind] at hopen
            cases hopen
            rw [hfind] at hstep
            exact hr.lookup_found hpath hk hcurrent hx hfind rfl hstep
  · rw [hr.opened_of_closed hk hclosed] at hstep
    exact hr.lookup_closed hk hclosed hstep

/-! ## `delete` -/

/-- The end of `delete`, when the log is gone and no handle is left. -/
theorem Succeeds.forget (st : Store) (hpath : Function.Injective path) (hlt : k < s.stores.length)
    (hmeta : st.metaOpen = true) (hm : Mirrors path (some name) fs s.rows s.handles a)
    (hnone : ∀ h : Hid, a.handles[h]? ≠ some (.live name)) (removed : Bool) :
    ∃ n ≤ 2, ∃ t, Succeeds path k n (s.mid k st fs (delNext name removed)) t ∧
      t.stores = s.stores.set k { st with pc := .idle, result := .ok none } ∧ t.live = s.live ∧
      Mirrors path none t.fs t.rows t.handles { a with streams := a.streams.erase name } := by
  have hrow : ∀ fs', Succeeds path k 1 (s.mid k st fs' (.delRow name))
      ((({ s with rows := s.rows.erase name } : World).setFs fs').finish k st (.ok none)) := by
    intro fs'
    refine .one (stores_mid hlt) ?_
    have hend :
        (({ s with rows := s.rows.erase name } : World).mid k st fs' (.delRow name)).finish k
        { st with pc := .delRow name } (.ok none) =
          (({ s with rows := s.rows.erase name } : World).setFs fs').finish k st (.ok none) :=
      finish_mid
    rw [← hend]
    exact if_neg (not_not.mpr hmeta)
  cases removed with
  | false => exact ⟨1, by decide, _, hrow fs, rfl, rfl, hm.erase hnone⟩
  | true =>
      have hsync : Succeeds path k 1 (s.mid k st fs (.delDirSync name))
          (s.mid k st fs.syncDir (.delRow name)) := .mid hlt rfl
      have hclosed : ∀ d, fs.descs.length ≤ d → fs.refs d = [] := fun d hd =>
        LockFs.refs_of_length_le hd
      have hsynced := hm.frame hpath .syncDir hm.tidy.syncDir hclosed
      exact ⟨2, Nat.le_refl _, _, hsync.trans (hrow fs.syncDir), rfl, rfl, hsynced.erase hnone⟩

/-- `delete` of a stream that the Store has open. -/
theorem Represents.delete_own (hpath : Function.Injective path) (hr : Represents path s a)
    (hk : s.stores[k]? = some st) (hcurrent : a.current = some k)
    (href : a.handles[h]? = some (.live name))
    (hstep : s.step path (.delete k name) =
      some (s.goto k st (.unlink name (.delete (some h)) none))) :
    ∃ s', s.execStore path k (.delete k name) = some (s', .ok .unit) ∧
      Represents path s' (a.delete name).1 := by
  have hlt := (List.getElem?_eq_some_iff.mp hk).1
  have hstands := hr.stands k st hk
  have hmeta : st.metaOpen = true := hstands.isOpen.mpr hcurrent
  obtain ⟨hd, x, d, hget, hx, hlive, hlog⟩ := hr.mirrors.live href
  have hcur := (hlog (by simp)).1
  have hunlink : Succeeds path k 1 (s.mid k st s.fs (.unlink name (.delete (some h)) none))
      (s.mid k st (s.fs.unlink (path name)) (.delClose name h true)) := by
    refine .mid hlt ?_
    simp only [sysStep, fs_mid, hcur]
    rfl
  let s₁ : World := { s with handles := s.handles.set h hd.closeFds }
  let st₁ : Store := { st with opened := st.opened.erase name }
  have hclose : Succeeds path k 1 (s.mid k st (s.fs.unlink (path name)) (.delClose name h true))
      (s₁.mid k st₁ ((s.fs.unlink (path name)).close hd.pid d) (delNext name true)) := by
    refine .one (stores_mid hlt) ?_
    have hget' : (s.mid k st (s.fs.unlink (path name)) (.delClose name h true)).handles[h]? =
        some hd := hget
    simp only [sysStep, hget', hlive.free, if_true, closeFds, hlive.file, closeDesc]
    simp only [mid, setFs, setHandle, setStore, List.set_set]
    rfl
  have hclosed : ∀ d, s.fs.descs.length ≤ d → (s.fs.unlink (path name)).refs d = [] := fun d hd =>
    LockFs.refs_of_length_le (by exact hd)
  have hunlinked := (hr.mirrors.widen name).frame hpath .unlink hr.mirrors.tidy.unlink hclosed
  have hburied := hunlinked.bury href hget hlive.file
  have hnone : ∀ i : Hid, (a.bury (· == name)).handles[i]? ≠ some (.live name) := by
    intro i hi
    have hgone := (Streams.live_bury.mp hi).2
    rw [beq_self_eq_true] at hgone
    cases hgone
  obtain ⟨n, hn, t, hforget, hstores, hlive', hm⟩ := Succeeds.forget (s := s₁) st₁ hpath hlt hmeta
    hburied hnone true
  have hget' : t.stores[k]? = some { st₁ with pc := .idle, result := .ok none } := by
    rw [hstores]
    exact List.getElem?_set_self hlt
  have hbound : 1 + 1 + n < callBound st := by
    rw [callBound]
    omega
  have hstands' : ({ st₁ with pc := .idle, result := .ok none } : Store).Stands
      (a.delete name).1 k := by
    refine ⟨rfl, hstands.isOpen, ?_⟩
    intro n i
    show (st.opened.erase name).get n = some i ↔
      a.current = some k ∧ (a.bury (· == name)).handles[i]? = some (.live n)
    rw [Streams.live_bury]
    by_cases hn : n = name
    · subst hn
      simp
    · rw [Table.get_erase_of_ne _ hn, hstands.opened]
      simp [hn]
  exact ⟨t, execStore_of hk hstep ((hunlink.trans hclose).trans hforget) hbound hget' rfl,
    hr.set hk hm hstores hlive' rfl rfl hstands' (.inl hcurrent)⟩

/-- `delete` of a stream that the Store does not have open, or of none. -/
theorem Represents.delete_other (hpath : Function.Injective path) (hr : Represents path s a)
    (hk : s.stores[k]? = some st) (hcurrent : a.current = some k)
    (hfind : a.handles.findIdx? (· = .live name) = none)
    (hstep : s.step path (.delete k name) = some (s.goto k st (.probe name (.delete none)))) :
    ∃ s', s.execStore path k (.delete k name) = some (s', .ok .unit) ∧
      Represents path s' (a.delete name).1 := by
  have hlt := (List.getElem?_eq_some_iff.mp hk).1
  have hstands := hr.stands k st hk
  have hmeta : st.metaOpen = true := hstands.isOpen.mpr hcurrent
  have hnone := not_live_of_find hfind
  have hm := hr.mirrors
  obtain ⟨m, hm', fs', removed, hpurge, hpurged⟩ := Succeeds.purge st (.delete none) hlt hm.tidy
    (fun i e hcur => hm.unlocked hnone hcur hpath e)
  have hframe := (hm.widen name).frame hpath hpurged.frame hpurged.tidy hpurged.closed
  obtain ⟨n, hn, t, hforget, hstores, hlive, hm₁⟩ := Succeeds.forget st hpath hlt hmeta hframe hnone
    removed
  have hget' : t.stores[k]? = some { st with pc := .idle, result := .ok none } := by
    rw [hstores]
    exact List.getElem?_set_self hlt
  have hbound : m + n < callBound st := by
    rw [callBound]
    omega
  have hdelete : (a.delete name).1 = { a with streams := a.streams.erase name } := by
    rw [Streams.delete, Streams.bury_of_not_live hnone]
  rw [hdelete]
  exact ⟨t, execStore_of hk hstep (hpurge.trans hforget) hbound hget' rfl,
    hr.set hk hm₁ hstores hlive rfl rfl
      ⟨rfl, hstands.isOpen, hstands.opened⟩ (.inl hcurrent)⟩

theorem Represents.delete (hpath : Function.Injective path) (hr : Represents path s a) {r : Reply}
    (hcall : a.onStore k (a.delete name) = some (a', r)) :
    ∃ s', s.execStore path k (.delete k name) = some (s', r) ∧ Represents path s' a' := by
  obtain ⟨st, hk, hcases⟩ := hr.store hcall
  have hstep := step_call (.delete k name) hr hk rfl
  have hopen := (hr.stands k st hk).isOpen
  rcases hcases with ⟨hcurrent, hdelete⟩ | ⟨hclosed, rfl, rfl⟩
  · have hopened := hr.opened_get hk hcurrent name
    simp only [call, hopen.mpr hcurrent, hopened] at hstep
    cases hdelete
    cases hfind : a.handles.findIdx? (· = .live name) with
    | none =>
        rw [hfind] at hstep
        exact hr.delete_other hpath hk hcurrent hfind hstep
    | some h =>
        have href := live_of_find hfind
        obtain ⟨hd, x, d, hget, -, hlive, -⟩ := hr.mirrors.live href
        simp only [hfind, Option.bind_some, hget, Option.map_some, hlive.writable] at hstep
        exact hr.delete_own hpath hk hcurrent href hstep
  · have hmeta : ¬st.metaOpen = true := fun h => hclosed (hopen.mp h)
    simp only [call, hmeta] at hstep
    exact hr.returns hk hstep

/-! ## `Store.close` -/

/-- The loop of `Store.close` over the names the Store has handles of. -/
theorem Succeeds.closing (st : Store) (get : Name → Option Hid) (hlt : k < s.stores.length)
    (names : List Name) : ∀ (b : Streams) (fs : LockFs (List Char) UInt8) (handles : List Handle),
    Mirrors path none fs s.rows handles b → names.Nodup →
    (∀ n ∈ names, ∀ h : Hid, get n = some h ↔ b.handles[h]? = some (.live n)) →
    ∃ fs' handles', Succeeds path k (names.filterMap get).length
        (({ s with handles := handles } : World).mid k st fs (.closing (names.filterMap get)))
        (({ s with handles := handles' } : World).mid k st fs' (.closing [])) ∧
      Mirrors path none fs' s.rows handles' (b.bury fun n => names.contains n) := by
  induction names with
  | nil =>
      intro b fs handles hm _ _
      have hbury : b.bury (fun n => ([] : List Name).contains n) = b := by
        have hmap : b.handles.map (Ref.bury (fun n => ([] : List Name).contains n) b.length) =
            b.handles := by
          refine (List.map_congr_left fun r _ => ?_).trans (List.map_id _)
          cases r <;> rfl
        rw [Streams.bury, hmap]
      rw [hbury]
      exact ⟨fs, handles, .refl _, hm⟩
  | cons name names ih =>
      intro b fs handles hm hnodup hget
      obtain ⟨hnot, hnodup'⟩ := List.nodup_cons.mp hnodup
      cases hname : get name with
      | none =>
          have hnone : ∀ h : Hid, b.handles[h]? ≠ some (.live name) := by
            intro h hlive
            rw [(hget name List.mem_cons_self h).mpr hlive] at hname
            cases hname
          obtain ⟨fs', handles', hdrives, hm'⟩ := ih b fs handles hm hnodup' fun n hn =>
            hget n (List.mem_cons_of_mem name hn)
          refine ⟨fs', handles', ?_, ?_⟩
          · rw [List.filterMap_cons_none hname]
            exact hdrives
          · rwa [Streams.bury_congr fun n hmem => ?_]
            obtain ⟨h, hlive⟩ := List.mem_iff_getElem?.mp hmem
            have hne : n ≠ name := by
              rintro rfl
              exact hnone h hlive
            simp [hne]
      | some h =>
          have href := (hget name List.mem_cons_self h).mp hname
          obtain ⟨hd, x, d, hgeth, hx, hlive, -⟩ := hm.live href
          have hburied := hm.bury href hgeth hlive.file
          have hget' : ∀ n ∈ names, ∀ i : Hid, get n = some i ↔
              (b.bury (· == name)).handles[i]? = some (.live n) := by
            intro n hn i
            have hne : n ≠ name := by
              rintro rfl
              exact hnot hn
            rw [Streams.live_bury, hget n (List.mem_cons_of_mem name hn) i]
            simp [hne]
          obtain ⟨fs', handles', hdrives, hm'⟩ := ih _ _ _ hburied hnodup' hget'
          refine ⟨fs', handles', ?_, ?_⟩
          · rw [List.filterMap_cons_some hname, List.length_cons, Nat.add_comm]
            refine Succeeds.trans (.one (stores_mid hlt) ?_) hdrives
            have hgeth' : (({ s with handles := handles } : World).mid k st fs
                (.closing (h :: names.filterMap get))).handles[h]? = some hd := hgeth
            simp only [sysStep, hgeth', hlive.free, if_true, closeFds, hlive.file, closeDesc]
            simp only [World.mid, setFs, setHandle, goto, setStore, List.set_set]
          · rw [Streams.bury_bury] at hm'
            exact hm'

/-- The last call of `Store.close`. -/
theorem Succeeds.closed (st : Store) (hlt : k < s.stores.length) :
    Succeeds path k 1 (s.mid k st fs (.closing []))
      ((s.setFs fs).setStore k { st with metaOpen := false, pc := .idle, result := .ok none }) := by
  refine .one (stores_mid hlt) ?_
  simp only [sysStep, World.mid, setFs, setStore, List.set_set]

/-- `Store.close` of the Store that is open: every live handle dies. -/
theorem Represents.closeStore (hr : Represents path s a) (hcurrent : a.current = some k) :
    ∃ s', s.execStore path k (.closeStore k) = some (s', .ok .unit) ∧
      Represents path s' a.closeStore := by
  have hlt : k < s.stores.length := by
    rw [hr.stores]
    exact hr.current k hcurrent
  obtain ⟨st, hk⟩ : ∃ st, s.stores[k]? = some st := ⟨_, List.getElem?_eq_getElem hlt⟩
  have hstands := hr.stands k st hk
  have hstep := step_call (.closeStore k) hr hk rfl
  let st₁ : Store := { st with opened := .empty }
  obtain ⟨fs', handles', hdrives, hm⟩ := Succeeds.closing st₁ st.opened.get hlt
    st.opened.keys a s.fs s.handles hr.mirrors st.opened.nodup fun n _ h => by
      rw [hstands.opened]
      exact ⟨fun hlive => hlive.2, fun hlive => ⟨hcurrent, hlive⟩⟩
  have hall : a.bury (fun n => st.opened.keys.contains n) = a.bury fun _ => true := by
    refine Streams.bury_congr fun n hmem => ?_
    obtain ⟨h, hlive⟩ := List.mem_iff_getElem?.mp hmem
    have hget := (hstands.opened n h).mpr ⟨hcurrent, hlive⟩
    rw [List.contains_iff_mem.mpr ((st.opened.mem_keys n).mpr (by rw [hget]; rfl))]
  rw [hall] at hm
  have hnone : ∀ (h : Hid) (name : Name),
      (a.bury fun _ => true).handles[h]? ≠ some (.live name) := fun h name hlive =>
    absurd (Streams.live_bury.mp hlive).2 (by simp)
  let s₁ : World := { s with handles := handles' }
  have hend := hdrives.trans (Succeeds.closed (s := s₁) st₁ hlt)
  have hget : ((s₁.setFs fs').setStore k
      { st₁ with metaOpen := false, pc := .idle, result := .ok none }).stores[k]? =
        some { st₁ with metaOpen := false, pc := .idle, result := .ok none } :=
    List.getElem?_set_self hlt
  have hbound : (st.opened.keys.filterMap st.opened.get).length + 1 < callBound st := by
    have hle := List.length_filterMap_le st.opened.get st.opened.keys
    rw [callBound]
    omega
  refine ⟨_, execStore_of hk hstep hend hbound hget rfl, ?_⟩
  refine ⟨hm.shut a.stores none hnone, ?_, (fun _ h => by cases h), ?_, hr.live⟩
  · show (s.stores.set k _).length = a.stores
    rw [List.length_set, hr.stores]
  · intro j st₀ hj
    have hj' : (s.stores.set k _)[j]? = some st₀ := hj
    by_cases hkj : k = j
    · subst hkj
      rw [List.getElem?_set_self hlt] at hj'
      cases hj'
      exact ⟨rfl, by simp [Streams.closeStore], fun n h => by simp [st₁, Streams.closeStore]⟩
    · rw [List.getElem?_set_ne hkj] at hj'
      have hold := hr.stands j st₀ hj'
      have hne : a.current ≠ some j := by
        rw [hcurrent]
        exact fun heq => hkj (Option.some.inj heq)
      refine ⟨hold.idle, ?_, fun n h => ?_⟩
      · rw [hold.isOpen]
        simp [hne, Streams.closeStore]
      · rw [hold.opened]
        simp [hne, Streams.closeStore]

/-- `Store.close` of a Store that is closed. -/
theorem Represents.closeStore_closed (hr : Represents path s a) (hclosed : a.current ≠ some k)
    (hlt : k < a.stores) :
    ∃ s', s.execStore path k (.closeStore k) = some (s', .ok .unit) ∧ Represents path s' a := by
  rw [← hr.stores] at hlt
  obtain ⟨st, hk⟩ : ∃ st, s.stores[k]? = some st := ⟨_, List.getElem?_eq_getElem hlt⟩
  have hstep := step_call (.closeStore k) hr hk rfl
  have hvalues : st.opened.values = [] := by
    refine List.filterMap_eq_nil_iff.mpr fun n _ => hr.opened_of_closed hk hclosed n
  simp only [call, hvalues] at hstep
  let st₁ : Store := { st with opened := .empty }
  have hend : Succeeds path k 1 (s.mid k st₁ s.fs (.closing [])) _ := Succeeds.closed st₁ hlt
  have hget : ((s.setFs s.fs).setStore k
      { st₁ with metaOpen := false, pc := .idle, result := .ok none }).stores[k]? =
        some { st₁ with metaOpen := false, pc := .idle, result := .ok none } :=
    List.getElem?_set_self hlt
  have hbound : 1 < callBound st := by
    rw [callBound]
    omega
  refine ⟨_, execStore_of hk hstep hend hbound hget rfl, ?_⟩
  refine hr.set hk hr.mirrors rfl rfl rfl rfl ⟨rfl, ?_, fun n h => ?_⟩ (.inr rfl)
  · simp [hclosed]
  · simp [st₁, hclosed]

/-! ## Streams -/

/-- The Stores have not noticed. -/
theorem Represents.keep (hr : Represents path s a)
    (hm : Mirrors path none t.fs t.rows t.handles a') (hstores : t.stores = s.stores)
    (hlive : t.live = s.live) (hlength : a'.stores = a.stores) (hcurrent : a'.current = a.current)
    (hhandles : a'.handles = a.handles) : Represents path t a' := by
  refine ⟨hm, ?_, ?_, ?_, ?_⟩
  · rw [hstores, hr.stores, hlength]
  · intro k hk
    rw [hlength]
    exact hr.current k (hcurrent ▸ hk)
  · intro k st hk
    rw [hstores] at hk
    obtain ⟨hidle, hopen, hopened⟩ := hr.stands k st hk
    refine ⟨hidle, ?_, ?_⟩
    · rw [hcurrent]
      exact hopen
    · rw [hcurrent, hhandles]
      exact hopened
  · rw [hlive]
    exact hr.live

/-- The world while handle `h` appends: its file has the contents `f`. -/
def appending (s : World) (h : Hid) (hd : Handle) (d : Did) (f : CrashFile UInt8) (pc : AppendPc) :
    World :=
  { s with
    fs := s.fs.setFile (s.fs.ino d) f
    handles := s.handles.set h { hd with w := { hd.w with pc := pc } } }

/-- A write of an append in progress. -/
theorem step_write {d : Did} {f : CrashFile UInt8} {b : List Bytes} {rest : Bytes} {m : Nat}
    (hget : h < s.handles.length) (hfile : hd.file = some d) (hm : m ≤ rest.length) :
    (s.appending h hd d f (.writing b rest)).step path (.io h (.write m)) =
      some (s.appending h hd d (f.write (rest.take m))
        (if rest.drop m = [] then .syncing b else .writing b (rest.drop m))) := by
  have hget' : (s.appending h hd d f (.writing b rest)).handles[h]? =
      some { hd with w := { hd.w with pc := .writing b rest } } := List.getElem?_set_self hget
  have hf : (s.appending h hd d f (.writing b rest)).fs.file d = f := LockFs.file_setFile_self
  simp only [step, hget', Option.bind_some, handleStep, hfile, hf, Writer.step, hm, if_true]
  split <;>
    simp only [appending, hfile, LockFs.setFile, LockFs.ino, Function.update_idem, List.set_set,
      ackedBy, List.nil_append]

/-- However the system splits the writes, the bytes come to the end of the file. -/
theorem run_writeActs (path : Name → List Char) (b : List Bytes) {d : Did}
    (hget : h < s.handles.length)
    (hfile : hd.file = some d) (sizes : List Nat) : ∀ (rest : Bytes) (f : CrashFile UInt8),
    rest ≠ [] → ∃ f', f'.data = f.data ++ rest ∧
      Lts.run (step path) (s.appending h hd d f (.writing b rest))
        (writeActs h rest.length sizes) = some (s.appending h hd d f' (.syncing b)) := by
  have hlast : ∀ (rest : Bytes) (f : CrashFile UInt8),
      Lts.run (step path) (s.appending h hd d f (.writing b rest)) [.io h (.write rest.length)] =
        some (s.appending h hd d (f.write rest) (.syncing b)) := by
    intro rest f
    rw [Lts.run_cons, step_write hget hfile (Nat.le_refl _), Option.bind_some, Lts.run_nil,
      List.take_length, List.drop_length, if_pos rfl]
  induction sizes with
  | nil => exact fun rest f _ => ⟨f.write rest, rfl, hlast rest f⟩
  | cons m sizes ih =>
      intro rest f _
      rw [writeActs]
      split
      · next hm =>
          have hdrop : rest.drop m ≠ [] := by
            intro hnil
            have hle := List.drop_eq_nil_iff.mp hnil
            omega
          obtain ⟨f', hdata, hrun⟩ := ih (rest.drop m) (f.write (rest.take m)) hdrop
          refine ⟨f', ?_, ?_⟩
          · rw [hdata, CrashFile.data_write, List.append_assoc, List.take_append_drop]
          · rw [List.length_drop] at hrun
            rw [Lts.run_cons, step_write hget hfile (Nat.le_of_lt hm), Option.bind_some,
              if_neg hdrop, hrun]
      · exact ⟨f.write rest, rfl, hlast rest f⟩

theorem frames_ne_nil {ps : List Bytes} (hne : ps ≠ []) : frames ps ≠ [] := by
  cases ps with
  | nil => exact absurd rfl hne
  | cons p ps =>
      intro hnil
      have hlen : (frame p ++ frames ps).length = 0 := congrArg List.length hnil
      rw [List.length_append, frame_length, headerSize] at hlen
      omega

/-- The log of a live handle is longer, and its index as well. -/
theorem Represents.appended (hpath : Function.Injective path) (hr : Represents path s a)
    (href : a.handles[h]? = some (.live name)) (hget : s.handles[h]? = some hd)
    (hx : a.streams.get name = some x) {d : Did} (hlive : hd.Live s.fs a.current name x d)
    (hlog : LogOpen path s.fs name x d) {payloads : List Bytes} (hfit : Fits payloads)
    {f : CrashFile UInt8} (hf : f.data = (s.fs.file d).data ++ frames payloads)
    (hfs : t.fs = s.fs.setFile (s.fs.ino d) f) (hrows : t.rows = s.rows)
    (hhandles : t.handles = s.handles.set h
      { hd with w :=
        { hd.w with index := hd.w.index ++ frameEnds (lastMark hd.w.index) payloads } })
    (hstores : t.stores = s.stores) (hlive' : t.live = s.live) :
    Represents path t { a with
      streams := a.streams.set name { x with payloads := x.payloads ++ payloads } } := by
  have hclosed : ∀ e, s.fs.descs.length ≤ e → (s.fs.setFile (s.fs.ino d) f).refs e = [] :=
    fun e he => LockFs.refs_of_length_le (by exact he)
  have hframe := (hr.mirrors.widen name).frame hpath (.setFile hr.mirrors.tidy.unshared hlog.1 f)
    (hr.mirrors.tidy.setFile f) hclosed
  have hindex : hd.w.index ++ frameEnds (lastMark hd.w.index) payloads =
      marks (x.payloads ++ payloads) := by
    rw [hlive.index, marks_append_frameEnds]
  have hnew : ({ hd with w := { hd.w with
      index := hd.w.index ++ frameEnds (lastMark hd.w.index) payloads } } : Handle).Live
        (s.fs.setFile (s.fs.ino d) f) a.current name
          { x with payloads := x.payloads ++ payloads } d := by
    refine ⟨hlive.store, ?_, hlive.contentType, hlive.file, hlive.owner, hlive.takenBy,
      hlive.atRest, hlive.refs⟩
    rw [hindex, hlive.w]
  have hlog' : LogOpen path (s.fs.setFile (s.fs.ino d) f) name
      { x with payloads := x.payloads ++ payloads } d := by
    refine ⟨hlog.1, ?_⟩
    rw [LockFs.file_setFile_self, hf, hlog.2, ← frames_append]
  have hm := hframe.renew href hget hlive.file hnew hlog' ((hr.mirrors.fits hx).append hfit)
  have hrow : s.rows.get name = some x.row := by
    rw [hr.mirrors.row, hx, Option.map_some]
  have hrow' : s.rows.set name ({ x with payloads := x.payloads ++ payloads } : Stream).row =
      s.rows := Table.set_of_get_eq hrow
  rw [hrow'] at hm
  refine hr.keep ?_ hstores hlive' rfl rfl rfl
  rw [hfs, hrows, hhandles]
  exact hm

/-- `append_many` on a live handle of a stream that is not closed. -/
theorem Represents.append_live (hpath : Function.Injective path) (hr : Represents path s a)
    (href : a.handles[h]? = some (.live name)) (hx : a.streams.get name = some x)
    (hclosed : x.closed = false) {payloads : List Bytes} (hfit : Fits payloads)
    (sizes : List Nat) :
    ∃ s', s.execAppend path h payloads sizes =
        some (s', .ok (.offset (x.payloads ++ payloads).length)) ∧
      Represents path s' { a with
        streams := a.streams.set name { x with payloads := x.payloads ++ payloads } } := by
  obtain ⟨hd, y, d, hget, hy, hlive, hlog⟩ := hr.mirrors.live href
  rw [hx] at hy
  cases hy
  have hlog := hlog (by simp)
  have hlt := (List.getElem?_eq_some_iff.mp hget).1
  have hopen : hd.file.isSome = true := by rw [hlive.file]; rfl
  have hw : ¬hd.w.closed = true := by
    rw [hlive.w]
    simpa using hclosed
  have hbegin : hd.w.begin hd.writable hd.file.isSome payloads =
      if payloads = [] then .returned x.payloads.length
      else .started { hd.w with pc := .writing payloads (frames payloads) } := by
    have hoffset : nextOffset hd.w.index = x.payloads.length := by
      rw [hlive.index, nextOffset_marks]
    rw [Writer.begin_of_fits hfit, hlive.writable, hopen, hoffset, if_neg hw]
    simp only [not_true_eq_false, if_false]
  by_cases hnil : payloads = []
  · rw [if_pos hnil] at hbegin
    subst hnil
    have hsame : a.streams.set name { x with payloads := x.payloads ++ [] } = a.streams := by
      refine Table.set_of_get_eq ?_
      rw [List.append_nil]
      exact hx
    refine ⟨s, ?_, by rw [hsame]; exact hr⟩
    rw [execAppend, hget, Option.bind_some, hbegin, List.append_nil]
  · rw [if_neg hnil] at hbegin
    have hstart : s.step path (.append h payloads) =
        some (s.appending h hd d (s.fs.file d) (.writing payloads (frames payloads))) := by
      simp only [step, hget, Option.bind_some, handleStep, hlive.free, if_true, hbegin]
      simp only [appending, setHandle, LockFs.setFile, LockFs.file, Function.update_eq_self]
    obtain ⟨f, hf, hrun⟩ := run_writeActs path payloads hlt hlive.file sizes
      (frames payloads) (s.fs.file d) (frames_ne_nil hnil)
    let index := hd.w.index ++ frameEnds (lastMark hd.w.index) payloads
    let t : World := { s with
      fs := s.fs.setFile (s.fs.ino d) f.sync
      handles := s.handles.set h { hd with w := { hd.w with index := index } }
      history := ackedBy { hd with w := { hd.w with pc := .syncing payloads } } (s.fs.ino d)
        (some (.returned (nextOffset index))) ++ s.history }
    have hsync : (s.appending h hd d f (.syncing payloads)).step path (.io h (.sync true)) =
        some t := by
      have hget' : (s.appending h hd d f (.syncing payloads)).handles[h]? =
          some { hd with w := { hd.w with pc := .syncing payloads } } := List.getElem?_set_self hlt
      have hf' : (s.appending h hd d f (.syncing payloads)).fs.file d = f :=
        LockFs.file_setFile_self
      have hidle : hd.w.pc = .idle := hlive.free.1
      simp only [step, hget', Option.bind_some, handleStep, hlive.file, hf', Writer.step]
      simp only [appending, t, index, hlive.file, hidle, LockFs.setFile, LockFs.ino,
        Function.update_idem, List.set_set]
    have hacts : Lts.run (step path) s (.append h payloads ::
        (writeActs h (frames payloads).length sizes ++ [.io h (.sync true)])) = some t := by
      rw [Lts.run_cons, hstart, Option.bind_some, Lts.run_append, hrun, Option.bind_some,
        Lts.run_cons, hsync, Option.bind_some, Lts.run_nil]
    have hget' : t.handles[h]? = some { hd with w := { hd.w with index := index } } :=
      List.getElem?_set_self hlt
    have hoffset : nextOffset index = (x.payloads ++ payloads).length := by
      show nextOffset (hd.w.index ++ frameEnds (lastMark hd.w.index) payloads) = _
      rw [hlive.index, marks_append_frameEnds, nextOffset_marks]
    have hf' : f.sync.data = (s.fs.file d).data ++ frames payloads := hf
    refine ⟨t, ?_, hr.appended hpath href hget hx hlive hlog hfit hf' rfl rfl rfl rfl rfl⟩
    rw [execAppend, hget, Option.bind_some, hbegin]
    simp only [hacts, Option.bind_some, hget', Option.map_some, hoffset]

/-- The handle behind a reference. -/
theorem Represents.handle (hr : Represents path s a) {r : Ref} (href : a.handles[h]? = some r) :
    ∃ hd, s.handles[h]? = some hd ∧ r.Mirrors path none s.fs a hd := by
  have hlt : h < s.handles.length := by
    rw [hr.mirrors.length]
    exact (List.getElem?_eq_some_iff.mp href).1
  have hget := List.getElem?_eq_getElem hlt
  exact ⟨_, hget, hr.mirrors.ref h r _ href hget⟩

theorem Represents.append (hpath : Function.Injective path) (hr : Represents path s a) {r : Ref}
    (href : a.handles[h]? = some r) {payloads : List Bytes} (hfit : Fits payloads)
    (sizes : List Nat) :
    ∃ s', s.execAppend path h payloads sizes = some (s', (a.append payloads r).2) ∧
      Represents path s' (a.append payloads r).1 := by
  obtain ⟨hd, hget, hmirrors⟩ := hr.handle href
  -- a handle whose flag is set refuses
  have hrefused : hd.w.closed = true → s.execAppend path h payloads sizes =
      some (s, .error (.streamClosed hd.w.name)) := by
    intro hclosed
    rw [execAppend, hget, Option.bind_some, Writer.begin_of_fits hfit, if_pos hclosed]
  cases r with
  | dead name n =>
      obtain ⟨rs, -, hw⟩ := hmirrors.w
      refine ⟨s, ?_, hr⟩
      rw [hrefused (by rw [hw]), hw]
      rfl
  | live name =>
      obtain ⟨x, d, hx, hlive, -⟩ := hmirrors
      cases hclosed : x.closed with
      | false =>
          simp only [Streams.append, hx, hclosed]
          have happend := hr.append_live hpath href hx hclosed hfit sizes
          rw [hclosed] at happend
          exact happend
      | true =>
          simp only [Streams.append, hx, hclosed]
          refine ⟨s, ?_, hr⟩
          rw [hrefused (by rw [hlive.w]; exact hclosed), hlive.w]
          rfl

theorem Represents.read (hr : Represents path s a) {r : Ref} (href : a.handles[h]? = some r)
    (offset : Int) (stop : Option Int) :
    s.execRead h offset stop = some (s, a.read offset stop r) := by
  obtain ⟨hd, hget, hmirrors⟩ := hr.handle href
  rw [execRead, hget]
  cases r with
  | dead name n =>
      obtain ⟨rs, hlen, hw⟩ := hmirrors.w
      simp only [Option.map_some, hmirrors.file, Option.isSome_none, hw, read_closed, hlen]
      have hstop : readStop n stop ≤ (max offset 0).toNat ↔
          stop.elim (n : Int) (min · n) ≤ max offset 0 := by
        cases stop with
        | none => simp only [readStop, Option.elim_none]; omega
        | some e => simp only [readStop, Option.elim_some]; omega
      by_cases hempty : stop.elim (n : Int) (min · n) ≤ max offset 0
      · rw [if_pos (hstop.mpr hempty), Streams.read, if_pos hempty]
        rfl
      · rw [if_neg fun h => hempty (hstop.mp h), Streams.read, if_neg hempty]
        rfl
  | live name =>
      obtain ⟨x, d, hx, hlive, hlog⟩ := hmirrors
      have hdata : frames x.payloads <+: (s.fs.file d).data := by
        rw [(hlog (by simp)).2]
      have hread := read_marks name (hr.mirrors.fits hx) hdata offset stop
      simp only [Option.map_some, hlive.file, Option.isSome_some, Option.elim_some, hlive.w, hread,
        Streams.read, hx]
      have hstop : readStop x.payloads.length stop =
          (stop.elim (x.payloads.length : Int) (min · x.payloads.length)).toNat := by
        cases stop <;> rfl
      have hoffset : (max offset 0).toNat = offset.toNat := by omega
      rw [hstop, hoffset]
      rfl

theorem Represents.close (hr : Represents path s a) {r : Ref} (href : a.handles[h]? = some r) :
    ∃ s', s.execClose path h = some (s', (a.close r).2) ∧ Represents path s' (a.close r).1 := by
  obtain ⟨hd, hget, hmirrors⟩ := hr.handle href
  have hlt := (List.getElem?_eq_some_iff.mp hget).1
  cases r with
  | dead name n =>
      obtain ⟨rs, -, hw⟩ := hmirrors.w
      refine ⟨s, ?_, hr⟩
      rw [execClose, hget, Option.bind_some, hmirrors.not_writable, hw]
      rfl
  | live name =>
      obtain ⟨x, d, hx, hlive, hlog⟩ := hmirrors
      have hlog := hlog (by simp)
      have hlts : hd.store < s.stores.length := by
        rw [hr.stores]
        exact hr.current _ hlive.store
      obtain ⟨st, hst⟩ : ∃ st, s.stores[hd.store]? = some st := ⟨_, List.getElem?_eq_getElem hlts⟩
      have hmeta : st.metaOpen = true := (hr.stands _ st hst).isOpen.mpr hlive.store
      have hrow : s.rows.get name = some x.row := by
        rw [hr.mirrors.row, hx, Option.map_some]
      let x' : Stream := { x with closed := true }
      let hd' : Handle := { hd with w := { hd.w with closed := true } }
      let t : World := { s with
        rows := s.rows.set name x'.row
        handles := s.handles.set h hd'
        history := .closed name (records (s.fs.file d).data) :: s.history }
      have hstart : s.step path (.close h) = some (s.setHandle h { hd with closing := true }) := by
        simp only [step, hget, Option.bind_some, handleStep, hlive.free, hlive.writable, if_true]
      have hupdate : (s.setHandle h { hd with closing := true }).step path (.update h true) =
          some t := by
        have hget' : (s.setHandle h { hd with closing := true }).handles[h]? =
            some { hd with closing := true } := List.getElem?_set_self hlt
        have hname : hd.w.name = name := by rw [hlive.w]
        rw [step, hget', Option.bind_some]
        simp only [handleStep, setHandle, hst, Option.map_some, hmeta, hlive.file, hname, hrow,
          if_true]
        simp only [List.set_set, t, hd', x', hlive.atRest.1, hlive.file, hname, Stream.row]
      have hnew : hd'.Live s.fs a.current name x' d := by
        refine ⟨hlive.store, ?_, hlive.contentType, hlive.file, hlive.owner, hlive.takenBy,
          hlive.atRest, hlive.refs⟩
        show ({ hd.w with closed := true } : Writer) = _
        rw [hlive.w]
      have hfit : Fits x.payloads := hr.mirrors.fits hx
      have hm := (hr.mirrors.widen name).renew href hget hlive.file hnew hlog hfit
      refine ⟨t, ?_, ?_⟩
      · rw [execClose, hget, Option.bind_some, if_pos hlive.writable, Lts.run_cons, hstart,
          Option.bind_some, Lts.run_cons, hupdate, Option.bind_some, Lts.run_nil, Option.bind_some,
          hst, Option.map_some, if_pos hmeta, Streams.close, hx]
      · rw [Streams.close, hx]
        exact hr.keep hm rfl rfl rfl rfl rfl

/-! ## Stores -/

theorem Represents.list (hr : Represents path s a) {r : Reply}
    (hcall : a.onStore k (a, .ok (.names (sortNames a.streams.keys))) = some (a', r)) :
    s.execList k = some (s, r) ∧ a' = a := by
  obtain ⟨st, hk, hcases⟩ := hr.store hcall
  have hstands := hr.stands k st hk
  have hidle : s.idleStore k = some st := by
    rw [idleStore, hk]
    exact if_pos hstands.idle
  have hkeys : s.rows.keys = a.streams.keys := by
    rw [hr.mirrors.rows]
    rfl
  rcases hcases with ⟨hcurrent, heq⟩ | ⟨hclosed, rfl, rfl⟩
  · cases heq
    rw [execList, hidle, Option.map_some, if_pos (hstands.isOpen.mpr hcurrent), hkeys]
    exact ⟨rfl, rfl⟩
  · rw [execList, hidle, Option.map_some, if_neg fun hopen => hclosed (hstands.isOpen.mp hopen)]
    exact ⟨rfl, rfl⟩

/-- A new Store, while none is open. -/
theorem Represents.newStore (hr : Represents path s a) (hnone : a.current = none) (other : Bool) :
    ∃ s', s.execNewStore path other = some (s', .ok .unit) ∧
      Represents path s' { a with stores := a.stores + 1, current := some a.stores } := by
  obtain ⟨q, qs, hlive⟩ := List.exists_cons_of_ne_nil hr.live
  obtain ⟨t, p, hrun, hfs, hrows, hhandles, hstores, hlive'⟩ :
      ∃ (t : World) (p : Pid), s.execNewStore path other = some (t, .ok .unit) ∧ t.fs = s.fs ∧
        t.rows = s.rows ∧ t.handles = s.handles ∧ t.stores = s.stores ++ [Store.new p] ∧
        t.live ≠ [] := by
    cases other with
    | true =>
        refine ⟨{ s with
          live := s.nextPid :: s.live, nextPid := s.nextPid + 1,
          stores := s.stores ++ [Store.new s.nextPid] }, s.nextPid, ?_, rfl, rfl, rfl, rfl, by simp⟩
        simp [execNewStore, Lts.run, step]
    | false =>
        refine ⟨{ s with stores := s.stores ++ [Store.new q] }, q, ?_, rfl, rfl, rfl, rfl, hr.live⟩
        simp [execNewStore, Lts.run, step, hlive]
  have hdead : ∀ (h : Hid) (name : Name), a.handles[h]? ≠ some (.live name) := by
    intro h name href
    obtain ⟨hd, x, d, -, -, hlive, -⟩ := hr.mirrors.live href
    have hstore := hlive.store
    rw [hnone] at hstore
    cases hstore
  refine ⟨t, hrun, ?_, ?_, ?_, ?_, hlive'⟩
  · rw [hfs, hrows, hhandles]
    exact hr.mirrors.shut (a.stores + 1) (some a.stores) hdead
  · rw [hstores, List.length_append, hr.stores]
    rfl
  · intro k hk
    cases hk
    exact Nat.lt_succ_self _
  · intro k st hk
    rw [hstores] at hk
    rcases List.getElem?_concat_cases hk with hold | ⟨hlen, rfl⟩
    · have hlt := (List.getElem?_eq_some_iff.mp hold).1
      rw [hr.stores] at hlt
      obtain ⟨hidle, hopen, hopened⟩ := hr.stands k st hold
      have hne : a.stores ≠ k := Nat.ne_of_gt hlt
      rw [hnone] at hopen hopened
      exact ⟨hidle, by simpa [hne] using hopen, by simpa [hne] using hopened⟩
    · refine ⟨rfl, ?_, ?_⟩
      · simp [Store.new, hlen, hr.stores]
      · intro n h
        simp [Store.new, hdead h n]

/-! ## Sequences of calls -/

/-- Every call gives the reply of the abstract machine. -/
theorem Represents.step (hpath : Function.Injective path) (hr : Represents path s a) {op : Op}
    (hvalid : op.Valid) {r : Reply} (hstep : a.step op = some (a', r)) :
    ∃ s', s.exec path op = some (s', r) ∧ Represents path s' a' := by
  cases op with
  | newStore other =>
      rw [Streams.step] at hstep
      split at hstep
      · next hnone =>
          cases hstep
          exact hr.newStore hnone other
      · cases hstep
  | create k name given => exact hr.create hpath hvalid hstep
  | openStream k name => exact hr.openStream hpath hstep
  | append h payloads sizes =>
      obtain ⟨r₀, href, heq⟩ := Option.map_eq_some_iff.mp hstep
      have happend := hr.append hpath href hvalid sizes
      rw [heq] at happend
      exact happend
  | read h offset stop =>
      obtain ⟨r₀, href, heq⟩ := Option.map_eq_some_iff.mp hstep
      cases heq
      exact ⟨s, hr.read href offset stop, hr⟩
  | close h =>
      obtain ⟨r₀, href, heq⟩ := Option.map_eq_some_iff.mp hstep
      have hclose := hr.close href
      rw [heq] at hclose
      exact hclose
  | delete k name => exact hr.delete hpath hstep
  | list k =>
      obtain ⟨hexec, rfl⟩ := hr.list hstep
      exact ⟨s, hexec, hr⟩
  | closeStore k =>
      rw [Streams.step] at hstep
      split at hstep
      · next hcurrent =>
          cases hstep
          exact hr.closeStore hcurrent
      · next hclosed =>
          split at hstep
          · next hlt =>
              cases hstep
              exact hr.closeStore_closed hclosed hlt
          · cases hstep

/-- The streams of a directory that no process has open: the rows, with the records
of their logs. -/
def streams (path : Name → List Char) (disk : Disk) : Streams where
  streams := disk.rows.mapWithKey fun name row =>
    ⟨row.contentType, row.closed, records ((start disk).fs.contents (path name))⟩
  handles := []
  stores := 0
  current := none

theorem Represents.start (disk : Disk) : Represents path (start disk) (streams path disk) := by
  refine ⟨⟨.ofDisk disk.dir_lt disk.dir_inj, ?_, ?_, rfl, ?_, ?_, ?_, ?_⟩, rfl, ?_, ?_,
    by simp [World.start]⟩
  · exact (Table.map_mapWithKey (fun _ _ => rfl) _).symm
  · intro name x _ hx
    obtain ⟨row, -, rfl⟩ := Option.map_eq_some_iff.mp hx
    rfl
  · exact fun h r hd href => by cases href
  · exact fun n h h' href => by cases href
  · exact fun h h' hd hd' d hget => by cases hget
  · intro d hopen
    exact absurd (LockFs.refs_of_length_le (Nat.zero_le d)) hopen
  · exact fun k hk => by cases hk
  · exact fun k st hk => by cases hk

/-- Whatever is on the disk, a caller that uses one Store at a time gets from every
sequence of calls the replies of the abstract machine. -/
theorem exec_refines (disk : Disk) {ops : List Op} {replies : List Reply}
    (hvalid : ∀ op ∈ ops, op.Valid)
    (hrun : Lts.replies Streams.step (streams logEntry disk) ops = some replies) :
    Lts.replies (World.exec logEntry) (World.start disk) ops = some replies := by
  refine Lts.replies_of_simulation ?_ (Represents.start disk) hvalid hrun
  intro s a op a' r hr hok hstep
  exact hr.step logEntry_injective hok hstep

/-- A stream is made, read after its end, deleted and made again; its first handle
is dead then. -/
def deletedAndReopened : List Op :=
  [.newStore false, .create 0 ['t'] none, .append 0 [[1], []] [3], .read 0 (-1) (some 5),
    .delete 0 ['t'], .append 0 [] [], .create 0 ['t'] (some ['x']), .create 0 ['t'] (some ['y']),
    .closeStore 0, .openStream 0 ['t'], .newStore true, .list 1]

theorem exec_refines_deletedAndReopened :
    Lts.replies (World.exec logEntry) (World.start .empty) deletedAndReopened =
      some [.ok .unit, .ok (.handle 0), .ok (.offset 2), .ok (.records [[1], []]), .ok .unit,
        .error (.streamClosed ['t']), .ok (.handle 1),
        .error (.contentTypeMismatch ['t'] ['x'] ['y']), .ok .unit, .error .storeClosed, .ok .unit,
        .ok (.names [['t']])] :=
  exec_refines .empty (by decide) rfl

end World

end Durastream

import Durastream.Store.Claims
import Durastream.Store.Opens

/-!
# Stores and their handles

A handle belongs to the Store that opened it: `_open` and the local variables of
a method only ever refer to handles of the Store itself, and a handle lives in
the process of its Store.  `World.Linked` is an invariant of every run.
-/

namespace Durastream

/-- The `s` of `delete`. -/
def Purpose.mentions : Purpose → List Hid
  | .delete (some h) => [h]
  | _ => []

/-- The handles a method's `s` and `streams` refer to. -/
def StorePc.mentions : StorePc → List Hid
  | .probe _ why => why.mentions
  | .probeLock _ why _ => why.mentions
  | .unlink _ why _ => why.mentions
  | .closeGuard _ why _ _ => why.mentions
  | .dirSync h => [h]
  | .delClose _ h _ => [h]
  | .closing streams => streams
  | _ => []

namespace World

/-- Handle `h` belongs to Store `k`. -/
def Owned (s : World) (k : Sid) (h : Hid) : Prop :=
  ∃ hd, s.handles[h]? = some hd ∧ hd.store = k

/-- Handle `h` of Store `k` has the name `n`. -/
def OwnedAs (s : World) (k : Sid) (n : Name) (h : Hid) : Prop :=
  ∃ hd, s.handles[h]? = some hd ∧ hd.store = k ∧ hd.w.name = n

structure Linked (s : World) : Prop where
  pid : ∀ hd ∈ s.handles, ∃ st, s.stores[hd.store]? = some st ∧ st.pid = hd.pid
  opened : ∀ k st n h, s.stores[k]? = some st → st.opened.get n = some h → s.OwnedAs k n h
  mentions : ∀ k st h, s.stores[k]? = some st → h ∈ st.pc.mentions → s.Owned k h

/-- The handles of `s` are there in `t`, perhaps changed. -/
def Keeps (s t : World) : Prop :=
  ∀ (h : Hid) (hd : Handle), s.handles[h]? = some hd →
    ∃ hd' : Handle, t.handles[h]? = some hd' ∧ hd'.store = hd.store ∧ hd'.pid = hd.pid ∧
      hd'.w.name = hd.w.name

variable {s t u : World} {k : Sid} {h : Hid} {st st' : Store} {hd hd' : Handle}
  {out : Outcome} {n : Name} {a : Act}

theorem OwnedAs.owned (ho : s.OwnedAs k n h) : s.Owned k h := by
  obtain ⟨hd, hget, hstore, -⟩ := ho
  exact ⟨hd, hget, hstore⟩

theorem Keeps.of_eq (heq : t.handles = s.handles) : Keeps s t := by
  intro h hd hget
  exact ⟨hd, by rw [heq, hget], rfl, rfl, rfl⟩

theorem Keeps.set (hget : s.handles[h]? = some hd) (hstore : hd'.store = hd.store)
    (hpid : hd'.pid = hd.pid) (hname : hd'.w.name = hd.w.name)
    (heq : t.handles = s.handles.set h hd') : Keeps s t := by
  intro j hj hgetj
  rw [heq]
  by_cases hjh : h = j
  · subst hjh
    rw [hget] at hgetj
    cases hgetj
    exact ⟨hd', List.getElem?_set_self (List.getElem?_eq_some_iff.mp hget).1, hstore, hpid, hname⟩
  · exact ⟨hj, by rw [List.getElem?_set_ne hjh, hgetj], rfl, rfl, rfl⟩

theorem Keeps.append {hds : List Handle} (heq : t.handles = s.handles ++ hds) : Keeps s t := by
  intro h hd hget
  refine ⟨hd, ?_, rfl, rfl, rfl⟩
  rw [heq, List.getElem?_append_left (List.getElem?_eq_some_iff.mp hget).1, hget]

theorem Keeps.mapGone (p : Pid → Bool)
    (heq : t.handles = s.handles.map fun hd => if p hd.pid then hd.gone else hd) : Keeps s t := by
  intro h hd hget
  refine ⟨if p hd.pid then hd.gone else hd, ?_, ?_⟩
  · rw [heq, List.getElem?_map, hget, Option.map_some]
  · cases p hd.pid <;> exact ⟨rfl, rfl, rfl⟩

theorem Keeps.trans (h : Keeps s t) (h' : Keeps t u) : Keeps s u := by
  intro i hd hget
  obtain ⟨hd', hget', hstore, hpid, hname⟩ := h i hd hget
  obtain ⟨hd'', hget'', hstore', hpid', hname'⟩ := h' i hd' hget'
  exact ⟨hd'', hget'', hstore'.trans hstore, hpid'.trans hpid, hname'.trans hname⟩

theorem Keeps.owned (hkeep : Keeps s t) (ho : s.Owned k h) : t.Owned k h := by
  obtain ⟨hd, hget, hstore⟩ := ho
  obtain ⟨hd', hget', hstore', -⟩ := hkeep h hd hget
  exact ⟨hd', hget', hstore'.trans hstore⟩

theorem Keeps.ownedAs (hkeep : Keeps s t) (ho : s.OwnedAs k n h) : t.OwnedAs k n h := by
  obtain ⟨hd, hget, hstore, hname⟩ := ho
  obtain ⟨hd', hget', hstore', -, hname'⟩ := hkeep h hd hget
  exact ⟨hd', hget', hstore'.trans hstore, hname'.trans hname⟩

namespace Linked

theorem init (disk : Disk) : (World.init disk).Linked :=
  ⟨fun _ hmem => absurd hmem List.not_mem_nil, fun _ _ _ _ hk => absurd hk (by simp [World.init]),
    fun _ _ _ hk => absurd hk (by simp [World.init])⟩

/-- Store `k` goes on, with handles it had or has opened now. -/
theorem ofSet (hs : s.Linked) (hk : s.stores[k]? = some st)
    (hstores : t.stores = s.stores.set k st') (hpid : st'.pid = st.pid) (hkeep : Keeps s t)
    (hback : ∀ hd' ∈ t.handles, (∃ hd ∈ s.handles, hd'.store = hd.store ∧ hd'.pid = hd.pid) ∨
      (hd'.store = k ∧ hd'.pid = st.pid))
    (hopened : ∀ n h, st'.opened.get n = some h → st.opened.get n = some h ∨ t.OwnedAs k n h)
    (hmentions : ∀ h ∈ st'.pc.mentions, h ∈ st.pc.mentions ∨
      (∃ n, st.opened.get n = some h) ∨ t.Owned k h) : t.Linked := by
  have hlt := (List.getElem?_eq_some_iff.mp hk).1
  have hget : ∀ j, t.stores[j]? = if k = j then some st' else s.stores[j]? := by
    intro j
    rw [hstores, List.getElem?_set]
    by_cases hkj : k = j
    · subst hkj
      simp [hlt]
    · simp [hkj]
  refine ⟨?_, ?_, ?_⟩
  · intro hd' hmem
    rcases hback hd' hmem with ⟨hd, hmem, hstore, hpid'⟩ | ⟨hstore, hpid'⟩
    · obtain ⟨st₀, hget₀, hpid₀⟩ := hs.pid hd hmem
      rw [hstore, hpid', hget]
      by_cases hkj : k = hd.store
      · rw [if_pos hkj]
        rw [← hkj, hk] at hget₀
        cases hget₀
        exact ⟨st', rfl, hpid.trans hpid₀⟩
      · rw [if_neg hkj]
        exact ⟨st₀, hget₀, hpid₀⟩
    · rw [hstore, hpid', hget, if_pos rfl]
      exact ⟨st', rfl, hpid⟩
  · intro j st₀ n h hj hopen
    rw [hget] at hj
    by_cases hkj : k = j
    · subst hkj
      rw [if_pos rfl] at hj
      cases hj
      rcases hopened n h hopen with hopen | howned
      · exact hkeep.ownedAs (hs.opened k st n h hk hopen)
      · exact howned
    · rw [if_neg hkj] at hj
      exact hkeep.ownedAs (hs.opened j st₀ n h hj hopen)
  · intro j st₀ h hj hmem
    rw [hget] at hj
    by_cases hkj : k = j
    · subst hkj
      rw [if_pos rfl] at hj
      cases hj
      rcases hmentions h hmem with hmem | ⟨n, hopen⟩ | howned
      · exact hkeep.owned (hs.mentions k st h hk hmem)
      · exact hkeep.owned (hs.opened k st n h hk hopen).owned
      · exact howned
    · rw [if_neg hkj] at hj
      exact hkeep.owned (hs.mentions j st₀ h hj hmem)

/-- Store `k` goes on, and no handle changes. -/
theorem goOn (hs : s.Linked) (hk : s.stores[k]? = some st)
    (hstores : t.stores = s.stores.set k st') (hhandles : t.handles = s.handles)
    (hpid : st'.pid = st.pid)
    (hopened : ∀ n h, st'.opened.get n = some h → st.opened.get n = some h)
    (hmentions : ∀ h ∈ st'.pc.mentions, h ∈ st.pc.mentions ∨ ∃ n, st.opened.get n = some h) :
    t.Linked := by
  refine hs.ofSet hk hstores hpid (.of_eq hhandles) ?_ (fun n h hopen => .inl (hopened n h hopen))
    fun h hmem => (hmentions h hmem).imp_right .inl
  intro hd hmem
  rw [hhandles] at hmem
  exact .inl ⟨hd, hmem, rfl, rfl⟩

/-- Store `k` goes on to a place that refers to no other handle. -/
theorem moves (hs : s.Linked) (hk : s.stores[k]? = some st) {pc : StorePc}
    {r : Except Error (Option Hid)}
    (hstores : t.stores = s.stores.set k ⟨st.pid, st.opened, st.metaOpen, pc, r⟩)
    (hhandles : t.handles = s.handles) (hmentions : ∀ h ∈ pc.mentions, h ∈ st.pc.mentions) :
    t.Linked :=
  hs.goOn hk hstores hhandles rfl (fun _ _ hopen => hopen) fun h hmem => .inl (hmentions h hmem)

theorem fail (hs : s.Linked) (hk : s.stores[k]? = some st) (e : Error) :
    (s.fail k st e).Linked := by
  exact hs.moves hk (stores_fail s k st e) (handles_fail s k st e) fun h hmem => by cases hmem

theorem openedStream (hs : s.Linked) (hk : s.stores[k]? = some st)
    (fs : LockFs (List Char) UInt8) (o : Opening) (d : Did) (owner : Bool) (index : List Nat) :
    ((s.setFs fs).openedStream k st o d owner index).Linked := by
  have hnew : ((s.setFs fs).openedStream k st o d owner index).OwnedAs k o.name
      s.handles.length := by
    refine ⟨_, List.getElem?_concat_length, rfl, rfl⟩
  refine hs.ofSet hk rfl rfl (.append rfl) ?_ ?_ ?_
  · intro hd hmem
    rcases List.mem_append.mp hmem with hmem | hmem
    · exact .inl ⟨hd, hmem, rfl, rfl⟩
    · rw [List.mem_singleton.mp hmem]
      exact .inr ⟨rfl, rfl⟩
  · intro n h hopen
    by_cases hn : n = o.name
    · subst hn
      right
      have heq : (st.opened.set o.name s.handles.length).get o.name = some h := hopen
      rw [Table.get_set_self] at heq
      cases heq
      exact hnew
    · left
      have heq : (st.opened.set o.name s.handles.length).get n = some h := hopen
      rwa [Table.get_set_of_ne _ hn] at heq
  · intro h hmem
    right
    right
    cases hcreated : o.created with
    | false => simp [hcreated, StorePc.mentions] at hmem
    | true =>
        simp only [hcreated, if_true, StorePc.mentions, List.mem_singleton] at hmem
        rw [hmem]
        exact hnew.owned

theorem ctorStep {path : Name → List Char} (hs : s.Linked) (hk : s.stores[k]? = some st)
    {o : Opening} {pc : CtorPc} (hstep : CtorStep path s k st out o pc t) : t.Linked := by
  cases hstep with
  | failed _ e => exact hs.fail hk e
  | scanned d owner size i hcur hend => exact hs.openedStream hk s.fs o d owner _
  | synced d index => exact hs.openedStream hk _ o d true index
  | _ => exact hs.moves hk rfl rfl fun h hmem => by cases hmem

/-- One handle changes, and stays in its Store. -/
theorem setHandle (hs : s.Linked) (hget : s.handles[h]? = some hd)
    (hhandles : t.handles = s.handles.set h hd') (hstores : t.stores = s.stores)
    (hstore : hd'.store = hd.store) (hpid : hd'.pid = hd.pid) (hname : hd'.w.name = hd.w.name) :
    t.Linked := by
  have hkeep : Keeps s t := .set hget hstore hpid hname hhandles
  refine ⟨?_, ?_, ?_⟩
  · intro hd₀ hmem
    rw [hhandles] at hmem
    rw [hstores]
    rcases List.mem_or_eq_of_mem_set hmem with hmem | rfl
    · exact hs.pid hd₀ hmem
    · rw [hstore, hpid]
      exact hs.pid hd (List.mem_of_getElem? hget)
  · intro k st n j hk hopen
    rw [hstores] at hk
    exact hkeep.ownedAs (hs.opened k st n j hk hopen)
  · intro k st j hk hmem
    rw [hstores] at hk
    exact hkeep.owned (hs.mentions k st j hk hmem)

theorem closeFds (hs : s.Linked) (hget : s.handles[h]? = some hd) : (s.closeFds h hd).Linked :=
  hs.setHandle hget (handles_closeFds s h hd) (stores_closeFds s h hd) rfl rfl rfl

theorem mentions_purged {name : Name} {why : Purpose} {removed : Option Bool} :
    ∀ h ∈ (purged name why removed).mentions, h ∈ why.mentions := by
  intro h hmem
  cases removed with
  | none => cases hmem
  | some removed =>
      cases why with
      | create contentType asked => cases hmem
      | delete own =>
          cases own with
          | some h' => exact hmem
          | none => cases removed <;> cases hmem

theorem mentions_unlinked {name : Name} {why : Purpose} {guard : Option Did}
    {removed : Option Bool} :
    ∀ h ∈ (unlinked name why guard removed).mentions, h ∈ why.mentions := by
  cases guard with
  | some d => exact fun h hmem => hmem
  | none => exact mentions_purged

theorem sysStep {path : Name → List Char} (hs : s.Linked) (hk : s.stores[k]? = some st)
    {pc : StorePc} (hpc : st.pc = pc) (hstep : SysStep path s k st out pc t) : t.Linked := by
  have hmentions : st.pc.mentions = pc.mentions := by rw [hpc]
  cases hstep with
  | failed _ e _ _ _ => exact hs.fail hk e
  | probed name why i hcur =>
      refine hs.moves hk rfl rfl fun h hmem => ?_
      rw [hmentions]
      exact hmem
  | noLog name why hcur =>
      refine hs.moves hk rfl rfl fun h hmem => ?_
      rw [hmentions]
      exact hmem
  | guarded name why d hcan =>
      refine hs.moves hk rfl rfl fun h hmem => ?_
      rw [hmentions]
      exact hmem
  | unlinked name why guard i hok hcur =>
      refine hs.moves hk rfl rfl fun h hmem => ?_
      rw [hmentions]
      exact mentions_unlinked h hmem
  | kept name why guard removed hkept =>
      refine hs.moves hk rfl rfl fun h hmem => ?_
      rw [hmentions]
      exact mentions_unlinked h hmem
  | released name why d removed =>
      refine hs.moves hk rfl rfl fun h hmem => ?_
      rw [hmentions]
      exact mentions_purged h hmem
  | ctor o pc _ hctor => exact hs.ctorStep hk hctor
  | delClosed name h removed hd hget hfree =>
      have hk' : (s.closeFds h hd).stores[k]? = some st := by rw [stores_closeFds, hk]
      refine (hs.closeFds hget).goOn hk' rfl rfl rfl ?_ ?_
      · intro n j hopen
        by_cases hn : n = name
        · subst hn
          have heq : (st.opened.erase n).get n = some j := hopen
          rw [Table.get_erase_self] at heq
          cases heq
        · have heq : (st.opened.erase name).get n = some j := hopen
          rwa [Table.get_erase_of_ne _ hn] at heq
      · intro j hmem
        cases removed <;> cases hmem
  | closing h streams hd hget hfree =>
      have hk' : (s.closeFds h hd).stores[k]? = some st := by rw [stores_closeFds, hk]
      refine (hs.closeFds hget).moves hk' rfl rfl fun j hmem => ?_
      rw [hmentions]
      exact List.mem_cons_of_mem h hmem
  | closed =>
      exact hs.goOn hk rfl rfl rfl (fun _ _ hopen => hopen) fun h hmem => by cases hmem
  | _ => exact hs.moves hk rfl rfl fun h hmem => by cases hmem

theorem callStep (hs : s.Linked) (hk : s.stores[k]? = some st) (hstep : CallStep s k st a t) :
    t.Linked := by
  cases hstep with
  | done r => exact hs.moves hk rfl rfl fun h hmem => by cases hmem
  | lookup name given hnone => exact hs.moves hk rfl rfl fun h hmem => by cases hmem
  | deleteOwn k' name h hd ha hopened hget hw =>
      refine hs.goOn hk rfl rfl rfl (fun _ _ hopen => hopen) fun j hmem => ?_
      rw [List.mem_singleton.mp hmem]
      exact .inr ⟨name, hopened⟩
  | deleteOther k' name own ha hown =>
      refine hs.goOn hk rfl rfl rfl (fun _ _ hopen => hopen) fun j hmem => ?_
      cases own with
      | none => cases hmem
      | some h =>
          rw [List.mem_singleton.mp hmem]
          exact .inr ⟨name, hown h rfl⟩
  | close =>
      refine hs.goOn hk rfl rfl rfl (fun _ _ hopen => by cases hopen) fun j hmem => ?_
      exact .inr (Table.exists_of_mem_values hmem)

theorem handleStep (hs : s.Linked) (hget : s.handles[h]? = some hd)
    (hstep : HandleStep s h hd a t) : t.Linked := by
  cases hstep with
  | refused => exact hs
  | started payloads w hfree hbegin =>
      obtain ⟨-, -, -, -, -, rfl⟩ := Writer.begin_started hbegin
      exact hs.setHandle hget rfl rfl rfl rfl rfl
  | io d f w fate hfile hw hret =>
      have hname : w.name = hd.w.name := by cases hw <;> rfl
      exact hs.setHandle hget rfl rfl rfl rfl hname
  | closing hfree hw => exact hs.setHandle hget rfl rfl rfl rfl rfl
  | updated d rows hclosing hfile hrows => exact hs.setHandle hget rfl rfl rfl rfl rfl
  | updateFailed hclosing => exact hs.setHandle hget rfl rfl rfl rfl rfl

/-- Some of the processes end. -/
theorem mapGone (hs : s.Linked) (p : Pid → Bool)
    (hstores : t.stores = s.stores.map fun st => if p st.pid then st.gone else st)
    (hhandles : t.handles = s.handles.map fun hd => if p hd.pid then hd.gone else hd) :
    t.Linked := by
  have hkeep : Keeps s t := .mapGone p hhandles
  refine ⟨?_, ?_, ?_⟩
  · intro hd' hmem
    rw [hhandles] at hmem
    obtain ⟨hd, hmem₀, rfl⟩ := List.mem_map.mp hmem
    obtain ⟨st, hget, hpid⟩ := hs.pid hd hmem₀
    refine ⟨if p st.pid then st.gone else st, ?_, ?_⟩
    · have hstore : (if p hd.pid then hd.gone else hd).store = hd.store := by
        cases p hd.pid <;> rfl
      rw [hstore, hstores, List.getElem?_map, hget, Option.map_some]
    · rw [← hpid]
      cases p st.pid <;> simp [Store.gone, Handle.gone, Handle.closeFds, hpid]
  · intro k st' n h hk hopen
    rw [hstores, List.getElem?_map] at hk
    obtain ⟨st, hget, rfl⟩ := Option.map_eq_some_iff.mp hk
    cases hp : p st.pid with
    | true =>
        rw [hp, if_pos rfl] at hopen
        cases hopen
    | false =>
        rw [hp, if_neg (by simp)] at hopen
        exact hkeep.ownedAs (hs.opened k st n h hget hopen)
  · intro k st' h hk hmem
    rw [hstores, List.getElem?_map] at hk
    obtain ⟨st, hget, rfl⟩ := Option.map_eq_some_iff.mp hk
    cases hp : p st.pid with
    | true =>
        rw [hp, if_pos rfl] at hmem
        cases hmem
    | false =>
        rw [hp, if_neg (by simp)] at hmem
        exact hkeep.owned (hs.mentions k st h hget hmem)

theorem forkStep {p : Pid} (hs : s.Linked) : (s.forkStep p).Linked := by
  have hkeep : Keeps s (s.forkStep p) := .append rfl
  have hold : ∀ (k : Sid) (st : Store), s.stores[k]? = some st →
      (s.forkStep p).stores[k]? = some st := by
    intro k st hget
    rw [World.forkStep, List.getElem?_append_left (List.getElem?_eq_some_iff.mp hget).1, hget]
  have hcopy : ∀ (k : Sid) (st : Store), s.stores[k]? = some st → st.pid = p →
      (s.forkStep p).stores[s.stores.length + k]? =
        some (st.forked s.nextPid s.handles.length) := by
    intro k st hget hp
    refine (List.getElem?_append_map hget).trans ?_
    rw [if_pos hp]
  -- the stores after the fork are those before it and their copies
  have hstores : ∀ (j : Sid) (st' : Store), (s.forkStep p).stores[j]? = some st' →
      s.stores[j]? = some st' ∨
      st'.pc.mentions = [] ∧ ∀ n h, st'.opened.get n = some h →
        ∃ (k : Sid) (st : Store) (h₀ : Hid), j = s.stores.length + k ∧
          s.stores[k]? = some st ∧ st.pid = p ∧
          st.opened.get n = some h₀ ∧ h = s.handles.length + h₀ := by
    intro j st' hj
    rcases List.getElem?_append_map_cases hj with hold | ⟨k, st, rfl, hget, rfl⟩
    · exact .inl hold
    · right
      by_cases hp : st.pid = p
      · rw [if_pos hp]
        constructor
        · simp only [Store.forked]
          split <;> rfl
        · intro n h hopen
          simp only [Store.forked, Table.get_map] at hopen
          obtain ⟨h₀, hopen₀, rfl⟩ := Option.map_eq_some_iff.mp hopen
          exact ⟨k, st, h₀, rfl, hget, hp, hopen₀, rfl⟩
      · rw [if_neg hp]
        exact ⟨rfl, fun n h hopen => by cases hopen⟩
  refine ⟨?_, ?_, ?_⟩
  · intro hd' hmem
    rcases List.mem_append.mp hmem with hmem | hmem
    · obtain ⟨st, hget, hpid⟩ := hs.pid hd' hmem
      exact ⟨st, hold _ _ hget, hpid⟩
    · obtain ⟨hd, hmem₀, rfl⟩ := List.mem_map.mp hmem
      obtain ⟨st, hget, hpid⟩ := hs.pid hd hmem₀
      by_cases hp : hd.pid = p
      · rw [if_pos hp]
        exact ⟨_, hcopy _ st hget (hpid.trans hp), rfl⟩
      · rw [if_neg hp]
        exact ⟨st, hold _ _ hget, hpid⟩
  · intro j st' n h hj hopen
    rcases hstores j st' hj with hj | ⟨-, hcopies⟩
    · exact hkeep.ownedAs (hs.opened j st' n h hj hopen)
    · obtain ⟨k, st, h₀, rfl, hget, hp, hopen₀, rfl⟩ := hcopies n h hopen
      obtain ⟨hd, hgeth, hstore, hname⟩ := hs.opened k st n h₀ hget hopen₀
      obtain ⟨st₁, hget₁, hpid₁⟩ := hs.pid hd (List.mem_of_getElem? hgeth)
      rw [hstore, hget] at hget₁
      cases hget₁
      refine ⟨hd.forked s.nextPid (s.stores.length + hd.store), ?_, ?_, hname⟩
      · refine (List.getElem?_append_map hgeth).trans ?_
        rw [if_pos (hpid₁ ▸ hp)]
      · rw [← hstore]
        rfl
  · intro j st' h hj hmem
    rcases hstores j st' hj with hj | ⟨hnone, -⟩
    · exact hkeep.owned (hs.mentions j st' h hj hmem)
    · rw [hnone] at hmem
      cases hmem

/-- Every step keeps the invariant. -/
theorem step {path : Name → List Char} (hs : s.Linked) (hstep : Step path s a t) :
    t.Linked := by
  cases hstep with
  | spawn => exact ⟨hs.pid, hs.opened, hs.mentions⟩
  | newStore p hlive =>
      have hget : ∀ (j : Sid) (st : Store), (s.stores ++ [Store.new p])[j]? = some st →
          s.stores[j]? = some st ∨ st = Store.new p := by
        intro j st hj
        exact (List.getElem?_concat_cases hj).imp_right And.right
      refine ⟨?_, ?_, ?_⟩
      · intro hd hmem
        obtain ⟨st, hst, hpid⟩ := hs.pid hd hmem
        refine ⟨st, ?_, hpid⟩
        rw [List.getElem?_append_left (List.getElem?_eq_some_iff.mp hst).1, hst]
      · intro j st n h hj hopen
        rcases hget j st hj with hj | rfl
        · exact hs.opened j st n h hj hopen
        · cases hopen
      · intro j st h hj hmem
        rcases hget j st hj with hj | rfl
        · exact hs.mentions j st h hj hmem
        · cases hmem
  | call a k st t hk hidle hcall => exact hs.callStep hk hcall
  | sys k st out t hk hsys => exact hs.sysStep hk rfl hsys
  | handle a h hd t hget hhandle => exact hs.handleStep hget hhandle
  | fork p hlive => exact hs.forkStep
  | exit p hlive => exact hs.mapGone (fun q => q == p) (by simp [exitStep]) (by simp [exitStep])
  | powerLoss cell loss => exact hs.mapGone (fun _ => true) (by simp) (by simp)

end Linked

end World

end Durastream

import Durastream.Store.Tracked

/-!
# The hubs of an `AsyncStore`

`create` and `open` run the Store's method in a thread and then, back on the event loop,
`_wrap` the stream with the hub that `_hubs` has for its name.  `_wrap` makes a new hub
if there is none, or if the stream of the hub is another one and closed: deleted and
created again.  `delete` takes the hub out of the table when its method has returned.

A call is two actions here.  The first runs the method in the world of `World.step`,
alone under the Store's lock and with any outcome of its calls; what the coroutine has
still to do is then `pending`.  The second resumes it.  In between, other calls may do
either, and the rest of the world anything that is not a method of this Store.

So a stream can be deleted, created again and wrapped before its own coroutine is
resumed.  Its `_wrap` then finds the hub of the new stream, which is not closed, and
takes it.  `hubs_agree_iff` says that nothing else can go wrong.
-/

namespace Durastream

/-- Its stream, and its `_hub` by its number. -/
structure AsyncDurableStream where
  stream : Hid
  hub : Nat
deriving DecidableEq

/-- What a coroutine does when its method has returned. -/
inductive Resumption where
  | wrap (stream : Hid)
  /-- The `pop` of `delete`. -/
  | pop (name : Name)
  /-- The `clear` of `close`. -/
  | clear

structure AsyncStore where
  world : World
  /-- `_store`. -/
  store : Sid
  /-- The streams of the hubs that have been made. -/
  hubs : List Hid
  /-- `_hubs`. -/
  table : Table Name Nat
  pending : List Resumption
  /-- What `_wrap` has returned. -/
  returned : List AsyncDurableStream

inductive AsyncAct where
  | create (name : Name) (contentType : Option ContentType) (outs : List Outcome)
  | openStream (name : Name) (outs : List Outcome)
  | delete (name : Name) (outs : List Outcome)
  | close (outs : List Outcome)
  /-- A coroutine whose method has returned goes on. -/
  | resume (i : Nat)
  /-- Anything else that happens in the world. -/
  | other (a : Act)

namespace AsyncStore

/-- The `name` of a stream. -/
def nameOf (s : AsyncStore) (h : Hid) : Name := (s.world.handles[h]?).elim [] fun hd => hd.w.name

/-- The property `closed` of a stream. -/
def closed (s : AsyncStore) (h : Hid) : Bool := (s.world.handles[h]?).any fun hd => hd.w.closed

/-- The stream of a hub is another one than `h` and closed. -/
def outlived (s : AsyncStore) (j : Nat) (h : Hid) : Bool :=
  (s.hubs[j]?).any fun h' => h' != h && s.closed h'

/-- `_wrap`. -/
def wrap (s : AsyncStore) (h : Hid) : AsyncStore :=
  let new := { s with
    hubs := s.hubs ++ [h]
    table := s.table.set (s.nameOf h) s.hubs.length
    returned := s.returned ++ [⟨h, s.hubs.length⟩] }
  match s.table.get (s.nameOf h) with
  | none => new
  | some j => if s.outlived j h then new else { s with returned := s.returned ++ [⟨h, j⟩] }

/-- The rest of a coroutine. -/
def resume (s : AsyncStore) : Resumption → AsyncStore
  | .wrap h => s.wrap h
  | .pop name => { s with table := s.table.erase name }
  | .clear => { s with table := .empty }

/-- A method has left the world as `w`, and returned or raised. -/
def operated (s : AsyncStore) (w : World) (next : Option Resumption) : AsyncStore :=
  { s with world := w, pending := s.pending ++ next.toList }

variable (path : Name → List Char)

/-- Process `p` makes an `AsyncStore`. -/
def make (w : World) (p : Pid) : Option AsyncStore :=
  (World.step path w (.newStore p)).map fun w' => ⟨w', w.stores.length, [], .empty, [], []⟩

/-- A method of the Store, from its call to its end. -/
def operate (s : AsyncStore) (a : Act) (outs : List Outcome) :
    Option (World × Except Error (Option Hid)) :=
  (Lts.run (World.step path) s.world (a :: outs.map (.sys s.store))).bind fun w =>
    (w.idleStore s.store).map fun st => (w, st.result)

/-- What follows a `create` or `open`. -/
def thenWrap : Except Error (Option Hid) → Option Resumption
  | .ok (some h) => some (.wrap h)
  | _ => none

/-- What follows another method, unless it raises. -/
def andThen (next : Resumption) : Except Error (Option Hid) → Option Resumption
  | .ok _ => some next
  | .error _ => none

def step (s : AsyncStore) : AsyncAct → Option AsyncStore
  | .create name contentType outs =>
      (s.operate path (.create s.store name contentType) outs).map fun (w, r) =>
        s.operated w (thenWrap r)
  | .openStream name outs =>
      (s.operate path (.openStream s.store name) outs).map fun (w, r) => s.operated w (thenWrap r)
  | .delete name outs =>
      (s.operate path (.delete s.store name) outs).map fun (w, r) =>
        s.operated w (andThen (.pop name) r)
  | .close outs =>
      (s.operate path (.closeStore s.store) outs).map fun (w, r) => s.operated w (andThen .clear r)
  | .resume i =>
      (s.pending[i]?).map fun next =>
        ({ s with pending := s.pending.eraseIdx i } : AsyncStore).resume next
  | .other a =>
      if s.world.touches s.store a then none
      else (World.step path s.world a).map fun w => { s with world := w }

/-! ## Agreement -/

/-- Every `AsyncDurableStream` has a hub of the very stream it wraps. -/
def Agrees (s : AsyncStore) : Prop := ∀ a ∈ s.returned, s.hubs[a.hub]? = some a.stream

/-- The table has the hub of another stream of this name, which is not closed. -/
def replaced (s : AsyncStore) (h : Hid) : Bool :=
  (s.table.get (s.nameOf h)).any fun j => (s.hubs[j]?).any fun h' => h' != h && !s.closed h'

/-- No `_wrap` comes too late: its stream is not closed, or the table has no hub of another
one that is not. -/
def inTime (s : AsyncStore) : AsyncAct → Bool
  | .resume i =>
      match s.pending[i]? with
      | some (.wrap h) => !(s.closed h && s.replaced h)
      | _ => true
  | _ => true

/-- What holds of an `AsyncStore` between two actions. -/
structure Sound (s : AsyncStore) : Prop where
  linked : s.world.Linked
  tracked : ∃ st, s.world.stores[s.store]? = some st ∧ st.pc = .idle ∧ s.world.Tracked s.store st
  table : ∀ n j, s.table.get n = some j → ∃ h, s.hubs[j]? = some h ∧ s.world.OwnedAs s.store n h
  pending : ∀ h, .wrap h ∈ s.pending → s.world.Owned s.store h
  returned : ∀ a ∈ s.returned, a.hub < s.hubs.length

variable {path : Name → List Char} {s s' : AsyncStore} {w : World} {p : Pid} {h : Hid}
  {hd : Handle} {a : AsyncAct}

theorem nameOf_eq (hget : s.world.handles[h]? = some hd) : s.nameOf h = hd.w.name := by
  rw [nameOf, hget]
  rfl

theorem closed_eq (hget : s.world.handles[h]? = some hd) : s.closed h = hd.w.closed := by
  rw [closed, hget]
  rfl

theorem wrap_of_thenWrap {r : Except Error (Option Hid)} (hwrap : thenWrap r = some (.wrap h)) :
    r = .ok (some h) := by
  unfold thenWrap at hwrap
  split at hwrap <;> cases hwrap
  rfl

theorem andThen_eq {next next' : Resumption} {r : Except Error (Option Hid)}
    (hnext : andThen next r = some next') : next = next' := by
  cases r <;> cases hnext
  rfl

namespace Sound

theorem make (hl : w.Linked) (hmake : AsyncStore.make path w p = some s) : s.Sound := by
  obtain ⟨w', hstep, rfl⟩ := Option.map_eq_some_iff.mp hmake
  have hl' : w'.Linked := hl.step (World.step_cases hstep)
  simp only [World.step] at hstep
  split at hstep
  · cases hstep
    exact ⟨hl', ⟨.new p, List.getElem?_concat_length, rfl, .new hl p⟩,
      fun n j hget => (by cases hget), fun h hmem => (by cases hmem),
      fun a hmem => (by cases hmem)⟩
  · cases hstep

/-- The world goes on, and perhaps a coroutine has something to wrap. -/
theorem goOn (hs : s.Sound) (hl : w.Linked)
    (ht : ∃ st, w.stores[s.store]? = some st ∧ st.pc = .idle ∧ w.Tracked s.store st)
    (hkeep : World.Keeps s.world w) {pending : List Resumption}
    (hpending : ∀ h, .wrap h ∈ pending → .wrap h ∈ s.pending ∨ w.Owned s.store h) :
    ({ s with world := w, pending := pending } : AsyncStore).Sound := by
  refine ⟨hl, ht, fun n j hget => ?_, fun h hmem => ?_, hs.returned⟩
  · obtain ⟨h, hhub, howned⟩ := hs.table n j hget
    exact ⟨h, hhub, hkeep.ownedAs howned⟩
  · exact (hpending h hmem).elim (fun hold => hkeep.owned (hs.pending h hold)) id

/-- A method of the Store. -/
theorem operate (hs : s.Sound) {act : Act} {outs : List Outcome}
    {r : Except Error (Option Hid)}
    (hcall : s.world.step path act =
      (s.world.idleStore s.store).bind fun st => s.world.call s.store st act)
    (hop : s.operate path act outs = some (w, r)) :
    w.Linked ∧ World.Keeps s.world w ∧
      ∃ st, w.stores[s.store]? = some st ∧ st.pc = .idle ∧ w.Tracked s.store st ∧
        st.result = r := by
  obtain ⟨st, hk, -, ht⟩ := hs.tracked
  obtain ⟨w', hrun, hmap⟩ := Option.bind_eq_some_iff.mp hop
  obtain ⟨st', hidle', heq⟩ := Option.map_eq_some_iff.mp hmap
  cases heq
  obtain ⟨hl, hkeep, st'', hk'', ht''⟩ := ht.method hs.linked hk hcall hrun
  obtain ⟨hk', hpc'⟩ := World.idleStore_cases hidle'
  rw [hk''] at hk'
  cases hk'
  exact ⟨hl, hkeep, st', hk'', hpc', ht'', rfl⟩

/-- After a method, with what the coroutine does next. -/
theorem operated (hs : s.Sound) {act : Act} {outs : List Outcome}
    {r : Except Error (Option Hid)} {next : Option Resumption}
    (hcall : s.world.step path act =
      (s.world.idleStore s.store).bind fun st => s.world.call s.store st act)
    (hop : s.operate path act outs = some (w, r))
    (hnext : ∀ h, next = some (.wrap h) → r = .ok (some h)) : (s.operated w next).Sound := by
  obtain ⟨hl, hkeep, st, hk, hidle, ht, hresult⟩ := hs.operate hcall hop
  refine hs.goOn hl ⟨st, hk, hidle, ht⟩ hkeep fun h hmem => ?_
  rcases List.mem_append.mp hmem with hmem | hmem
  · exact .inl hmem
  · exact .inr (ht.result h (hresult.trans (hnext h (Option.mem_toList.mp hmem))))

/-- Two open streams of one name are the same. -/
theorem open_unique (hs : s.Sound) {h h' : Hid} {n : Name} (howned : s.world.OwnedAs s.store n h)
    (howned' : s.world.OwnedAs s.store n h') (hopen : s.closed h = false)
    (hopen' : s.closed h' = false) : h = h' := by
  obtain ⟨st, -, hidle, ht⟩ := hs.tracked
  have hheld : ∀ i, s.world.OwnedAs s.store n i → s.closed i = false →
      st.opened.get n = some i := by
    rintro i ⟨hd, hget, hstore, rfl⟩ hopen
    rw [closed_eq hget] at hopen
    refine (ht.held i hd hget hstore hopen).resolve_right fun hlocal => ?_
    rw [hidle] at hlocal
    cases hlocal
  have heq := hheld h howned hopen
  rw [hheld h' howned' hopen'] at heq
  exact (Option.some.inj heq).symm

/-- `_wrap` with a new hub. -/
theorem wrapNew (hs : s.Sound) {n : Name} (howned : s.world.OwnedAs s.store n h) :
    ({ s with
      hubs := s.hubs ++ [h]
      table := s.table.set n s.hubs.length
      returned := s.returned ++ [⟨h, s.hubs.length⟩] } : AsyncStore).Sound := by
  have hlen : (s.hubs ++ [h]).length = s.hubs.length + 1 := by simp
  refine ⟨hs.linked, hs.tracked, fun m j hget => ?_, hs.pending, fun a hmem => ?_⟩
  · by_cases hm : m = n
    · subst hm
      have heq : (s.table.set m s.hubs.length).get m = some j := hget
      rw [Table.get_set_self] at heq
      cases heq
      exact ⟨h, List.getElem?_concat_length, howned⟩
    · have heq : (s.table.set n s.hubs.length).get m = some j := hget
      rw [Table.get_set_of_ne _ hm] at heq
      obtain ⟨h', hhub, howned'⟩ := hs.table m j heq
      exact ⟨h', (List.getElem?_append_left (List.getElem?_eq_some_iff.mp hhub).1).trans hhub,
        howned'⟩
  · show a.hub < (s.hubs ++ [h]).length
    rw [hlen]
    rcases List.mem_append.mp hmem with hmem | hmem
    · exact Nat.lt_succ_of_lt (hs.returned a hmem)
    · rw [List.mem_singleton.mp hmem]
      exact Nat.lt_succ_self _

/-- `_wrap` with the hub that is there. -/
theorem wrapOld (hs : s.Sound) {j : Nat} (hj : j < s.hubs.length) :
    ({ s with returned := s.returned ++ [⟨h, j⟩] } : AsyncStore).Sound := by
  refine ⟨hs.linked, hs.tracked, hs.table, hs.pending, fun a hmem => ?_⟩
  rcases List.mem_append.mp hmem with hmem | hmem
  · exact hs.returned a hmem
  · rw [List.mem_singleton.mp hmem]
    exact hj

/-- The `pop` of `delete`. -/
theorem popped (hs : s.Sound) (name : Name) :
    ({ s with table := s.table.erase name } : AsyncStore).Sound := by
  refine ⟨hs.linked, hs.tracked, fun n j hget => ?_, hs.pending, hs.returned⟩
  have heq : (s.table.erase name).get n = some j := hget
  by_cases hn : n = name
  · rw [hn, Table.get_erase_self] at heq
    cases heq
  · rw [Table.get_erase_of_ne _ hn] at heq
    exact hs.table n j heq

/-- A new hub is the stream's own. -/
theorem agrees_wrapNew (hs : s.Sound) {table : Table Name Nat} :
    ({ s with
      hubs := s.hubs ++ [h]
      table := table
      returned := s.returned ++ [⟨h, s.hubs.length⟩] } : AsyncStore).Agrees ↔ s.Agrees := by
  have hold : ∀ a ∈ s.returned, (s.hubs ++ [h])[a.hub]? = s.hubs[a.hub]? := fun a hmem =>
    List.getElem?_append_left (hs.returned a hmem)
  constructor
  · intro hagrees a hmem
    rw [← hold a hmem]
    exact hagrees a (List.mem_append_left _ hmem)
  · intro hagrees a hmem
    rcases List.mem_append.mp hmem with hmem | hmem
    · exact (hold a hmem).trans (hagrees a hmem)
    · rw [List.mem_singleton.mp hmem]
      exact List.getElem?_concat_length

theorem agrees_wrapOld {j : Nat} :
    ({ s with returned := s.returned ++ [⟨h, j⟩] } : AsyncStore).Agrees ↔
      s.Agrees ∧ s.hubs[j]? = some h := by
  constructor
  · intro hagrees
    exact ⟨fun a hmem => hagrees a (List.mem_append_left _ hmem),
      hagrees ⟨h, j⟩ (List.mem_append_right _ List.mem_cons_self)⟩
  · rintro ⟨hagrees, hhub⟩ a hmem
    rcases List.mem_append.mp hmem with hmem | hmem
    · exact hagrees a hmem
    · rw [List.mem_singleton.mp hmem]
      exact hhub

/-- `_wrap` returns a stream with its own hub, unless it comes too late. -/
theorem wrap (hs : s.Sound) (howned : s.world.Owned s.store h) :
    (s.wrap h).Sound ∧ ((s.wrap h).Agrees ↔ s.Agrees ∧ (s.closed h && s.replaced h) = false) := by
  obtain ⟨hd, hget, hstore⟩ := howned
  have howned : s.world.OwnedAs s.store (s.nameOf h) h := ⟨hd, hget, hstore, (nameOf_eq hget).symm⟩
  unfold AsyncStore.wrap
  dsimp only
  split
  · next hnone =>
      refine ⟨hs.wrapNew howned, hs.agrees_wrapNew.trans ?_⟩
      simp [replaced, hnone]
  · next j hj =>
      obtain ⟨h', hhub, howned'⟩ := hs.table _ j hj
      have hreplaced : s.replaced h = (h' != h && !s.closed h') := by simp [replaced, hj, hhub]
      have houtlived : s.outlived j h = (h' != h && s.closed h') := by simp [outlived, hhub]
      split
      · next hold =>
          refine ⟨hs.wrapNew howned, hs.agrees_wrapNew.trans ?_⟩
          rw [houtlived] at hold
          have hclosed : s.closed h' = true := (Bool.and_eq_true_iff.mp hold).2
          simp [hreplaced, hclosed]
      · next hkept =>
          refine ⟨hs.wrapOld (List.getElem?_eq_some_iff.mp hhub).1, agrees_wrapOld.trans ?_⟩
          refine and_congr_right fun _ => ?_
          rw [hhub, hreplaced]
          by_cases hsame : h' = h
          · simp [hsame]
          · -- the hub of another stream, which is open, so this one is not
            have hopen' : s.closed h' = false := by simpa [houtlived, hsame] using hkept
            have hclosed : s.closed h = true := by
              refine Bool.not_eq_false _ |>.mp fun hopen => ?_
              exact hsame (hs.open_unique howned' howned hopen' hopen)
            simp [hsame, hopen', hclosed]

theorem step (hs : s.Sound) (hstep : s.step path a = some s') :
    s'.Sound ∧ (s'.Agrees ↔ s.Agrees ∧ s.inTime a = true) := by
  have hoperated : ∀ {act : Act} {outs : List Outcome}
      {f : Except Error (Option Hid) → Option Resumption},
      s.world.step path act =
        (s.world.idleStore s.store).bind (fun st => s.world.call s.store st act) →
      (∀ r h, f r = some (.wrap h) → r = .ok (some h)) → s.inTime a = true →
      (s.operate path act outs).map (fun (w, r) => s.operated w (f r)) = some s' →
      s'.Sound ∧ (s'.Agrees ↔ s.Agrees ∧ s.inTime a = true) := by
    intro act outs f hcall hnext htime hmap
    obtain ⟨⟨w, r⟩, hop, rfl⟩ := Option.map_eq_some_iff.mp hmap
    exact ⟨hs.operated hcall hop (hnext r), by simp [htime]; rfl⟩
  cases a with
  | create name contentType outs => exact hoperated rfl (fun r h => wrap_of_thenWrap) rfl hstep
  | openStream name outs => exact hoperated rfl (fun r h => wrap_of_thenWrap) rfl hstep
  | delete name outs =>
      exact hoperated (f := andThen (.pop name)) rfl
        (fun r h heq => by cases andThen_eq heq) rfl hstep
  | close outs =>
      exact hoperated (f := andThen .clear) rfl (fun r h heq => by cases andThen_eq heq) rfl hstep
  | resume i =>
      obtain ⟨next, hnext, rfl⟩ := Option.map_eq_some_iff.mp hstep
      have hrest : ({ s with pending := s.pending.eraseIdx i } : AsyncStore).Sound :=
        hs.goOn hs.linked hs.tracked (.of_eq rfl) fun h hmem => .inl (List.mem_of_mem_eraseIdx hmem)
      cases next with
      | wrap h =>
          have htime : s.inTime (.resume i) = !(s.closed h && s.replaced h) := by
            simp only [inTime, hnext]
          rw [htime, Bool.not_eq_true']
          exact hrest.wrap (hs.pending h (List.mem_of_getElem? hnext))
      | pop name =>
          have htime : s.inTime (.resume i) = true := by simp only [inTime, hnext]
          exact ⟨hrest.popped name, by simp only [htime, and_true]; rfl⟩
      | clear =>
          have htime : s.inTime (.resume i) = true := by simp only [inTime, hnext]
          refine ⟨⟨hs.linked, hs.tracked, fun n j hget => (by cases hget), hrest.pending,
            hs.returned⟩, ?_⟩
          simp only [htime, and_true]
          rfl
  | other act =>
      simp only [AsyncStore.step] at hstep
      split at hstep
      · cases hstep
      · next hother =>
          obtain ⟨w, hw, rfl⟩ := Option.map_eq_some_iff.mp hstep
          obtain ⟨st, hk, hidle, ht⟩ := hs.tracked
          obtain ⟨hk', hkeep, hfades⟩ := World.fades_step hk (Bool.eq_false_iff.mpr hother) hw
          refine ⟨hs.goOn (hs.linked.step (World.step_cases hw))
            ⟨st, hk', hidle, ht.fades hfades hkeep⟩ hkeep fun h hmem => .inl hmem, ?_⟩
          simp only [inTime, and_true]
          rfl

end Sound

/-! ## Runs of an `AsyncStore` -/

/-- A stream is deleted and created again before the first `create` wraps it. -/
def lateWrap : List AsyncAct :=
  [.create ['a'] none (List.replicate 9 .ok), .delete ['a'] (List.replicate 4 .ok),
    .create ['a'] none (List.replicate 9 .ok), .resume 2, .resume 0]

/-- The first stream is returned with the hub of the second. -/
theorem stale_stream_takes_hub :
    ¬∀ (path : Name → List Char) (disk : Disk) (acts₀ : List Act) (w : World) (p : Pid)
      (s₀ : AsyncStore) (acts : List AsyncAct) (s : AsyncStore),
      Lts.run (World.step path) (World.init disk) acts₀ = some w → make path w p = some s₀ →
      Lts.run (step path) s₀ acts = some s → s.Agrees := by
  intro hall
  have hmap : ((Lts.run (World.step logEntry) (World.init .empty) [.spawn]).bind fun w =>
      (make logEntry w 0).bind fun s₀ => (Lts.run (step logEntry) s₀ lateWrap).map fun s =>
        (s.returned, s.hubs)) = some ([⟨1, 0⟩, ⟨0, 0⟩], [1]) := by decide +kernel
  obtain ⟨w, hworld, hmap⟩ := Option.bind_eq_some_iff.mp hmap
  obtain ⟨s₀, hmake, hmap⟩ := Option.bind_eq_some_iff.mp hmap
  obtain ⟨s, hrun, heq⟩ := Option.map_eq_some_iff.mp hmap
  simp only [Prod.mk.injEq] at heq
  obtain ⟨hreturned, hhubs⟩ := heq
  have hagrees := hall logEntry .empty [.spawn] w 0 s₀ lateWrap s hworld hmake hrun ⟨0, 0⟩
    (by rw [hreturned]; exact List.mem_cons_of_mem _ List.mem_cons_self)
  rw [hhubs] at hagrees
  cases hagrees

/-- Every stream is returned with its own hub exactly if no `_wrap` of the run comes after
its stream has been closed and the name got the hub of another one, still open. -/
theorem hubs_agree_iff (path : Name → List Char) (disk : Disk) (acts₀ : List Act) (w : World)
    (p : Pid) (s₀ : AsyncStore) (acts : List AsyncAct) (s : AsyncStore)
    (hworld : Lts.run (World.step path) (World.init disk) acts₀ = some w)
    (hmake : make path w p = some s₀) (hrun : Lts.run (step path) s₀ acts = some s) :
    s.Agrees ↔ Lts.Meets (step path) (fun s a => s.inTime a = true) s₀ acts := by
  have hlinked : w.Linked :=
    Lts.run_invariant (fun _ _ _ hl hstep => hl.step (World.step_cases hstep)) hworld (.init disk)
  have hstart : s₀.Agrees := by
    obtain ⟨w', -, rfl⟩ := Option.map_eq_some_iff.mp hmake
    exact fun a hmem => by cases hmem
  have hiff :=
    Lts.good_iff_meets (fun _ _ _ hs hstep => Sound.step hs hstep) hrun (.make hlinked hmake)
  exact hiff.trans (and_iff_right hstart)

/-- A stream is wrapped, and once more by an `open` whose `_wrap` comes after a `delete`.
It is created again, and the hub of the old stream replaced.  Then the `pop` takes out the
new hub, so that the last `open` makes another. -/
def replacedHub : List AsyncAct :=
  [.create ['a'] none (List.replicate 9 .ok), .resume 0, .openStream ['a'] [],
    .delete ['a'] (List.replicate 4 .ok), .resume 0, .create ['a'] none (List.replicate 9 .ok),
    .resume 1, .resume 0, .openStream ['a'] [], .resume 0]

theorem hubs_agree_iff_replacedHub :
    ∃ w s₀ s, Lts.run (World.step logEntry) (World.init .empty) [.spawn] = some w ∧
      make logEntry w 0 = some s₀ ∧ Lts.run (step logEntry) s₀ replacedHub = some s ∧
      (s.Agrees ↔ Lts.Meets (step logEntry) (fun s a => s.inTime a = true) s₀ replacedHub) ∧
      Lts.Meets (step logEntry) (fun s a => s.inTime a = true) s₀ replacedHub := by
  have hmap : ((Lts.run (World.step logEntry) (World.init .empty) [.spawn]).bind fun w =>
      (make logEntry w 0).bind fun s₀ => (Lts.run (step logEntry) s₀ replacedHub).map fun _ =>
        decide (Lts.Meets (step logEntry) (fun s a => s.inTime a = true) s₀ replacedHub)) =
          some true := by decide +kernel
  obtain ⟨w, hworld, hmap⟩ := Option.bind_eq_some_iff.mp hmap
  obtain ⟨s₀, hmake, hmap⟩ := Option.bind_eq_some_iff.mp hmap
  obtain ⟨s, hrun, hmeets⟩ := Option.map_eq_some_iff.mp hmap
  exact ⟨w, s₀, s, hworld, hmake, hrun,
    hubs_agree_iff logEntry .empty [.spawn] w 0 s₀ replacedHub s hworld hmake hrun,
    of_decide_eq_true hmeets⟩

end AsyncStore

end Durastream

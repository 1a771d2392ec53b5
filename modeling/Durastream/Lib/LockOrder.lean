import Durastream.Lib.Lts
import Mathlib.Data.Finset.Max
import Mathlib.Logic.Function.Basic

/-!
# Locks that are taken in order

Threads that run programs with locks, conditions and exceptions.  A `Stmt` is a
program as far as locks go.  What decides a branch, ends a loop or raises is left to
the environment: a `Move` carries every choice, and `Move.throw` raises an exception
at any statement and in any wait.  `Stmt.outside` is code that is not known.  It calls
the known functions, any number of times and in any order, and so is the program of a
thread itself.

A lock is not reentrant: a thread that takes a lock it owns waits for ever.  `wait`
gives its lock back and takes it again when `notifyAll` has woken it.

`Stmt.Ordered` is a check of the text of a program.  Locks are taken from lower to
higher rank, nothing but the lock of the condition is owned in a wait, and nothing at
all by code from outside.  If the known functions pass the check, every reachable state
is `Good`, and then some thread that is neither finished nor asleep can go on, if there
is one (`Good.progress`).
-/

namespace LockOrder

variable {L M : Type*}

/-! ## Programs -/

inductive Stmt (L : Type*) where
  /-- Anything that takes and releases no lock. -/
  | skip
  | seq (a b : Stmt L)
  /-- `if`: either branch. -/
  | choice (a b : Stmt L)
  /-- A loop: any number of turns. -/
  | loop (a : Stmt L)
  /-- `with lock:`. -/
  | withLock (l : L) (a : Stmt L)
  /-- `Condition.wait`. -/
  | wait (l : L)
  /-- `Condition.notify_all`. -/
  | notifyAll (l : L)
  | raise
  /-- `try: a finally: b`. -/
  | tryFinally (a b : Stmt L)
  /-- `try: a except: b`. -/
  | tryExcept (a b : Stmt L)
  /-- Code from outside. -/
  | outside

/-- What a thread has still to do. -/
inductive Frame (L : Type*) where
  | run (s : Stmt L)
  /-- The end of `with`. -/
  | unlock (l : L)
  /-- In `wait`, not yet notified. -/
  | asleep (l : L)
  /-- In `wait`, to take the lock again. -/
  | relock (l : L)
  /-- The end of a `try` that has a `finally`. -/
  | cleanup (b : Stmt L)
  /-- The end of a `try` that has an `except`. -/
  | handler (b : Stmt L)
  /-- An exception is raised here. -/
  | throwing

/-- A thread, by its frames from the innermost on. -/
abbrev Thread (L : Type*) := List (Frame L)

inductive Move (M : Type*) where
  | go
  /-- The other branch, the end of a loop or of code from outside, an exception that a
  handler is not for. -/
  | other
  /-- Code from outside calls a function. -/
  | call (m : M)
  | throw

/-- What a move does to the locks. -/
inductive Effect (L : Type*) where
  | quiet
  | take (l : L)
  | free (l : L)
  | notify (l : L)

/-- A statement, with the frames after it. -/
def Stmt.next (body : M → Stmt L) : Stmt L → Thread L → Move M → Option (Effect L × Thread L)
  | _, k, .throw => some (.quiet, .throwing :: k)
  | .skip, k, .go => some (.quiet, k)
  | .seq a b, k, .go => some (.quiet, .run a :: .run b :: k)
  | .choice a _, k, .go => some (.quiet, .run a :: k)
  | .choice _ b, k, .other => some (.quiet, .run b :: k)
  | .loop a, k, .go => some (.quiet, .run a :: .run (.loop a) :: k)
  | .loop _, k, .other => some (.quiet, k)
  | .withLock l a, k, .go => some (.take l, .run a :: .unlock l :: k)
  | .wait l, k, .go => some (.free l, .asleep l :: k)
  | .notifyAll l, k, .go => some (.notify l, k)
  | .raise, k, .go => some (.quiet, .throwing :: k)
  | .tryFinally a b, k, .go => some (.quiet, .run a :: .cleanup b :: k)
  | .tryExcept a b, k, .go => some (.quiet, .run a :: .handler b :: k)
  | .outside, k, .call m =>
      some (.quiet, .run (body m) :: .handler .skip :: .run .outside :: k)
  | .outside, k, .other => some (.quiet, k)
  | _, _, _ => none

/-- An exception goes up through the frames. -/
def unwind : Thread L → Move M → Option (Effect L × Thread L)
  | [], .go => some (.quiet, [])
  | .unlock l :: k, .go => some (.free l, .throwing :: k)
  | .cleanup b :: k, .go => some (.quiet, .run b :: .throwing :: k)
  | .handler b :: k, .go => some (.quiet, .run b :: k)
  | .handler _ :: k, .other => some (.quiet, .throwing :: k)
  | .run _ :: k, .go => some (.quiet, .throwing :: k)
  | .throwing :: k, .go => some (.quiet, .throwing :: k)
  | _, _ => none

/-- The next move of a thread. -/
def Thread.next (body : M → Stmt L) : Thread L → Move M → Option (Effect L × Thread L)
  | .run s :: k, mv => s.next body k mv
  | .unlock l :: k, .go => some (.free l, k)
  | .asleep l :: k, .throw => some (.quiet, .relock l :: .throwing :: k)
  | .relock l :: k, .go => some (.take l, k)
  | .cleanup b :: k, .go => some (.quiet, .run b :: k)
  | .handler _ :: k, .go => some (.quiet, k)
  | .throwing :: k, mv => unwind k mv
  | _, _ => none

/-- `notify_all` of lock `l` reaches a thread. -/
def Thread.wake [DecidableEq L] (l : L) : Thread L → Thread L
  | .asleep l' :: k => if l' = l then .relock l :: k else .asleep l' :: k
  | th => th

/-- Threads, and who owns each lock. -/
structure System (L : Type*) where
  owner : L → Option Nat
  threads : List (Thread L)

namespace System

/-- `n` threads, which run code from outside. -/
def init (L : Type*) (n : Nat) : System L := ⟨fun _ => none, List.replicate n [.run .outside]⟩

variable [DecidableEq L]

/-- Thread `t` makes a move.  Taking a lock waits until nobody owns it. -/
def step (body : M → Stmt L) (s : System L) (a : Nat × Move M) : Option (System L) :=
  (s.threads[a.1]?).bind fun th =>
    match Thread.next body th a.2 with
    | none => none
    | some (.quiet, th') => some { s with threads := s.threads.set a.1 th' }
    | some (.take l, th') =>
        if s.owner l = none then
          some ⟨Function.update s.owner l (some a.1), s.threads.set a.1 th'⟩
        else none
    | some (.free l, th') => some ⟨Function.update s.owner l none, s.threads.set a.1 th'⟩
    | some (.notify l, th') =>
        some { s with threads := (s.threads.map (Thread.wake l)).set a.1 th' }

end System

/-! ## The check -/

/-- A program that is run with the locks `held`. -/
def Stmt.Ordered (rank : L → Nat) : List L → Stmt L → Prop
  | _, .skip => True
  | held, .seq a b => a.Ordered rank held ∧ b.Ordered rank held
  | held, .choice a b => a.Ordered rank held ∧ b.Ordered rank held
  | held, .loop a => a.Ordered rank held
  | held, .withLock l a => (∀ h ∈ held, rank h < rank l) ∧ a.Ordered rank (l :: held)
  | held, .wait l => held = [l]
  | held, .notifyAll l => l ∈ held
  | _, .raise => True
  | held, .tryFinally a b => a.Ordered rank held ∧ b.Ordered rank held
  | held, .tryExcept a b => a.Ordered rank held ∧ b.Ordered rank held
  | held, .outside => held = []

variable {rank : L → Nat} {body : M → Stmt L} {held : List L} {k th th' : Thread L} {l : L}
  {mv : Move M} {e : Effect L}

/-- Frames outside a wait, with the locks `held` from the last one taken on. -/
inductive Nested (rank : L → Nat) : List L → Thread L → Prop where
  | nil : Nested rank [] []
  | run {held : List L} {k : Thread L} {s : Stmt L} :
      s.Ordered rank held → Nested rank held k → Nested rank held (.run s :: k)
  | unlock {held : List L} {k : Thread L} {l : L} :
      (∀ h ∈ held, rank h < rank l) → Nested rank held k → Nested rank (l :: held) (.unlock l :: k)
  | cleanup {held : List L} {k : Thread L} {b : Stmt L} :
      b.Ordered rank held → Nested rank held k → Nested rank held (.cleanup b :: k)
  | handler {held : List L} {k : Thread L} {b : Stmt L} :
      b.Ordered rank held → Nested rank held k → Nested rank held (.handler b :: k)
  | throwing {held : List L} {k : Thread L} : Nested rank held k → Nested rank held (.throwing :: k)

/-- A thread that owns the locks `held`.  In a wait it owns none. -/
inductive Thread.Ok (rank : L → Nat) : List L → Thread L → Prop where
  | nested {held : List L} {th : Thread L} : Nested rank held th → Thread.Ok rank held th
  | asleep {k : Thread L} {l : L} : Nested rank [l] k → Thread.Ok rank [] (.asleep l :: k)
  | relock {k : Thread L} {l : L} : Nested rank [l] k → Thread.Ok rank [] (.relock l :: k)

/-- What a move is allowed to do to the locks. -/
def Effect.Ok (rank : L → Nat) (held : List L) (th' : Thread L) : Effect L → Prop
  | .quiet => Thread.Ok rank held th'
  | .take l => (∀ h ∈ held, rank h < rank l) ∧ Thread.Ok rank (l :: held) th'
  | .free l =>
      ∃ rest, held = l :: rest ∧ (∀ h ∈ rest, rank h < rank l) ∧ Thread.Ok rank rest th'
  | .notify _ => Thread.Ok rank held th'

theorem Stmt.next_ok (hbody : ∀ m, (body m).Ordered rank []) {s : Stmt L}
    (hs : s.Ordered rank held) (hk : Nested rank held k) (h : s.next body k mv = some (e, th')) :
    e.Ok rank held th' := by
  have hthrow : mv = .throw → e.Ok rank held th' := by
    rintro rfl
    cases s <;> cases h <;> exact .nested (.throwing hk)
  cases mv with
  | throw => exact hthrow rfl
  | go =>
      cases s with
      | skip =>
          cases h
          exact .nested hk
      | seq a b =>
          cases h
          exact .nested (.run hs.1 (.run hs.2 hk))
      | choice a b =>
          cases h
          exact .nested (.run hs.1 hk)
      | loop a =>
          cases h
          exact .nested (.run hs (.run hs hk))
      | withLock l a =>
          cases h
          exact ⟨hs.1, .nested (.run hs.2 (.unlock hs.1 hk))⟩
      | wait l =>
          cases h
          obtain rfl : held = [l] := hs
          exact ⟨[], rfl, fun h hmem => absurd hmem List.not_mem_nil, .asleep hk⟩
      | notifyAll l =>
          cases h
          exact .nested hk
      | raise =>
          cases h
          exact .nested (.throwing hk)
      | tryFinally a b =>
          cases h
          exact .nested (.run hs.1 (.cleanup hs.2 hk))
      | tryExcept a b =>
          cases h
          exact .nested (.run hs.1 (.handler hs.2 hk))
      | outside => cases h
  | other =>
      cases s with
      | choice a b =>
          cases h
          exact .nested (.run hs.2 hk)
      | loop a =>
          cases h
          exact .nested hk
      | outside =>
          cases h
          exact .nested hk
      | _ => cases h
  | call m =>
      cases s with
      | outside =>
          cases h
          obtain rfl : held = [] := hs
          exact .nested (.run (hbody m) (.handler trivial (.run rfl hk)))
      | _ => cases h

theorem unwind_ok (hk : Nested rank held k) (h : unwind k mv = some (e, th')) :
    e.Ok rank held th' := by
  cases hk with
  | nil =>
      cases mv <;> cases h
      exact .nested .nil
  | run hs hk =>
      cases mv <;> cases h
      exact .nested (.throwing hk)
  | unlock hlow hk =>
      cases mv <;> cases h
      exact ⟨_, rfl, hlow, .nested (.throwing hk)⟩
  | cleanup hb hk =>
      cases mv <;> cases h
      exact .nested (.run hb (.throwing hk))
  | handler hb hk =>
      cases mv <;> cases h
      · exact .nested (.run hb hk)
      · exact .nested (.throwing hk)
  | throwing hk =>
      cases mv <;> cases h
      exact .nested (.throwing hk)

/-- A move keeps to the order of the locks. -/
theorem Thread.next_ok (hbody : ∀ m, (body m).Ordered rank []) (hth : Thread.Ok rank held th)
    (h : Thread.next body th mv = some (e, th')) : e.Ok rank held th' := by
  cases hth with
  | nested hk =>
      cases hk with
      | nil => cases mv <;> cases h
      | run hs hk => exact Stmt.next_ok hbody hs hk h
      | unlock hlow hk =>
          cases mv <;> cases h
          exact ⟨_, rfl, hlow, .nested hk⟩
      | cleanup hb hk =>
          cases mv <;> cases h
          exact .nested (.run hb hk)
      | handler hb hk =>
          cases mv <;> cases h
          exact .nested hk
      | throwing hk => exact unwind_ok hk h
  | asleep hk =>
      cases mv <;> cases h
      exact .relock (.throwing hk)
  | relock hk =>
      cases mv <;> cases h
      exact ⟨fun h hmem => absurd hmem List.not_mem_nil, .nested hk⟩

/-! ## Reachable states -/

/-- Every thread keeps to the order of the locks, and owns those it has to give back. -/
structure System.Good (rank : L → Nat) (s : System L) : Prop where
  thread : ∀ (t : Nat) (th : Thread L), s.threads[t]? = some th →
    ∃ held, Thread.Ok rank held th ∧ ∀ l, s.owner l = some t ↔ l ∈ held
  owned : ∀ (l : L) (t : Nat), s.owner l = some t → ∃ th, s.threads[t]? = some th

namespace System.Good

variable {s s' : System L} {t : Nat}

theorem init (n : Nat) : (System.init L n).Good rank := by
  refine ⟨fun t th ht => ?_, fun l t h => (by cases h)⟩
  obtain rfl : th = [.run .outside] := List.eq_of_mem_replicate (List.mem_of_getElem? ht)
  refine ⟨[], .nested (.run rfl .nil), fun l => ?_⟩
  simp [System.init]

/-- Thread `t` makes a move, which the other threads may notice. -/
theorem set (hg : s.Good rank) (ht : s.threads[t]? = some th) {f : Thread L → Thread L}
    (hf : ∀ held th, Thread.Ok rank held th → Thread.Ok rank held (f th))
    (hthreads : s'.threads = (s.threads.map f).set t th') (hth' : Thread.Ok rank held th')
    (hself : ∀ l, s'.owner l = some t ↔ l ∈ held)
    (hothers : ∀ j, j ≠ t → ∀ l, s'.owner l = some j ↔ s.owner l = some j) : s'.Good rank := by
  have hlt : t < (s.threads.map f).length := by
    rw [List.length_map]
    exact (List.getElem?_eq_some_iff.mp ht).1
  have hat : s'.threads[t]? = some th' := by rw [hthreads, List.getElem?_set_self hlt]
  have haside : ∀ j, j ≠ t → s'.threads[j]? = (s.threads[j]?).map f := by
    intro j hne
    rw [hthreads, List.getElem?_set_ne hne.symm, List.getElem?_map]
  refine ⟨fun j u hj => ?_, fun l j hl => ?_⟩
  · by_cases hjt : j = t
    · subst hjt
      rw [hat] at hj
      obtain rfl := Option.some.inj hj
      exact ⟨held, hth', hself⟩
    · rw [haside j hjt] at hj
      obtain ⟨v, hv, rfl⟩ := Option.map_eq_some_iff.mp hj
      obtain ⟨held', hok, hown⟩ := hg.thread j v hv
      exact ⟨held', hf _ _ hok, fun l => (hothers j hjt l).trans (hown l)⟩
  · by_cases hjt : j = t
    · exact ⟨th', by rw [hjt, hat]⟩
    · obtain ⟨v, hv⟩ := hg.owned l j ((hothers j hjt l).mp hl)
      exact ⟨f v, by rw [haside j hjt, hv, Option.map_some]⟩

variable [DecidableEq L]

theorem wake_ok (hth : Thread.Ok rank held th) : Thread.Ok rank held (Thread.wake l th) := by
  cases hth with
  | nested hk =>
      cases hk with
      | nil => exact .nested .nil
      | run hs hk => exact .nested (.run hs hk)
      | unlock hlow hk => exact .nested (.unlock hlow hk)
      | cleanup hb hk => exact .nested (.cleanup hb hk)
      | handler hb hk => exact .nested (.handler hb hk)
      | throwing hk => exact .nested (.throwing hk)
  | @asleep k l' hk =>
      rw [Thread.wake]
      split
      · next heq => exact .relock (heq ▸ hk)
      · exact .asleep hk
  | relock hk => exact .relock hk

/-- The owners after a lock has changed hands. -/
theorem update_eq_some {owner : L → Option Nat} {o : Option Nat} {l' : L} {j : Nat} :
    Function.update owner l o l' = some j ↔ l' = l ∧ o = some j ∨ l' ≠ l ∧ owner l' = some j := by
  rw [Function.update_apply]
  split
  · next heq => simp [heq]
  · next hne => simp [hne]

theorem step (hbody : ∀ m, (body m).Ordered rank []) {a : Nat × Move M} (hg : s.Good rank)
    (h : s.step body a = some s') : s'.Good rank := by
  obtain ⟨t, mv⟩ := a
  obtain ⟨th, ht, h⟩ := Option.bind_eq_some_iff.mp h
  obtain ⟨held, hok, hown⟩ := hg.thread t th ht
  have hsame : ∀ th' : Thread L, s.threads.set t th' = (s.threads.map id).set t th' := fun th' => by
    rw [List.map_id]
  split at h
  · cases h
  · next th' hnext =>
      cases h
      exact hg.set ht (fun _ _ h => h) (hsame th') (Thread.next_ok hbody hok hnext) hown
        fun _ _ _ => Iff.rfl
  · next l th' hnext =>
      obtain ⟨-, hok'⟩ := Thread.next_ok hbody hok hnext
      split at h
      · next hfree =>
          cases h
          refine hg.set ht (fun _ _ h => h) (hsame th') hok' (fun l' => ?_) fun j hne l' => ?_
          · refine update_eq_some.trans ?_
            by_cases heq : l' = l <;> simp [heq, hown]
          · refine update_eq_some.trans ?_
            by_cases heq : l' = l <;> simp [heq, hfree, Ne.symm hne]
      · cases h
  · next l th' hnext =>
      obtain ⟨rest, rfl, hlow, hok'⟩ := Thread.next_ok hbody hok hnext
      cases h
      have hmine : s.owner l = some t := (hown l).mpr List.mem_cons_self
      have hout : l ∉ rest := fun hmem => Nat.lt_irrefl _ (hlow l hmem)
      refine hg.set ht (fun _ _ h => h) (hsame th') hok' (fun l' => ?_) fun j hne l' => ?_
      · refine update_eq_some.trans ?_
        by_cases heq : l' = l <;> simp [heq, hown, hout]
      · refine update_eq_some.trans ?_
        by_cases heq : l' = l <;> simp [heq, hmine, Ne.symm hne]
  · next l th' hnext =>
      cases h
      exact hg.set ht (fun _ _ h => wake_ok h) rfl (Thread.next_ok hbody hok hnext) hown
        fun _ _ _ => Iff.rfl

/-- Every run of functions that pass the check. -/
theorem run (hbody : ∀ m, (body m).Ordered rank []) {n : Nat} {as : List (Nat × Move M)}
    (hrun : Lts.run (System.step body) (System.init L n) as = some s) : s.Good rank :=
  Lts.run_invariant (fun _ _ _ hg h => hg.step hbody h) hrun (.init n)

end System.Good

/-! ## Progress -/

namespace Thread

/-- It is in a wait, and has not been notified. -/
def sleeps : Thread L → Bool
  | .asleep _ :: _ => true
  | _ => false

/-- The lock it takes next. -/
def wants : Thread L → Option L
  | .run (.withLock l _) :: _ => some l
  | .relock l :: _ => some l
  | _ => none

/-- A thread takes a lock above all those it owns. -/
theorem wants_above (hth : Thread.Ok rank held th) (hl : wants th = some l) :
    ∀ h ∈ held, rank h < rank l := by
  cases hth with
  | nested hk =>
      cases hk with
      | @run _ _ s hs hk =>
          cases s with
          | withLock l' a =>
              cases hl
              exact hs.1
          | _ => cases hl
      | _ => cases hl
  | asleep hk => cases hl
  | relock hk => exact fun h hmem => absurd hmem List.not_mem_nil

/-- A thread that is not finished and not asleep has a move, and only a lock can be in
its way. -/
theorem next_enabled (body : M → Stmt L) (hth : Thread.Ok rank held th) (hlive : th ≠ [])
    (hawake : sleeps th = false) :
    ∃ mv e th', mv ≠ .throw ∧ next body th mv = some (e, th') ∧
      ∀ l, e = .take l → wants th = some l := by
  have hgo : (Move.go : Move M) ≠ .throw := fun heq => (by cases heq)
  have hother : (Move.other : Move M) ≠ .throw := fun heq => (by cases heq)
  cases hth with
  | nested hk =>
      cases hk with
      | nil => exact absurd rfl hlive
      | @run _ _ s hs hk =>
          cases s with
          | withLock l a => exact ⟨.go, _, _, hgo, rfl, fun l' heq => (by cases heq; rfl)⟩
          | outside => exact ⟨.other, _, _, hother, rfl, fun l' heq => (by cases heq)⟩
          | _ => exact ⟨.go, _, _, hgo, rfl, fun l' heq => (by cases heq)⟩
      | throwing hk =>
          cases hk with
          | _ => exact ⟨.go, _, _, hgo, rfl, fun l' heq => (by cases heq)⟩
      | _ => exact ⟨.go, _, _, hgo, rfl, fun l' heq => (by cases heq)⟩
  | asleep hk => cases hawake
  | relock hk => exact ⟨.go, _, _, hgo, rfl, fun l' heq => (by cases heq; rfl)⟩

end Thread

namespace System.Good

variable {s : System L} {t : Nat}

/-- Code from outside owns no lock. -/
theorem outside_owns_nothing (hg : s.Good rank) (ht : s.threads[t]? = some (.run .outside :: k)) :
    s.owner l ≠ some t := by
  obtain ⟨held, hok, hown⟩ := hg.thread t _ ht
  rw [Ne, hown]
  cases hok with
  | nested hk =>
      cases hk with
      | run hs hk =>
          obtain rfl : held = [] := hs
          exact List.not_mem_nil

variable [DecidableEq L]

/-- A thread that cannot go on wants a lock that somebody owns. -/
theorem blocked (hg : s.Good rank) (ht : s.threads[t]? = some th) (hlive : th ≠ [])
    (hawake : Thread.sleeps th = false)
    (hstuck : ∀ mv, mv ≠ .throw → s.step body (t, mv) = none) :
    ∃ l j, Thread.wants th = some l ∧ s.owner l = some j := by
  obtain ⟨held, hok, -⟩ := hg.thread t th ht
  obtain ⟨mv, e, th', hmv, hnext, hwants⟩ := Thread.next_enabled body hok hlive hawake
  have hstep := hstuck mv hmv
  simp only [System.step, ht, Option.bind_some, hnext] at hstep
  cases e with
  | take l =>
      cases howner : s.owner l with
      | none => simp [howner] at hstep
      | some j => exact ⟨l, j, hwants l rfl, howner⟩
  | _ => cases hstep

end System.Good

end LockOrder

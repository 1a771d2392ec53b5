import Durastream.Lib.LockOrder

/-!
# The locks of the library

What the public methods do with locks, for any number of Stores and streams and any
number of threads that call them.  The lock order is store lock, stream lock, meta lock;
the lock of a stream's listeners is taken on its own.

A body says what a method may do and not when: it goes through every branch, every loop
any number of times, and an exception may be raised at every statement.  What a
consumer of `subscribe` does between two records, what a listener does, and what the
threads themselves do is code from outside, which may call every method.

A Store is named by a number, which its `_Meta` shares, and so is a stream.  A method of
a stream that goes to the metadata takes the number of its Store too.
-/

namespace Durastream

open LockOrder (Stmt Move System)

namespace Locks

inductive Lock where
  /-- `Store._lock`. -/
  | store (i : Nat)
  /-- `DurableStream._lock`, which `_cond` shares. -/
  | stream (s : Nat)
  /-- `_Meta._lock`. -/
  | metadata (i : Nat)
  /-- `_listeners_lock`. -/
  | listeners (s : Nat)
deriving DecidableEq

/-- "Lock order: store lock -> stream lock -> meta lock." -/
def Lock.rank : Lock → Nat
  | .store _ => 0
  | .stream _ => 1
  | .metadata _ => 2
  | .listeners _ => 3

/-- `_Meta.execute`, `check_open` and `close`. -/
def execute (i : Nat) : Stmt Lock := .withLock (.metadata i) .skip

/-- `add_listener` and `remove_listener`. -/
def setListeners (s : Nat) : Stmt Lock := .withLock (.listeners s) .skip

/-- `_notify`: the snapshot, then each callback, whose exceptions are printed. -/
def notify (s : Nat) : Stmt Lock :=
  .seq (.withLock (.listeners s) .skip) (.loop (.tryExcept .outside .skip))

def appendLocked (s : Nat) : Stmt Lock :=
  .seq .skip -- the frames are packed outside the lock
    (.withLock (.stream s)
      (.choice .raise
        (.choice .skip
          (.seq
            (.tryExcept .skip
              (.seq (.tryExcept .skip (.notifyAll (.stream s))) .raise))
            (.notifyAll (.stream s))))))

def appendMany (s : Nat) : Stmt Lock :=
  .seq .skip
    (.seq (.tryExcept (appendLocked s) (.seq (notify s) .raise))
      (.choice (notify s) .skip))

def read (s : Nat) : Stmt Lock := .seq (.withLock (.stream s) (.choice .raise .skip)) .skip

/-- The consumer runs at each `yield`. -/
def subscribe (s : Nat) : Stmt Lock :=
  .loop
    (.seq (read s)
      (.seq .outside
        (.withLock (.stream s) (.loop (.wait (.stream s))))))

/-- `DurableStream.close`. -/
def closeStream (i s : Nat) : Stmt Lock :=
  .tryFinally
    (.withLock (.stream s)
      (.choice .raise (.seq (execute i) (.notifyAll (.stream s)))))
    (notify s)

def closeFds (s : Nat) : Stmt Lock :=
  .withLock (.stream s) (.seq .skip (.notifyAll (.stream s)))

/-- `for s in streams`. -/
def forEach (f : Nat → Stmt Lock) : List Nat → Stmt Lock
  | [] => .skip
  | s :: ss => .seq (f s) (forEach f ss)

/-- `Store.__init__`. -/
def newStore (i : Nat) : Stmt Lock := .seq .skip (execute i)

def create (i : Nat) : Stmt Lock :=
  .seq .skip
    (.withLock (.store i)
      (.choice .skip -- it is open already
        (.seq (execute i)
          (.choice .skip -- it has a row
            (.seq (.tryFinally .skip .skip) -- the guard
              (.seq (execute i) .skip))))))

/-- `Store.open`. -/
def openStream (i : Nat) : Stmt Lock :=
  .withLock (.store i) (.choice .skip (.seq (execute i) (.choice .raise .skip)))

/-- `Store.delete`, with the handle the Store may have. -/
def delete (i s : Nat) : Stmt Lock :=
  .tryFinally
    (.withLock (.store i)
      (.seq (execute i)
        (.seq (.tryFinally (.choice (closeFds s) .skip) .skip) -- the guard
          (.seq (.choice (closeFds s) .skip)
            (.seq .skip (execute i))))))
    (.choice (notify s) .skip)

/-- `Store.list`. -/
def list (i : Nat) : Stmt Lock := execute i

/-- `Store.close`, with the handles it has. -/
def closeStore (i : Nat) (ss : List Nat) : Stmt Lock :=
  .seq (.withLock (.store i) (.seq (forEach closeFds ss) (execute i))) (forEach notify ss)

inductive Method where
  | newStore (i : Nat)
  | create (i : Nat)
  | openStream (i : Nat)
  | delete (i s : Nat)
  | list (i : Nat)
  | closeStore (i : Nat) (ss : List Nat)
  | addListener (s : Nat)
  | removeListener (s : Nat)
  | appendMany (s : Nat)
  | read (s : Nat)
  | subscribe (s : Nat)
  | closeStream (i s : Nat)

def Method.body : Method → Stmt Lock
  | .newStore i => Locks.newStore i
  | .create i => Locks.create i
  | .openStream i => Locks.openStream i
  | .delete i s => Locks.delete i s
  | .list i => Locks.list i
  | .closeStore i ss => Locks.closeStore i ss
  | .addListener s => setListeners s
  | .removeListener s => setListeners s
  | .appendMany s => Locks.appendMany s
  | .read s => Locks.read s
  | .subscribe s => Locks.subscribe s
  | .closeStream i s => Locks.closeStream i s

/-- Threads that call the methods. -/
abbrev Threads := System Lock

def step : Threads → Nat × Move Method → Option Threads := System.step Method.body

/-! ## The order is kept -/

theorem forEach_ordered {f : Nat → Stmt Lock} {held : List Lock}
    (h : ∀ s, (f s).Ordered Lock.rank held) (ss : List Nat) :
    (forEach f ss).Ordered Lock.rank held := by
  induction ss with
  | nil => trivial
  | cons s ss ih => exact ⟨h s, ih⟩

theorem ordered (m : Method) : m.body.Ordered Lock.rank [] := by
  cases m with
  | closeStore i ss =>
      refine ⟨⟨by simp, forEach_ordered (fun s => ?_) ss, ?_⟩, forEach_ordered (fun s => ?_) ss⟩
      · simp [closeFds, Stmt.Ordered, Lock.rank]
      · simp [execute, Stmt.Ordered, Lock.rank]
      · simp [notify, Stmt.Ordered]
  | _ =>
      simp [Method.body, newStore, create, openStream, delete, list, setListeners, appendMany,
        appendLocked, read, subscribe, closeStream, closeFds, execute, notify, Stmt.Ordered,
        Lock.rank]

variable {n : Nat} {as : List (Nat × Move Method)} {s : Threads}

/-- The lock order is kept, and code from outside runs under no lock: not a listener, not
a consumer, and no caller after a call that has returned or raised. -/
theorem locks_in_order (hrun : Lts.run step (System.init Lock n) as = some s) (t : Nat) :
    (∀ k, s.threads[t]? = some (.run .outside :: k) → ∀ l, s.owner l ≠ some t) ∧
      ∀ th, s.threads[t]? = some th → ∀ l, LockOrder.Thread.wants th = some l →
        ∀ h, s.owner h = some t → h.rank < l.rank := by
  have hgood := System.Good.run ordered hrun
  refine ⟨fun k ht l => hgood.outside_owns_nothing ht, fun th ht l hwants h howner => ?_⟩
  obtain ⟨held, hok, hown⟩ := hgood.thread t th ht
  exact LockOrder.Thread.wants_above hok hwants h ((hown h).mp howner)

/-- A thread in `close` before its `UPDATE`, and one in no call. -/
def closingRun : List (Nat × Move Method) :=
  [(0, .call (.closeStream 0 0)), (0, .go), (0, .go), (0, .other), (0, .go)]

theorem locks_in_order_closing : ∃ s, Lts.run step (System.init Lock 2) closingRun = some s ∧
    s.owner (.stream 0) = some 0 ∧ (∀ l, s.owner l ≠ some 1) ∧
      (Lock.stream 0).rank < (Lock.metadata 0).rank := by
  have hrun : Lts.run step (System.init Lock 2) closingRun = some _ := rfl
  refine ⟨_, hrun, rfl, (locks_in_order hrun 1).1 [] rfl, ?_⟩
  exact (locks_in_order hrun 0).2 _ rfl _ rfl _ rfl

end Locks

end Durastream

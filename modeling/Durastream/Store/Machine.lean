import Durastream.Lib.Claims
import Durastream.Lib.Table
import Durastream.Lib.Lts
import Durastream.Stream.Writer

/-!
# Stores and processes

Any number of processes with any number of Stores on one directory.  A method of
`Store` runs under the Store's lock, so a Store has at most one in progress; a
`StorePc` is the place where it stands, which is always before its next call of
the file system or of SQLite.  One step makes this call, with the outcome the
environment chooses, and runs on to the next one.

* `lookup`: `_row`, in `create` and `open`.
* `probe`, `probeLock`: `_lock_for_removal`, opening the log and locking it.
* `unlink`, `closeGuard`: `_remove_if_exists`, and closing what was locked.
* `insert`: the INSERT of `create`.
* `ctor`: `DurableStream.__init__`, see `CtorPc`.
* `dirSync`: the `_fsync_dir` at the end of `create`.
* `delClose`, `delDirSync`, `delRow`: what `delete` does after the unlink.
* `closing`: `Store.close`, one stream after another and then the database.

The methods of a stream run under the lock of the handle: appends call by call
as in `Writer`, and `close` in two steps, since the check and the UPDATE are not
one call.  A forked child gets copies of everything; a lock that was held by
another thread at that moment is never released in the child.

`history` records what happened, newest first.  The code has no such record; the
theorems are about it.
-/

namespace Durastream

abbrev Pid := Nat
abbrev Sid := Nat
abbrev Hid := Nat
abbrev Did := Nat

/-- A row of the table `streams`. -/
structure Row where
  contentType : ContentType
  closed : Bool
deriving DecidableEq

inductive Event where
  /-- `create` inserted the row; the files made from then on have numbers from
  `nextIno` on. -/
  | inserted (name : Name) (nextIno : Nat)
  /-- `append_many` returned, with the batch at `start` of file `ino`. -/
  | acked (name : Name) (ino start : Nat) (batch : List Bytes)
  /-- `DurableStream.close` returned, with these records in the log. -/
  | closed (name : Name) (records : List Bytes)
deriving DecidableEq

/-! ## Handles -/

/-- A `DurableStream` object. -/
structure Handle where
  store : Sid
  pid : Pid
  /-- Its name, index, closed flag and the append in progress. -/
  w : Writer
  contentType : ContentType
  /-- `_file`. -/
  file : Option Did
  /-- `_owner`. -/
  owner : Bool
  /-- `_pid`. -/
  takenBy : Pid
  /-- In `close`, before the UPDATE. -/
  closing : Bool
  /-- Its lock is held by a thread that a fork left behind. -/
  stuck : Bool
  /-- The history when its row was looked up. -/
  asked : List Event
deriving DecidableEq

namespace Handle

def writable (hd : Handle) : Bool := hd.owner && hd.takenBy == hd.pid

/-- Nobody holds the lock of the handle. -/
def Free (hd : Handle) : Prop := hd.w.pc = .idle ∧ hd.closing = false ∧ hd.stuck = false

instance (hd : Handle) : Decidable hd.Free := by
  unfold Free
  infer_instance

/-- `_close_fds`. -/
def closeFds (hd : Handle) : Handle :=
  { hd with w := { hd.w with closed := true }, file := none, owner := false }

/-- A handle whose process is gone. -/
def gone (hd : Handle) : Handle :=
  { hd.closeFds with
    w := { hd.w with closed := true, pc := .idle }, closing := false, stuck := true }

/-- The copy in the child `c`, in the copy of its Store. -/
def forked (hd : Handle) (c : Pid) (store : Sid) : Handle :=
  { hd with
    store := store, pid := c, w := { hd.w with pc := .idle }, closing := false,
    stuck := !decide hd.Free }

end Handle

/-! ## Stores -/

/-- Who called `_lock_for_removal`. -/
inductive Purpose where
  | create (contentType : ContentType) (asked : List Event)
  /-- `delete`, with its `s`. -/
  | delete (s : Option Hid)
deriving DecidableEq

/-- What `_open_stream` was called with, and whether by `create` after its INSERT. -/
structure Opening where
  name : Name
  contentType : ContentType
  closed : Bool
  created : Bool
  asked : List Event
deriving DecidableEq

/-- The next call of `DurableStream.__init__`. -/
inductive CtorPc where
  /-- `open(path, "a+b")`. -/
  | openAppend
  /-- `open(path, "rb")`, where there is no write access. -/
  | openRead
  | lock (d : Did)
  | stat (d : Did) (owner : Bool)
  | scan (d : Did) (owner : Bool) (size : Nat)
  /-- The `ftruncate` of a torn tail. -/
  | truncate (d : Did) (index : List Nat)
  | sync (d : Did) (index : List Nat)
deriving DecidableEq

inductive StorePc where
  | idle
  /-- The lock is held by a thread that a fork left behind. -/
  | stuck
  /-- `create` with its `content_type`, or `open`. -/
  | lookup (name : Name) (given : Option (Option ContentType))
  | probe (name : Name) (why : Purpose)
  | probeLock (name : Name) (why : Purpose) (d : Did)
  | unlink (name : Name) (why : Purpose) (guard : Option Did)
  /-- `removed` is what `_remove_if_exists` returned, `none` if it raised. -/
  | closeGuard (name : Name) (why : Purpose) (d : Did) (removed : Option Bool)
  | insert (name : Name) (contentType : ContentType) (asked : List Event)
  | ctor (o : Opening) (pc : CtorPc)
  | dirSync (h : Hid)
  | delClose (name : Name) (h : Hid) (removed : Bool)
  | delDirSync (name : Name)
  | delRow (name : Name)
  | closing (streams : List Hid)
deriving DecidableEq

structure Store where
  pid : Pid
  /-- `_open`. -/
  opened : Table Name Hid
  /-- The database is not closed. -/
  metaOpen : Bool
  pc : StorePc
  /-- What the last call returned or raised. -/
  result : Except Error (Option Hid)

/-- The description a local variable of the method has open. -/
def CtorPc.desc : CtorPc → Option Did
  | .openAppend => none
  | .openRead => none
  | .lock d => some d
  | .stat d _ => some d
  | .scan d _ _ => some d
  | .truncate d _ => some d
  | .sync d _ => some d

/-- The description a local variable of the method has open. -/
def StorePc.desc : StorePc → Option Did
  | .probeLock _ _ d => some d
  | .unlink _ _ guard => guard
  | .closeGuard _ _ d _ => some d
  | .ctor _ pc => pc.desc
  | _ => none

/-- The handles a local variable refers to that `_open` may no longer have. -/
def StorePc.locals : StorePc → List Hid
  | .delClose _ h _ => [h]
  | .closing streams => streams
  | _ => []

/-- The error of a call that fails here. -/
def StorePc.error : StorePc → Error
  | .lookup _ _ => .database
  | .insert _ _ _ => .database
  | .delRow _ => .database
  | _ => .osError

/-- `delete` after the files are closed. -/
def delNext (name : Name) (removed : Bool) : StorePc :=
  if removed then .delDirSync name else .delRow name

/-- After the `try` block of the unlink: the rest of `create` or `delete`, or
idle if the unlink raised. -/
def purged (name : Name) (why : Purpose) : Option Bool → StorePc
  | none => .idle
  | some removed =>
      match why with
      | .create contentType asked => .insert name contentType asked
      | .delete (some h) => .delClose name h removed
      | .delete none => delNext name removed

/-- After the unlink: close the guard, if there is one. -/
def unlinked (name : Name) (why : Purpose) (guard : Option Did) (removed : Option Bool) : StorePc :=
  match guard with
  | some d => .closeGuard name why d removed
  | none => purged name why removed

def Store.new (p : Pid) : Store := ⟨p, .empty, true, .idle, .ok none⟩

/-- A Store whose process is gone. -/
def Store.gone (st : Store) : Store := { st with opened := .empty, metaOpen := false, pc := .stuck }

/-- The copy in the child `c`, where copies of handles are `shift` further on. -/
def Store.forked (st : Store) (c : Pid) (shift : Nat) : Store :=
  { st with
    pid := c, opened := st.opened.map (shift + ·),
    pc := if st.pc = .idle then .idle else .stuck }

/-! ## The world -/

structure World where
  fs : LockFs (List Char) UInt8
  rows : Table Name Row
  stores : List Store
  handles : List Handle
  /-- The processes that run, and the first number none has had. -/
  live : List Pid
  nextPid : Pid
  history : List Event

/-- What is on the device while nothing runs. -/
structure Disk where
  rows : Table Name Row
  dir : List Char → Option Nat
  files : Nat → Bytes
  /-- The first number no file has. -/
  nextIno : Nat
  dir_lt : ∀ q i, dir q = some i → i < nextIno
  /-- No hard links. -/
  dir_inj : ∀ q r i, dir q = some i → dir r = some i → q = r

/-- A directory without streams and logs. -/
def Disk.empty : Disk :=
  ⟨.empty, fun _ => none, fun _ => [], 0, (fun _ _ h => by cases h), (fun _ _ _ h => by cases h)⟩

/-- The log of a deleted stream, with one record. -/
def Disk.leftover : Disk where
  rows := .empty
  dir q := if q = logEntry ['t'] then some 0 else none
  files _ := frame [7]
  nextIno := 1
  dir_lt := by
    intro q i h
    split at h <;> simp_all
  dir_inj := by
    intro q r i hq hr
    split at hq <;> simp_all

/-- How a call of the file system or of SQLite ends. -/
inductive Outcome where
  | ok
  /-- `EACCES`, `EPERM` or `EROFS`. -/
  | denied
  /-- Another `OSError`, or a `sqlite3.Error`. -/
  | failed
deriving DecidableEq

inductive Act where
  | spawn
  | newStore (p : Pid)
  | create (k : Sid) (name : Name) (given : Option ContentType)
  | openStream (k : Sid) (name : Name)
  | delete (k : Sid) (name : Name)
  | closeStore (k : Sid)
  /-- The next call of the method in progress. -/
  | sys (k : Sid) (o : Outcome)
  | append (h : Hid) (payloads : List Bytes)
  | io (h : Hid) (a : IoAct)
  | close (h : Hid)
  /-- The UPDATE of `close`. -/
  | update (h : Hid) (ok : Bool)
  | fork (p : Pid)
  | exit (p : Pid)
  | powerLoss (cell : List Char → Nat) (loss : Nat → LockFs.Loss)

def Act.isDelete : Act → Bool
  | .delete _ _ => true
  | _ => false

def Act.isPowerLoss : Act → Bool
  | .powerLoss _ _ => true
  | _ => false

/-- A call of a method of a Store. -/
def Act.onStore : Act → Bool
  | .create _ _ _ => true
  | .openStream _ _ => true
  | .delete _ _ => true
  | .closeStore _ => true
  | _ => false

/-- A step of a method of a stream. -/
def Act.onHandle : Act → Bool
  | .append _ _ => true
  | .io _ _ => true
  | .close _ => true
  | .update _ _ => true
  | _ => false

namespace World

/-- A directory on disk that no process has open. -/
def init (disk : Disk) : World :=
  ⟨.ofDisk disk.dir disk.files disk.nextIno, disk.rows, [], [], [], 0, []⟩

def setStore (s : World) (k : Sid) (st : Store) : World := { s with stores := s.stores.set k st }

def setHandle (s : World) (h : Hid) (hd : Handle) : World :=
  { s with handles := s.handles.set h hd }

def setFs (s : World) (fs : LockFs (List Char) UInt8) : World := { s with fs := fs }

/-- Store `k` goes on at `pc`. -/
def goto (s : World) (k : Sid) (st : Store) (pc : StorePc) : World :=
  s.setStore k { st with pc := pc }

/-- The method of Store `k` returns or raises. -/
def finish (s : World) (k : Sid) (st : Store) (r : Except Error (Option Hid)) : World :=
  s.setStore k { st with pc := .idle, result := r }

/-- Process `p` closes what a variable has open. -/
def closeDesc (s : World) (p : Pid) : Option Did → World
  | some d => s.setFs (s.fs.close p d)
  | none => s

/-- The method of Store `k` raises; what it has open is closed. -/
def fail (s : World) (k : Sid) (st : Store) (e : Error) : World :=
  (s.closeDesc st.pid st.pc.desc).finish k st (.error e)

/-- `_close_fds` of a handle whose lock is free. -/
def closeFds (s : World) (h : Hid) (hd : Handle) : World :=
  (s.closeDesc hd.pid hd.file).setHandle h hd.closeFds

/-- `DurableStream.__init__` returns: `_open_stream` registers the handle. -/
def openedStream (s : World) (k : Sid) (st : Store) (o : Opening) (d : Did) (owner : Bool)
    (index : List Nat) : World :=
  let h := s.handles.length
  { s with
    handles := s.handles ++ [{
      store := k, pid := st.pid, w := ⟨o.name, index, o.closed, .idle⟩,
      contentType := o.contentType, file := some d, owner := owner, takenBy := st.pid,
      closing := false, stuck := false, asked := o.asked }]
    stores := s.stores.set k { st with
      opened := st.opened.set o.name h
      pc := if o.created then .dirSync h else .idle
      result := .ok (some h) } }

/-- `_check_type`. -/
def checkType (name : Name) (existing : ContentType) (given : Option ContentType) :
    Option Error :=
  match given with
  | none => none
  | some given =>
      if given ≠ existing then some (.contentTypeMismatch name existing given) else none

variable (path : Name → List Char)

/-- The next call of `DurableStream.__init__`. -/
def ctorStep (s : World) (k : Sid) (st : Store) (o : Opening) (pc : CtorPc) (out : Outcome) :
    World :=
  match pc, out with
  | .openAppend, .ok =>
      (s.setFs (s.fs.openCreate st.pid (path o.name))).goto k st (.ctor o (.lock s.fs.descs.length))
  | .openAppend, .denied => s.goto k st (.ctor o .openRead)
  | .openRead, .ok =>
      match (s.fs.dir (path o.name)).cur with
      | some i =>
          (s.setFs (s.fs.openFile st.pid i)).goto k st (.ctor o (.stat s.fs.descs.length false))
      | none => s.fail k st .osError
  | .lock d, .ok =>
      if s.fs.canLock d then (s.setFs (s.fs.lock d)).goto k st (.ctor o (.stat d true))
      else s.goto k st (.ctor o (.stat d false))
  | .lock d, .denied => (s.setFs (s.fs.close st.pid d)).goto k st (.ctor o .openRead)
  | .stat d owner, .ok => s.goto k st (.ctor o (.scan d owner (s.fs.file d).data.length))
  | .scan d owner size, .ok =>
      match (s.fs.dir (path o.name)).cur with
      | some i =>
          let index := Durastream.scan (s.fs.files i).data size
          if owner ∧ lastMark index ≠ size then s.goto k st (.ctor o (.truncate d index))
          else s.openedStream k st o d owner index
      | none => s.fail k st .osError
  | .truncate d index, .ok =>
      (s.setFs (s.fs.setFile (s.fs.ino d) ((s.fs.file d).truncate (lastMark index)))).goto k st
        (.ctor o (.sync d index))
  | .sync d index, .ok =>
      (s.setFs (s.fs.setFile (s.fs.ino d) (s.fs.file d).sync)).openedStream k st o d true index
  | _, _ => s.fail k st .osError

/-- The next call of the method in progress in Store `k`. -/
def sysStep (s : World) (k : Sid) (st : Store) (out : Outcome) : Option World :=
  match st.pc, out with
  | .idle, _ => none
  | .stuck, _ => none
  | .lookup name given, .ok =>
      if ¬st.metaOpen then some (s.fail k st .storeClosed)
      else
        match s.rows.get name, given with
        | some row, given =>
            match checkType name row.contentType given.join with
            | some e => some (s.fail k st e)
            | none =>
                some (s.goto k st
                  (.ctor ⟨name, row.contentType, row.closed, false, s.history⟩ .openAppend))
        | none, some given =>
            some (s.goto k st (.probe name (.create (given.getD defaultContentType) s.history)))
        | none, none => some (s.fail k st (.keyError name))
  | .probe name why, .ok =>
      match (s.fs.dir (path name)).cur with
      | some i =>
          some ((s.setFs (s.fs.openFile st.pid i)).goto k st
            (.probeLock name why s.fs.descs.length))
      | none => some (s.goto k st (.unlink name why none))
  | .probeLock name why d, .ok =>
      if s.fs.canLock d then some ((s.setFs (s.fs.lock d)).goto k st (.unlink name why (some d)))
      else some (s.fail k st (.streamLocked name))
  | .unlink name why guard, .ok =>
      match (s.fs.dir (path name)).cur with
      | some _ =>
          some ((s.setFs (s.fs.unlink (path name))).goto k st (unlinked name why guard (some true)))
      | none => some (s.goto k st (unlinked name why guard (some false)))
  | .unlink name why (some d), _ => some (s.goto k st (unlinked name why (some d) none))
  | .closeGuard name why d removed, .ok =>
      let s := s.setFs (s.fs.close st.pid d)
      match removed with
      | some removed => some (s.goto k st (purged name why (some removed)))
      | none => some (s.finish k st (.error .osError))
  | .closeGuard _ _ _ _, _ => none
  | .insert name contentType asked, .ok =>
      if ¬st.metaOpen then some (s.fail k st .storeClosed)
      else
        match s.rows.get name with
        | some _ => some (s.fail k st .database) -- the name is the primary key
        | none =>
            some (({ s with
              rows := s.rows.set name ⟨contentType, false⟩
              history := .inserted name s.fs.nextIno :: s.history } : World).goto k st
                (.ctor ⟨name, contentType, false, true, asked⟩ .openAppend))
  | .ctor o pc, out => some (s.ctorStep path k st o pc out)
  | .dirSync h, .ok => some ((s.setFs s.fs.syncDir).finish k st (.ok (some h)))
  | .delClose name h removed, .ok =>
      match s.handles[h]? with
      | some hd =>
          if hd.Free then
            some ((s.closeFds h hd).setStore k
              { st with opened := st.opened.erase name, pc := delNext name removed })
          else none
      | none => none
  | .delClose _ _ _, _ => none
  | .delDirSync name, .ok => some ((s.setFs s.fs.syncDir).goto k st (.delRow name))
  | .delRow name, .ok =>
      if ¬st.metaOpen then some (s.fail k st .storeClosed)
      else some (({ s with rows := s.rows.erase name } : World).finish k st (.ok none))
  | .closing (h :: streams), .ok =>
      match s.handles[h]? with
      | some hd =>
          if hd.Free then some ((s.closeFds h hd).goto k st (.closing streams)) else none
      | none => none
  | .closing [], .ok =>
      some (s.setStore k { st with metaOpen := false, pc := .idle, result := .ok none })
  | .closing _, _ => none
  | pc, _ => some (s.fail k st pc.error)

/-- A method of an idle Store is called. -/
def call (s : World) (k : Sid) (st : Store) : Act → Option World
  | .create _ name given =>
      match checkName name with
      | .error e => some (s.finish k st (.error e))
      | .ok _ =>
          match (st.opened.get name).bind fun h => (s.handles[h]?).map fun hd => (h, hd) with
          | some (h, hd) =>
              match checkType name hd.contentType given with
              | some e => some (s.finish k st (.error e))
              | none => some (s.finish k st (.ok (some h)))
          | none => some (s.goto k st (.lookup name (some given)))
  | .openStream _ name =>
      match st.opened.get name with
      | some h => some (s.finish k st (.ok (some h)))
      | none => some (s.goto k st (.lookup name none))
  | .delete _ name =>
      if ¬st.metaOpen then some (s.finish k st (.error .storeClosed))
      else
        match (st.opened.get name).bind fun h => (s.handles[h]?).map fun hd => (h, hd) with
        | some (h, hd) =>
            if hd.writable then some (s.goto k st (.unlink name (.delete (some h)) none))
            else some (s.goto k st (.probe name (.delete (some h))))
        | none => some (s.goto k st (.probe name (.delete none)))
  | .closeStore _ =>
      some (s.setStore k { st with opened := .empty, pc := .closing st.opened.values })
  | _ => none

/-- Store `k`, if a method of it can be called now. -/
def idleStore (s : World) (k : Sid) : Option Store :=
  match s.stores[k]? with
  | some st => if st.pc = .idle then some st else none
  | none => none

/-- What an append that ended adds to the history. -/
def ackedBy (hd : Handle) (ino : Nat) : Option Fate → List Event
  | some (.returned next) =>
      let batch := hd.w.pc.batch.getD []
      [.acked hd.w.name ino (next - batch.length) batch]
  | _ => []

/-- A call on a handle. -/
def handleStep (s : World) (h : Hid) (hd : Handle) : Act → Option World
  | .append _ payloads =>
      if hd.Free then
        match hd.w.begin hd.writable hd.file.isSome payloads with
        | .started w => some (s.setHandle h { hd with w := w })
        | _ => some s -- it raised or returned without touching the file
      else none
  | .io _ a =>
      match hd.file with
      | some d =>
          match hd.w.step (s.fs.file d) a with
          | some (f, w, fate) =>
              some { s with
                fs := s.fs.setFile (s.fs.ino d) f
                handles := s.handles.set h { hd with w := w }
                history := ackedBy hd (s.fs.ino d) fate ++ s.history }
          | none => none
      | none => none
  | .close _ =>
      if hd.Free then
        if hd.writable then some (s.setHandle h { hd with closing := true })
        else some s -- `StreamLocked`
      else none
  | .update _ ok =>
      if hd.closing then
        match (s.stores[hd.store]?).map Store.metaOpen, ok, hd.file with
        | some true, true, some d =>
            let rows := match s.rows.get hd.w.name with
              | some row => s.rows.set hd.w.name { row with closed := true }
              | none => s.rows
            some { s with
              rows := rows
              handles := s.handles.set h
                { hd with w := { hd.w with closed := true }, closing := false }
              history := .closed hd.w.name (records (s.fs.file d).data) :: s.history }
        | _, _, _ => some (s.setHandle h { hd with closing := false }) -- `DurastreamError`
      else none
  | _ => none

/-- Process `p` forks; its child is a new process. -/
def forkStep (s : World) (p : Pid) : World :=
  { s with
    fs := s.fs.fork p s.nextPid
    stores := s.stores ++ s.stores.map fun st =>
      if st.pid = p then st.forked s.nextPid s.handles.length else st.gone
    handles := s.handles ++ s.handles.map fun hd =>
      if hd.pid = p then hd.forked s.nextPid (s.stores.length + hd.store) else hd.gone
    live := s.nextPid :: s.live
    nextPid := s.nextPid + 1 }

def exitStep (s : World) (p : Pid) : World :=
  { s with
    fs := s.fs.exit p
    stores := s.stores.map fun st => if st.pid = p then st.gone else st
    handles := s.handles.map fun hd => if hd.pid = p then hd.gone else hd
    live := s.live.filter (· ≠ p) }

def step (s : World) : Act → Option World
  | .spawn => some { s with live := s.nextPid :: s.live, nextPid := s.nextPid + 1 }
  | .newStore p =>
      if p ∈ s.live then some { s with stores := s.stores ++ [.new p] } else none
  | .create k name given => (s.idleStore k).bind fun st => s.call k st (.create k name given)
  | .openStream k name => (s.idleStore k).bind fun st => s.call k st (.openStream k name)
  | .delete k name => (s.idleStore k).bind fun st => s.call k st (.delete k name)
  | .closeStore k => (s.idleStore k).bind fun st => s.call k st (.closeStore k)
  | .sys k out => (s.stores[k]?).bind fun st => s.sysStep path k st out
  | .append h payloads => (s.handles[h]?).bind fun hd => s.handleStep h hd (.append h payloads)
  | .io h a => (s.handles[h]?).bind fun hd => s.handleStep h hd (.io h a)
  | .close h => (s.handles[h]?).bind fun hd => s.handleStep h hd (.close h)
  | .update h ok => (s.handles[h]?).bind fun hd => s.handleStep h hd (.update h ok)
  | .fork p => if p ∈ s.live then some (s.forkStep p) else none
  | .exit p => if p ∈ s.live then some (s.exitStep p) else none
  | .powerLoss cell loss =>
      some { s with
        fs := s.fs.powerLoss cell loss
        stores := s.stores.map Store.gone
        handles := s.handles.map Handle.gone
        live := [] }

/-! ## The steps of some calls that succeed -/

/-- A process with a Store, the first of its process. -/
def storeActs (p : Pid) : List Act := [.spawn, .newStore p]

/-- `create` of a name without row and log, in Store `k`. -/
def createActs (k : Sid) (name : Name) : List Act :=
  .create k name none :: List.replicate 9 (.sys k .ok)

/-- `open` of a log without torn tail by a Store that has no handle on it. -/
def openActs (k : Sid) (name : Name) : List Act :=
  .openStream k name :: List.replicate 5 (.sys k .ok)

/-- `append_many` of payloads whose frames have `n` bytes, in one write. -/
def appendActs (h : Hid) (payloads : List Bytes) (n : Nat) : List Act :=
  [.append h payloads, .io h (.write n), .io h (.sync true)]

/-- `delete` by the Store whose handle may write. -/
def deleteActs (k : Sid) (name : Name) : List Act :=
  .delete k name :: List.replicate 4 (.sys k .ok)

/-- `Store.close` of a Store with one handle. -/
def closeActs (k : Sid) : List Act := [.closeStore k, .sys k .ok, .sys k .ok]

/-! ## What closing and raising leave alone -/

section Projections

variable (s : World) (p : Pid) (f : Option Did) (k : Sid) (st : Store) (e : Error) (h : Hid)
  (hd : Handle)

@[simp] theorem rows_closeDesc : (s.closeDesc p f).rows = s.rows := by cases f <;> rfl
@[simp] theorem stores_closeDesc : (s.closeDesc p f).stores = s.stores := by cases f <;> rfl
@[simp] theorem handles_closeDesc : (s.closeDesc p f).handles = s.handles := by cases f <;> rfl
@[simp] theorem live_closeDesc : (s.closeDesc p f).live = s.live := by cases f <;> rfl
@[simp] theorem nextPid_closeDesc : (s.closeDesc p f).nextPid = s.nextPid := by cases f <;> rfl
@[simp] theorem history_closeDesc : (s.closeDesc p f).history = s.history := by cases f <;> rfl
@[simp] theorem dir_closeDesc : (s.closeDesc p f).fs.dir = s.fs.dir := by cases f <;> rfl
@[simp] theorem files_closeDesc : (s.closeDesc p f).fs.files = s.fs.files := by cases f <;> rfl
@[simp] theorem nextIno_closeDesc : (s.closeDesc p f).fs.nextIno = s.fs.nextIno := by
  cases f <;> rfl

@[simp] theorem ino_closeDesc (d : Did) : (s.closeDesc p f).fs.ino d = s.fs.ino d := by
  cases f with
  | none => rfl
  | some e => exact LockFs.ino_close

theorem grows_closeDesc : s.fs.Grows (s.closeDesc p f).fs := by
  cases f with
  | none => exact .refl _
  | some d => exact .close

theorem numbered_closeDesc (hn : s.fs.Numbered) : (s.closeDesc p f).fs.Numbered := by
  cases f with
  | none => exact hn
  | some d => exact hn.close

@[simp] theorem rows_fail : (s.fail k st e).rows = s.rows := rows_closeDesc s _ _
@[simp] theorem handles_fail : (s.fail k st e).handles = s.handles := handles_closeDesc s _ _
@[simp] theorem history_fail : (s.fail k st e).history = s.history := history_closeDesc s _ _

@[simp] theorem stores_fail :
    (s.fail k st e).stores = s.stores.set k { st with pc := .idle, result := .error e } := by
  rw [fail, finish, setStore, stores_closeDesc]

@[simp] theorem rows_closeFds : (s.closeFds h hd).rows = s.rows := rows_closeDesc s _ _
@[simp] theorem stores_closeFds : (s.closeFds h hd).stores = s.stores := stores_closeDesc s _ _
@[simp] theorem history_closeFds : (s.closeFds h hd).history = s.history := history_closeDesc s _ _

@[simp] theorem handles_closeFds :
    (s.closeFds h hd).handles = s.handles.set h hd.closeFds := by
  rw [closeFds, setHandle, handles_closeDesc]

end Projections

end World

end Durastream

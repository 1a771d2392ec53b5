import Durastream.Codec
import Durastream.Lib.Table
import Mathlib.Data.Char
import Mathlib.Data.List.Sort
import Mathlib.Data.List.Lex

/-!
# What a Store is for

The abstract machine behind a directory of streams: a map from names to a content
type, a closed flag and a list of payloads.  It has no rows, logs or indices.

A caller also has handles.  A handle is live while the Store that gave it is open
and its stream is not deleted; a dead one remembers how many payloads it had.  At
most one Store is open; calls on the others, and on dead handles, are refused.

`Streams.step` is undefined where a call names a Store or handle that does not
exist, or makes a Store while one is open.
-/

namespace Durastream

/-- A stream. -/
structure Stream where
  contentType : ContentType
  closed : Bool
  payloads : List Bytes
deriving DecidableEq

/-- What a handle stands for. -/
inductive Ref where
  | live (name : Name)
  /-- Of a deleted stream or a closed Store, with the number of payloads then. -/
  | dead (name : Name) (length : Nat)
deriving DecidableEq

/-- What becomes of a handle when these streams go away. -/
def Ref.bury (gone : Name → Bool) (length : Name → Nat) : Ref → Ref
  | .live name => if gone name then .dead name (length name) else .live name
  | .dead name n => .dead name n

/-- A call of a caller that uses one Store at a time. -/
inductive Op where
  /-- A new Store, in another process or in the one of the last. -/
  | newStore (other : Bool)
  | create (k : Nat) (name : Name) (given : Option ContentType)
  | openStream (k : Nat) (name : Name)
  /-- `append_many`; the system takes the bytes in writes of these sizes and one
  write of the rest. -/
  | append (h : Nat) (payloads : List Bytes) (sizes : List Nat)
  | read (h : Nat) (offset : Int) (stop : Option Int)
  | close (h : Nat)
  | delete (k : Nat) (name : Name)
  | list (k : Nat)
  | closeStore (k : Nat)

/-- Names are accepted by `check_name`, and payloads fit a frame. -/
def Op.Valid : Op → Prop
  | .create _ name _ => checkName name = .ok name
  | .openStream _ name => checkName name = .ok name
  | .delete _ name => checkName name = .ok name
  | .append _ payloads _ => ∀ p ∈ payloads, p.length ≤ maxPayload
  | _ => True

instance (op : Op) : Decidable op.Valid := by
  cases op <;> unfold Op.Valid <;> infer_instance

/-- What a call returns. -/
inductive Value where
  | unit
  | handle (h : Nat)
  | offset (n : Nat)
  | records (rs : List Bytes)
  | names (ns : List Name)
deriving DecidableEq

/-- What a call returns or raises. -/
abbrev Reply := Except Error Value

/-- `ORDER BY name`. -/
def sortNames (names : List Name) : List Name := names.insertionSort (· ≤ ·)

structure Streams where
  streams : Table Name Stream
  handles : List Ref
  /-- How many Stores there have been. -/
  stores : Nat
  /-- The one that is open. -/
  current : Option Nat

namespace Streams

def length (a : Streams) (name : Name) : Nat :=
  (a.streams.get name).elim 0 fun x => x.payloads.length

/-- The live handle of a stream, or a new one. -/
def handle (a : Streams) (name : Name) : Streams × Reply :=
  match a.handles.findIdx? (· = .live name) with
  | some h => (a, .ok (.handle h))
  | none => ({ a with handles := a.handles ++ [.live name] }, .ok (.handle a.handles.length))

/-- The handles of these streams die. -/
def bury (a : Streams) (gone : Name → Bool) : Streams :=
  { a with handles := a.handles.map (Ref.bury gone a.length) }

def create (a : Streams) (name : Name) (given : Option ContentType) : Streams × Reply :=
  match a.streams.get name, given with
  | some x, some given =>
      if given = x.contentType then a.handle name
      else (a, .error (.contentTypeMismatch name x.contentType given))
  | some _, none => a.handle name
  | none, given =>
      { a with
        streams := a.streams.set name ⟨given.getD defaultContentType, false, []⟩ }.handle name

def openStream (a : Streams) (name : Name) : Streams × Reply :=
  match a.streams.get name with
  | some _ => a.handle name
  | none => (a, .error (.keyError name))

def append (a : Streams) (payloads : List Bytes) : Ref → Streams × Reply
  | .live name =>
      match a.streams.get name with
      | some x =>
          if x.closed then (a, .error (.streamClosed name))
          else
            let x := { x with payloads := x.payloads ++ payloads }
            ({ a with streams := a.streams.set name x }, .ok (.offset x.payloads.length))
      | none => (a, .error (.keyError name))
  | .dead name _ => (a, .error (.streamClosed name))

/-- The payloads `i` with `max offset 0 ≤ i < min stop n`. -/
def read (a : Streams) (offset : Int) (stop : Option Int) : Ref → Reply
  | .live name =>
      let payloads := (a.streams.get name).elim [] Stream.payloads
      let stop : Int := stop.elim payloads.length (min · payloads.length)
      .ok (.records ((payloads.take stop.toNat).drop offset.toNat))
  | .dead name n =>
      -- an empty range is read without the file
      if stop.elim (n : Int) (min · n) ≤ max offset 0 then .ok (.records [])
      else .error (.streamClosed name)

def close (a : Streams) : Ref → Streams × Reply
  | .live name =>
      match a.streams.get name with
      | some x => ({ a with streams := a.streams.set name { x with closed := true } }, .ok .unit)
      | none => (a, .error (.keyError name))
  | .dead name _ => (a, .error (.streamLocked name))

def delete (a : Streams) (name : Name) : Streams × Reply :=
  ({ a.bury (· == name) with streams := a.streams.erase name }, .ok .unit)

def closeStore (a : Streams) : Streams := { a.bury fun _ => true with current := none }

/-- A method of Store `k` that needs the database. -/
def onStore (a : Streams) (k : Nat) (call : Streams × Reply) : Option (Streams × Reply) :=
  if a.current = some k then some call
  else if k < a.stores then some (a, .error .storeClosed)
  else none

def step (a : Streams) : Op → Option (Streams × Reply)
  | .newStore _ =>
      if a.current = none then
        some ({ a with stores := a.stores + 1, current := some a.stores }, .ok .unit)
      else none
  | .create k name given => a.onStore k (a.create name given)
  | .openStream k name => a.onStore k (a.openStream name)
  | .append h payloads _ => (a.handles[h]?).map (a.append payloads)
  | .read h offset stop => (a.handles[h]?).map fun r => (a, a.read offset stop r)
  | .close h => (a.handles[h]?).map a.close
  | .delete k name => a.onStore k (a.delete name)
  | .list k => a.onStore k (a, .ok (.names (sortNames a.streams.keys)))
  | .closeStore k =>
      if a.current = some k then some (a.closeStore, .ok .unit)
      else if k < a.stores then some (a, .ok .unit)
      else none

end Streams

end Durastream

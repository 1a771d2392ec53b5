import Mathlib.Algebra.GroupWithZero.Nat
import Mathlib.Data.List.Basic

/-!
# Names, content types and errors

A string is a list of code points.  `checkName` accepts what the pattern
`[a-z0-9._-]+` matches in full.

`Error` has one constructor per text the library raises, with the values the
text is built from.
-/

namespace Durastream

/-- A stream name: a Python string. -/
abbrev Name := List Char

/-- A content type: a Python string. -/
abbrev ContentType := List Char

/-- `application/octet-stream`. -/
def defaultContentType : ContentType :=
  ['a', 'p', 'p', 'l', 'i', 'c', 'a', 't', 'i', 'o', 'n', '/',
   'o', 'c', 't', 'e', 't', '-', 's', 't', 'r', 'e', 'a', 'm']

/-- The character class `[a-z0-9._-]`. -/
def nameChar (c : Char) : Bool :=
  ('a' ≤ c && c ≤ 'z') || ('0' ≤ c && c ≤ '9') || c == '.' || c == '_' || c == '-'

/-- The exceptions the library raises, with the values in their texts. -/
inductive Error where
  /-- `ValueError`: `payload too large: {size} bytes`. -/
  | payloadTooLarge (size : Nat)
  /-- `ValueError`: `invalid stream name {name!r}: use lowercase letters, ...`. -/
  | invalidName (name : Name)
  /-- `ValueError`: `content_type mismatch for {name!r}: {existing!r} != {given!r}`. -/
  | contentTypeMismatch (name : Name) (existing given : ContentType)
  /-- `KeyError(name)`. -/
  | keyError (name : Name)
  /-- `StreamClosed(name)`. -/
  | streamClosed (name : Name)
  /-- `StreamLocked(name)`. -/
  | streamLocked (name : Name)
  /-- `CorruptStream`: `{name}: log is shorter than its index`. -/
  | logTooShort (name : Name)
  /-- `CorruptStream`: `{name}: record {record} fails its checksum`. -/
  | badChecksum (name : Name) (record : Int)
  /-- `DurastreamError`: `store is closed`. -/
  | storeClosed
  /-- `DurastreamError` around a `sqlite3.Error`. -/
  | database
  /-- `OSError` from a file operation. -/
  | osError
  /-- `DurastreamError`: `batch writer is closed`. -/
  | batchWriterClosed
deriving DecidableEq, Repr

/-- Return `name` if it is a valid new stream name. -/
def checkName (name : Name) : Except Error Name :=
  if name ≠ [] ∧ name.all nameChar then .ok name else .error (.invalidName name)

/-- `os.path.join(streams, name + ".log")`, as an entry of the streams directory. -/
def logEntry (name : Name) : List Char := name ++ ['.', 'l', 'o', 'g']

/-- Two names never share a log. -/
theorem logEntry_injective : Function.Injective logEntry := fun _ _ h =>
  List.append_cancel_right h

end Durastream

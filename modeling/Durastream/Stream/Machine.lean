import Durastream.Lib.Lts
import Durastream.Stream.Writer

/-!
# One log over whole runs

A log file, the handle that owns its lock, the read-only views other Stores and
processes have of it, and everything that can happen to them, one system call at
a time.

* `openOwner` is `DurableStream.__init__` with the lock taken, up to and with the
  scan.  If the scan ends before the end of the file, `_recover` truncates and
  syncs in two further calls, and an `OSError` in either ends the opening.
* `openView` is the same without the lock.  `size` is what `fstat` said; the file
  may have grown or shrunk between that call and the scan.
* `append` and `io` are `append_many`.  The lock of the handle is held from the
  first write on, so nothing else happens on the owner's handle meanwhile.
* `closeOwner` is `_close_fds`, `crash` the end of the owner's process, which
  keeps every written byte, and `powerLoss` the end of the machine, which does
  not.

`attempts` records every append that got as far as writing, newest first, with
how it ended.  The code has no such record; the theorems are about it.
-/

namespace Durastream

/-- An append that got as far as writing. -/
structure Attempt where
  batch : List Bytes
  fate : Fate
deriving DecidableEq

/-- The handle that has the log's lock. -/
inductive Owner where
  | absent
  /-- In `_recover`, before the `ftruncate` of a torn tail. -/
  | recTruncate (w : Writer)
  /-- In `_recover`, before the sync. -/
  | recSync (w : Writer)
  | live (w : Writer)
deriving DecidableEq

structure LogState where
  name : Name
  file : CrashFile UInt8
  owner : Owner
  /-- The indexes of the read-only views. -/
  views : List (List Nat)
  attempts : List Attempt

inductive LogAct where
  | openOwner (closed : Bool)
  | openView (size : Nat)
  | closeView (i : Nat)
  | append (payloads : List Bytes)
  | io (a : IoAct)
  | closeOwner
  | crash
  | powerLoss (i k m : Nat)

namespace LogState

/-- A log on disk that nobody has open. -/
def init (name : Name) (d : Bytes) : LogState := ⟨name, .ofDisk d, .absent, [], []⟩

/-- The append a crash cuts off, if one is in progress. -/
def pending (s : LogState) : List Attempt :=
  match s.owner with
  | .live w => w.pc.batch.toList.map fun b => ⟨b, .torn⟩
  | _ => []

/-- The attempt a call ends, if it ends one. -/
def ended (pc : AppendPc) (fate : Option Fate) : List Attempt :=
  fate.toList.map fun x => ⟨pc.batch.getD [], x⟩

/-- The owner as `__init__` leaves it after the scan. -/
def opened (s : LogState) (closed : Bool) : Owner :=
  let index := scan s.file.data s.file.data.length
  let w : Writer := ⟨s.name, index, closed, .idle⟩
  if lastMark index ≠ s.file.data.length then .recTruncate w else .live w

def step (s : LogState) : LogAct → Option LogState
  | .openOwner closed =>
      match s.owner with
      | .absent => some { s with owner := s.opened closed }
      | _ => none
  | .openView size => some { s with views := s.views ++ [scan s.file.data size] }
  | .closeView i => some { s with views := s.views.eraseIdx i }
  | .append payloads =>
      match s.owner with
      | .live w =>
          if w.pc = .idle then
            match w.begin true true payloads with
            | .started w' => some { s with owner := .live w' }
            | _ => some s -- it raised or returned without touching the file
          else none
      | _ => none
  | .io a =>
      match s.owner, a with
      | .recTruncate w, .truncate true =>
          some { s with file := s.file.truncate (lastMark w.index), owner := .recSync w }
      | .recTruncate _, .truncate false => some { s with owner := .absent }
      | .recSync w, .sync true => some { s with file := s.file.sync, owner := .live w }
      | .recSync _, .sync false => some { s with owner := .absent }
      | .live w, a =>
          match w.step s.file a with
          | some (f, w', fate) =>
              some { s with
                file := f, owner := .live w', attempts := ended w.pc fate ++ s.attempts }
          | none => none
      | _, _ => none
  | .closeOwner =>
      match s.owner with
      | .live w => if w.pc = .idle then some { s with owner := .absent } else none
      | _ => none
  | .crash => some { s with owner := .absent, attempts := s.pending ++ s.attempts }
  | .powerLoss i k m =>
      some { s with
        file := s.file.powerLoss i k m, owner := .absent, views := [],
        attempts := s.pending ++ s.attempts }

/-- What a step can do. -/
inductive Step (s : LogState) : LogAct → LogState → Prop where
  | openOwner (closed : Bool) :
      s.owner = .absent → Step s (.openOwner closed) { s with owner := s.opened closed }
  | openView (size : Nat) :
      Step s (.openView size) { s with views := s.views ++ [scan s.file.data size] }
  | closeView (i : Nat) : Step s (.closeView i) { s with views := s.views.eraseIdx i }
  | refused (payloads : List Bytes) : Step s (.append payloads) s
  | started (payloads : List Bytes) (w w' : Writer) :
      s.owner = .live w → w.pc = .idle → w.begin true true payloads = .started w' →
      Step s (.append payloads) { s with owner := .live w' }
  | recCut (w : Writer) :
      s.owner = .recTruncate w →
      Step s (.io (.truncate true))
        { s with file := s.file.truncate (lastMark w.index), owner := .recSync w }
  | recFailed (w : Writer) (a : IoAct) :
      s.owner = .recTruncate w ∨ s.owner = .recSync w → Step s (.io a) { s with owner := .absent }
  | recSynced (w : Writer) :
      s.owner = .recSync w →
      Step s (.io (.sync true)) { s with file := s.file.sync, owner := .live w }
  | io (w w' : Writer) (a : IoAct) (f : CrashFile UInt8) (fate : Option Fate) :
      s.owner = .live w → Writer.Step s.file w f w' fate →
      Step s (.io a)
        { s with file := f, owner := .live w', attempts := ended w.pc fate ++ s.attempts }
  | closeOwner (w : Writer) :
      s.owner = .live w → w.pc = .idle → Step s .closeOwner { s with owner := .absent }
  | crash : Step s .crash { s with owner := .absent, attempts := s.pending ++ s.attempts }
  | powerLoss (i k m : Nat) :
      Step s (.powerLoss i k m)
        { s with
          file := s.file.powerLoss i k m, owner := .absent, views := [],
          attempts := s.pending ++ s.attempts }

theorem step_io {s t : LogState} {a : IoAct} (h : s.step (.io a) = some t) : Step s (.io a) t := by
  cases howner : s.owner with
  | absent => simp [step, howner] at h
  | recTruncate w =>
      cases a with
      | truncate ok =>
          cases ok with
          | true =>
              simp only [step, howner, Option.some.injEq] at h
              exact h ▸ .recCut w howner
          | false =>
              simp only [step, howner, Option.some.injEq] at h
              exact h ▸ .recFailed w _ (.inl howner)
      | _ => simp [step, howner] at h
  | recSync w =>
      cases a with
      | sync ok =>
          cases ok with
          | true =>
              simp only [step, howner, Option.some.injEq] at h
              exact h ▸ .recSynced w howner
          | false =>
              simp only [step, howner, Option.some.injEq] at h
              exact h ▸ .recFailed w _ (.inr howner)
      | _ => simp [step, howner] at h
  | live w =>
      simp only [step, howner] at h
      split at h
      · next f w' fate hw =>
          cases h
          exact .io w w' a f fate howner (Writer.step_cases hw)
      · cases h

theorem step_cases {s t : LogState} {a : LogAct} (h : s.step a = some t) : Step s a t := by
  cases a with
  | openOwner closed =>
      cases howner : s.owner with
      | absent =>
          simp only [step, howner, Option.some.injEq] at h
          exact h ▸ .openOwner closed howner
      | _ => simp [step, howner] at h
  | openView size =>
      cases h
      exact .openView size
  | closeView i =>
      cases h
      exact .closeView i
  | append payloads =>
      cases howner : s.owner with
      | live w =>
          simp only [step, howner] at h
          split at h
          · next hidle =>
              split at h
              · next w' hbegin =>
                  cases h
                  exact .started payloads w w' howner hidle hbegin
              · cases h
                exact .refused payloads
          · cases h
      | _ => simp [step, howner] at h
  | io a => exact step_io h
  | closeOwner =>
      cases howner : s.owner with
      | live w =>
          simp only [step, howner] at h
          split at h
          · next hidle =>
              cases h
              exact .closeOwner w howner hidle
          · cases h
      | _ => simp [step, howner] at h
  | crash =>
      cases h
      exact .crash
  | powerLoss i k m =>
      cases h
      exact .powerLoss i k m

end LogState

end Durastream

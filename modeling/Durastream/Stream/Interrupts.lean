import Durastream.Stream.Durability

/-!
# Appends that anything may interrupt

`_append_locked` catches `OSError`.  Any other exception, such as the
`KeyboardInterrupt` a signal raises between two bytecodes, leaves it at once: the
lock is released, nothing is rolled back and the handle is not disabled.
`HandleAct.interrupt` is such an exception in or before the system call an append
is at, and `HandleAct.close` is `DurableStream.close`; all else is as before.

An interrupt is `Clean` if it leaves no byte of the batch in the file.
`append_all_or_nothing` says that appends are all or nothing in every run whose
interrupts are clean, and `interrupted_append` that they are not in others.  The
same invariant as without interrupts carries the proof.
-/

namespace Durastream

/-! ## Steps -/

/-- An exception that is no `OSError`, in or before the call an append is at: of a
write that has put `n` bytes into the file, or of a sync or truncate that was done
or not. -/
def Writer.interrupt (f : CrashFile UInt8) (w : Writer) (n : Nat) (done : Bool) :
    Option (CrashFile UInt8 × Writer) :=
  match w.pc with
  | .idle => none
  | .writing _ rest =>
      if n ≤ rest.length then some (f.write (rest.take n), { w with pc := .idle }) else none
  | .syncing _ => some (if done then f.sync else f, { w with pc := .idle })
  | .rollTruncate _ =>
      some (if done then f.truncate (lastMark w.index) else f, { w with pc := .idle })
  | .rollSync _ => some (if done then f.sync else f, { w with pc := .idle })

/-- The interrupt leaves no byte of the batch in the file: none has been written,
or the rollback has cut them off. -/
def Writer.Clean (f : CrashFile UInt8) (w : Writer) (n : Nat) (done : Bool) : Prop :=
  match w.pc with
  | .writing _ _ => n = 0 ∧ f.data.length = lastMark w.index
  | .syncing _ => False
  | .rollTruncate _ => done = true ∨ f.data.length = lastMark w.index
  | _ => True

instance (f : CrashFile UInt8) (w : Writer) (n : Nat) (done : Bool) :
    Decidable (w.Clean f n done) := by
  unfold Writer.Clean
  split <;> infer_instance

inductive HandleAct where
  | log (a : LogAct)
  | interrupt (n : Nat) (done : Bool)
  | close

/-- What the call of an append in progress, and the views, can do. -/
def HandleAct.duringCall : HandleAct → Bool
  | .log (.io _) => true
  | .log (.openView _) => true
  | .log (.closeView _) => true
  | .interrupt _ _ => true
  | _ => false

namespace LogState

def handleStep (s : LogState) : HandleAct → Option LogState
  | .log a => s.step a
  | .interrupt n done =>
      match s.owner with
      | .live w =>
          match w.interrupt s.file n done with
          | some (f, w') =>
              some { s with
                file := f, owner := .live w'
                attempts := ended w.pc (some .torn) ++ s.attempts }
          | none => none
      | _ => none
  | .close =>
      match s.owner with
      | .live w =>
          if w.pc = .idle then some { s with owner := .live { w with closed := true } } else none
      | _ => none

/-- Whatever interrupts the owner's handle is clean. -/
def Clean (s : LogState) : HandleAct → Prop
  | .interrupt n done =>
      match s.owner with
      | .live w => w.Clean s.file n done
      | _ => True
  | _ => True

instance (s : LogState) (a : HandleAct) : Decidable (s.Clean a) := by
  unfold Clean
  split
  · split <;> infer_instance
  · infer_instance

/-- What a step can do beyond the steps of the log. -/
inductive HandleStep (s : LogState) : HandleAct → LogState → Prop where
  | log (a : LogAct) (t : LogState) : Step s a t → HandleStep s (.log a) t
  | interrupt (w w' : Writer) (f : CrashFile UInt8) (n : Nat) (done : Bool) :
      s.owner = .live w → w.interrupt s.file n done = some (f, w') →
      HandleStep s (.interrupt n done)
        { s with
          file := f, owner := .live w', attempts := ended w.pc (some .torn) ++ s.attempts }
  | close (w : Writer) :
      s.owner = .live w → w.pc = .idle →
      HandleStep s .close { s with owner := .live { w with closed := true } }

theorem handleStep_cases {s t : LogState} {a : HandleAct} (h : s.handleStep a = some t) :
    HandleStep s a t := by
  cases a with
  | log a => exact .log a t (step_cases h)
  | interrupt n done =>
      cases howner : s.owner with
      | live w =>
          simp only [handleStep, howner] at h
          split at h
          · next f w' hw =>
              cases h
              exact .interrupt w w' f n done howner hw
          · cases h
      | _ => simp [handleStep, howner] at h
  | close =>
      cases howner : s.owner with
      | live w =>
          simp only [handleStep, howner] at h
          split at h
          · next hidle =>
              cases h
              exact .close w howner hidle
          · cases h
      | _ => simp [handleStep, howner] at h

end LogState

/-! ## Interrupts that leave nothing -/

/-- An interrupt ends the append and changes nothing else of the handle. -/
theorem Writer.interrupt_eq {f f' : CrashFile UInt8} {w w' : Writer} {n : Nat} {done : Bool}
    (h : w.interrupt f n done = some (f', w')) :
    (∃ b, w.pc.batch = some b) ∧ w' = { w with pc := .idle } := by
  cases hpc : w.pc with
  | idle => simp [Writer.interrupt, hpc] at h
  | writing b rest =>
      simp only [Writer.interrupt, hpc] at h
      split at h
      · cases h
        exact ⟨⟨b, rfl⟩, rfl⟩
      · cases h
  | _ =>
      simp only [Writer.interrupt, hpc, Option.some.injEq, Prod.mk.injEq] at h
      exact ⟨⟨_, rfl⟩, h.2.symm⟩

/-- A clean interrupt leaves the indexed records and nothing else. -/
theorem Writer.interrupt_data {rs : List Bytes} {f f' : CrashFile UInt8} {w w' : Writer} {n : Nat}
    {done : Bool} (hok : w.Ok f.data rs) (hclean : w.Clean f n done)
    (h : w.interrupt f n done = some (f', w')) : f'.data = frames rs := by
  have hfile := hok.file
  have hwhole : f.data.length = lastMark w.index → f.data = frames rs := by
    intro hlen
    rw [hok.index, lastMark_marks] at hlen
    exact (hok.isPrefix.eq_of_length hlen.symm).symm
  cases hpc : w.pc with
  | idle => simp [Writer.interrupt, hpc] at h
  | writing b rest =>
      simp only [Writer.Clean, hpc] at hclean
      obtain ⟨rfl, hlen⟩ := hclean
      simp only [Writer.interrupt, hpc, Nat.zero_le, if_true, List.take_zero] at h
      cases h
      rw [CrashFile.data_write, List.append_nil, hwhole hlen]
  | syncing b => simp only [Writer.Clean, hpc] at hclean
  | rollTruncate b =>
      simp only [Writer.Clean, hpc] at hclean
      simp only [Writer.interrupt, hpc, Option.some.injEq, Prod.mk.injEq] at h
      obtain ⟨rfl, -⟩ := h
      cases done with
      | true => exact hok.data_cut.2
      | false => exact hwhole (by simpa using hclean)
  | rollSync b =>
      rw [hpc] at hfile
      simp only [Writer.interrupt, hpc, Option.some.injEq, Prod.mk.injEq] at h
      obtain ⟨rfl, -⟩ := h
      cases done <;> exact hfile.2.2

/-- Whatever a power loss leaves after an interrupt was accounted for before it. -/
theorem Writer.interrupt_disk {rs₀ rs : List Bytes} {as : List Attempt} {f f' : CrashFile UInt8}
    {w w' : Writer} {n : Nat} {done : Bool} (hok : w.Ok f.data rs) (has : Accounts rs₀ as rs)
    (hdisk : DiskAccounts rs₀ f (w.pending ++ as)) (hclean : w.Clean f n done)
    (h : w.interrupt f n done = some (f', w')) : DiskAccounts rs₀ f' (w.pending ++ as) := by
  have hfile := hok.file
  cases hpc : w.pc with
  | idle => simp [Writer.interrupt, hpc] at h
  | writing b rest =>
      simp only [Writer.Clean, hpc] at hclean
      simp only [Writer.interrupt, hpc, hclean.1, Nat.zero_le, if_true, List.take_zero] at h
      cases h
      refine CrashFile.Every.write hdisk fun k => ?_
      rw [List.take_nil, List.append_nil]
      exact hdisk.data
  | rollTruncate b =>
      simp only [Writer.interrupt, hpc, Option.some.injEq, Prod.mk.injEq] at h
      obtain ⟨rfl, -⟩ := h
      cases done with
      | true =>
          rw [hpc] at hfile
          obtain ⟨hfit, -, t, ht, hdata⟩ := hfile
          refine CrashFile.Every.truncate hok.data_cut.1 hdisk ?_
          intro k hk
          rw [hok.index, lastMark_marks] at hk
          have htake := List.take_prefix (k - (frames rs).length) t
          rw [hdata, List.take_append, List.take_of_length_le hk, Writer.pending, hpc]
          exact accounts_part hok.fits hfit has (htake.trans ht)
      | false => exact hdisk
  | _ =>
      simp only [Writer.interrupt, hpc, Option.some.injEq, Prod.mk.injEq] at h
      obtain ⟨rfl, -⟩ := h
      cases done with
      | true => exact CrashFile.Every.sync hdisk.data
      | false => exact hdisk

namespace LogState.Durable

variable {rs₀ : List Bytes} {s t : LogState}

/-- Every step whose interrupt is clean keeps disk and index accounted for. -/
theorem handleStep {a : HandleAct} (h : s.Durable rs₀) (hclean : s.Clean a)
    (hstep : LogState.HandleStep s a t) : t.Durable rs₀ := by
  cases hstep with
  | log a t hs => exact h.step hs
  | interrupt w w' f n done howner hw =>
      obtain ⟨hdisk, hown⟩ := h
      rw [howner] at hown
      rw [pending, howner] at hdisk
      simp only [Clean, howner] at hclean
      obtain ⟨rs, hok, has⟩ := hown
      obtain ⟨⟨b, hb⟩, rfl⟩ := Writer.interrupt_eq hw
      have hdata := Writer.interrupt_data hok hclean hw
      have hdisk' := Writer.interrupt_disk hok has hdisk hclean hw
      have hended : ended w.pc (some .torn) = [⟨b, .torn⟩] := by
        rw [ended, hb]
        rfl
      have hpending : w.pending = [⟨b, .torn⟩] := by
        rw [Writer.pending, hb]
        rfl
      rw [hpending] at hdisk'
      rw [hended]
      refine ⟨hdisk', rs, ⟨hok.fits, hok.index, ?_⟩, has.torn_nothing⟩
      exact ⟨⟨[], by rw [List.append_nil]; exact hdata.symm⟩, fun _ => hdata⟩
  | close w howner hidle =>
      obtain ⟨hdisk, hown⟩ := h
      rw [howner] at hown
      rw [pending, howner] at hdisk
      obtain ⟨rs, hok, has⟩ := hown
      exact ⟨hdisk, rs, hok.close hidle, has⟩

end LogState.Durable

/-! ## All or nothing -/

/-- The next offset an append returned, or `none` if it raised: it ended in `t`
on a handle that was `w` before it. -/
def callEnd (w : Writer) (payloads : List Bytes) (t : LogState) : Option Nat :=
  match w.begin true true payloads with
  | .raised _ => none
  | .returned next => some next
  | .started _ =>
      match t.attempts.head? with
      | some ⟨_, .returned next⟩ => some next
      | _ => none

/-- An append from `s`, whose handle is `w`, to `t`, whose handle is `v`, has
given its whole batch or nothing. -/
def AllOrNothing (s : LogState) (w : Writer) (payloads : List Bytes) (t : LogState)
    (v : Writer) : Prop :=
  match callEnd w payloads t with
  | some next =>
      t.file.data = s.file.data ++ frames payloads ∧
        v.index = w.index ++ frameEnds (lastMark w.index) payloads ∧ next = nextOffset v.index
  | none =>
      v.index = w.index ∧
        (t.file.data = s.file.data ∧ t.file.data.length = lastMark v.index ∨ v.closed = true)

/-- A closed handle refuses every append. -/
theorem Writer.begin_of_closed {w : Writer} (h : w.closed = true) (writable isOpen : Bool)
    (payloads : List Bytes) : ∃ e, w.begin writable isOpen payloads = .raised e := by
  unfold Writer.begin
  split
  · exact ⟨_, rfl⟩
  · rw [if_pos h]
    exact ⟨_, rfl⟩

/-- The append of `payloads` that began in `s` on the handle `w` is in progress in
`t`, where the handle is `v`. -/
structure InCall (s : LogState) (w : Writer) (payloads : List Bytes) (t : LogState)
    (v : Writer) : Prop where
  begun : ∃ w', w.begin true true payloads = .started w'
  batch : v.pc.batch = some payloads
  index : v.index = w.index
  ok : ∃ rs, v.Ok t.file.data rs ∧ s.file.data = frames rs

/-- The append is in progress, or it has ended as it should. -/
def Underway (s : LogState) (w : Writer) (payloads : List Bytes) (t : LogState) : Prop :=
  ∃ v, t.owner = .live v ∧
    (InCall s w payloads t v ∨ v.pc = .idle ∧ AllOrNothing s w payloads t v)

variable {s t u : LogState} {w v v' : Writer} {payloads rs rs₀ : List Bytes}
  {f' : CrashFile UInt8}

theorem InCall.busy (h : InCall s w payloads t v) : v.pc ≠ .idle := by
  intro hidle
  have hbatch := h.batch
  rw [hidle] at hbatch
  cases hbatch

/-- A call of an append in progress goes on with it or ends it as it should. -/
theorem InCall.io {fate : Option Fate} (h : InCall s w payloads t v)
    (hstep : Writer.Step t.file v f' v' fate) :
    Underway s w payloads
      { t with
        file := f', owner := .live v', attempts := LogState.ended v.pc fate ++ t.attempts } := by
  obtain ⟨⟨w', hstart⟩, hbatch, hindex, rs, hok, hdata⟩ := h
  have hends := hstep.ends
  have hok' := hok.step hstep
  refine ⟨v', rfl, ?_⟩
  cases fate with
  | none =>
      obtain ⟨hsame, hindex'⟩ := hends
      exact .inl ⟨⟨w', hstart⟩, hsame.trans hbatch, hindex'.trans hindex, rs, hok', hdata⟩
  | some fate =>
      refine .inr ?_
      rw [AllOrNothing, callEnd, hstart]
      cases fate with
      | returned next =>
          obtain ⟨hidle, hindex', hnext⟩ := hends
          obtain ⟨b, hb, -, rfl, hwritten⟩ := hok.returned hstep
          rw [hbatch, Option.some.injEq] at hb
          subst hb
          rw [hbatch, Option.getD_some, hindex] at hindex'
          refine ⟨hidle, ?_, hindex', hnext⟩
          rw [CrashFile.data_sync, hwritten, frames_append, hdata]
      | rolledBack =>
          obtain ⟨hidle, hindex', hclosed⟩ := hends
          have hfile := hok'.file
          rw [hidle] at hfile
          have hback := hfile.2 (hclosed.trans (hok.closed_of_busy hstep.busy))
          refine ⟨hidle, hindex'.trans hindex, .inl ⟨hback.trans hdata.symm, ?_⟩⟩
          rw [hback, hok'.index, lastMark_marks]
      | torn =>
          obtain ⟨hidle, hindex', hclosed⟩ := hends
          exact ⟨hidle, hindex'.trans hindex, .inr hclosed⟩

/-- A clean interrupt ends an append as it should. -/
theorem InCall.interrupt {n : Nat} {done : Bool} (h : InCall s w payloads t v)
    (hclean : v.Clean t.file n done) (hint : v.interrupt t.file n done = some (f', v')) :
    Underway s w payloads
      { t with
        file := f', owner := .live v'
        attempts := LogState.ended v.pc (some .torn) ++ t.attempts } := by
  obtain ⟨⟨w', hstart⟩, -, hindex, rs, hok, hdata⟩ := h
  have hafter := Writer.interrupt_data hok hclean hint
  obtain ⟨-, rfl⟩ := Writer.interrupt_eq hint
  refine ⟨_, rfl, .inr ⟨rfl, ?_⟩⟩
  rw [AllOrNothing, callEnd, hstart]
  refine ⟨hindex, .inl ⟨hafter.trans hdata.symm, ?_⟩⟩
  show f'.data.length = lastMark v.index
  rw [hafter, hok.index, lastMark_marks]

/-- Every step during the call goes on with the append or ends it as it should. -/
theorem Underway.step {a : HandleAct} (h : Underway s w payloads t) (hcall : a.duringCall = true)
    (hclean : t.Clean a) (hstep : LogState.HandleStep t a u) : Underway s w payloads u := by
  obtain ⟨v, howner, hv⟩ := h
  have hbusy : ∀ {x : Writer}, t.owner = .live x → x.pc ≠ .idle →
      InCall s w payloads t v ∧ x = v := by
    intro x hx hne
    rw [howner] at hx
    cases hx
    rcases hv with hin | ⟨hpc, -⟩
    · exact ⟨hin, rfl⟩
    · exact absurd hpc hne
  cases hstep with
  | log a u hs =>
      cases hs with
      | openView size => exact ⟨v, howner, hv.imp (fun h => ⟨h.begun, h.batch, h.index, h.ok⟩) id⟩
      | closeView i => exact ⟨v, howner, hv.imp (fun h => ⟨h.begun, h.batch, h.index, h.ok⟩) id⟩
      | io x x' a f fate hx hw =>
          obtain ⟨hin, rfl⟩ := hbusy hx hw.busy
          exact hin.io hw
      | recCut x hx =>
          rw [howner] at hx
          cases hx
      | recFailed x a hx =>
          rw [howner] at hx
          rcases hx with hx | hx <;> cases hx
      | recSynced x hx =>
          rw [howner] at hx
          cases hx
      | _ => cases hcall
  | interrupt x x' f n done hx hint =>
      have hne : x.pc ≠ .idle := by
        obtain ⟨⟨b, hb⟩, -⟩ := Writer.interrupt_eq hint
        intro hidle
        rw [hidle] at hb
        cases hb
      obtain ⟨hin, rfl⟩ := hbusy hx hne
      simp only [LogState.Clean, howner] at hclean
      exact hin.interrupt hclean hint
  | close x hx hpc => cases hcall

/-- An append returns at once only if the batch is empty. -/
theorem Writer.begin_returned {next : Nat} (h : w.begin true true payloads = .returned next) :
    payloads = [] ∧ next = nextOffset w.index := by
  by_cases hnil : payloads = []
  · subst hnil
    rw [Writer.begin_of_fits Fits.nil] at h
    split at h
    · cases h
    · cases h
      exact ⟨rfl, rfl⟩
  · exact absurd h (Writer.begin_ne_returned hnil)

/-- An append that begins is in progress or has ended as it should. -/
theorem Underway.begin (howner : s.owner = .live w) (hidle : w.pc = .idle)
    (hok : w.Ok s.file.data rs) (hstep : s.step (.append payloads) = some t) :
    Underway s w payloads t := by
  have hfile := hok.file
  rw [hidle] at hfile
  simp only [LogState.step, howner, hidle, if_true] at hstep
  cases hbegin : w.begin true true payloads with
  | started w' =>
      simp only [hbegin, Option.some.injEq] at hstep
      subst hstep
      have hok' := hok.begin hidle hbegin
      obtain ⟨hopen, -, -, -, -, rfl⟩ := Writer.begin_started hbegin
      exact ⟨_, rfl, .inl ⟨⟨_, hbegin⟩, rfl, rfl, rs, hok', hfile.2 hopen⟩⟩
  | raised e =>
      simp only [hbegin, Option.some.injEq] at hstep
      subst hstep
      refine ⟨w, howner, .inr ⟨hidle, ?_⟩⟩
      rw [AllOrNothing, callEnd, hbegin]
      cases hclosed : w.closed with
      | true => exact ⟨rfl, .inr rfl⟩
      | false =>
          refine ⟨rfl, .inl ⟨rfl, ?_⟩⟩
          rw [hfile.2 hclosed, hok.index, lastMark_marks]
  | returned next =>
      simp only [hbegin, Option.some.injEq] at hstep
      subst hstep
      obtain ⟨rfl, rfl⟩ := Writer.begin_returned hbegin
      refine ⟨w, howner, .inr ⟨hidle, ?_⟩⟩
      rw [AllOrNothing, callEnd, hbegin]
      exact ⟨(List.append_nil _).symm, (List.append_nil _).symm, rfl⟩

/-- The handle is closed, or it is gone. -/
def ClosedOrGone (s : LogState) : Prop :=
  s.owner = .absent ∨ ∃ v, s.owner = .live v ∧ v.closed = true

/-- A closed handle stays closed for as long as it is there. -/
theorem ClosedOrGone.step {a : HandleAct} (h : ClosedOrGone t)
    (hopen : ∀ c, a ≠ .log (.openOwner c)) (hstep : LogState.HandleStep t a u) :
    ClosedOrGone u := by
  have hlive : ∀ {x : Writer}, t.owner = .live x → x.closed = true := by
    intro x hx
    rcases h with habsent | ⟨v, howner, hclosed⟩
    · rw [habsent] at hx
      cases hx
    · rw [howner] at hx
      cases hx
      exact hclosed
  cases hstep with
  | log a u hs =>
      cases hs with
      | openOwner c hx => exact absurd rfl (hopen c)
      | openView size => exact h
      | closeView i => exact h
      | refused p => exact h
      | started p x x' hx hpc hbegin =>
          have hclosed := (Writer.begin_started hbegin).1
          rw [hlive hx] at hclosed
          cases hclosed
      | recCut x hx => rcases h with h | ⟨v, h, -⟩ <;> rw [h] at hx <;> cases hx
      | recFailed x a hx => exact .inl rfl
      | recSynced x hx => rcases h with h | ⟨v, h, -⟩ <;> rw [h] at hx <;> cases hx
      | io x x' a f fate hx hw => exact .inr ⟨x', rfl, hw.closed_mono (hlive hx)⟩
      | closeOwner x hx hpc => exact .inl rfl
      | crash => exact .inl rfl
      | powerLoss i k m => exact .inl rfl
  | interrupt x x' f n done hx hint =>
      have hclosed := hlive hx
      obtain ⟨-, rfl⟩ := Writer.interrupt_eq hint
      exact .inr ⟨_, rfl, hclosed⟩
  | close x hx hpc => exact .inr ⟨_, rfl, rfl⟩

/-- In every run whose interrupts are clean, an append gives its whole batch or
nothing; a handle that is disabled refuses every append for as long as it lives;
and the live handle, also one that has reopened the log, returns every
acknowledged batch at the offset that `append_many` returned. -/
theorem append_all_or_nothing (name : Name) (d : Bytes) (acts : List HandleAct) (s : LogState)
    (w : Writer) (hrun : Lts.run LogState.handleStep (.init name d) acts = some s)
    (hclean : Lts.Meets LogState.handleStep LogState.Clean (.init name d) acts)
    (howner : s.owner = .live w) :
    (w.pc = .idle → ∀ payloads more t v, (∀ a ∈ more, HandleAct.duringCall a = true) →
      Lts.run LogState.handleStep s (.log (.append payloads) :: more) = some t →
      Lts.Meets LogState.handleStep LogState.Clean s (.log (.append payloads) :: more) →
      t.owner = .live v → v.pc = .idle → AllOrNothing s w payloads t v) ∧
    (w.closed = true → ∀ more t v, (∀ a ∈ more, ∀ c, a ≠ .log (.openOwner c)) →
      Lts.run LogState.handleStep s more = some t → t.owner = .live v →
      ∀ payloads, ∃ e, v.begin true true payloads = .raised e) ∧
    ∀ b (next : Nat), ⟨b, .returned next⟩ ∈ s.attempts →
      read w.name true s.file.data w.index (next - b.length : Nat) (some next) = .ok b := by
  have hinv : s.Durable (records d) :=
    Lts.run_invariant_of_meets
      (fun _ _ _ hs hok hstep => hs.handleStep hok (LogState.handleStep_cases hstep)) hrun hclean
      (LogState.Durable.init name d)
  have hown := hinv.owner
  rw [howner] at hown
  obtain ⟨rs, hok, has⟩ := hown
  refine ⟨?_, ?_, fun b next => hok.read_acknowledged has⟩
  · intro hidle payloads more t v hcall hmore hclean' hv hvidle
    obtain ⟨u, hu, hrest⟩ := Lts.run_cons_eq_some hmore
    have hmeets := (hclean'.tail hu).and_mem hcall
    obtain ⟨v', hv', hend⟩ := Lts.run_invariant_of_meets (I := Underway s w payloads)
      (fun _ _ _ h ha hstep => h.step ha.1 ha.2 (LogState.handleStep_cases hstep)) hrest hmeets
      (.begin howner hidle hok hu)
    rw [hv] at hv'
    cases hv'
    rcases hend with hin | ⟨-, hdone⟩
    · exact absurd hvidle hin.busy
    · exact hdone
  · intro hclosed more t v hopen hmore hv payloads
    have hgone : ClosedOrGone t := Lts.run_invariant_of_meets
      (fun _ _ _ h ha hstep => h.step ha (LogState.handleStep_cases hstep)) hmore
      (Lts.Meets.of_mem hopen) (.inr ⟨w, howner, hclosed⟩)
    rcases hgone with habsent | ⟨x, hx, hxclosed⟩
    · rw [habsent] at hv
      cases hv
    · rw [hx] at hv
      cases hv
      exact Writer.begin_of_closed hxclosed true true payloads

/-- An append fails, an interrupt hits the sync of its rollback, and the next
append succeeds. -/
def interruptedRollback : List HandleAct :=
  [.log (.openOwner false), .log (.append [[1]]), .log (.io (.writeErr 3)),
    .log (.io (.truncate true)), .interrupt 0 false, .log (.append [[2]]), .log (.io (.write 9)),
    .log (.io (.sync true))]

theorem append_all_or_nothing_interruptedRollback :
    ∃ s w, Lts.run LogState.handleStep (.init ['t'] []) interruptedRollback = some s ∧
      s.owner = .live w ∧ read w.name true s.file.data w.index 0 (some 1) = .ok [[2]] := by
  have hmap : (Lts.run LogState.handleStep (.init ['t'] []) interruptedRollback).map
      (fun s => (s.owner, s.attempts)) = some (.live ⟨['t'], [0, 9], false, .idle⟩,
        [⟨[[2]], .returned 1⟩, ⟨[[1]], .torn⟩]) := by decide +kernel
  obtain ⟨s, hrun, hs⟩ := Option.map_eq_some_iff.mp hmap
  obtain ⟨howner, hattempts⟩ := Prod.mk.inj hs
  refine ⟨s, _, hrun, howner, ?_⟩
  exact (append_all_or_nothing ['t'] [] interruptedRollback s _ hrun (by decide +kernel)
    howner).2.2 [[2]] 1 (by rw [hattempts]; exact List.mem_cons_self)

/-- Three bytes of an append are in the file when the interrupt comes.  They stay
there and the handle is not disabled; the next append returns, and its record
cannot be read. -/
theorem interrupted_append :
    (∃ s w t v, Lts.run LogState.handleStep (.init ['t'] []) [.log (.openOwner false)] = some s ∧
      s.owner = .live w ∧ w.pc = .idle ∧
      Lts.run LogState.handleStep s
        [.log (.append [[1]]), .log (.io (.write 3)), .interrupt 0 false] = some t ∧
      t.owner = .live v ∧ v.pc = .idle ∧ ¬AllOrNothing s w [[1]] t v) ∧
    (Lts.run LogState.handleStep (.init ['t'] [])
      [.log (.openOwner false), .log (.append [[1]]), .log (.io (.write 3)), .interrupt 0 false,
        .log (.append [[2]]), .log (.io (.write 9)), .log (.io (.sync true))]).map
      (fun u => (u.attempts.head?, read ['t'] true u.file.data [0, 9] 0 (some 1))) =
    some (some ⟨[[2]], .returned 1⟩, .error (.badChecksum ['t'] 0)) := by
  refine ⟨?_, by decide +kernel⟩
  have hopen : (Lts.run LogState.handleStep (.init ['t'] []) [.log (.openOwner false)]).map
      LogState.owner = some (.live ⟨['t'], [0], false, .idle⟩) := by decide +kernel
  have hcall : (Lts.run LogState.handleStep (.init ['t'] []) [.log (.openOwner false),
      .log (.append [[1]]), .log (.io (.write 3)), .interrupt 0 false]).map
      (fun t => (t.owner, t.file.data.length, t.attempts)) =
    some (.live ⟨['t'], [0], false, .idle⟩, 3, [⟨[[1]], .torn⟩]) := by decide +kernel
  obtain ⟨s, hs, hsowner⟩ := Option.map_eq_some_iff.mp hopen
  obtain ⟨t, ht, hview⟩ := Option.map_eq_some_iff.mp hcall
  obtain ⟨htowner, hrest⟩ := Prod.mk.inj hview
  obtain ⟨hlen, hattempts⟩ := Prod.mk.inj hrest
  have hsplit : Lts.run LogState.handleStep (.init ['t'] []) ([.log (.openOwner false)] ++
      [.log (.append [[1]]), .log (.io (.write 3)), .interrupt 0 false]) = _ :=
    Lts.run_append _ _ _
  rw [hs, Option.bind_some] at hsplit
  refine ⟨s, _, t, _, hs, hsowner, rfl, hsplit ▸ ht, htowner, rfl, ?_⟩
  rw [AllOrNothing, callEnd, show Writer.begin ⟨['t'], [0], false, .idle⟩ true true [[1]] =
    .started ⟨['t'], [0], false, .writing [[1]] (frames [[1]])⟩ by decide +kernel, hattempts]
  rintro ⟨-, ⟨-, hmark⟩ | hclosed⟩
  · rw [hlen] at hmark
    cases hmark
  · cases hclosed

end Durastream

import Durastream.Aio.Wait
import Durastream.Lib.EventStream
import Durastream.Tokens

/-!
# Server-sent events

The two ends of `demos/fastapi_resume.py`: the task that serves a stream as server-sent events,
and the page `resume.html` that shows them.  `sse_stream` reads the stream from the offset in
the URL, sends each record with its offset as the id, and waits for more.  The page shows
what it gets and keeps the last id.

The page gets a record as it was sent if its text has no end of a line in it, which would end
the field, and if its id is one of JavaScript's exact numbers (`Sse.Plain`).  What is on
its way is then a run of records without a gap (`Sse.Carries`), which a step of the task
extends (`SseStream.Goes.run`) and the page takes in from the front (`Page.Ok.receive`).
-/

namespace Durastream

/-! ## The server -/

/-- What `sse_stream` yields. -/
inductive Sse where
  | record (id data : Token)
  | control (offset : Token)
  | closed

namespace Sse

def controlKind : Token := ['c', 'o', 'n', 't', 'r', 'o', 'l']

/-- `{"streamClosed": true}`. -/
def closedData : Token :=
  ['{', '"', 's', 't', 'r', 'e', 'a', 'm', 'C', 'l', 'o', 's', 'e', 'd', '"', ':', ' ', 't', 'r',
   'u', 'e', '}']

/-- `json.dumps({"streamNextOffset": offset})`. -/
def controlData (offset : Token) : Token :=
  ['{', '"', 's', 't', 'r', 'e', 'a', 'm', 'N', 'e', 'x', 't', 'O', 'f', 'f', 's', 'e', 't', '"',
   ':', ' ', '"']
    ++ offset ++ ['"', '}']

def fields : Sse → List (Token × Token)
  | .record id data => [(['i', 'd'], id), (['d', 'a', 't', 'a'], data)]
  | .control offset =>
      [(['e', 'v', 'e', 'n', 't'], controlKind), (['d', 'a', 't', 'a'], controlData offset)]
  | .closed => [(['e', 'v', 'e', 'n', 't'], controlKind), (['d', 'a', 't', 'a'], closedData)]

/-- The text on the wire. -/
def text (e : Sse) : Token := EventStream.block e.fields

end Sse

inductive SsePc where
  /-- `await STORE.open(key)`. -/
  | opening
  /-- `await s.read(offset)`, up to its thread. -/
  | top
  | reading
  | fetched (r : Except Error (List Bytes))
  /-- The loop over the records, after `k` of them. -/
  | sending (batch : List Bytes) (k : Nat)
  /-- `if s.closed`. -/
  | testClosed
  /-- `and offset >= s.next_offset`. -/
  | testEnd
  | control
  | controlled
  /-- `await s.wait(offset)`, which waiter `j` runs. -/
  | waiting (j : Nat)
  | finished
  | raised
deriving DecidableEq

/-- A task that runs `sse_stream`. -/
structure SseStream where
  offset : Int
  pc : SsePc

namespace SseStream

def new : SseStream := ⟨0, .opening⟩

/-- It is at an await or a yield. -/
def suspended (x : SseStream) : Bool :=
  match x.pc with
  | .top => false
  | .testClosed => false
  | .testEnd => false
  | .control => false
  | _ => true

/-- `rec.decode()`. -/
def decode (record : Bytes) : Option Token :=
  (ByteArray.utf8Decode? ⟨record.toArray⟩).map Array.toList

/-- The event of a record. -/
def event (offset : Int) (record : Bytes) : Option Sse :=
  match toToken offset, decode record with
  | .ok id, some data => some (.record id data)
  | _, _ => none

/-- The loop over the records, after `k` of them. -/
def send (x : SseStream) (batch : List Bytes) (k : Nat) : SseStream × List Sse :=
  match batch[k]? with
  | some record =>
      match event (x.offset + k) record with
      | some e => ({ x with pc := .sending batch (k + 1) }, [e])
      | none => ({ x with pc := .raised }, [])
  | none => ({ x with offset := x.offset + batch.length, pc := .testClosed }, [])

/-- The task runs on to its next read, await or yield. -/
def run (x : SseStream) (token : Token) (deleted : Bool) (m : LiveStream) :
    Option (SseStream × List Sse) :=
  match x.pc with
  | .opening =>
      if deleted then some ({ x with pc := .finished }, [.closed])
      else
        match fromToken token m.nextOffset with
        | .ok offset => some (⟨offset, .top⟩, [])
        | .error _ => some ({ x with pc := .raised }, [])
  | .top =>
      if max x.offset 0 ≥ m.nextOffset then some (x.send [] 0)
      else some ({ x with pc := .reading }, [])
  | .reading => none
  | .fetched (.ok batch) => some (x.send batch 0)
  | .fetched (.error _) => some ({ x with pc := .raised }, [])
  | .sending batch k => some (x.send batch k)
  | .testClosed => some ({ x with pc := if m.closed then .testEnd else .control }, [])
  | .testEnd =>
      if x.offset ≥ m.nextOffset then some ({ x with pc := .finished }, [.closed])
      else some ({ x with pc := .control }, [])
  | .control =>
      match toToken x.offset with
      | .ok offset => some ({ x with pc := .controlled }, [.control offset])
      | .error _ => some ({ x with pc := .raised }, [])
  | .controlled => none
  | .waiting _ => none
  | .finished => none
  | .raised => none

end SseStream

/-! ## The page -/

/-- A JavaScript number, which has 53 bits. -/
def jsNumber (n : Nat) : Nat :=
  let unit := 2 ^ (n.log2 - 52)
  let low := n % unit
  if 2 * low < unit ∨ 2 * low = unit ∧ n / unit % 2 = 0 then n - low else n - low + unit

/-- A connection: the URL, what the handlers have of it, the task that serves it, and what
is on its way. -/
structure EventSource where
  /-- The offset in the URL. -/
  token : Token
  recovered : Bool
  got : Nat
  reader : EventStream.Reader
  task : SseStream
  flight : List Sse

/-- A page, with what it shows. -/
structure Page where
  last : Int
  out : List Token
  done : Bool
  es : Option EventSource

namespace Page

/-- `open`. -/
def openAt (p : Page) (token : Token) (recovered : Bool) : Page :=
  { p with es := some ⟨token, recovered, 0, .new, .new, []⟩ }

/-- After `startNew`.  A URL without an offset has `-1`. -/
def new : Page := openAt ⟨-1, [], false, none⟩ ['-', '1'] false

/-- The handlers of the page; none if it starts a new generation. -/
def handle (p : Page) (e : EventStream.Event) : Option Page :=
  match p.es with
  | none => some p
  | some es =>
      if e.kind = EventStream.message then
        some { p with
          last := jsNumber (asciiDigits.value e.lastId), out := p.out ++ [e.data]
          es := some { es with got := es.got + 1 } }
      else if e.kind = Sse.controlKind ∧ e.data = Sse.closedData then
        if es.recovered ∧ es.got = 0 then none else some { p with done := true, es := none }
      else some p

/-- The browser reads what comes next. -/
def receive (p : Page) (es : EventSource) (e : Sse) (rest : List Sse) : Option Page :=
  let (reader, events) := es.reader.feed e.text
  events.foldlM handle { p with es := some { es with reader := reader, flight := rest } }

end Page

/-! ## What is on its way -/

/-- The page can show these records: no text has the end of a line, and their ids are exact. -/
structure Sse.Plain (all : List Bytes) : Prop where
  length : all.length ≤ 2 ^ 53
  texts : ∀ r ∈ all, ∀ text, SseStream.decode r = some text → EventStream.oneLine text = true

theorem Sse.Plain.of_prefix {all more : List Bytes} (h : Sse.Plain more)
    (hfront : all <+: more) : Sse.Plain all :=
  ⟨hfront.length_le.trans h.length, fun r hr => h.texts r (hfront.subset hr)⟩

theorem Sse.Plain.of_texts {all : List Bytes} (hlength : all.length ≤ 2 ^ 53)
    (htexts : (all.all fun r => (SseStream.decode r).all EventStream.oneLine) = true) :
    Sse.Plain all := by
  refine ⟨hlength, fun r hr text htext => ?_⟩
  have hline := List.all_eq_true.mp htexts r hr
  rwa [htext] at hline

theorem jsNumber_eq {n : Nat} (h : n < 2 ^ 53) : jsNumber n = n := by
  have hlog : n.log2 - 52 = 0 := by
    rcases Nat.eq_zero_or_pos n with rfl | hpos
    · rfl
    · have := (Nat.log2_lt (by omega)).mpr h
      omega
  simp [jsNumber, hlog, Nat.mod_one]

theorem oneLine_padded (n : Nat) : EventStream.oneLine (padded n) = true := by
  refine List.all_eq_true.mpr fun c hc => ?_
  have hdigit := isDigit_iff.mp (isDigit_of_mem_padded c hc)
  have hcode : c.toNat ≠ ('\n').toNat ∧ c.toNat ≠ ('\r').toNat := by
    constructor <;> intro heq <;> rw [heq] at hdigit <;> revert hdigit <;> decide
  have hchar : c ≠ '\n' ∧ c ≠ '\r' :=
    ⟨fun heq => hcode.1 (by rw [heq]), fun heq => hcode.2 (by rw [heq])⟩
  simp [EventStream.lineEnd, hchar.1, hchar.2]

/-- What `to_token` writes for an offset, if it does. -/
theorem eq_padded_of_toToken {n : Nat} {token : Token} (h : toToken n = .ok token) :
    token = padded n := by
  by_cases hlen : (Nat.toDigits 10 n).length ≤ maxStrDigits
  · rw [toToken_eq hlen] at h
    cases h
    rfl
  · rw [toToken, str, Int.natAbs_natCast, if_pos (Nat.not_le.mp hlen)] at h
    cases h

/-- An offset as JavaScript writes it. -/
theorem fromToken_of_le {n : Nat} (h : n ≤ 2 ^ 53) (next : Int) :
    fromToken (Nat.toDigits 10 n) next = .ok n := by
  refine fromToken_toDigits (Nat.le_trans ?_ (by decide : 16 ≤ maxStrDigits)) next
  rw [Nat.length_toDigits_le_iff (by decide) (by decide)]
  omega

namespace Sse

variable {all more : List Bytes} {a b c : Nat} {events later : List Sse}

/-- The events carry the records from the one number on, up to the other. -/
inductive Carries (all : List Bytes) : Nat → List Sse → Nat → Prop where
  | nil (n : Nat) : Carries all n [] n
  | record {n stop : Nat} {r : Bytes} {data : Token} {events : List Sse} :
      all[n]? = some r → SseStream.decode r = some data → Carries all (n + 1) events stop →
      Carries all n (.record (padded n) data :: events) stop
  | control {n stop : Nat} (offset : Nat) {events : List Sse} :
      Carries all n events stop → Carries all n (.control (padded offset) :: events) stop

theorem Carries.append (h : Carries all a events b) (hlater : Carries all b later c) :
    Carries all a (events ++ later) c := by
  induction h with
  | nil n => exact hlater
  | record hr hdata _ ih => exact .record hr hdata (ih hlater)
  | control offset _ ih => exact .control offset (ih hlater)

theorem Carries.mono (h : Carries all a events b) (hfront : all <+: more) :
    Carries more a events b := by
  induction h with
  | nil n => exact .nil n
  | record hr hdata _ ih =>
      refine .record ?_ hdata ih
      obtain ⟨rest, rfl⟩ := hfront
      rw [List.getElem?_append_left (List.getElem?_eq_some_iff.mp hr).1, hr]
  | control offset _ ih => exact .control offset ih

/-! ### What the browser makes of them -/

theorem feed_record {r : EventStream.Reader} (hr : r.data = [] ∧ r.kind = []) (n : Nat)
    {data : Token} (hdata : EventStream.oneLine data = true) :
    r.feed (Sse.record (padded n) data).text =
      ({ r with lastId := padded n }, [⟨EventStream.message, padded n, data⟩]) := by
  have hzero : '\x00' ∉ padded n := fun hmem =>
    absurd (isDigit_of_mem_padded '\x00' hmem) (by decide)
  rw [text, EventStream.Reader.feed_block]
  · simp [fields, EventStream.Reader.field, EventStream.Reader.dispatch, hr.1, hr.2, hzero]
  · intro f hf
    simp only [fields, List.mem_cons, List.not_mem_nil, or_false] at hf
    rcases hf with rfl | rfl
    · exact .intro (by decide) (by decide) (oneLine_padded n)
    · exact .intro (by decide) (by decide) hdata

/-- A `control` event. -/
theorem feed_control {r : EventStream.Reader} (hr : r.data = [] ∧ r.kind = []) {data : Token}
    (hdata : EventStream.oneLine data = true) :
    r.feed (EventStream.block
        [(['e', 'v', 'e', 'n', 't'], controlKind), (['d', 'a', 't', 'a'], data)]) =
      (r, [⟨controlKind, r.lastId, data⟩]) := by
  rw [EventStream.Reader.feed_block]
  · cases r
    obtain ⟨rfl, rfl⟩ := hr
    simp [EventStream.Reader.field, EventStream.Reader.dispatch, controlKind]
  · intro f hf
    simp only [List.mem_cons, List.not_mem_nil, or_false] at hf
    rcases hf with rfl | rfl
    · exact .intro (by decide) (by decide) (by decide)
    · exact .intro (by decide) (by decide) hdata

theorem oneLine_controlData (n : Nat) : EventStream.oneLine (controlData (padded n)) = true := by
  rw [controlData, EventStream.oneLine_append, EventStream.oneLine_append, oneLine_padded]
  decide

/-- The two differ behind `stream`. -/
theorem controlData_ne_closedData (offset : Token) : controlData offset ≠ closedData := by
  simp [controlData, closedData]

end Sse

/-! ## The task -/

namespace SseStream

variable {x x' : SseStream} {m m' : LiveStream} {batch : List Bytes} {k n o : Nat}
  {events : List Sse}

/-- The event that ends the response. -/
def closing (x : SseStream) : List Sse :=
  match x.pc with
  | .finished => [.closed]
  | _ => []

/-- The records up to `n` have been sent. -/
def Sent (x : SseStream) (m : LiveStream) (n : Nat) : Prop :=
  match x.pc with
  | .opening => True
  | .fetched (.ok batch) => x.offset = n ∧ batch <+: m.records.drop n
  | .sending batch k =>
      ∃ o : Nat, x.offset = o ∧ o + k = n ∧ k ≤ batch.length ∧ batch <+: m.records.drop o
  | .testEnd => x.offset = n ∧ m.closed = true
  | .finished => True
  | .raised => True
  | _ => x.offset = n

theorem Sent.mono (h : x.Sent m n) (hgrows : m.Grows m') : x.Sent m' n := by
  unfold Sent at h ⊢
  split at h
  · trivial
  · exact ⟨h.1, h.2.trans (hgrows.records.drop n)⟩
  · obtain ⟨o, ho, hk, hle, hbatch⟩ := h
    exact ⟨o, ho, hk, hle, hbatch.trans (hgrows.records.drop o)⟩
  · exact ⟨h.1, (hgrows.closed h.2).1⟩
  · trivial
  · trivial
  · exact h

/-- What the task does in one step: it sends these events, and ends on a closed stream only. -/
structure Goes (x' : SseStream) (events : List Sse) (m : LiveStream) (deleted : Bool) (n n' : Nat) :
    Prop where
  carried : ∃ carried, events = carried ++ x'.closing ∧ Sse.Carries m.records n carried n'
  sent : x'.Sent m n'
  finished : x'.pc = .finished → deleted = true ∨ m.closed = true ∧ m.records.length ≤ n'
  opening : x'.pc ≠ .opening
  waiting : ∀ j, x'.pc ≠ .waiting j

/-- A step that sends nothing. -/
theorem Goes.silent {deleted : Bool} (hsent : x'.Sent m n) (hclosing : x'.closing = [])
    (hopening : x'.pc ≠ .opening) (hwaiting : ∀ j, x'.pc ≠ .waiting j) :
    x'.Goes [] m deleted n n :=
  ⟨⟨[], by rw [hclosing, List.append_nil], .nil n⟩, hsent,
    fun hpc => by simp [closing, hpc] at hclosing, hopening, hwaiting⟩

/-- The loop over the records. -/
theorem Goes.send {deleted : Bool} (hoffset : x.offset = o) (hk : k ≤ batch.length)
    (hbatch : batch <+: m.records.drop o) :
    ∃ n', (x.send batch k).1.Goes (x.send batch k).2 m deleted (o + k) n' := by
  unfold SseStream.send
  cases hrecord : batch[k]? with
  | none =>
      have hlen : batch.length = k :=
        Nat.le_antisymm (List.getElem?_eq_none_iff.mp hrecord) hk
      refine ⟨o + k, .silent ?_ rfl (by simp) (by simp)⟩
      show x.offset + (batch.length : Int) = ((o + k : Nat) : Int)
      omega
  | some record =>
      have hlt : k < batch.length := (List.getElem?_eq_some_iff.mp hrecord).1
      have hplace : m.records[o + k]? = some record := by
        obtain ⟨rest, hrest⟩ := hbatch
        rw [← List.getElem?_drop, ← hrest, List.getElem?_append_left hlt, hrecord]
      dsimp only
      cases hevent : event (x.offset + k) record with
      | none => exact ⟨o + k, .silent trivial rfl (by simp) (by simp)⟩
      | some e =>
          have hsum : x.offset + k = ((o + k : Nat) : Int) := by omega
          rw [hsum, event] at hevent
          split at hevent
          · next id data hid hdata =>
              cases hevent
              rw [eq_padded_of_toToken hid]
              refine ⟨o + k + 1, ⟨_, (List.append_nil _).symm, .record hplace hdata (.nil _)⟩, ?_,
                fun hpc => (by cases hpc), by simp, by simp⟩
              exact ⟨o, hoffset, rfl, hlt, hbatch⟩
          · cases hevent

/-- The task runs on. -/
theorem Goes.run {token : Token} {deleted : Bool} (hm : m.Ok) (hsent : x.Sent m n)
    (hopening : x.pc = .opening → ∀ i, fromToken token m.nextOffset = .ok i → i = n)
    (hrun : x.run token deleted m = some (x', events)) :
    ∃ n', x'.Goes events m deleted n n' := by
  cases hpc : x.pc with
  | opening =>
      simp only [SseStream.run, hpc] at hrun
      split at hrun
      · next hdeleted =>
          cases hrun
          exact ⟨n, ⟨[], rfl, .nil n⟩, trivial, fun _ => .inl hdeleted, by simp, by simp⟩
      · split at hrun
        · next i hi =>
            cases hrun
            exact ⟨n, .silent (hopening hpc i hi) rfl (by simp) (by simp)⟩
        · cases hrun
          exact ⟨n, .silent trivial rfl (by simp) (by simp)⟩
  | top =>
      simp only [Sent, hpc] at hsent
      simp only [SseStream.run, hpc] at hrun
      split at hrun
      · have hgoes : ∃ n', (x.send [] 0).1.Goes (x.send [] 0).2 m deleted n n' :=
          Goes.send hsent (Nat.zero_le _) List.nil_prefix
        rw [Option.some.injEq] at hrun
        rw [hrun] at hgoes
        exact hgoes
      · cases hrun
        exact ⟨n, .silent hsent rfl (by simp) (by simp)⟩
  | reading => simp [SseStream.run, hpc] at hrun
  | fetched r =>
      cases r with
      | ok batch =>
          simp only [Sent, hpc] at hsent
          simp only [SseStream.run, hpc, Option.some.injEq] at hrun
          have hgoes : ∃ n', (x.send batch 0).1.Goes (x.send batch 0).2 m deleted n n' :=
            Goes.send hsent.1 (Nat.zero_le _) hsent.2
          rw [hrun] at hgoes
          exact hgoes
      | error e =>
          simp only [SseStream.run, hpc] at hrun
          cases hrun
          exact ⟨n, .silent trivial rfl (by simp) (by simp)⟩
  | sending batch k =>
      simp only [Sent, hpc] at hsent
      obtain ⟨o, ho, hn, hk, hbatch⟩ := hsent
      simp only [SseStream.run, hpc, Option.some.injEq] at hrun
      have hgoes : ∃ n', (x.send batch k).1.Goes (x.send batch k).2 m deleted (o + k) n' :=
        Goes.send ho hk hbatch
      rw [hrun, hn] at hgoes
      exact hgoes
  | testClosed =>
      simp only [Sent, hpc] at hsent
      simp only [SseStream.run, hpc] at hrun
      cases hclosed : m.closed with
      | true =>
          rw [hclosed] at hrun
          cases hrun
          exact ⟨n, .silent ⟨hsent, hclosed⟩ rfl (by simp) (by simp)⟩
      | false =>
          rw [hclosed] at hrun
          cases hrun
          exact ⟨n, .silent hsent rfl (by simp) (by simp)⟩
  | testEnd =>
      simp only [Sent, hpc] at hsent
      simp only [SseStream.run, hpc] at hrun
      split at hrun
      · next hend =>
          cases hrun
          refine ⟨n, ⟨[], rfl, .nil n⟩, trivial, fun _ => .inr ⟨hsent.2, ?_⟩, by simp, by simp⟩
          rw [hsent.1, hm.nextOffset_of_closed hsent.2] at hend
          exact Int.ofNat_le.mp hend
      · cases hrun
        exact ⟨n, .silent hsent.1 rfl (by simp) (by simp)⟩
  | control =>
      simp only [Sent, hpc] at hsent
      simp only [SseStream.run, hpc] at hrun
      split at hrun
      · next token' htoken =>
          cases hrun
          rw [hsent] at htoken
          rw [eq_padded_of_toToken htoken]
          exact ⟨n, ⟨_, (List.append_nil _).symm, .control n (.nil n)⟩, hsent,
            fun hpc => (by cases hpc), by simp, by simp⟩
      · cases hrun
        exact ⟨n, .silent trivial rfl (by simp) (by simp)⟩
  | controlled => simp [SseStream.run, hpc] at hrun
  | waiting j => simp [SseStream.run, hpc] at hrun
  | finished => simp [SseStream.run, hpc] at hrun
  | raised => simp [SseStream.run, hpc] at hrun

end SseStream

/-! ## The connection -/

/-- A connection carries the records from `lo` on, up to `n`; its URL asks for offset `o`. -/
structure EventSource.Ok (es : EventSource) (f : Fanout) (deleted : Bool) (o lo n : Nat) :
    Prop where
  token : ∀ next, fromToken es.token next = .ok o
  opening : es.task.pc = .opening → n = o
  reader : es.reader.data = [] ∧ es.reader.kind = []
  flight : ∃ carried, es.flight = carried ++ es.task.closing ∧
    Sse.Carries f.stream.records lo carried n
  sent : es.task.Sent f.stream n
  finished : es.task.pc = .finished →
    deleted = true ∨ f.stream.closed = true ∧ f.stream.records.length ≤ n
  waiting : ∀ j, es.task.pc = .waiting j →
    ∃ w, f.waiters[j]? = some w ∧ w.offset = es.task.offset

namespace EventSource.Ok

variable {es : EventSource} {f f' : Fanout} {a : FanoutAct} {deleted deleted' : Bool}
  {o lo n n' : Nat} {x : SseStream} {events : List Sse}

/-- A connection that is opened. -/
theorem openAt {token : Token} (htoken : ∀ next, fromToken token next = .ok o)
    (recovered : Bool) (got : Nat) {reader : EventStream.Reader}
    (hreader : reader.data = [] ∧ reader.kind = []) :
    (⟨token, recovered, got, reader, .new, []⟩ : EventSource).Ok f deleted o o o :=
  ⟨htoken, fun _ => rfl, hreader, ⟨[], rfl, .nil o⟩, trivial, fun hpc => (by cases hpc),
    fun _ hpc => (by cases hpc)⟩

/-- The stream and the hub go on. -/
theorem grows (h : es.Ok f deleted o lo n) (hf : f.Ok) (hstep : Fanout.Step f a f')
    (hdeleted : deleted = true → deleted' = true) : es.Ok f' deleted' o lo n := by
  have hgrows := hstep.grows hf
  refine ⟨h.token, h.opening, h.reader, ?_, h.sent.mono hgrows, fun hpc => ?_, fun j hpc => ?_⟩
  · obtain ⟨carried, hflight, hcarries⟩ := h.flight
    exact ⟨carried, hflight, hcarries.mono hgrows.records⟩
  · rcases h.finished hpc with hgone | ⟨hclosed, hle⟩
    · exact .inl (hdeleted hgone)
    · obtain ⟨hclosed', hsame⟩ := hgrows.closed hclosed
      exact .inr ⟨hclosed', by rw [hsame]; exact hle⟩
  · obtain ⟨w, hw, hoffset⟩ := h.waiting j hpc
    obtain ⟨w', hw', hoffset'⟩ := hstep.waiter_kept hw
    exact ⟨w', hw', hoffset'.trans hoffset⟩

/-- The task goes on, and the events it sends follow those on their way. -/
theorem goes (h : es.Ok f deleted o lo n) (hpc : es.task.pc ≠ .finished)
    (hgoes : x.Goes events f.stream deleted n n') :
    ({ es with task := x, flight := es.flight ++ events } : EventSource).Ok f deleted o lo n' := by
  refine ⟨h.token, fun hpc => absurd hpc hgoes.opening, h.reader, ?_, hgoes.sent, hgoes.finished,
    fun j hpc => absurd hpc (hgoes.waiting j)⟩
  obtain ⟨carried, hflight, hcarries⟩ := h.flight
  obtain ⟨new, hevents, hnew⟩ := hgoes.carried
  have hnone : es.task.closing = [] := by
    unfold SseStream.closing
    split
    · next heq => exact absurd heq hpc
    · rfl
  exact ⟨carried ++ new, by rw [hflight, hnone, List.append_nil, hevents, List.append_assoc],
    hcarries.append hnew⟩

/-- The task waits. -/
theorem waits (h : es.Ok f deleted o lo n) (hpc : es.task.pc = .controlled) {w : Waiter} {j : Nat}
    (hw : f.waiters[j]? = some w) (hoffset : w.offset = es.task.offset) :
    ({ es with task := { es.task with pc := .waiting j }, flight := es.flight ++ [] } :
      EventSource).Ok f deleted o lo n := by
  have hsent := h.sent
  simp only [SseStream.Sent, hpc] at hsent
  obtain ⟨carried, hflight, hcarries⟩ := h.flight
  simp only [SseStream.closing, hpc] at hflight
  refine ⟨h.token, fun hpc => (by cases hpc), h.reader, ⟨carried, ?_, hcarries⟩, hsent,
    fun hpc => (by cases hpc), fun k hk => ?_⟩
  · rw [List.append_nil, hflight]
    rfl
  · cases hk
    exact ⟨w, hw, hoffset⟩

end EventSource.Ok

/-! ## The page -/

namespace Page

variable {p : Page} {es : EventSource} {rest : List Sse}

theorem receive_record (hreader : es.reader.data = [] ∧ es.reader.kind = []) (n : Nat)
    {data : Token} (hdata : EventStream.oneLine data = true) :
    p.receive es (.record (padded n) data) rest =
      some { p with
        last := jsNumber n, out := p.out ++ [data]
        es := some { es with
          got := es.got + 1
          reader := { es.reader with lastId := padded n }
          flight := rest } } := by
  rw [Page.receive, Sse.feed_record hreader n hdata]
  simp [handle, value_padded]

theorem receive_control (hreader : es.reader.data = [] ∧ es.reader.kind = []) (n : Nat) :
    p.receive es (.control (padded n)) rest =
      some { p with es := some { es with flight := rest } } := by
  have hkind : Sse.controlKind ≠ EventStream.message := by decide
  rw [Page.receive, Sse.text, Sse.fields, Sse.feed_control hreader (Sse.oneLine_controlData n)]
  simp [handle, hkind, Sse.controlData_ne_closedData]

theorem receive_closed (hreader : es.reader.data = [] ∧ es.reader.kind = []) :
    p.receive es .closed rest =
      if es.recovered ∧ es.got = 0 then none else some { p with done := true, es := none } := by
  have hkind : Sse.controlKind ≠ EventStream.message := by decide
  rw [Page.receive, Sse.text, Sse.fields, Sse.feed_control hreader (by decide)]
  simp [handle, hkind]

end Page

/-- What the page shows has the first `high` records in it, and where `once` holds it has
nothing else. -/
structure Page.Ok (p : Page) (f : Fanout) (deleted : Bool) (once : Prop) (high : Nat) : Prop where
  shown : ((f.stream.records.take high).map SseStream.decode).Sublist (p.out.map some)
  only : ∀ text ∈ p.out, some text ∈ f.stream.records.map SseStream.decode
  last : 0 ≤ p.last + 1 ∧ p.last + 1 ≤ high
  le : high ≤ f.stream.records.length
  done : p.done = true →
    deleted = true ∨ f.stream.closed = true ∧ high = f.stream.records.length
  alone : once → p.out.length = high ∧ p.last + 1 = high
  es : ∀ es, p.es = some es →
    ∃ o lo n, o ≤ high ∧ lo ≤ high ∧ (once → lo = high) ∧ es.Ok f deleted o lo n

namespace Page.Ok

variable {p p' : Page} {es es' : EventSource} {f f' : Fanout} {a : FanoutAct}
  {deleted deleted' : Bool} {once : Prop} {high : Nat} {x : SseStream} {events rest : List Sse}

/-- A page is done at the end of the stream, unless the stream is gone. -/
theorem ended (h : p.Ok f deleted once high) (hdone : p.done = true) (hdeleted : deleted = false) :
    f.stream.closed = true ∧ high = f.stream.records.length := by
  refine (h.done hdone).resolve_left fun hgone => ?_
  rw [hdeleted] at hgone
  cases hgone

/-- The stream and the hub go on. -/
theorem grows (h : p.Ok f deleted once high) (hf : f.Ok) (hstep : Fanout.Step f a f')
    (hdeleted : deleted = true → deleted' = true) : p.Ok f' deleted' once high := by
  have hgrows := hstep.grows hf
  refine ⟨?_, fun text hmem => ?_, h.last, h.le.trans hgrows.records.length_le, fun hdone => ?_,
    h.alone, fun es hes => ?_⟩
  · obtain ⟨rest, hrest⟩ := hgrows.records
    rw [← hrest, List.take_append_of_le_length h.le]
    exact h.shown
  · exact (hgrows.records.map SseStream.decode).subset (h.only text hmem)
  · rcases h.done hdone with hgone | ⟨hclosed, heq⟩
    · exact .inl (hdeleted hgone)
    · obtain ⟨hclosed', hsame⟩ := hgrows.closed hclosed
      exact .inr ⟨hclosed', by rw [hsame]; exact heq⟩
  · obtain ⟨o, lo, n, ho, hlo, honce, hok⟩ := h.es es hes
    exact ⟨o, lo, n, ho, hlo, honce, hok.grows hf hstep hdeleted⟩

/-- The connection goes on. -/
theorem setSource (h : p.Ok f deleted once high) (hes : p.es = some es)
    (hnext : ∀ {o lo n : Nat}, es.Ok f deleted o lo n → ∃ n', es'.Ok f deleted o lo n') :
    ({ p with es := some es' } : Page).Ok f deleted once high := by
  refine ⟨h.shown, h.only, h.last, h.le, h.done, h.alone, fun other hother => ?_⟩
  cases hother
  obtain ⟨o, lo, n, ho, hlo, honce, hok⟩ := h.es es hes
  obtain ⟨n', hok'⟩ := hnext hok
  exact ⟨o, lo, n', ho, hlo, honce, hok'⟩

/-- There is no connection any more. -/
theorem stop (h : p.Ok f deleted once high) :
    ({ p with es := none } : Page).Ok f deleted once high :=
  ⟨h.shown, h.only, h.last, h.le, h.done, h.alone, fun _ hes => (by cases hes)⟩

/-- The connection is opened again behind the last record. -/
theorem reconnect (h : p.Ok f deleted once high) (hplain : Sse.Plain f.stream.records) :
    (p.openAt (Nat.toDigits 10 (p.last + 1).toNat) false).Ok f deleted once high := by
  obtain ⟨hnonneg, hlast⟩ := h.last
  have hle : (p.last + 1).toNat ≤ high := by omega
  refine ⟨h.shown, h.only, h.last, h.le, h.done, h.alone, fun es hes => ?_⟩
  cases hes
  refine ⟨_, _, _, hle, hle, fun hold => ?_, .openAt (fun next => ?_) _ _ ⟨rfl, rfl⟩⟩
  · have := (h.alone hold).2
    omega
  · exact fromToken_of_le (hle.trans (h.le.trans hplain.length)) next

/-- A page that shows nothing yet. -/
theorem openAt {token : Token} (htoken : ∀ next, fromToken token next = .ok ((0 : Nat) : Int))
    (recovered : Bool) :
    (Page.openAt ⟨-1, [], false, none⟩ token recovered).Ok f deleted once 0 := by
  have hlast : (0 : Int) ≤ -1 + 1 ∧ (-1 : Int) + 1 ≤ (0 : Nat) := by decide
  refine ⟨List.nil_sublist _, fun _ hmem => absurd hmem List.not_mem_nil, hlast, Nat.zero_le _,
    fun hdone => (by cases hdone), fun _ => ⟨rfl, rfl⟩, fun es hes => ?_⟩
  cases hes
  exact ⟨0, 0, 0, Nat.le_refl 0, Nat.le_refl 0, fun _ => rfl, .openAt htoken _ _ ⟨rfl, rfl⟩⟩

/-- The page shows a record. -/
theorem record {o lo n : Nat} {r : Bytes} {data : Token}
    (h : p.Ok f deleted once high) (hlo : lo ≤ high) (honce : once → lo = high) (ho : o ≤ high)
    (hr : f.stream.records[lo]? = some r) (hdata : SseStream.decode r = some data)
    (hok : es'.Ok f deleted o (lo + 1) n) :
    ∃ high', ({ p with last := lo, out := p.out ++ [data], es := some es' } : Page).Ok f deleted
      once high' := by
  have hlt : lo < f.stream.records.length := (List.getElem?_eq_some_iff.mp hr).1
  have honly : ∀ text ∈ p.out ++ [data], some text ∈ f.stream.records.map SseStream.decode := by
    intro text hmem
    rcases List.mem_append.mp hmem with hmem | hmem
    · exact h.only text hmem
    · rw [List.mem_singleton.mp hmem, ← hdata]
      exact List.mem_map_of_mem (List.mem_of_getElem? hr)
  have hsources : ∀ es, some es' = some es →
      ∃ o' lo' n', o' ≤ max high (lo + 1) ∧ lo' ≤ max high (lo + 1) ∧
        (once → lo' = max high (lo + 1)) ∧ es.Ok f deleted o' lo' n' := by
    intro other hother
    cases hother
    refine ⟨o, lo + 1, n, by omega, by omega, fun hold => ?_, hok⟩
    have := honce hold
    omega
  refine ⟨max high (lo + 1), ?_, honly, ?_, ?_, fun hdone => ?_, fun hold => ?_, hsources⟩
  · show ((f.stream.records.take (max high (lo + 1))).map SseStream.decode).Sublist
      ((p.out ++ [data]).map some)
    rw [List.map_append]
    rcases Nat.lt_or_eq_of_le hlo with hbelow | rfl
    · rw [Nat.max_eq_left hbelow]
      exact h.shown.trans (List.sublist_append_left _ _)
    · rw [Nat.max_eq_right (Nat.le_succ lo), List.take_add_one, hr, List.map_append]
      refine h.shown.append ?_
      rw [Option.toList_some, List.map_singleton, hdata]
      exact List.Sublist.refl _
  · dsimp only
    omega
  · have := h.le
    omega
  · rcases h.done hdone with hgone | ⟨hclosed, heq⟩
    · exact .inl hgone
    · exact .inr ⟨hclosed, by omega⟩
  · have hlength := (h.alone hold).1
    have heq := honce hold
    rw [List.length_append, List.length_singleton]
    dsimp only
    omega

/-- The page handles what comes next on the connection. -/
theorem receive {e : Sse} (h : p.Ok f deleted once high)
    (hplain : Sse.Plain f.stream.records) (hes : p.es = some es)
    (hflight : es.flight = e :: rest) (hreceive : p.receive es e rest = some p') :
    ∃ high', p'.Ok f deleted once high' := by
  obtain ⟨o, lo, n, ho, hlo, honce, hok⟩ := h.es es hes
  obtain ⟨carried, hcarried, hcarries⟩ := hok.flight
  rw [hflight] at hcarried
  cases hcarries with
  | nil =>
      rw [List.nil_append] at hcarried
      unfold SseStream.closing at hcarried
      split at hcarried
      · next hpc =>
          cases hcarried
          rw [Page.receive_closed hok.reader] at hreceive
          split at hreceive
          · cases hreceive
          · cases hreceive
            refine ⟨high, h.shown, h.only, h.last, h.le, fun _ => ?_, h.alone,
              fun _ hes => (by cases hes)⟩
            have hle := h.le
            exact (hok.finished hpc).imp_right fun hend => ⟨hend.1, by omega⟩
      · cases hcarried
  | record hr hdata hrest =>
      rw [List.cons_append, List.cons.injEq] at hcarried
      obtain ⟨rfl, rfl⟩ := hcarried
      have hlt : lo < f.stream.records.length := (List.getElem?_eq_some_iff.mp hr).1
      have hclean := hplain.texts _ (List.mem_of_getElem? hr) _ hdata
      rw [Page.receive_record hok.reader lo hclean, jsNumber_eq (hlt.trans_le hplain.length)]
        at hreceive
      cases hreceive
      exact h.record hlo honce ho hr hdata ⟨hok.token, hok.opening, hok.reader,
        ⟨_, rfl, hrest⟩, hok.sent, hok.finished, hok.waiting⟩
  | control offset hrest =>
      rw [List.cons_append, List.cons.injEq] at hcarried
      obtain ⟨rfl, rfl⟩ := hcarried
      rw [Page.receive_control hok.reader offset] at hreceive
      cases hreceive
      refine ⟨high, h.shown, h.only, h.last, h.le, h.done, h.alone, fun es hes => ?_⟩
      cases hes
      exact ⟨o, lo, n, ho, hlo, honce, hok.token, hok.opening, hok.reader, ⟨_, rfl, hrest⟩,
        hok.sent, hok.finished, hok.waiting⟩

end Page.Ok

end Durastream

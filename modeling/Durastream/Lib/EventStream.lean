import Mathlib.Data.List.Basic

/-!
# Event streams

The text format of server-sent events, as a browser reads it.  A line is a field: a name, a
colon and a value, of which one leading space is dropped.  An empty line dispatches the event
that the lines before it describe, if they gave it data.  The id stays for the events after
it; the data and the type do not.

A block of fields is read back as it was written if no name or value of it has the end of a
line in it (`Reader.feed_block`).
-/

namespace EventStream

structure Event where
  kind : List Char
  lastId : List Char
  data : List Char

/-- What has been read of the next event. -/
structure Reader where
  data : List Char
  kind : List Char
  lastId : List Char

/-- The type of an event that names none. -/
def message : List Char := ['m', 'e', 's', 's', 'a', 'g', 'e']

def lineEnd (c : Char) : Bool := c == '\n' || c == '\r'

/-- The lines of a text whose first line goes on from `line`; a last line without an end is
not one yet. -/
def lines (line : List Char) : List Char → List (List Char)
  | [] => []
  | '\r' :: '\n' :: cs => line :: lines [] cs
  | c :: cs => if lineEnd c then line :: lines [] cs else lines (line ++ [c]) cs

/-- What follows the name of a field. -/
def value : List Char → List Char
  | _ :: ' ' :: v => v
  | _ :: v => v
  | [] => []

namespace Reader

def new : Reader := ⟨[], [], []⟩

def field (r : Reader) (name value : List Char) : Reader :=
  if name = ['d', 'a', 't', 'a'] then { r with data := r.data ++ value ++ ['\n'] }
  else if name = ['e', 'v', 'e', 'n', 't'] then { r with kind := value }
  else if name = ['i', 'd'] then if '\x00' ∈ value then r else { r with lastId := value }
  else r

def dispatch (r : Reader) : Reader × List Event :=
  ({ r with data := [], kind := [] },
    if r.data = [] then []
    else [⟨if r.kind = [] then message else r.kind, r.lastId, r.data.dropLast⟩])

def takeLine (r : Reader) : List Char → Reader × List Event
  | [] => r.dispatch
  | line => (r.field (line.takeWhile (· != ':')) (value (line.dropWhile (· != ':'))), [])

def takeLines (r : Reader) : List (List Char) → Reader × List Event
  | [] => (r, [])
  | line :: rest =>
      let later := (r.takeLine line).1.takeLines rest
      (later.1, (r.takeLine line).2 ++ later.2)

/-- The reader after a text, and the events that the text has dispatched. -/
def feed (r : Reader) (text : List Char) : Reader × List Event := r.takeLines (lines [] text)

end Reader

/-- The text of an event. -/
def block (fields : List (List Char × List Char)) : List Char :=
  fields.flatMap (fun f => f.1 ++ [':', ' '] ++ f.2 ++ ['\n']) ++ ['\n']

/-- No line ends in the text. -/
def oneLine (text : List Char) : Bool := text.all fun c => !lineEnd c

/-- Neither the name nor the value ends the line, and no colon the name. -/
def Unbroken (f : List Char × List Char) : Prop :=
  oneLine f.1 = true ∧ ':' ∉ f.1 ∧ oneLine f.2 = true

theorem Unbroken.intro {name value : List Char} (hname : oneLine name = true) (hcolon : ':' ∉ name)
    (hvalue : oneLine value = true) : Unbroken (name, value) := ⟨hname, hcolon, hvalue⟩

/-! ## What is written is read -/

theorem oneLine_append (text more : List Char) :
    oneLine (text ++ more) = (oneLine text && oneLine more) := List.all_append

theorem lines_cons {c : Char} (h : lineEnd c = false) (line cs : List Char) :
    lines line (c :: cs) = lines (line ++ [c]) cs := by
  rw [lines, if_neg (by simp [h])]
  rintro cs' rfl
  cases h

/-- A line that nothing breaks. -/
theorem lines_append {text : List Char} (h : oneLine text = true) (line cs : List Char) :
    lines line (text ++ '\n' :: cs) = (line ++ text) :: lines [] cs := by
  induction text generalizing line with
  | nil =>
      rw [List.nil_append, List.append_nil, lines, if_pos (by decide)]
      intro cs' heq
      cases heq
  | cons c text ih =>
      rw [oneLine, List.all_cons, Bool.and_eq_true, Bool.not_eq_true'] at h
      rw [List.cons_append, lines_cons h.1, ih h.2, List.append_assoc, List.singleton_append]

/-- One field. -/
theorem Reader.takeLine_field (r : Reader) {f : List Char × List Char} (h : Unbroken f) :
    r.takeLine (f.1 ++ [':', ' '] ++ f.2) = (r.field f.1 f.2, []) := by
  have hname : ∀ c ∈ f.1, (c != ':') = true := fun c hc => by
    rw [bne_iff_ne]
    rintro rfl
    exact h.2.1 hc
  have hline : f.1 ++ [':', ' '] ++ f.2 = f.1 ++ ':' :: ' ' :: f.2 := by simp
  have htake : (f.1 ++ ':' :: ' ' :: f.2).takeWhile (· != ':') = f.1 := by
    rw [List.takeWhile_append_of_pos hname]
    simp
  have hdrop : (f.1 ++ ':' :: ' ' :: f.2).dropWhile (· != ':') = ':' :: ' ' :: f.2 := by
    rw [List.dropWhile_append_of_pos hname]
    simp
  rw [hline, Reader.takeLine, htake, hdrop]
  · rfl
  · exact fun hnil => List.cons_ne_nil _ _ (List.append_eq_nil_iff.mp hnil).2

/-- A block is taken in field by field, and dispatched. -/
theorem Reader.feed_block (r : Reader) {fields : List (List Char × List Char)}
    (h : ∀ f ∈ fields, Unbroken f) :
    r.feed (block fields) = (fields.foldl (fun r f => r.field f.1 f.2) r).dispatch := by
  induction fields generalizing r with
  | nil => simp [feed, block, lines, lineEnd, takeLines, takeLine]
  | cons f fields ih =>
      have hf := h f List.mem_cons_self
      have hline : oneLine (f.1 ++ [':', ' '] ++ f.2) = true := by
        rw [oneLine_append, oneLine_append, hf.1, hf.2.2]
        rfl
      have hblock : block (f :: fields) =
          f.1 ++ [':', ' '] ++ f.2 ++ '\n' :: block fields := by simp [block]
      have hrest := ih (r.field f.1 f.2) fun g hg => h g (List.mem_cons_of_mem f hg)
      rw [feed] at hrest
      rw [feed, hblock, lines_append hline, List.nil_append, takeLines, takeLine_field r hf]
      simp only [hrest, List.nil_append, List.foldl_cons]

end EventStream

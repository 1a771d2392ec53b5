import Mathlib.Data.List.Basic
import Mathlib.Tactic.TypeStar

/-!
# Files and cells that survive power loss

Two levels of storage.  A `CrashFile` is a file in the cache: what a read sees,
how much of it the last successful sync covers, and the contents it has had
since then, any of which may be the one on the device.  A power loss leaves a
prefix of one of these, at least as long as what is covered.  The fields
`synced_le` and `agree` say that the covered part is common to all of them, so a
power loss can never take it back (`take_synced_powerLoss`).

`f.Every P` says that `P` holds of every content a power loss can leave.  It has
one rule for each operation, so a crash-safe invariant is stated once and carried
through a run operation by operation.

A `CrashCell` is the same for a single value that is replaced as a whole, such
as a directory entry.
-/

/-- A file whose contents reach the device at the latest when it is synced. -/
structure CrashFile (α : Type*) where
  /-- The contents a read sees. -/
  data : List α
  /-- How many leading elements the last successful sync covers. -/
  synced : Nat
  /-- The contents the file has had since then, newest first. -/
  past : List (List α)
  synced_le : synced ≤ data.length
  agree : ∀ img ∈ past, data.take synced <+: img

namespace CrashFile

variable {α : Type*}

/-- The contents one of which is on the device. -/
def images (f : CrashFile α) : List (List α) := f.data :: f.past

theorem take_synced_isPrefix (f : CrashFile α) {img : List α} (h : img ∈ f.images) :
    f.data.take f.synced <+: img := by
  rcases List.mem_cons.mp h with rfl | h
  · exact List.take_prefix _ _
  · exact f.agree img h

theorem synced_le_image (f : CrashFile α) {img : List α} (h : img ∈ f.images) :
    f.synced ≤ img.length := by
  have hlen := (f.take_synced_isPrefix h).length_le
  rwa [List.length_take, Nat.min_eq_left f.synced_le] at hlen

theorem image_mem (f : CrashFile α) (i : Nat) : f.images.getD i f.data ∈ f.images := by
  rw [List.getD_eq_getElem?_getD]
  cases h : f.images[i]? with
  | none => exact List.mem_cons_self
  | some img => exact List.mem_of_getElem? h

/-! ## Operations -/

/-- A file that is on the device as it is. -/
def ofDisk (d : List α) : CrashFile α where
  data := d
  synced := d.length
  past := []
  synced_le := Nat.le_refl _
  agree := by simp

/-- Write at the end of the file. -/
def write (f : CrashFile α) (xs : List α) : CrashFile α where
  data := f.data ++ xs
  synced := f.synced
  past := f.data :: f.past
  synced_le := by
    have h := f.synced_le
    rw [List.length_append]
    omega
  agree := by
    intro img h
    rw [List.take_append_of_le_length f.synced_le]
    exact f.take_synced_isPrefix h

/-- Cut or extend the file to `n` elements, as `ftruncate` does. -/
def truncate [Inhabited α] (f : CrashFile α) (n : Nat) : CrashFile α where
  data := f.data.take n ++ List.replicate (n - f.data.length) default
  synced := min f.synced n
  past := f.data :: f.past
  synced_le := by
    have h := f.synced_le
    simp only [List.length_append, List.length_take, List.length_replicate]
    omega
  agree := by
    intro img h
    have hsync := f.synced_le
    rw [List.take_append_of_le_length (by rw [List.length_take]; omega), List.take_take,
      show min (min f.synced n) n = min n f.synced by omega, ← List.take_take]
    have htake := List.take_prefix n (f.data.take f.synced)
    exact htake.trans (f.take_synced_isPrefix h)

/-- A successful sync: what a read sees is on the device. -/
def sync (f : CrashFile α) : CrashFile α := ofDisk f.data

/-- What a power loss leaves: image number `i`, cut to `k` elements but not
below what the last sync covers.  Of these, `m` are on the device for good
(all of them, if `m` is large); no less than before. -/
def powerLoss (f : CrashFile α) (i k m : Nat) : CrashFile α where
  data := (f.images.getD i f.data).take (max f.synced k)
  synced := max f.synced (min m ((f.images.getD i f.data).take (max f.synced k)).length)
  past := []
  synced_le := by
    have hlen := f.synced_le_image (f.image_mem i)
    rw [List.length_take]
    omega
  agree := by simp

/-- The file is on the device as it is. -/
def settled (f : CrashFile α) : Bool := f.past.isEmpty && f.synced == f.data.length

@[simp] theorem data_ofDisk (d : List α) : (ofDisk d).data = d := rfl
@[simp] theorem synced_ofDisk (d : List α) : (ofDisk d).synced = d.length := rfl
@[simp] theorem data_write (f : CrashFile α) (xs : List α) : (f.write xs).data = f.data ++ xs := rfl
@[simp] theorem synced_write (f : CrashFile α) (xs : List α) :
    (f.write xs).synced = f.synced := rfl
@[simp] theorem data_sync (f : CrashFile α) : f.sync.data = f.data := rfl
@[simp] theorem synced_sync (f : CrashFile α) : f.sync.synced = f.data.length := rfl
@[simp] theorem synced_truncate [Inhabited α] (f : CrashFile α) (n : Nat) :
    (f.truncate n).synced = min f.synced n := rfl

/-- Truncating within the file cuts it. -/
theorem data_truncate [Inhabited α] (f : CrashFile α) {n : Nat} (h : n ≤ f.data.length) :
    (f.truncate n).data = f.data.take n := by
  simp [truncate, Nat.sub_eq_zero_of_le h]

/-- A power loss takes back nothing the last sync covers. -/
theorem take_synced_powerLoss (f : CrashFile α) (i k m : Nat) :
    f.data.take f.synced <+: (f.powerLoss i k m).data := by
  refine List.prefix_take_iff.mpr ⟨f.take_synced_isPrefix (f.image_mem i), ?_⟩
  rw [List.length_take]
  omega

/-- A power loss changes nothing that is on the device. -/
theorem data_powerLoss_of_settled (f : CrashFile α) (h : f.settled = true) (i k m : Nat) :
    (f.powerLoss i k m).data = f.data := by
  simp only [settled, Bool.and_eq_true, List.isEmpty_iff, beq_iff_eq] at h
  obtain ⟨hpast, hsynced⟩ := h
  have himage := f.image_mem i
  rw [images, hpast, List.mem_singleton] at himage
  show (f.images.getD i f.data).take (max f.synced k) = f.data
  rw [images, hpast, himage, List.take_of_length_le (by omega)]

/-- What is on the device is on the device after a power loss. -/
theorem settled_powerLoss (f : CrashFile α) (h : f.settled = true) (i k m : Nat) :
    (f.powerLoss i k m).settled = true := by
  have hdata := f.data_powerLoss_of_settled h i k m
  have hle := (f.powerLoss i k m).synced_le
  have hsynced : f.synced = f.data.length := by
    simp only [settled, Bool.and_eq_true, beq_iff_eq] at h
    exact h.2
  have hge : f.synced ≤ (f.powerLoss i k m).synced := Nat.le_max_left _ _
  rw [settled, hdata, Bool.and_eq_true, beq_iff_eq]
  rw [hdata] at hle
  exact ⟨rfl, by omega⟩

theorem settled_sync (f : CrashFile α) : f.sync.settled = true := by
  simp [settled, sync, ofDisk]

/-! ## Properties of every content a power loss can leave -/

/-- `P` holds of every content a power loss can leave. -/
def Every (f : CrashFile α) (P : List α → Prop) : Prop :=
  ∀ img ∈ f.images, ∀ k, f.synced ≤ k → P (img.take k)

namespace Every

variable {f : CrashFile α} {P Q : List α → Prop}

theorem mono (h : f.Every P) (hPQ : ∀ d, P d → Q d) : f.Every Q :=
  fun img himg k hk => hPQ _ (h img himg k hk)

/-- What a read sees is one of the contents. -/
theorem data (h : f.Every P) : P f.data := by
  have hd := h f.data List.mem_cons_self f.data.length f.synced_le
  rwa [List.take_length] at hd

theorem ofDisk {d : List α} (h : P d) : (CrashFile.ofDisk d).Every P := by
  intro img himg k hk
  have himg : img = d := by simpa [images, CrashFile.ofDisk] using himg
  subst himg
  rwa [List.take_of_length_le (by simpa using hk)]

theorem sync (h : P f.data) : f.sync.Every P := ofDisk h

/-- After a write, the contents are the old ones and the new ones that keep
some of what was written. -/
theorem write {xs : List α} (h : f.Every P) (hnew : ∀ k, P (f.data ++ xs.take k)) :
    (f.write xs).Every P := by
  intro img himg k hk
  rcases List.mem_cons.mp himg with rfl | himg
  · by_cases hle : k ≤ f.data.length
    · rw [data_write, List.take_append_of_le_length hle]
      exact h f.data List.mem_cons_self k hk
    · rw [data_write, List.take_append, List.take_of_length_le (by omega)]
      exact hnew _
  · exact h img himg k hk

/-- Truncating within the file: the contents are the old ones, and those shorter
than the covered part that keep `n` elements. -/
theorem truncate [Inhabited α] {n : Nat} (hn : n ≤ f.data.length) (h : f.Every P)
    (hcut : ∀ k, n ≤ k → P (f.data.take k)) : (f.truncate n).Every P := by
  have hold : ∀ img ∈ f.images, ∀ k, min f.synced n ≤ k → P (img.take k) := by
    intro img himg k hk
    by_cases hsync : f.synced ≤ k
    · exact h img himg k hsync
    · have heq : img.take k = f.data.take k := by
        obtain ⟨t, rfl⟩ := f.take_synced_isPrefix himg
        rw [List.take_append_of_le_length, List.take_take, Nat.min_eq_left (by omega)]
        rw [List.length_take, Nat.min_eq_left f.synced_le]
        omega
      rw [heq]
      exact hcut k (by omega)
  intro img himg k hk
  rcases List.mem_cons.mp himg with rfl | himg
  · rw [data_truncate f hn, List.take_take]
    by_cases hkn : n ≤ k
    · rw [Nat.min_eq_right hkn]
      exact hcut n (Nat.le_refl n)
    · rw [Nat.min_eq_left (by omega)]
      exact hold f.data List.mem_cons_self k (by simpa using hk)
  · exact hold img himg k (by simpa using hk)

theorem powerLoss (h : f.Every P) (i k m : Nat) : (f.powerLoss i k m).Every P := by
  intro img himg j hj
  have himg : img = (f.powerLoss i k m).data := by
    simpa [images, CrashFile.powerLoss] using himg
  subst himg
  have hj' : f.synced ≤ j := Nat.le_trans (Nat.le_max_left _ _) hj
  have htake : (f.powerLoss i k m).data.take j =
      (f.images.getD i f.data).take (min j (max f.synced k)) := by
    rw [CrashFile.powerLoss, List.take_take]
  rw [htake]
  exact h _ (f.image_mem i) _ (by omega)

end Every

end CrashFile

/-! ## Cells -/

/-- A value that is replaced as a whole and reaches the device at the latest
when it is synced. -/
structure CrashCell (α : Type*) where
  /-- The value a read sees. -/
  cur : α
  /-- The values it has had since the last successful sync, newest first. -/
  past : List α

namespace CrashCell

variable {α : Type*}

/-- The values one of which is on the device. -/
def values (c : CrashCell α) : List α := c.cur :: c.past

/-- A value that is on the device. -/
def ofDisk (a : α) : CrashCell α := ⟨a, []⟩

/-- Replace the value. -/
def set (c : CrashCell α) (a : α) : CrashCell α := ⟨a, c.cur :: c.past⟩

/-- A successful sync. -/
def sync (c : CrashCell α) : CrashCell α := ofDisk c.cur

/-- What a power loss leaves: the value number `i`. -/
def powerLoss (c : CrashCell α) (i : Nat) : CrashCell α :=
  ofDisk (c.values.getD i c.cur)

/-- The value is on the device. -/
def settled (c : CrashCell α) : Bool := c.past.isEmpty

theorem powerLoss_mem_values (c : CrashCell α) (i : Nat) : (c.powerLoss i).cur ∈ c.values := by
  show c.values.getD i c.cur ∈ c.values
  rw [List.getD_eq_getElem?_getD]
  cases hi : c.values[i]? with
  | none => exact List.mem_cons_self
  | some a => exact List.mem_of_getElem? hi

/-- A power loss changes nothing that is on the device. -/
theorem cur_powerLoss_of_settled (c : CrashCell α) (h : c.settled = true) (i : Nat) :
    (c.powerLoss i).cur = c.cur := by
  have hmem := c.powerLoss_mem_values i
  rw [values, List.isEmpty_iff.mp h] at hmem
  exact List.mem_singleton.mp hmem

@[simp] theorem cur_ofDisk (a : α) : (ofDisk a).cur = a := rfl
@[simp] theorem cur_set (c : CrashCell α) (a : α) : (c.set a).cur = a := rfl
@[simp] theorem cur_sync (c : CrashCell α) : c.sync.cur = c.cur := rfl

/-- `P` holds of every value a power loss can leave. -/
def Every (c : CrashCell α) (P : α → Prop) : Prop := ∀ a ∈ c.values, P a

namespace Every

variable {c : CrashCell α} {P Q : α → Prop}

theorem cur (h : c.Every P) : P c.cur := h c.cur List.mem_cons_self

theorem mono (h : c.Every P) (hPQ : ∀ a, P a → Q a) : c.Every Q := fun a ha => hPQ a (h a ha)

theorem ofDisk {a : α} (h : P a) : (CrashCell.ofDisk a).Every P := by
  intro b hb
  rwa [List.mem_singleton.mp hb]

theorem of_settled (h : c.settled = true) (hcur : P c.cur) : c.Every P := by
  intro b hb
  rw [values, List.isEmpty_iff.mp h] at hb
  rwa [List.mem_singleton.mp hb]

theorem set {a : α} (h : c.Every P) (ha : P a) : (c.set a).Every P := by
  intro b hb
  rcases List.mem_cons.mp hb with rfl | hb
  · exact ha
  · exact h b hb

theorem sync (h : c.Every P) : c.sync.Every P := ofDisk h.cur

theorem powerLoss (h : c.Every P) (i : Nat) : (c.powerLoss i).Every P :=
  ofDisk (h _ (c.powerLoss_mem_values i))

end Every

end CrashCell

import Mathlib.Data.List.Infix
import Mathlib.Tactic.TypeStar

/-!
# Self-delimiting codes

A `FrameCode` encodes single items as words over an alphabet so that the front
of a longer word can be recognised: `dec` reads one item off the front and says
how many symbols it took.  The laws make `dec` the inverse of `enc` on the front
of any word, so the code is a prefix code.

A word is decoded item by item until no further item can be recognised
(`FrameCode.items`).  What the decoder returns is canonical: re-encoding it
gives a prefix of the word (`encAll_items_isPrefix`), the longest one that is a
concatenation of encodings (`prefix_items`).  Decoding is monotone in the prefix
order (`items_mono`), so cutting a concatenation of encodings anywhere loses
items at the end and never makes one up (`items_of_prefix_encAll`).
-/

/-- An encoding of items as nonempty words whose end can be recognised. -/
structure FrameCode (α β : Type*) where
  /-- The items the code can encode. -/
  Valid : β → Prop
  /-- The encoding of one item. -/
  enc : β → List α
  /-- The item at the front of a word and the number of symbols it takes. -/
  dec : List α → Option (β × Nat)
  dec_enc : ∀ b t, Valid b → dec (enc b ++ t) = some (b, (enc b).length)
  enc_dec : ∀ d b n, dec d = some (b, n) → Valid b ∧ enc b <+: d ∧ n = (enc b).length
  enc_pos : ∀ b, 0 < (enc b).length

namespace FrameCode

variable {α β : Type*} (c : FrameCode α β)

/-! ## Encoding and decoding a whole word -/

/-- The concatenation of the encodings. -/
def encAll (bs : List β) : List α := bs.flatMap c.enc

/-- Decode at most `fuel` items. -/
def itemsFuel : Nat → List α → List β
  | 0, _ => []
  | fuel + 1, d =>
      match c.dec d with
      | none => []
      | some (b, n) => b :: itemsFuel fuel (d.drop n)

/-- The items of a word, up to the first place where none can be recognised. -/
def items (d : List α) : List β := c.itemsFuel d.length d

/-- The positions between the encodings: `0`, then the end of each item. -/
def marksFrom (p : Nat) : List β → List Nat
  | [] => [p]
  | b :: bs => p :: marksFrom (p + (c.enc b).length) bs

/-- The positions between the encodings of a list of items, from `0`. -/
def marks (bs : List β) : List Nat := c.marksFrom 0 bs

@[simp] theorem encAll_nil : c.encAll [] = [] := rfl

@[simp] theorem encAll_cons (b : β) (bs : List β) :
    c.encAll (b :: bs) = c.enc b ++ c.encAll bs := rfl

@[simp] theorem encAll_append (bs cs : List β) :
    c.encAll (bs ++ cs) = c.encAll bs ++ c.encAll cs := by
  simp [encAll]

theorem encAll_isPrefix {bs cs : List β} (h : bs <+: cs) : c.encAll bs <+: c.encAll cs := by
  obtain ⟨ds, rfl⟩ := h
  exact ⟨c.encAll ds, (c.encAll_append bs ds).symm⟩

variable {c}

/-- A recognised item splits off the front of the word. -/
theorem split_of_dec {d : List α} {b : β} {n : Nat} (h : c.dec d = some (b, n)) :
    c.Valid b ∧ d = c.enc b ++ d.drop n ∧ 0 < n ∧ n ≤ d.length := by
  obtain ⟨hv, ⟨t, rfl⟩, rfl⟩ := c.enc_dec d b n h
  refine ⟨hv, by simp, c.enc_pos b, by simp⟩

/-- With fuel for every symbol, one more unit changes nothing. -/
theorem itemsFuel_stable (fuel extra : Nat) (d : List α) (h : d.length ≤ fuel) :
    c.itemsFuel (fuel + extra) d = c.itemsFuel fuel d := by
  induction fuel generalizing d with
  | zero =>
      have hd : d = [] := List.length_eq_zero_iff.mp (Nat.le_zero.mp h)
      subst hd
      cases extra with
      | zero => rfl
      | succ extra =>
          have hnone : c.dec ([] : List α) = none := by
            cases hdec : c.dec ([] : List α) with
            | none => rfl
            | some p =>
                obtain ⟨_, _, hpos, hle⟩ := split_of_dec (b := p.1) (n := p.2) hdec
                simp at hle
                omega
          rw [Nat.zero_add, itemsFuel, itemsFuel, hnone]
  | succ fuel ih =>
      rw [Nat.add_right_comm, itemsFuel, itemsFuel]
      cases hdec : c.dec d with
      | none => rfl
      | some p =>
          obtain ⟨b, n⟩ := p
          obtain ⟨_, _, hpos, _⟩ := split_of_dec hdec
          have hlen : (d.drop n).length ≤ fuel := by
            rw [List.length_drop]
            omega
          simp only [ih (d.drop n) hlen]

/-- The decoder takes one item off the front and goes on with the rest. -/
theorem items_eq (d : List α) :
    c.items d =
      match c.dec d with
      | none => []
      | some (b, n) => b :: c.items (d.drop n) := by
  cases hdec : c.dec d with
  | none =>
      cases hlen : d.length with
      | zero => rw [items, hlen, itemsFuel]
      | succ k => rw [items, hlen, itemsFuel, hdec]
  | some p =>
      obtain ⟨b, n⟩ := p
      obtain ⟨_, _, hpos, hle⟩ := split_of_dec hdec
      have hlen : d.length = ((d.drop n).length + (n - 1)) + 1 := by
        rw [List.length_drop]
        omega
      rw [items, hlen, itemsFuel, hdec]
      simp only [itemsFuel_stable (d.drop n).length (n - 1) (d.drop n) (Nat.le_refl _), items]

theorem items_of_dec {d : List α} {b : β} {n : Nat} (h : c.dec d = some (b, n)) :
    c.items d = b :: c.items (d.drop n) := by
  rw [items_eq, h]

theorem items_of_dec_none {d : List α} (h : c.dec d = none) : c.items d = [] := by
  rw [items_eq, h]

/-- Strong induction that follows the decoder. -/
theorem decode_induction {motive : List α → Prop}
    (stop : ∀ d, c.dec d = none → motive d)
    (next : ∀ d b n, c.dec d = some (b, n) → motive (d.drop n) → motive d) :
    ∀ d, motive d := by
  intro d
  induction hk : d.length using Nat.strongRecOn generalizing d with
  | ind k ih =>
      cases hdec : c.dec d with
      | none => exact stop d hdec
      | some p =>
          obtain ⟨b, n⟩ := p
          obtain ⟨_, _, hpos, hle⟩ := split_of_dec hdec
          refine next d b n hdec (ih (d.drop n).length ?_ (d.drop n) rfl)
          rw [List.length_drop]
          omega

/-! ## Round trips -/

/-- Decoding undoes encoding and goes on with what follows. -/
theorem items_encAll_append {bs : List β} (hv : ∀ b ∈ bs, c.Valid b) (t : List α) :
    c.items (c.encAll bs ++ t) = bs ++ c.items t := by
  induction bs with
  | nil => rfl
  | cons b bs ih =>
      have hdec : c.dec (c.enc b ++ (c.encAll bs ++ t)) = some (b, (c.enc b).length) :=
        c.dec_enc b _ (hv b List.mem_cons_self)
      rw [encAll_cons, List.append_assoc, items_of_dec hdec, List.drop_left,
        ih fun x hx => hv x (List.mem_cons_of_mem b hx), List.cons_append]

@[simp] theorem items_nil : c.items ([] : List α) = [] := rfl

theorem items_encAll {bs : List β} (hv : ∀ b ∈ bs, c.Valid b) : c.items (c.encAll bs) = bs := by
  have h := items_encAll_append hv ([] : List α)
  rwa [List.append_nil, items_nil, List.append_nil] at h

/-- Every decoded item is one the code can encode. -/
theorem valid_of_mem_items (d : List α) : ∀ b ∈ c.items d, c.Valid b := by
  induction d using decode_induction (c := c) with
  | stop d hdec =>
      rw [items_of_dec_none hdec]
      simp
  | next d b n hdec ih =>
      rw [items_of_dec hdec]
      intro x hx
      rcases List.mem_cons.mp hx with rfl | hx
      · exact (split_of_dec hdec).1
      · exact ih x hx

/-- Re-encoding what was decoded gives back the front of the word. -/
theorem encAll_items_isPrefix (d : List α) : c.encAll (c.items d) <+: d := by
  induction d using decode_induction (c := c) with
  | stop d hdec =>
      rw [items_of_dec_none hdec]
      exact List.nil_prefix
  | next d b n hdec ih =>
      obtain ⟨_, hsplit, _, _⟩ := split_of_dec hdec
      rw [items_of_dec hdec, encAll_cons]
      obtain ⟨t, ht⟩ := ih
      exact ⟨t, by rw [List.append_assoc, ht, ← hsplit]⟩

/-- A longer word has the items of a shorter one and possibly more. -/
theorem items_mono {d d' : List α} (h : d <+: d') : c.items d <+: c.items d' := by
  induction d using decode_induction (c := c) generalizing d' with
  | stop d hdec =>
      rw [items_of_dec_none hdec]
      exact List.nil_prefix
  | next d b n hdec ih =>
      obtain ⟨hv, hsplit, _, _⟩ := split_of_dec hdec
      obtain ⟨_, _, hn⟩ := c.enc_dec d b n hdec
      obtain ⟨t, rfl⟩ := h
      have hdec' : c.dec (d ++ t) = some (b, n) := by
        rw [hsplit, List.append_assoc, c.dec_enc b _ hv, hn]
      have hdrop : (d ++ t).drop n = d.drop n ++ t :=
        List.drop_append_of_le_length (split_of_dec hdec).2.2.2
      rw [items_of_dec hdec, items_of_dec hdec', hdrop]
      exact List.cons_prefix_cons.mpr ⟨rfl, ih ⟨t, rfl⟩⟩

/-- Any encoded list at the front of a word is found by the decoder, so what it
returns is the longest such list. -/
theorem prefix_items {bs : List β} {d : List α} (hv : ∀ b ∈ bs, c.Valid b)
    (h : c.encAll bs <+: d) : bs <+: c.items d := by
  have hm := items_mono (c := c) h
  rwa [items_encAll hv] at hm

/-- Cutting an encoded list anywhere leaves some of its items, in order. -/
theorem items_of_prefix_encAll {bs : List β} {p : List α} (hv : ∀ b ∈ bs, c.Valid b)
    (h : p <+: c.encAll bs) : c.items p <+: bs := by
  have hm := items_mono (c := c) h
  rwa [items_encAll hv] at hm

/-- Cutting after the last recognised item loses no item. -/
theorem items_take_of_encAll_length_le {d : List α} {k : Nat}
    (h : (c.encAll (c.items d)).length ≤ k) : c.items (d.take k) = c.items d := by
  have hsub : c.encAll (c.items d) <+: d.take k :=
    List.prefix_take_iff.mpr ⟨encAll_items_isPrefix d, h⟩
  have htake := List.take_prefix k d
  refine List.IsPrefix.eq_of_length_le (items_mono htake) ?_
  exact (prefix_items (valid_of_mem_items d) hsub).length_le

/-! ## Positions -/

@[simp] theorem marksFrom_length (p : Nat) (bs : List β) :
    (c.marksFrom p bs).length = bs.length + 1 := by
  induction bs generalizing p with
  | nil => rfl
  | cons b bs ih => simp [marksFrom, ih]

@[simp] theorem marks_length (bs : List β) : (c.marks bs).length = bs.length + 1 :=
  marksFrom_length 0 bs

/-- The `i`-th position is the length of the encoding of the first `i` items. -/
theorem marksFrom_getElem? (p : Nat) (bs : List β) (i : Nat) (h : i ≤ bs.length) :
    (c.marksFrom p bs)[i]? = some (p + (c.encAll (bs.take i)).length) := by
  induction bs generalizing p i with
  | nil =>
      have hi : i = 0 := by simpa using h
      subst hi
      simp [marksFrom]
  | cons b bs ih =>
      cases i with
      | zero => simp [marksFrom]
      | succ i =>
          rw [marksFrom, List.getElem?_cons_succ, ih _ i (by simpa using h)]
          simp [Nat.add_assoc]

theorem marks_getElem? (bs : List β) (i : Nat) (h : i ≤ bs.length) :
    (c.marks bs)[i]? = some (c.encAll (bs.take i)).length := by
  have h0 := marksFrom_getElem? (c := c) 0 bs i h
  rwa [Nat.zero_add] at h0

theorem marksFrom_append (p : Nat) (bs cs : List β) :
    c.marksFrom p (bs ++ cs) =
      c.marksFrom p bs ++ (c.marksFrom (p + (c.encAll bs).length) cs).tail := by
  induction bs generalizing p with
  | nil => cases cs <;> simp [marksFrom]
  | cons b bs ih => simp [marksFrom, ih, Nat.add_assoc]

theorem marks_append (bs cs : List β) :
    c.marks (bs ++ cs) = c.marks bs ++ (c.marksFrom (c.encAll bs).length cs).tail := by
  have h := marksFrom_append (c := c) 0 bs cs
  rwa [Nat.zero_add] at h

/-- Neighbouring positions are apart by the encoding of an item. -/
theorem marksFrom_isChain {R : Nat → Nat → Prop} (h : ∀ p b, R p (p + (c.enc b).length)) (p : Nat)
    (bs : List β) : (c.marksFrom p bs).IsChain R := by
  induction bs generalizing p with
  | nil => exact .singleton p
  | cons b bs ih =>
      have hrest := ih (p + (c.enc b).length)
      cases bs with
      | nil => exact .cons_cons (h p b) hrest
      | cons b' bs => exact .cons_cons (h p b) hrest

/-- Positions counted from further on are the positions, shifted. -/
theorem marksFrom_add (p q : Nat) (bs : List β) :
    c.marksFrom (p + q) bs = (c.marksFrom q bs).map (p + ·) := by
  induction bs generalizing q with
  | nil => rfl
  | cons b bs ih => rw [marksFrom, marksFrom, List.map_cons, Nat.add_assoc, ih]

/-- The last position is the length of the whole encoding. -/
theorem marks_getLast? (bs : List β) : (c.marks bs).getLast? = some (c.encAll bs).length := by
  rw [List.getLast?_eq_getElem?, marks_length, Nat.add_sub_cancel,
    marks_getElem? bs bs.length (Nat.le_refl _), List.take_length]

end FrameCode

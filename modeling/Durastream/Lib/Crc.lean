import Mathlib.Tactic.TypeStar

/-!
# Cyclic redundancy checks

A register of `w` bits that a message is divided through, in the reflected order: bits
come in at the low end, and `poly` has its bit of degree zero at the high end.

A step is linear and, where that bit is set, loses nothing.  So two messages of one
length that differ only within `w` bits of each other leave different registers
(`feed_ne_of_burst`).  `shifts_xor` feeds several bits at once, as an implementation by
bytes does.
-/

namespace Crc

variable {w : Nat}

/-- One step of the division. -/
def shift (poly c : BitVec w) : BitVec w :=
  if c.getLsbD 0 then (c >>> 1) ^^^ poly else c >>> 1

/-- The register that has one bit of the message at its low end. -/
def bit (b : Bool) : BitVec w := if b then 1#w else 0#w

/-- A message goes in, first bit first. -/
def feed (poly c : BitVec w) (bs : List Bool) : BitVec w :=
  bs.foldl (fun c b => shift poly (c ^^^ bit b)) c

/-- `n` steps on nothing but zeros. -/
def shifts (poly : BitVec w) : Nat → BitVec w → BitVec w
  | 0, c => c
  | n + 1, c => shifts poly n (shift poly c)

/-- The low `n` bits of a word, lowest first. -/
def lowBits : Nat → BitVec w → List Bool
  | 0, _ => []
  | n + 1, x => x.getLsbD 0 :: lowBits n (x >>> 1)

variable {poly : BitVec w}

@[simp] theorem feed_nil (c : BitVec w) : feed poly c [] = c := rfl

@[simp] theorem feed_cons (c : BitVec w) (b : Bool) (bs : List Bool) :
    feed poly c (b :: bs) = feed poly (shift poly (c ^^^ bit b)) bs := rfl

theorem feed_append (c : BitVec w) (as bs : List Bool) :
    feed poly c (as ++ bs) = feed poly (feed poly c as) bs := List.foldl_append

@[simp] theorem lowBits_length (n : Nat) (x : BitVec w) : (lowBits n x).length = n := by
  induction n generalizing x with
  | zero => rfl
  | succ n ih => rw [lowBits, List.length_cons, ih]

/-- The low bits of a word are those of the word in a wider register. -/
theorem lowBits_setWidth {v : Nat} (hv : w ≤ v) (n : Nat) (x : BitVec w) :
    lowBits n (x.setWidth v) = lowBits n x := by
  induction n generalizing x with
  | zero => rfl
  | succ n ih =>
      have hdown : x.setWidth v >>> 1 = (x >>> 1).setWidth v := by
        apply BitVec.eq_of_getLsbD_eq
        intro i hi
        rw [BitVec.getLsbD_ushiftRight, BitVec.getLsbD_setWidth, BitVec.getLsbD_setWidth,
          BitVec.getLsbD_ushiftRight]
        by_cases htop : 1 + i < v
        · simp [htop, hi]
        · have hout : x.getLsbD (1 + i) = false := BitVec.getLsbD_of_ge x _ (by omega)
          simp [hout]
      have hlow : (x.setWidth v).getLsbD 0 = x.getLsbD 0 := by
        rw [BitVec.getLsbD_setWidth]
        rcases Nat.eq_zero_or_pos v with rfl | hpos
        · have hout : x.getLsbD 0 = false := BitVec.getLsbD_of_ge x 0 hv
          simp [hout]
        · simp [hpos]
      rw [lowBits, lowBits, hdown, hlow, ih]

/-! ## A step is linear -/

theorem shift_xor (a b : BitVec w) : shift poly (a ^^^ b) = shift poly a ^^^ shift poly b := by
  have hpair : ∀ x y : BitVec w, x ^^^ poly ^^^ (y ^^^ poly) = x ^^^ y := by
    intro x y
    rw [BitVec.xor_comm y, BitVec.xor_assoc x, ← BitVec.xor_assoc poly, BitVec.xor_self,
      BitVec.zero_xor]
  unfold shift
  rw [BitVec.getLsbD_xor, BitVec.ushiftRight_xor_distrib]
  cases a.getLsbD 0 <;> cases b.getLsbD 0
  · rfl
  · exact BitVec.xor_assoc _ _ _
  · simp only [Bool.xor_false, if_true, Bool.false_eq_true, if_false]
    rw [BitVec.xor_assoc, BitVec.xor_comm (b >>> 1), ← BitVec.xor_assoc]
  · exact (hpair _ _).symm

theorem bit_xor (a b : Bool) : (bit (a ^^ b) : BitVec w) = bit a ^^^ bit b := by
  cases a <;> cases b <;> simp [bit]

/-- The division of a difference is the difference of the divisions. -/
theorem feed_xor {as bs : List Bool} (h : as.length = bs.length) (c d : BitVec w) :
    feed poly (c ^^^ d) (as.zipWith Bool.xor bs) = feed poly c as ^^^ feed poly d bs := by
  induction as generalizing bs c d with
  | nil =>
      obtain rfl := List.length_eq_zero_iff.mp h.symm
      rfl
  | cons a as ih =>
      cases bs with
      | nil => cases h
      | cons b bs =>
          have hstep : shift poly (c ^^^ d ^^^ bit (a ^^ b)) =
              shift poly (c ^^^ bit a) ^^^ shift poly (d ^^^ bit b) := by
            rw [← shift_xor, bit_xor]
            ac_rfl
          rw [List.zipWith_cons_cons, feed_cons, feed_cons, feed_cons, hstep]
          exact ih (Nat.succ.inj h) _ _

/-- What is above the bits fed only moves down. -/
theorem shifts_xor (n : Nat) (c x : BitVec w) :
    shifts poly n (c ^^^ x) = feed poly c (lowBits n x) ^^^ (x >>> n) := by
  induction n generalizing c x with
  | zero => rw [shifts, lowBits, feed_nil, BitVec.ushiftRight_zero]
  | succ n ih =>
      have hlow : x = bit (x.getLsbD 0) ^^^ ((x >>> 1) <<< 1) := by
        apply BitVec.eq_of_getLsbD_eq
        intro i hi
        cases i with
        | zero => cases hx : x.getLsbD 0 <;> simp [bit, hi]
        | succ i =>
            rw [BitVec.getLsbD_xor, BitVec.getLsbD_shiftLeft, BitVec.getLsbD_ushiftRight,
              Nat.add_sub_cancel, Nat.add_comm 1 i]
            cases hx : x.getLsbD 0 <;> simp [bit, hi]
      have hrest : shift poly ((x >>> 1) <<< 1) = x >>> 1 := by
        apply BitVec.eq_of_getLsbD_eq
        intro i hi
        have hzero : ((x >>> 1) <<< 1).getLsbD 0 = false := by simp
        rw [shift, hzero, if_neg Bool.false_ne_true, BitVec.getLsbD_ushiftRight,
          BitVec.getLsbD_shiftLeft, Nat.add_sub_cancel_left, BitVec.getLsbD_ushiftRight]
        by_cases htop : 1 + i < w
        · simp [htop]
        · have hout : x.getLsbD (1 + i) = false := BitVec.getLsbD_of_ge x _ (Nat.le_of_not_lt htop)
          simp [hout]
      have hsplit : shift poly (c ^^^ x) =
          shift poly (c ^^^ bit (x.getLsbD 0)) ^^^ (x >>> 1) := by
        conv => lhs; rw [hlow]
        rw [← BitVec.xor_assoc, shift_xor, hrest]
      rw [shifts, hsplit, ih, lowBits, feed_cons, ← BitVec.shiftRight_add, Nat.add_comm 1 n]

/-! ## Bursts -/

/-- The bit a step drops shows at the high end. -/
theorem msb_shift (hpoly : poly.msb = true) (c : BitVec w) :
    (shift poly c).msb = c.getLsbD 0 := by
  have hw : 0 < w := by
    rcases Nat.eq_zero_or_pos w with rfl | hw
    · simp [BitVec.msb] at hpoly
    · exact hw
  have hhigh : (c >>> 1).msb = false := by
    rw [BitVec.msb_eq_getLsbD_last, BitVec.getLsbD_ushiftRight]
    exact BitVec.getLsbD_of_ge c _ (by omega)
  unfold shift
  split
  · next hlow => rw [BitVec.msb_xor, hhigh, hpoly, hlow]; rfl
  · next hlow => rw [hhigh, Bool.eq_false_iff.mpr hlow]

/-- No step empties a register. -/
theorem eq_zero_of_shift (hpoly : poly.msb = true) {c : BitVec w} (h : shift poly c = 0#w) :
    c = 0#w := by
  have hlow : c.getLsbD 0 = false := by rw [← msb_shift hpoly, h, BitVec.msb_zero]
  have hrest : c >>> 1 = 0#w := by rwa [shift, hlow, if_neg Bool.false_ne_true] at h
  apply BitVec.eq_of_getLsbD_eq
  intro i hi
  cases i with
  | zero => rw [hlow, BitVec.getLsbD_zero]
  | succ i =>
      have hbit := congrArg (fun x => BitVec.getLsbD x i) hrest
      rw [BitVec.getLsbD_ushiftRight, Nat.add_comm 1 i] at hbit
      rw [hbit, BitVec.getLsbD_zero, BitVec.getLsbD_zero]

/-- No message takes two registers to one. -/
theorem feed_injective (hpoly : poly.msb = true) (bs : List Bool) {c d : BitVec w}
    (h : feed poly c bs = feed poly d bs) : c = d := by
  induction bs generalizing c d with
  | nil => exact h
  | cons b bs ih =>
      have hstep : shift poly (c ^^^ bit b) = shift poly (d ^^^ bit b) := ih h
      have hzero : c ^^^ bit b ^^^ (d ^^^ bit b) = 0#w := by
        apply eq_zero_of_shift hpoly
        rw [shift_xor, hstep, BitVec.xor_self]
      have hsame : c ^^^ bit b ^^^ (d ^^^ bit b) = c ^^^ d := by
        rw [BitVec.xor_comm d, BitVec.xor_assoc c, ← BitVec.xor_assoc (bit b), BitVec.xor_self,
          BitVec.zero_xor]
      rw [hsame] at hzero
      exact BitVec.xor_eq_zero_iff.mp hzero

/-- A short message that leaves nothing in the register was in it before. -/
theorem bits_of_feed (hpoly : poly.msb = true) (bs : List Bool) (c : BitVec w)
    (hlen : bs.length ≤ w) (h : feed poly c bs = 0#w) :
    (∀ i, (hi : i < bs.length) → c.getLsbD i = bs[i]) ∧
      ∀ i, bs.length ≤ i → c.getLsbD i = false := by
  induction bs generalizing c with
  | nil =>
      obtain rfl : c = 0#w := h
      exact ⟨fun i hi => absurd hi (Nat.not_lt_zero i), fun i _ => BitVec.getLsbD_zero⟩
  | cons b bs ih =>
      rw [List.length_cons] at hlen
      obtain ⟨hin, hout⟩ := ih (shift poly (c ^^^ bit b)) (by omega) h
      have hlow : (c ^^^ bit b).getLsbD 0 = false := by
        rw [← msb_shift hpoly, BitVec.msb_eq_getLsbD_last]
        exact hout _ (by omega)
      have hnext : ∀ i, (shift poly (c ^^^ bit b)).getLsbD i = c.getLsbD (i + 1) := by
        intro i
        rw [shift, hlow, if_neg Bool.false_ne_true, BitVec.getLsbD_ushiftRight,
          BitVec.getLsbD_xor, Nat.add_comm 1 i]
        cases b <;> simp [bit]
      refine ⟨fun i hi => ?_, fun i hi => ?_⟩
      · cases i with
        | zero =>
            rw [BitVec.getLsbD_xor] at hlow
            cases b <;> simpa [bit, show 0 < w by omega] using hlow
        | succ i =>
            rw [List.getElem_cons_succ, ← hin i (by simpa using hi), hnext]
      · cases i with
        | zero => simp at hi
        | succ i => rw [← hnext, hout i (by simpa using hi)]

/-- A burst of at most `w` bits shows in the register, whatever comes before and after. -/
theorem feed_ne_of_burst (hpoly : poly.msb = true) (c : BitVec w) (front back : List Bool)
    {as bs : List Bool} (hlen : as.length = bs.length) (hw : as.length ≤ w) (hne : as ≠ bs) :
    feed poly c (front ++ as ++ back) ≠ feed poly c (front ++ bs ++ back) := by
  intro h
  rw [feed_append, feed_append, feed_append, feed_append] at h
  have hmid := feed_injective hpoly back h
  have hdiff : feed poly 0#w (as.zipWith Bool.xor bs) = 0#w := by
    have hxor : feed poly (feed poly c front ^^^ feed poly c front) (as.zipWith Bool.xor bs) = _ :=
      feed_xor hlen _ _
    rwa [BitVec.xor_self, hmid, BitVec.xor_self] at hxor
  have hshort : (as.zipWith Bool.xor bs).length = as.length := by
    rw [List.length_zipWith, ← hlen, Nat.min_self]
  obtain ⟨hin, -⟩ := bits_of_feed hpoly _ _ (by omega) hdiff
  refine hne (List.ext_getElem hlen fun i hi hi' => ?_)
  have hbit := hin i (by omega)
  rw [BitVec.getLsbD_zero, List.getElem_zipWith] at hbit
  simpa using hbit.symm

end Crc

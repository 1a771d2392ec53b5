import Mathlib.Algebra.GroupWithZero.Nat
import Mathlib.Data.List.Basic

/-!
# Numerals

Letters that stand for the digits of a base, in their order.  A word of such letters
stands for a number.  Words of one length are ordered, letter by letter from the
front, as their numbers are (`lt_iff_value_lt`).
-/

/-- Letters that stand for digits. -/
structure Digits (α : Type*) [LT α] where
  base : Nat
  /-- The letters that are digits. -/
  Valid : α → Prop
  digit : α → Nat
  digit_lt : ∀ a, Valid a → digit a < base
  digit_inj : ∀ a b, Valid a → Valid b → digit a = digit b → a = b
  lt_iff : ∀ a b, Valid a → Valid b → (a < b ↔ digit a < digit b)

namespace Digits

variable {α : Type*} [LT α] (δ : Digits α)

/-- The number of a word written behind the number `n`. -/
def valueFrom (n : Nat) (w : List α) : Nat := w.foldl (fun n a => δ.base * n + δ.digit a) n

/-- The number of a word. -/
def value (w : List α) : Nat := δ.valueFrom 0 w

variable {δ}

theorem valueFrom_eq (n : Nat) (w : List α) :
    δ.valueFrom n w = δ.base ^ w.length * n + δ.value w := by
  induction w generalizing n with
  | nil => simp [value, valueFrom]
  | cons a w ih =>
      have hn : δ.valueFrom n (a :: w) = δ.valueFrom (δ.base * n + δ.digit a) w := rfl
      have hzero : δ.value (a :: w) = δ.valueFrom (δ.base * 0 + δ.digit a) w := rfl
      rw [hn, hzero, ih, ih (δ.base * 0 + δ.digit a), List.length_cons, Nat.pow_succ, Nat.mul_zero,
        Nat.zero_add, Nat.mul_add, Nat.mul_assoc, Nat.add_assoc]

@[simp] theorem value_nil : δ.value [] = 0 := rfl

theorem value_cons (a : α) (w : List α) :
    δ.value (a :: w) = δ.base ^ w.length * δ.digit a + δ.value w := by
  have hcons : δ.value (a :: w) = δ.valueFrom (δ.base * 0 + δ.digit a) w := rfl
  rw [hcons, valueFrom_eq, Nat.mul_zero, Nat.zero_add]

/-- A word stands for less than a power of the base. -/
theorem value_lt {w : List α} (h : ∀ a ∈ w, δ.Valid a) : δ.value w < δ.base ^ w.length := by
  induction w with
  | nil => exact Nat.one_pos
  | cons a w ih =>
      have hw := ih fun b hb => h b (List.mem_cons_of_mem a hb)
      have ha := δ.digit_lt a (h a List.mem_cons_self)
      calc δ.value (a :: w) = δ.base ^ w.length * δ.digit a + δ.value w := value_cons a w
        _ < δ.base ^ w.length * δ.digit a + δ.base ^ w.length := Nat.add_lt_add_left hw _
        _ = δ.base ^ w.length * (δ.digit a + 1) := rfl
        _ ≤ δ.base ^ w.length * δ.base := Nat.mul_le_mul_left _ ha
        _ = δ.base ^ (a :: w).length := rfl

/-- The first digit decides, whatever follows. -/
theorem value_lt_of_digit_lt {a b : α} {v w : List α} (hv : ∀ c ∈ v, δ.Valid c)
    (hlen : v.length = w.length) (h : δ.digit a < δ.digit b) :
    δ.value (a :: v) < δ.value (b :: w) := by
  calc δ.value (a :: v) = δ.base ^ v.length * δ.digit a + δ.value v := value_cons a v
    _ < δ.base ^ v.length * δ.digit a + δ.base ^ v.length := Nat.add_lt_add_left (value_lt hv) _
    _ = δ.base ^ v.length * (δ.digit a + 1) := rfl
    _ ≤ δ.base ^ v.length * δ.digit b := Nat.mul_le_mul_left _ h
    _ ≤ δ.base ^ w.length * δ.digit b + δ.value w := hlen ▸ Nat.le_add_right _ _
    _ = δ.value (b :: w) := (value_cons b w).symm

/-- Words of one length are ordered as their numbers. -/
theorem lt_iff_value_lt {v w : List α} (hv : ∀ a ∈ v, δ.Valid a) (hw : ∀ a ∈ w, δ.Valid a)
    (hlen : v.length = w.length) : v < w ↔ δ.value v < δ.value w := by
  induction v generalizing w with
  | nil =>
      cases List.length_eq_zero_iff.mp hlen.symm
      exact iff_of_false (List.not_lt_nil _) (Nat.lt_irrefl _)
  | cons a v ih =>
      cases w with
      | nil => cases hlen
      | cons b w =>
          have hrest : v.length = w.length := Nat.succ.inj hlen
          have ha := hv a List.mem_cons_self
          have hb := hw b List.mem_cons_self
          have hv' : ∀ c ∈ v, δ.Valid c := fun c hc => hv c (List.mem_cons_of_mem a hc)
          have hw' : ∀ c ∈ w, δ.Valid c := fun c hc => hw c (List.mem_cons_of_mem b hc)
          rw [List.cons_lt_cons_iff, δ.lt_iff a b ha hb, ih hv' hw' hrest]
          rcases Nat.lt_trichotomy (δ.digit a) (δ.digit b) with hlt | heq | hgt
          · exact ⟨fun _ => value_lt_of_digit_lt hv' hrest hlt, fun _ => .inl hlt⟩
          · cases δ.digit_inj a b ha hb heq
            rw [value_cons, value_cons, hrest, Nat.add_lt_add_iff_left]
            simp
          · have hvalue := value_lt_of_digit_lt hw' hrest.symm hgt
            constructor
            · rintro (h | ⟨rfl, -⟩)
              · exact absurd h (Nat.lt_asymm hgt)
              · exact absurd hgt (Nat.lt_irrefl _)
            · exact fun h => absurd h (Nat.lt_asymm hvalue)

end Digits

import Durastream.Lib.Numerals
import Mathlib.Data.List.DropRight

/-!
# Offset tokens

`toToken` prints an offset and fills it with zeros, `fromToken` strips a token, tests it
for `-1` and `now`, and gives it to `int`.  A string is a list of code points.

`strip` takes off what Python takes for whitespace.  `int` takes the decimal digits of
every script, with single underscores between them.  It and `str` refuse more than 4300
digits.
-/

namespace Durastream

/-- A Python string. -/
abbrev Token := List Char

/-- `TOKEN_WIDTH`. -/
def tokenWidth : Nat := 20

/-- What `sys.get_int_max_str_digits` returns. -/
def maxStrDigits : Nat := 4300

/-- The texts of `ValueError` that `str` and `int` raise. -/
inductive NumberError where
  /-- `Exceeds the limit (4300 digits) for integer string conversion`. -/
  | tooManyDigits
  /-- `invalid literal for int() with base 10: {token!r}`. -/
  | invalidLiteral (token : Token)
deriving DecidableEq, Repr

/-! ## Printing -/

/-- `str(offset)`. -/
def str (offset : Int) : Except NumberError Token :=
  let digits := Nat.toDigits 10 offset.natAbs
  if digits.length > maxStrDigits then .error .tooManyDigits
  else .ok (if offset < 0 then '-' :: digits else digits)

/-- `s.zfill(width)`: a sign stays in front of the zeros. -/
def zfill (width : Nat) (s : Token) : Token :=
  let zeros := List.replicate (width - s.length) '0'
  match s with
  | '-' :: s => '-' :: (zeros ++ s)
  | '+' :: s => '+' :: (zeros ++ s)
  | s => zeros ++ s

/-- `to_token`. -/
def toToken (offset : Int) : Except NumberError Token := (str offset).map (zfill tokenWidth)

/-! ## Parsing -/

/-- `c.isspace()`. -/
def isSpace (c : Char) : Bool :=
  (0x9 ≤ c.toNat && c.toNat ≤ 0xd) || (0x1c ≤ c.toNat && c.toNat ≤ 0x20) ||
    (0x2000 ≤ c.toNat && c.toNat ≤ 0x200a) ||
    [0x85, 0xa0, 0x1680, 0x2028, 0x2029, 0x202f, 0x205f, 0x3000].contains c.toNat

/-- `s.strip()`. -/
def strip (s : Token) : Token := (s.dropWhile isSpace).rdropWhile isSpace

/-- The zeros of the scripts that have decimal digits.  The other nine follow each. -/
def decimalZeros : List Nat :=
  [0x30, 0x660, 0x6f0, 0x7c0, 0x966, 0x9e6, 0xa66, 0xae6, 0xb66, 0xbe6, 0xc66, 0xce6, 0xd66, 0xde6,
    0xe50, 0xed0, 0xf20, 0x1040, 0x1090, 0x17e0, 0x1810, 0x1946, 0x19d0, 0x1a80, 0x1a90, 0x1b50,
    0x1bb0, 0x1c40, 0x1c50, 0xa620, 0xa8d0, 0xa900, 0xa9d0, 0xa9f0, 0xaa50, 0xabf0, 0xff10, 0x104a0,
    0x10d30, 0x11066, 0x110f0, 0x11136, 0x111d0, 0x112f0, 0x11450, 0x114d0, 0x11650, 0x116c0,
    0x11730, 0x118e0, 0x11950, 0x11c50, 0x11d50, 0x11da0, 0x11f50, 0x16a60, 0x16ac0, 0x16b50,
    0x1d7ce, 0x1d7d8, 0x1d7e2, 0x1d7ec, 0x1d7f6, 0x1e140, 0x1e2f0, 0x1e4f0, 0x1e950, 0x1fbf0]

/-- The digit a character stands for. -/
def decimal (c : Char) : Option Nat :=
  (decimalZeros.find? fun z => z ≤ c.toNat && c.toNat < z + 10).map (c.toNat - ·)

/-- The digits of a literal: an underscore may stand between two of them. -/
def literalDigits : Token → Option (List Nat)
  | [] => none
  | [c] => (decimal c).map ([·])
  | c :: '_' :: s => do return (← decimal c) :: (← literalDigits s)
  | c :: s => do return (← decimal c) :: (← literalDigits s)

/-- The decimal digits as numbers. -/
def decimals : Digits Nat where
  base := 10
  Valid d := d < 10
  digit d := d
  digit_lt _ h := h
  digit_inj _ _ _ _ h := h
  lt_iff _ _ _ _ := Iff.rfl

/-- `int(token)` of a token with neither a sign nor whitespace around. -/
def unsigned (token s : Token) : Except NumberError Nat :=
  match literalDigits s with
  | none => .error (.invalidLiteral token)
  | some digits =>
      if digits.length > maxStrDigits then .error .tooManyDigits else .ok (decimals.value digits)

/-- `int(token)` of a token with no whitespace around. -/
def int (token : Token) : Except NumberError Int :=
  match token with
  | '-' :: s => (unsigned token s).map fun n => -n
  | '+' :: s => (unsigned token s).map fun n => n
  | s => (unsigned token s).map fun n => n

/-- `from_token`. -/
def fromToken (token : Token) (nextOffset : Int) : Except NumberError Int :=
  let token := strip token
  if token = ['-', '1'] then .ok 0
  else if token = ['n', 'o', 'w'] then .ok nextOffset
  else int token

/-! ## Digits -/

theorem isDigit_iff {c : Char} : c.isDigit ↔ 48 ≤ c.toNat ∧ c.toNat ≤ 57 := by
  rw [Char.isDigit, Bool.and_eq_true, decide_eq_true_iff, decide_eq_true_iff]
  exact Iff.rfl

/-- The digits that `str` prints. -/
def asciiDigits : Digits Char where
  base := 10
  Valid c := c.isDigit
  digit c := c.toNat - 48
  digit_lt c h := by
    have hc := isDigit_iff.mp h
    omega
  digit_inj c d hc hd h := by
    have hc := isDigit_iff.mp hc
    have hd := isDigit_iff.mp hd
    exact Char.toNat_inj.mp (by omega)
  lt_iff c d hc hd := by
    have hc := isDigit_iff.mp hc
    have hd := isDigit_iff.mp hd
    show c.toNat < d.toNat ↔ c.toNat - 48 < d.toNat - 48
    omega

theorem decimal_of_isDigit {c : Char} (h : c.isDigit) : decimal c = some (c.toNat - 48) := by
  have hc := isDigit_iff.mp h
  have hfirst : (decide (0x30 ≤ c.toNat) && decide (c.toNat < 0x30 + 10)) = true := by
    rw [Bool.and_eq_true, decide_eq_true_iff, decide_eq_true_iff]
    omega
  have hfind : (decimalZeros.find? fun z => z ≤ c.toNat && c.toNat < z + 10) = some 0x30 :=
    List.find?_cons_of_pos hfirst
  rw [decimal, hfind, Option.map_some]

/-- A word of digits is a literal. -/
theorem literalDigits_of_isDigit {s : Token} (hne : s ≠ []) (h : ∀ c ∈ s, c.isDigit) :
    literalDigits s = some (s.map (·.toNat - 48)) := by
  induction s using literalDigits.induct with
  | case1 => exact absurd rfl hne
  | case2 c => rw [literalDigits, decimal_of_isDigit (h c List.mem_cons_self)]; rfl
  | case3 c s ih => exact absurd (h '_' (by simp)) (by decide)
  | case4 c s hone hscore ih =>
      have hs := ih (fun hs => hone hs) fun d hd => h d (List.mem_cons_of_mem c hd)
      rw [literalDigits, decimal_of_isDigit (h c List.mem_cons_self), hs]
      · rfl
      · exact hone
      · exact hscore

theorem value_map_digit (s : Token) :
    decimals.value (s.map (·.toNat - 48)) = asciiDigits.value s := by
  rw [Digits.value, Digits.valueFrom, List.foldl_map]
  rfl

/-- A word with as many digits as `int` takes is read as its number. -/
theorem int_of_isDigit {s : Token} (hne : s ≠ []) (h : ∀ c ∈ s, c.isDigit)
    (hlen : s.length ≤ maxStrDigits) : int s = .ok (asciiDigits.value s) := by
  unfold int
  split
  · exact absurd (h '-' List.mem_cons_self) (by decide)
  · exact absurd (h '+' List.mem_cons_self) (by decide)
  · rw [unsigned, literalDigits_of_isDigit hne h]
    dsimp only
    rw [List.length_map, if_neg (Nat.not_lt.mpr hlen), value_map_digit]
    rfl

theorem zfill_of_isDigit {s : Token} (h : ∀ c ∈ s, c.isDigit) (width : Nat) :
    zfill width s = List.replicate (width - s.length) '0' ++ s := by
  unfold zfill
  split
  · exact absurd (h '-' List.mem_cons_self) (by decide)
  · exact absurd (h '+' List.mem_cons_self) (by decide)
  · rfl

/-! ## Whitespace -/

theorem isSpace_of_isDigit {c : Char} (h : c.isDigit) : isSpace c = false := by
  have hc := isDigit_iff.mp h
  simp [isSpace]
  omega

/-- Whitespace around a word without any is stripped. -/
theorem strip_append {s pre post : Token} (hs : ∀ c ∈ s, isSpace c = false)
    (hpre : ∀ c ∈ pre, isSpace c) (hpost : ∀ c ∈ post, isSpace c) :
    strip (pre ++ s ++ post) = s := by
  have hkeep : ∀ t : Token, (∀ c ∈ t, isSpace c = false) → t.dropWhile isSpace = t := by
    intro t ht
    cases t with
    | nil => rfl
    | cons c t => rw [List.dropWhile_cons, ht c List.mem_cons_self, if_neg Bool.false_ne_true]
  have hpost' : ∀ c ∈ post.reverse, isSpace c := fun c hc => hpost c (List.mem_reverse.mp hc)
  have hs' : ∀ c ∈ s.reverse, isSpace c = false := fun c hc => hs c (List.mem_reverse.mp hc)
  rw [strip, List.append_assoc, List.dropWhile_append_of_pos hpre]
  cases s with
  | nil =>
      rw [List.nil_append, ← List.append_nil post, List.dropWhile_append_of_pos hpost]
      rfl
  | cons c s =>
      rw [List.cons_append, List.dropWhile_cons, hs c List.mem_cons_self,
        if_neg Bool.false_ne_true, ← List.cons_append, List.rdropWhile, List.reverse_append,
        List.dropWhile_append_of_pos hpost', hkeep _ hs', List.reverse_reverse]

/-! ## Tokens of offsets -/

/-- The token of an offset. -/
def padded (n : Nat) : Token :=
  List.replicate (tokenWidth - (Nat.toDigits 10 n).length) '0' ++ Nat.toDigits 10 n

theorem isDigit_of_mem_padded {n : Nat} : ∀ c ∈ padded n, c.isDigit := by
  intro c hc
  rcases List.mem_append.mp hc with hc | hc
  · rw [List.eq_of_mem_replicate hc]
    rfl
  · exact Nat.isDigit_of_mem_toDigits (by decide) (by decide) hc

theorem padded_ne_nil (n : Nat) : padded n ≠ [] :=
  List.append_ne_nil_of_right_ne_nil _ Nat.toDigits_ne_nil

/-- A token is no sentinel. -/
theorem padded_ne_sentinel (n : Nat) : padded n ≠ ['-', '1'] ∧ padded n ≠ ['n', 'o', 'w'] := by
  constructor
  · intro h
    exact absurd (isDigit_of_mem_padded (n := n) '-' (by rw [h]; simp)) (by decide)
  · intro h
    exact absurd (isDigit_of_mem_padded (n := n) 'n' (by rw [h]; simp)) (by decide)

theorem padded_length (n : Nat) :
    (padded n).length = max tokenWidth (Nat.toDigits 10 n).length := by
  rw [padded, List.length_append, List.length_replicate]
  omega

theorem value_padded (n : Nat) : asciiDigits.value (padded n) = n := by
  have hvalue : asciiDigits.value (padded n) = Nat.ofDigitChars 10 (padded n) 0 := by
    rw [Nat.ofDigitChars_eq_foldl]
    rfl
  rw [hvalue, padded, Nat.ofDigitChars_append, Nat.ofDigitChars_replicate_zero, Nat.mul_zero,
    Nat.ofDigitChars_toDigits (by decide) (by decide)]

theorem toToken_eq {n : Nat} (h : (Nat.toDigits 10 n).length ≤ maxStrDigits) :
    toToken n = .ok (padded n) := by
  have hdigits : ∀ c ∈ Nat.toDigits 10 n, c.isDigit := fun c hc =>
    Nat.isDigit_of_mem_toDigits (by decide) (by decide) hc
  have hneg : ¬(n : Int) < 0 := by omega
  rw [toToken, str, Int.natAbs_natCast, if_neg (Nat.not_lt.mpr h), if_neg hneg]
  exact congrArg Except.ok (zfill_of_isDigit hdigits tokenWidth)

/-- Whatever whitespace is around it, a token is read as its offset. -/
theorem fromToken_padded {n : Nat} (h : (Nat.toDigits 10 n).length ≤ maxStrDigits)
    {pre post : Token} (hpre : ∀ c ∈ pre, isSpace c) (hpost : ∀ c ∈ post, isSpace c)
    (nextOffset : Int) : fromToken (pre ++ padded n ++ post) nextOffset = .ok n := by
  have hspace : ∀ c ∈ padded n, isSpace c = false := fun c hc =>
    isSpace_of_isDigit (isDigit_of_mem_padded c hc)
  have hlen : (padded n).length ≤ maxStrDigits := by
    rw [padded_length]
    exact Nat.max_le.mpr ⟨by decide, h⟩
  obtain ⟨hstart, htail⟩ := padded_ne_sentinel n
  rw [fromToken, strip_append hspace hpre hpost, if_neg hstart, if_neg htail,
    int_of_isDigit (padded_ne_nil n) isDigit_of_mem_padded hlen, value_padded]

theorem padded_lt_iff {m n : Nat} (hm : m < 10 ^ tokenWidth) (hn : n < 10 ^ tokenWidth) :
    (padded m).length = tokenWidth ∧ (padded n).length = tokenWidth ∧
      (padded m < padded n ↔ m < n) := by
  have hlen : ∀ k < 10 ^ tokenWidth, (padded k).length = tokenWidth := by
    intro k hk
    rw [padded_length, Nat.max_eq_left]
    exact (Nat.length_toDigits_le_iff (by decide) (by decide)).mpr hk
  refine ⟨hlen m hm, hlen n hn, ?_⟩
  have hsame : (padded m).length = (padded n).length := (hlen m hm).trans (hlen n hn).symm
  have hlt := Digits.lt_iff_value_lt (δ := asciiDigits) isDigit_of_mem_padded isDigit_of_mem_padded
    hsame
  rwa [value_padded, value_padded] at hlt

/-! ## Digits without padding -/

theorem isDigit_toDigits {n : Nat} : ∀ c ∈ Nat.toDigits 10 n, c.isDigit := fun c hc =>
  Nat.isDigit_of_mem_toDigits (by decide) (by decide) hc

theorem strip_toDigits (n : Nat) : strip (Nat.toDigits 10 n) = Nat.toDigits 10 n := by
  have hspace : ∀ c ∈ Nat.toDigits 10 n, isSpace c = false := fun c hc =>
    isSpace_of_isDigit (isDigit_toDigits c hc)
  have hstrip : strip ([] ++ Nat.toDigits 10 n ++ []) = Nat.toDigits 10 n :=
    strip_append hspace (by simp) (by simp)
  rwa [List.nil_append, List.append_nil] at hstrip

theorem value_toDigits (n : Nat) : asciiDigits.value (Nat.toDigits 10 n) = n := by
  have hvalue : asciiDigits.value (Nat.toDigits 10 n) =
      Nat.ofDigitChars 10 (Nat.toDigits 10 n) 0 := by
    rw [Nat.ofDigitChars_eq_foldl]
    rfl
  rw [hvalue, Nat.ofDigitChars_toDigits (by decide) (by decide)]

theorem int_toDigits {n : Nat} (h : (Nat.toDigits 10 n).length ≤ maxStrDigits) :
    int (Nat.toDigits 10 n) = .ok n := by
  rw [int_of_isDigit Nat.toDigits_ne_nil isDigit_toDigits h, value_toDigits]

/-- Digits are no sentinel. -/
theorem fromToken_toDigits {n : Nat} (h : (Nat.toDigits 10 n).length ≤ maxStrDigits)
    (nextOffset : Int) : fromToken (Nat.toDigits 10 n) nextOffset = .ok n := by
  have hstart : Nat.toDigits 10 n ≠ ['-', '1'] := fun heq =>
    absurd (isDigit_toDigits (n := n) '-' (by rw [heq]; simp)) (by decide)
  have htail : Nat.toDigits 10 n ≠ ['n', 'o', 'w'] := fun heq =>
    absurd (isDigit_toDigits (n := n) 'n' (by rw [heq]; simp)) (by decide)
  rw [fromToken, strip_toDigits, if_neg hstart, if_neg htail, int_toDigits h]

/-! ## The laws of tokens -/

/-- Tokens round-trip through any whitespace, are no sentinels, and up to 20 digits
they sort like offsets. -/
theorem token_laws :
    (∀ n : Nat, n < 10 ^ maxStrDigits → ∃ token, toToken n = .ok token ∧
      (∀ pre post : Token, (∀ c ∈ pre, isSpace c) → (∀ c ∈ post, isSpace c) →
        ∀ nextOffset, fromToken (pre ++ token ++ post) nextOffset = .ok n) ∧
      token ≠ ['-', '1'] ∧ token ≠ ['n', 'o', 'w']) ∧
    (∀ m n : Nat, m < 10 ^ maxStrDigits → n < 10 ^ maxStrDigits → toToken m = toToken n → m = n) ∧
    ∀ m n : Nat, m < 10 ^ 20 → n < 10 ^ 20 →
      ∃ s t, toToken m = .ok s ∧ toToken n = .ok t ∧ s.length = 20 ∧ t.length = 20 ∧
        (s < t ↔ m < n) := by
  have hdigits : ∀ n : Nat, n < 10 ^ maxStrDigits →
      (Nat.toDigits 10 n).length ≤ maxStrDigits := by
    intro n hn
    exact (Nat.length_toDigits_le_iff (by decide) (by decide)).mpr hn
  refine ⟨?_, ?_, ?_⟩
  · intro n hn
    exact ⟨padded n, toToken_eq (hdigits n hn),
      fun pre post hpre hpost next => fromToken_padded (hdigits n hn) hpre hpost next,
      padded_ne_sentinel n⟩
  · intro m n hm hn h
    rw [toToken_eq (hdigits m hm), toToken_eq (hdigits n hn), Except.ok.injEq] at h
    have hvalue := congrArg asciiDigits.value h
    rwa [value_padded, value_padded] at hvalue
  · intro m n hm hn
    have hwide : ∀ k : Nat, k < 10 ^ 20 → (Nat.toDigits 10 k).length ≤ maxStrDigits := fun k hk =>
      Nat.le_trans ((Nat.length_toDigits_le_iff (k := 20) (by decide) (by decide)).mpr hk)
        (by decide)
    obtain ⟨hlenm, hlenn, hlt⟩ := padded_lt_iff hm hn
    exact ⟨padded m, padded n, toToken_eq (hwide m hm), toToken_eq (hwide n hn), hlenm, hlenn, hlt⟩

example : toToken 3 = .ok ("00000000000000000003".toList) ∧ fromToken "-1".toList 5 = .ok 0 ∧
    fromToken " now ".toList 5 = .ok 5 := by decide +kernel

end Durastream

import Mathlib.Algebra.Order.Field.Power
import Mathlib.Algebra.Order.Field.Rat
import Mathlib.Data.Int.Log
import Mathlib.Data.Rat.Floor
import Mathlib.Tactic.Linarith
import Mathlib.Tactic.Positivity
import Mathlib.Tactic.Ring

/-! Rounding of rational numbers to a given number of binary digits, to the nearest with ties to even
and towards zero, and the integer arithmetic by which a circuit does it: the digits above the cut, one
guard digit, and whether anything is left below it. -/
namespace DsdCordic.Rounding
set_option autoImplicit false

/-- The nearest integer, the even one of two. -/
def roundEven (q : ℚ) : ℤ :=
  if Int.fract q < 1 / 2 then ⌊q⌋ else if 1 / 2 < Int.fract q then ⌊q⌋ + 1 else ⌊q⌋ + ⌊q⌋ % 2

/-- The weight of the last of `p` digits of `q`. -/
def unit (p : ℕ) (q : ℚ) : ℚ := 2 ^ (Int.log 2 |q| + 1 - p)

def nearest (p : ℕ) (q : ℚ) : ℚ := roundEven (q / unit p q) * unit p q

/-- Digits beyond the `p`-th are dropped. -/
def towardZero (p : ℕ) (q : ℚ) : ℚ :=
  if q < 0 then -(⌊-q / unit p q⌋ * unit p q) else ⌊q / unit p q⌋ * unit p q

theorem unit_pos (p : ℕ) (q : ℚ) : 0 < unit p q := by
  rw [unit]
  positivity

theorem unit_neg (p : ℕ) (q : ℚ) : unit p (-q) = unit p q := by rw [unit, unit, abs_neg]

/-! ## The integer part -/

theorem roundEven_error (q : ℚ) : |roundEven q - q| ≤ 1 / 2 := by
  have hfloor := Int.floor_add_fract q
  have hpos := Int.fract_nonneg q
  have hlt := Int.fract_lt_one q
  have hparity : ((⌊q⌋ % 2 : ℤ) : ℚ) = 0 ∨ ((⌊q⌋ % 2 : ℤ) : ℚ) = 1 := by
    rcases Int.emod_two_eq_zero_or_one ⌊q⌋ with h | h <;> rw [h] <;> simp
  rw [roundEven, abs_le]
  split_ifs with h1 h2
  · constructor <;> linarith
  · push_cast
    constructor <;> linarith
  · push_cast
    rcases hparity with h | h <;> rw [h] <;> constructor <;> linarith

theorem roundEven_natCast (n : ℕ) : roundEven n = n := by
  simp [roundEven]

theorem roundEven_nonneg {q : ℚ} (hq : 0 ≤ q) : 0 ≤ roundEven q := by
  have hfloor := Int.floor_nonneg.mpr hq
  have hparity := Int.emod_nonneg ⌊q⌋ (show (2 : ℤ) ≠ 0 by norm_num)
  rw [roundEven]
  split_ifs <;> omega

theorem roundEven_of_close {q : ℚ} {n : ℤ} (h : |q - n| < 1 / 2) : roundEven q = n := by
  rw [abs_lt] at h
  have hfloor := Int.floor_add_fract q
  have hpos := Int.fract_nonneg q
  have hlt := Int.fract_lt_one q
  by_cases hle : (n : ℚ) ≤ q
  · have hn : ⌊q⌋ = n := Int.floor_eq_iff.mpr ⟨hle, by linarith⟩
    rw [hn] at hfloor
    rw [roundEven, if_pos (by linarith), hn]
  · rw [not_le] at hle
    have hn : ⌊q⌋ = n - 1 := Int.floor_eq_iff.mpr ⟨by push_cast; linarith, by push_cast; linarith⟩
    rw [hn] at hfloor
    push_cast at hfloor
    rw [roundEven, if_neg (by linarith), if_pos (by linarith), hn, sub_add_cancel]

/-- **Guard and rest.** With `k + 1` digits below the cut, rounding adds one at the place of the guard
digit, unless the digits before it make the tie that is rounded down. -/
theorem roundEven_guard (n k : ℕ) :
    roundEven ((n : ℚ) / 2 ^ (k + 1)) =
      ((n / 2 ^ k + if n / 2 ^ k % 4 = 1 ∧ n % 2 ^ k = 0 then 0 else 1) / 2 : ℕ) := by
  have hrest := Nat.mod_lt n (Nat.two_pow_pos k)
  have hsplit : (n : ℚ) = 2 ^ k * (n / 2 ^ k : ℕ) + (n % 2 ^ k : ℕ) := by
    exact_mod_cast (Nat.div_add_mod n (2 ^ k)).symm
  generalize n / 2 ^ k = m at hsplit ⊢
  generalize n % 2 ^ k = r at hrest hsplit ⊢
  have hhalf : (m : ℚ) = 2 * (m / 2 : ℕ) + (m % 2 : ℕ) := by exact_mod_cast (Nat.div_add_mod m 2).symm
  have hk : (0 : ℚ) < 2 ^ k := by positivity
  have hr : (r : ℚ) / 2 ^ k < 1 := by
    rw [div_lt_one hk]
    exact_mod_cast hrest
  have hr0 : 0 ≤ (r : ℚ) / 2 ^ k := by positivity
  have hvalue : (n : ℚ) / 2 ^ (k + 1) = (m / 2 : ℕ) + ((m % 2 : ℕ) + r / 2 ^ k) / 2 := by
    rw [hsplit, pow_succ, hhalf]
    field_simp
    ring
  have hparity : m % 2 = 0 ∨ m % 2 = 1 := by omega
  have hsmall : 0 ≤ ((m % 2 : ℕ) + (r : ℚ) / 2 ^ k) / 2 ∧ ((m % 2 : ℕ) + (r : ℚ) / 2 ^ k) / 2 < 1 := by
    rcases hparity with h | h <;> rw [h] <;> push_cast <;> constructor <;> linarith
  have hfloor : ⌊(n : ℚ) / 2 ^ (k + 1)⌋ = (m / 2 : ℕ) := by
    rw [hvalue, Int.floor_natCast_add, Int.floor_eq_zero_iff.mpr hsmall, add_zero]
  have hfract : Int.fract ((n : ℚ) / 2 ^ (k + 1)) = ((m % 2 : ℕ) + r / 2 ^ k) / 2 := by
    rw [hvalue, Int.fract_natCast_add, Int.fract_eq_self.mpr hsmall]
  rw [roundEven, hfloor, hfract]
  rcases hparity with heven | hodd
  · -- the guard digit is zero
    rw [heven, if_pos (by push_cast; linarith), if_neg (by omega)]
    norm_cast
    omega
  · rw [hodd, if_neg (by push_cast; linarith)]
    by_cases hzero : r = 0
    · -- a tie: the last digit before the guard decides
      subst hzero
      rw [if_neg (by norm_num)]
      split_ifs <;> norm_cast <;> omega
    · have hrpos : 0 < (r : ℚ) / 2 ^ k := by
        have : (0 : ℚ) < r := by exact_mod_cast Nat.pos_of_ne_zero hzero
        positivity
      rw [if_pos (by push_cast; linarith), if_neg (fun h => hzero h.2)]
      norm_cast
      omega

/-- What lies below the guard digit counts only as being there or not. -/
theorem roundEven_sticky {m n k l : ℕ} (hguard : m / 2 ^ k = n / 2 ^ l)
    (hrest : m % 2 ^ k = 0 ↔ n % 2 ^ l = 0) :
    roundEven ((m : ℚ) / 2 ^ (k + 1)) = roundEven ((n : ℚ) / 2 ^ (l + 1)) := by
  rw [roundEven_guard, roundEven_guard, hguard]
  simp only [hrest]

/-! ## Scaled integers -/

theorem log_scaled {n j : ℕ} {e : ℤ} (hlo : 2 ^ j ≤ n) (hhi : n < 2 ^ (j + 1)) :
    Int.log 2 |(n : ℚ) * 2 ^ e| = j + e := by
  have hlo' : (2 : ℚ) ^ j ≤ n := by exact_mod_cast hlo
  have hhi' : (n : ℚ) < 2 ^ (j + 1) := by exact_mod_cast hhi
  have he : (0 : ℚ) < 2 ^ e := by positivity
  have hpos : 0 < (n : ℚ) * 2 ^ e := mul_pos (lt_of_lt_of_le (by positivity) hlo') he
  rw [abs_of_pos hpos]
  apply le_antisymm
  · rw [← Int.lt_add_one_iff, ← Int.lt_zpow_iff_log_lt (by norm_num) hpos, Nat.cast_ofNat,
      show (j : ℤ) + e + 1 = ((j + 1 : ℕ) : ℤ) + e by push_cast; ring, zpow_add₀ (by norm_num),
      zpow_natCast]
    exact mul_lt_mul_of_pos_right hhi' he
  · rw [← Int.zpow_le_iff_le_log (by norm_num) hpos, Nat.cast_ofNat, zpow_add₀ (by norm_num),
      zpow_natCast]
    exact mul_le_mul_of_nonneg_right hlo' he.le

variable {p n k : ℕ} {e : ℤ}

theorem unit_scaled (hlo : 2 ^ (p + k) ≤ n) (hhi : n < 2 ^ (p + k + 1)) :
    unit (p + 1) ((n : ℚ) * 2 ^ e) = 2 ^ (e + k) := by
  rw [unit, log_scaled hlo hhi]
  congr 1
  push_cast
  ring

theorem quotient_scaled (hlo : 2 ^ (p + k) ≤ n) (hhi : n < 2 ^ (p + k + 1)) :
    (n : ℚ) * 2 ^ e / unit (p + 1) ((n : ℚ) * 2 ^ e) = n / 2 ^ k := by
  rw [unit_scaled hlo hhi, zpow_add₀ (by norm_num), zpow_natCast]
  field_simp

theorem nearest_scaled (hlo : 2 ^ (p + k) ≤ n) (hhi : n < 2 ^ (p + k + 1)) :
    nearest (p + 1) ((n : ℚ) * 2 ^ e) = roundEven ((n : ℚ) / 2 ^ k) * 2 ^ (e + k) := by
  rw [nearest, quotient_scaled hlo hhi, unit_scaled hlo hhi]

/-- Numbers of few enough digits are not changed. -/
theorem nearest_self (hlo : 2 ^ p ≤ n) (hhi : n < 2 ^ (p + 1)) :
    nearest (p + 1) ((n : ℚ) * 2 ^ e) = n * 2 ^ e := by
  have hround : roundEven ((n : ℚ) / 2 ^ 0) = n := by rw [pow_zero, div_one, roundEven_natCast]
  rw [nearest_scaled (k := 0) hlo hhi, hround, Nat.cast_zero, add_zero]
  rfl

theorem towardZero_scaled (hlo : 2 ^ (p + k) ≤ n) (hhi : n < 2 ^ (p + k + 1)) :
    towardZero (p + 1) ((n : ℚ) * 2 ^ e) = (n / 2 ^ k : ℕ) * 2 ^ (e + k) := by
  have hfloor : ⌊(n : ℚ) / 2 ^ k⌋ = (n / 2 ^ k : ℕ) := by
    have h := Rat.floor_natCast_div_natCast n (2 ^ k)
    push_cast at h ⊢
    exact h
  rw [towardZero, if_neg (not_lt.mpr (by positivity)), quotient_scaled hlo hhi, unit_scaled hlo hhi,
    hfloor]
  norm_cast

/-! ## Jamming -/

/-- The digits above the `j`-th, and below them one that tells whether anything was cut off. -/
def jam (j n : ℕ) : ℕ := n / 2 ^ j * 2 + if n % 2 ^ j = 0 then 0 else 1

theorem jam_div (j n : ℕ) : jam j n / 2 = n / 2 ^ j := by
  rw [jam]
  split <;> omega

theorem jam_eq_zero_iff (j n : ℕ) : jam j n = 0 ↔ n = 0 := by
  have hsplit := Nat.div_add_mod n (2 ^ j)
  constructor
  · intro hzero
    rw [jam] at hzero
    split at hzero
    · next hrest =>
      rw [hrest, show n / 2 ^ j = 0 by omega] at hsplit
      omega
    · omega
  · rintro rfl
    simp [jam]

theorem jam_exact {j n : ℕ} (h : n % 2 ^ j = 0) : jam j n * 2 ^ j = n * 2 := by
  have hsplit := Nat.div_add_mod n (2 ^ j)
  rw [h, Nat.add_zero] at hsplit
  rw [jam, if_pos h, Nat.add_zero]
  calc n / 2 ^ j * 2 * 2 ^ j = 2 ^ j * (n / 2 ^ j) * 2 := by ring
    _ = n * 2 := by rw [hsplit]

theorem jam_le {j n m : ℕ} (h : n ≤ m * 2 ^ j) : jam j n ≤ m * 2 := by
  rw [jam]
  by_cases hrest : n % 2 ^ j = 0
  · rw [if_pos hrest, Nat.add_zero]
    exact Nat.mul_le_mul_right _ (Nat.div_le_of_le_mul (by rwa [Nat.mul_comm]))
  · have hlt : n < m * 2 ^ j := by
      refine lt_of_le_of_ne h fun heq => hrest ?_
      rw [heq, Nat.mul_mod_left]
    rw [← Nat.div_lt_iff_lt_mul (Nat.two_pow_pos j)] at hlt
    rw [if_neg hrest]
    omega

theorem jam_bounds {i j n : ℕ} (hlo : 2 ^ (i + 1) ≤ jam j n) (hhi : jam j n < 2 ^ (i + 2)) :
    2 ^ (j + i) ≤ n ∧ n < 2 ^ (j + i + 1) := by
  have hdiv := jam_div j n
  rw [pow_succ] at hlo
  rw [pow_add 2 i 2] at hhi
  rw [Nat.add_assoc, pow_add, pow_add 2 j (i + 1), Nat.mul_comm, Nat.mul_comm (2 ^ j),
    ← Nat.le_div_iff_mul_le (Nat.two_pow_pos j), ← Nat.div_lt_iff_lt_mul (Nat.two_pow_pos j), ← hdiv,
    pow_succ]
  omega

/-- Two digits below the cut are enough for rounding if the lower one is jammed. -/
theorem roundEven_jam (i j n : ℕ) :
    roundEven ((jam j n : ℚ) / 2 ^ (i + 1 + 1)) = roundEven ((n : ℚ) / 2 ^ (j + i + 1)) := by
  have hdiv := jam_div j n
  apply roundEven_sticky
  · rw [pow_succ', ← Nat.div_div_eq_div_mul, hdiv, Nat.div_div_eq_div_mul, ← pow_add]
  · rw [pow_succ', Nat.mod_mul, hdiv, pow_add, Nat.mod_mul, Nat.add_eq_zero_iff, Nat.add_eq_zero_iff,
      Nat.mul_eq_zero, Nat.mul_eq_zero]
    have hparity : jam j n % 2 = 0 ↔ n % 2 ^ j = 0 := by
      rw [jam]
      split <;> omega
    rw [hparity]
    simp

/-- Where nothing was cut off, any number of digits is. -/
theorem roundEven_jammed {j k n : ℕ} (h : n % 2 ^ j = 0 ∨ j + 1 ≤ k) :
    roundEven ((jam j n : ℚ) * 2 ^ j / 2 ^ (k + 1)) = roundEven ((n : ℚ) / 2 ^ k) := by
  rcases h with h | h
  · have hexact : (jam j n : ℚ) * 2 ^ j = n * 2 := by exact_mod_cast jam_exact h
    rw [hexact, pow_succ]
    congr 1
    field_simp
  · obtain ⟨i, rfl⟩ : ∃ i, k = j + i + 1 := ⟨k - j - 1, by omega⟩
    rw [← roundEven_jam, show j + i + 1 + 1 = i + 1 + 1 + j by omega, pow_add 2 _ j]
    congr 1
    field_simp

/-! ## Sums of far operands -/

theorem far_small {b d : ℕ} (hb : b < 2 ^ (p + 1)) (hd : p + 3 ≤ d) : b * 4 < 2 ^ d := by
  calc b * 4 < 2 ^ (p + 1) * 4 := by omega
    _ = 2 ^ (p + 3) := by rw [pow_add, pow_add]; ring
    _ ≤ 2 ^ d := Nat.pow_le_pow_right (by norm_num) hd

theorem roundEven_above {n b k : ℕ} (hb : b * 2 < 2 ^ k) :
    roundEven ((n * 2 ^ k + b : ℕ) / 2 ^ k : ℚ) = n := by
  apply roundEven_of_close
  have hvalue : ((n * 2 ^ k + b : ℕ) / 2 ^ k : ℚ) - (n : ℤ) = b / 2 ^ k := by
    push_cast
    field_simp
    ring
  have hq : (b : ℚ) * 2 < 2 ^ k := by exact_mod_cast hb
  rw [hvalue, abs_of_nonneg (by positivity), div_lt_div_iff₀ (by positivity) (by norm_num)]
  linarith

theorem roundEven_below {n b k : ℕ} (hb : b * 2 < 2 ^ k) (hle : b ≤ n * 2 ^ k) :
    roundEven ((n * 2 ^ k - b : ℕ) / 2 ^ k : ℚ) = n := by
  apply roundEven_of_close
  have hvalue : ((n * 2 ^ k - b : ℕ) / 2 ^ k : ℚ) - (n : ℤ) = -(b / 2 ^ k) := by
    push_cast [Nat.cast_sub hle]
    field_simp
    ring
  have hq : (b : ℚ) * 2 < 2 ^ k := by exact_mod_cast hb
  rw [hvalue, abs_neg, abs_of_nonneg (by positivity), div_lt_div_iff₀ (by positivity) (by norm_num)]
  linarith

/-- An operand that is shifted out whole leaves the other one as it is. -/
theorem nearest_far_add {m b d : ℕ} (hlo : 2 ^ p ≤ m) (hhi : m < 2 ^ (p + 1)) (hb : b < 2 ^ (p + 1))
    (hd : p + 3 ≤ d) : nearest (p + 1) ((m * 2 ^ d + b : ℕ) * 2 ^ e) = m * 2 ^ (e + d) := by
  have hbd := far_small hb hd
  have hmlo : 2 ^ (p + d) ≤ m * 2 ^ d + b := by
    rw [pow_add]
    exact (Nat.mul_le_mul_right _ hlo).trans (Nat.le_add_right _ _)
  have hmhi : m * 2 ^ d + b < 2 ^ (p + d + 1) := by
    calc m * 2 ^ d + b < (m + 1) * 2 ^ d := by rw [Nat.add_mul]; omega
      _ ≤ 2 ^ (p + 1) * 2 ^ d := Nat.mul_le_mul_right _ hhi
      _ = 2 ^ (p + d + 1) := by rw [← pow_add]; congr 1; omega
  rw [nearest_scaled hmlo hmhi, roundEven_above (by omega)]
  push_cast
  rfl

theorem nearest_far_sub {m b d : ℕ} (hlo : 2 ^ p ≤ m) (hhi : m < 2 ^ (p + 1)) (hb : b < 2 ^ (p + 1))
    (hd : p + 3 ≤ d) : nearest (p + 1) ((m * 2 ^ d - b : ℕ) * 2 ^ e) = m * 2 ^ (e + d) := by
  have hbd := far_small hb hd
  have hble : b ≤ m * 2 ^ d := by
    have := Nat.le_mul_of_pos_left (2 ^ d) (lt_of_lt_of_le (Nat.two_pow_pos p) hlo)
    omega
  by_cases hstay : b = 0 ∨ 2 ^ p < m
  · have hmlo : 2 ^ (p + d) ≤ m * 2 ^ d - b := by
      rw [pow_add]
      rcases hstay with rfl | hlt
      · exact Nat.mul_le_mul_right _ hlo
      · have := Nat.mul_le_mul_right (2 ^ d) hlt
        rw [Nat.succ_mul] at this
        omega
    have hmhi : m * 2 ^ d - b < 2 ^ (p + d + 1) := by
      calc m * 2 ^ d - b ≤ m * 2 ^ d := Nat.sub_le _ _
        _ < 2 ^ (p + 1) * 2 ^ d := Nat.mul_lt_mul_of_pos_right hhi (Nat.two_pow_pos d)
        _ = 2 ^ (p + d + 1) := by rw [← pow_add]; congr 1; omega
    rw [nearest_scaled hmlo hmhi, roundEven_below (by omega) hble]
    push_cast
    rfl
  · -- a power of two minus something: one binade lower the distance counts twice
    rw [not_or, not_lt] at hstay
    obtain rfl : m = 2 ^ p := le_antisymm hstay.2 hlo
    obtain ⟨c, rfl⟩ : ∃ c, d = c + 1 := ⟨d - 1, by omega⟩
    have hlower : 2 ^ p * 2 ^ (c + 1) = 2 ^ (p + 1) * 2 ^ c := by
      rw [← pow_add, ← pow_add]
      congr 1
      omega
    have hpower : 2 ^ (p + 1) * 2 ^ c = 2 ^ (p + c) + 2 ^ (p + c) := by
      rw [pow_succ, pow_add]
      ring
    have hpc : 2 ^ c ≤ 2 ^ (p + c) := Nat.pow_le_pow_right (by norm_num) (by omega)
    rw [pow_succ] at hbd
    have hmlo : 2 ^ (p + c) ≤ 2 ^ (p + 1) * 2 ^ c - b := by
      rw [hpower]
      omega
    have hmhi : 2 ^ (p + 1) * 2 ^ c - b < 2 ^ (p + c + 1) := by
      rw [hpower, pow_succ]
      omega
    rw [hlower] at hble ⊢
    rw [nearest_scaled hmlo hmhi, roundEven_below (by omega) hble]
    push_cast
    rw [← add_assoc, zpow_add_one₀ (by norm_num), pow_succ]
    ring

/-! ## Errors -/

theorem unit_le (p : ℕ) {q : ℚ} (hq : q ≠ 0) : unit p q ≤ 2 ^ (1 - (p : ℤ)) * |q| := by
  have hlog := Int.zpow_log_le_self (b := 2) (by norm_num) (abs_pos.mpr hq)
  rw [unit, show Int.log 2 |q| + 1 - p = 1 - p + Int.log 2 |q| by ring, zpow_add₀ (by norm_num)]
  exact mul_le_mul_of_nonneg_left (by exact_mod_cast hlog) (by positivity)

theorem nearest_zero (p : ℕ) : nearest p 0 = 0 := by
  rw [nearest, zero_div, show (0 : ℚ) = (0 : ℕ) by norm_num, roundEven_natCast]
  simp

theorem nearest_nonneg (p : ℕ) {q : ℚ} (hq : 0 ≤ q) : 0 ≤ nearest p q := by
  have hround := roundEven_nonneg (div_nonneg hq (unit_pos p q).le)
  have hunit := unit_pos p q
  rw [nearest]
  exact mul_nonneg (by exact_mod_cast hround) hunit.le

theorem nearest_error (p : ℕ) (q : ℚ) : |nearest p q - q| ≤ 2 ^ (-(p : ℤ)) * |q| := by
  by_cases hq : q = 0
  · rw [hq, nearest_zero]
    simp
  · have hunit := unit_pos p q
    have hscale : nearest p q - q = (roundEven (q / unit p q) - q / unit p q) * unit p q := by
      rw [nearest, sub_mul, div_mul_cancel₀ q hunit.ne']
    calc |nearest p q - q| = |roundEven (q / unit p q) - q / unit p q| * unit p q := by
          rw [hscale, abs_mul, abs_of_pos hunit]
      _ ≤ 1 / 2 * (2 ^ (1 - (p : ℤ)) * |q|) :=
          mul_le_mul (roundEven_error _) (unit_le p hq) hunit.le (by norm_num)
      _ = 2 ^ (-(p : ℤ)) * |q| := by
          rw [sub_eq_add_neg, zpow_add₀ (by norm_num)]
          ring

theorem towardZero_zero (p : ℕ) : towardZero p 0 = 0 := by
  simp [towardZero]

theorem towardZero_neg (p : ℕ) (q : ℚ) : towardZero p (-q) = -towardZero p q := by
  rcases lt_trichotomy q 0 with h | rfl | h
  · rw [towardZero, towardZero, unit_neg, if_neg (by linarith), if_pos h, neg_neg]
  · rw [neg_zero, towardZero_zero, neg_zero]
  · rw [towardZero, towardZero, unit_neg, if_pos (by linarith), if_neg (by linarith), neg_neg]

/-- Towards zero the error has one sign. -/
theorem towardZero_error (p : ℕ) {q : ℚ} (hq : 0 ≤ q) :
    0 ≤ q - towardZero p q ∧ q - towardZero p q ≤ 2 ^ (1 - (p : ℤ)) * q := by
  rcases hq.eq_or_lt with rfl | hpos
  · rw [towardZero_zero]
    simp
  · have hunit := unit_pos p q
    have hle := unit_le p hpos.ne'
    have hfloor := Int.floor_le (q / unit p q)
    have hlt := Int.lt_floor_add_one (q / unit p q)
    rw [le_div_iff₀ hunit] at hfloor
    rw [div_lt_iff₀ hunit] at hlt
    rw [abs_of_pos hpos] at hle
    rw [towardZero, if_neg hq.not_gt]
    constructor
    · linarith
    · linarith

end DsdCordic.Rounding

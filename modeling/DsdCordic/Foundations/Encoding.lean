import DsdCordic.Foundations.Binary32
import DsdCordic.Foundations.Rounding

/-! The pattern nearest to a rational number, subnormals and infinities included, and the sum of two
patterns in the arithmetic of the standard. A number of at most 24 digits in the range of the format
is its own pattern, so sums of such numbers are exact. -/
namespace DsdCordic.Encoding
open Binary32 Rounding
set_option autoImplicit false

/-- The exponent field by which the last place of a number is told; subnormals share that of the least
normal numbers. -/
def binade (q : ℚ) : ℕ := if q < 2 ^ (-126 : ℤ) then 1 else (Int.log 2 q + 127).toNat

def mantissa (q : ℚ) : ℕ := (roundEven (q * 2 ^ (150 - (binade q : ℤ)))).toNat

/-- Exponent and fraction in one, so that a mantissa rounded up to the next binade carries. -/
def fields (q : ℚ) : ℕ := min ((binade q - 1) * 2 ^ 23 + mantissa q) (255 * 2 ^ 23)

def encode (s : Bool) (q : ℚ) : Word :=
  pack s (BitVec.ofNat 8 (fields q / 2 ^ 23)) (BitVec.ofNat 23 (fields q))

def quietNaN : Word := 0x7fc00000#32

/-- Addition, rounding to the nearest with ties to even. -/
def add (a b : Word) : Word :=
  match value a, value b with
  | some p, some q => encode (if p + q = 0 then sign a && sign b else decide (p + q < 0)) |p + q|
  | some _, none => if fraction b = 0 then b else quietNaN
  | none, some _ => if fraction a = 0 then a else quietNaN
  | none, none => if fraction a = 0 ∧ fraction b = 0 ∧ sign a = sign b then a else quietNaN

/-- A magnitude of at most 24 digits in the range of the format. -/
def Exact (q : ℚ) : Prop := ∃ (n : ℕ) (k : ℤ), n < 2 ^ 24 ∧ -149 ≤ k ∧ k ≤ 104 ∧ q = n * 2 ^ k

theorem mantissa_of_places {q : ℚ} {n : ℕ} {k : ℤ} (hq : q = n * 2 ^ k)
    (hk : (binade q : ℤ) ≤ k + 150) :
    mantissa q = n * 2 ^ (k + 150 - binade q).toNat := by
  have hpow : (2 : ℚ) ^ k * 2 ^ (150 - (binade q : ℤ)) = 2 ^ (k + 150 - binade q).toNat := by
    rw [← zpow_add₀ (by norm_num), ← zpow_natCast, Int.toNat_of_nonneg (by omega)]
    congr 1
    ring
  have hscaled : q * 2 ^ (150 - (binade q : ℤ)) = ((n * 2 ^ (k + 150 - binade q).toNat : ℕ) : ℚ) := by
    conv_lhs => rw [hq]
    rw [mul_assoc, ← hq, hpow]
    push_cast
    rfl
  rw [mantissa, hscaled, roundEven_natCast, Int.toNat_natCast]

theorem mantissa_value {q : ℚ} {n : ℕ} {k : ℤ} (hq : q = n * 2 ^ k)
    (hk : (binade q : ℤ) ≤ k + 150) : (mantissa q : ℚ) * 2 ^ ((binade q : ℤ) - 150) = q := by
  rw [mantissa_of_places hq hk]
  conv_rhs => rw [hq]
  push_cast
  rw [mul_assoc, ← zpow_natCast, Int.toNat_of_nonneg (by omega), ← zpow_add₀ (by norm_num)]
  congr 2
  ring

/-- The places of an exact magnitude. -/
theorem exact_places {q : ℚ} (h : Exact q) :
    1 ≤ binade q ∧ binade q ≤ 254 ∧ mantissa q < 2 ^ 24 ∧ (binade q = 1 ∨ 2 ^ 23 ≤ mantissa q) ∧
      (mantissa q : ℚ) * 2 ^ ((binade q : ℤ) - 150) = q := by
  obtain ⟨n, k, hn, hlo, hhi, hq⟩ := h
  have hpow : ∀ i : ℤ, (0 : ℚ) < 2 ^ i := fun i => by positivity
  by_cases hsmall : q < 2 ^ (-126 : ℤ)
  · have hb : binade q = 1 := if_pos hsmall
    have hval := mantissa_value hq (by omega)
    have hlt : (mantissa q : ℚ) < 2 ^ 23 := by
      rw [← mul_lt_mul_iff_left₀ (hpow ((binade q : ℤ) - 150)), hval, hb]
      norm_num at hsmall ⊢
      exact hsmall
    have hlt' : mantissa q < 2 ^ 23 := by exact_mod_cast hlt
    exact ⟨by omega, by omega, by omega, Or.inl hb, hval⟩
  · have hpos : 0 < q := lt_of_lt_of_le (hpow (-126)) (not_lt.mp hsmall)
    have hlog : -126 ≤ Int.log 2 q :=
      (Int.zpow_le_iff_le_log (by norm_num) hpos).mp (by exact_mod_cast not_lt.mp hsmall)
    have hn' : (n : ℚ) < 2 ^ (24 : ℤ) := by exact_mod_cast hn
    have htop : Int.log 2 q < k + 24 := by
      rw [← Int.lt_zpow_iff_log_lt (by norm_num) hpos, hq, add_comm, zpow_add₀ (by norm_num)]
      exact mul_lt_mul_of_pos_right (by exact_mod_cast hn') (hpow k)
    have hb : (binade q : ℤ) = Int.log 2 q + 127 := by
      rw [binade, if_neg hsmall]
      omega
    have hval := mantissa_value hq (by omega)
    have hge := Int.zpow_log_le_self (b := 2) (by norm_num) hpos
    have hlt := Int.lt_zpow_succ_log_self (b := 2) (by norm_num) q
    have hweight : ∀ i : ℕ, (2 : ℚ) ^ i * 2 ^ ((binade q : ℤ) - 150) = 2 ^ (Int.log 2 q + i - 23) := by
      intro i
      rw [← zpow_natCast, ← zpow_add₀ (by norm_num), hb]
      congr 1
      ring
    have hmin : (2 : ℚ) ^ 23 ≤ mantissa q := by
      rw [← mul_le_mul_iff_left₀ (hpow ((binade q : ℤ) - 150)), hval, hweight]
      norm_num at hge ⊢
      exact hge
    have hmax : (mantissa q : ℚ) < 2 ^ 24 := by
      rw [← mul_lt_mul_iff_left₀ (hpow ((binade q : ℤ) - 150)), hval, hweight]
      have hexp : Int.log 2 q + (24 : ℕ) - 23 = Int.log 2 q + 1 := by
        push_cast
        ring
      rw [hexp]
      exact_mod_cast hlt
    exact ⟨by omega, by omega, by exact_mod_cast hmax, Or.inr (by exact_mod_cast hmin), hval⟩

theorem encode_fields (s : Bool) (q : ℚ) : sign (encode s q) = s ∧
    exponent (encode s q) = fields q / 2 ^ 23 % 2 ^ 8 ∧ fraction (encode s q) = fields q % 2 ^ 23 := by
  obtain ⟨hs, he, hf⟩ := pack_fields s (BitVec.ofNat 8 (fields q / 2 ^ 23)) (BitVec.ofNat 23 (fields q))
  rw [BitVec.toNat_ofNat] at he hf
  exact ⟨hs, he, hf⟩

theorem value_encode (s : Bool) {q : ℚ} (h : Exact q) :
    value (encode s q) = some (if s then -q else q) := by
  obtain ⟨hb1, hb254, hm, hcase, hval⟩ := exact_places h
  have hfields : fields q = (binade q - 1) * 2 ^ 23 + mantissa q := by
    rw [fields]
    omega
  obtain ⟨hs, he, hf⟩ := encode_fields s q
  rw [hfields] at he hf
  have hmag : magnitude (encode s q) = q := by
    refine Eq.trans ?_ hval
    rw [magnitude]
    by_cases hsub : mantissa q < 2 ^ 23
    · have hb : binade q = 1 := hcase.resolve_right (by omega)
      have hexp : exponent (encode s q) = 0 := by omega
      have hfrac : fraction (encode s q) = mantissa q := by omega
      rw [if_pos hexp, hfrac, hb]
      norm_num
    · have hexp : exponent (encode s q) = binade q := by omega
      have hfrac : mantissa q = 2 ^ 23 + fraction (encode s q) := by omega
      rw [if_neg (by omega), hexp, hfrac]
      push_cast
      rfl
  have hfinite : exponent (encode s q) ≠ 255 := by omega
  rw [value, if_neg hfinite, hs, hmag]

theorem add_exact {a b : Word} {p q : ℚ} (ha : value a = some p) (hb : value b = some q)
    (h : Exact |p + q|) : value (add a b) = some (p + q) := by
  rw [add, ha, hb]
  dsimp only
  rw [value_encode _ h]
  congr 1
  by_cases hzero : p + q = 0
  · rw [hzero, abs_zero, neg_zero, ite_self]
  · rw [if_neg hzero]
    by_cases hneg : p + q < 0
    · rw [abs_of_neg hneg, decide_eq_true hneg, if_pos rfl, neg_neg]
    · rw [abs_of_nonneg (not_lt.mp hneg), decide_eq_false hneg, if_neg Bool.false_ne_true]

end DsdCordic.Encoding

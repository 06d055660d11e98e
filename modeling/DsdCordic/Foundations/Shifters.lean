import Mathlib.Data.Nat.Init
import Mathlib.Tactic.NormNum
import Mathlib.Tactic.Ring

/-! Shifters in stages of four choices and leading-zero counters that halve a word in each stage, as
generated circuits build them. A stage of a shifter shifts by a multiple of its weight, so the stages
together shift by the number whose digits select them; the halves that a counter goes on with tell how
far the word must be shifted to the left for its leading one to reach the top. -/
namespace DsdCordic.Shifters
set_option autoImplicit false

variable {α : Type} {w h : ℕ}

/-! ## Shifters -/

def mux4 (s : BitVec 2) (c0 c1 c2 c3 : α) : α :=
  if s = 0#2 then c0 else if s = 1#2 then c1 else if s = 2#2 then c2 else c3

def rightStage (k : ℕ) (s : BitVec 2) (v : BitVec w) : BitVec w :=
  mux4 s v (v >>> k) (v >>> (2 * k)) (v >>> (3 * k))

def leftStage (k : ℕ) (s : BitVec 2) (v : BitVec w) : BitVec w :=
  mux4 s v (v <<< k) (v <<< (2 * k)) (v <<< (3 * k))

theorem mux4_mul (f : ℕ → α) (k : ℕ) (s : BitVec 2) :
    mux4 s (f 0) (f k) (f (2 * k)) (f (3 * k)) = f (s.toNat * k) := by
  have hs : s = 0#2 ∨ s = 1#2 ∨ s = 2#2 ∨ s = 3#2 := by
    revert s
    decide
  rcases hs with rfl | rfl | rfl | rfl <;> simp [mux4]

theorem rightStage_toNat (k : ℕ) (s : BitVec 2) (v : BitVec w) :
    (rightStage k s v).toNat = v.toNat / 2 ^ (s.toNat * k) := by
  have h := mux4_mul (fun j => v >>> j) k s
  rw [BitVec.ushiftRight_zero] at h
  rw [rightStage, h, BitVec.toNat_ushiftRight, Nat.shiftRight_eq_div_pow]

theorem leftStage_toNat (k : ℕ) (s : BitVec 2) (v : BitVec w) :
    (leftStage k s v).toNat = v.toNat * 2 ^ (s.toNat * k) % 2 ^ w := by
  have h := mux4_mul (fun j => v <<< j) k s
  rw [BitVec.shiftLeft_zero] at h
  rw [leftStage, h, BitVec.toNat_shiftLeft, Nat.shiftLeft_eq]

/-- Zeros appended below, and as many digits left out above. -/
theorem extract_append_zero {k : ℕ} (v : BitVec (w + k)) : v.extractLsb' 0 w ++ 0#k = v <<< k := by
  apply BitVec.eq_of_toNat_eq
  rw [BitVec.toNat_append, BitVec.toNat_zero, Nat.or_zero, BitVec.extractLsb'_toNat,
    Nat.shiftRight_zero, BitVec.toNat_shiftLeft, Nat.shiftLeft_eq, Nat.shiftLeft_eq, pow_add,
    Nat.mul_mod_mul_right]

theorem div_pow_div_pow (n a b : ℕ) : n / 2 ^ a / 2 ^ b = n / 2 ^ (a + b) := by
  rw [Nat.div_div_eq_div_mul, ← pow_add]

theorem mul_pow_mod_mul_pow (n a b c : ℕ) :
    n * 2 ^ a % 2 ^ c * 2 ^ b % 2 ^ c = n * 2 ^ (a + b) % 2 ^ c := by
  rw [Nat.mod_mul_mod, Nat.mul_assoc, ← pow_add]

/-! ## Leading zeros -/

/-- `n`, shifted to the left by `c`, has its leading one in the highest of `w` places. -/
def LeadingZeros (w n c : ℕ) : Prop := 2 ^ w ≤ n * 2 ^ c * 2 ∧ n * 2 ^ c < 2 ^ w

theorem LeadingZeros.pos {n c : ℕ} (hn : LeadingZeros w n c) : 0 < n := by
  rcases Nat.eq_zero_or_pos n with rfl | hpos
  · have := hn.1
    rw [Nat.zero_mul, Nat.zero_mul] at this
    exact absurd this (Nat.not_le.mpr (Nat.two_pow_pos w))
  · exact hpos

theorem LeadingZeros.lt {n c : ℕ} (hn : LeadingZeros w n c) : c < w := by
  rw [← Nat.pow_lt_pow_iff_right (a := 2) (by norm_num)]
  calc 2 ^ c ≤ n * 2 ^ c := Nat.le_mul_of_pos_left _ hn.pos
    _ < 2 ^ w := hn.2

def upperZero (v : BitVec (h + h)) : Bool := v.extractLsb' h h == 0#h

/-- The half in which the leading one is looked for next. -/
def half (v : BitVec (h + h)) : BitVec h :=
  if upperZero v then v.extractLsb' 0 h else v.extractLsb' h h

theorem upper_toNat (v : BitVec (h + h)) : (v.extractLsb' h h).toNat = v.toNat / 2 ^ h := by
  have hlt : v.toNat / 2 ^ h < 2 ^ h := by
    rw [Nat.div_lt_iff_lt_mul (Nat.two_pow_pos h), ← pow_add]
    exact v.isLt
  rw [BitVec.extractLsb'_toNat, Nat.shiftRight_eq_div_pow, Nat.mod_eq_of_lt hlt]

theorem lower_toNat (v : BitVec (h + h)) : (v.extractLsb' 0 h).toNat = v.toNat % 2 ^ h := by
  rw [BitVec.extractLsb'_toNat, Nat.shiftRight_zero]

theorem upperZero_iff (v : BitVec (h + h)) : upperZero v = true ↔ v.toNat < 2 ^ h := by
  rw [upperZero, beq_iff_eq, ← BitVec.toNat_inj, upper_toNat, BitVec.toNat_zero, Nat.div_eq_zero_iff]
  have := Nat.two_pow_pos h
  omega

theorem half_toNat (v : BitVec (h + h)) :
    (half v).toNat = if upperZero v then v.toNat else v.toNat / 2 ^ h := by
  rw [half]
  split
  · next hzero => rw [lower_toNat, Nat.mod_eq_of_lt ((upperZero_iff v).mp hzero)]
  · exact upper_toNat v

theorem half_pos {v : BitVec (h + h)} (hv : 0 < v.toNat) : 0 < (half v).toNat := by
  rw [half_toNat]
  split
  · exact hv
  · next hne =>
    rw [upperZero_iff, not_lt] at hne
    exact Nat.div_pos hne (Nat.two_pow_pos h)

/-- Below the places that hold the leading one, nothing is reached by the count. -/
theorem leadingZeros_upper {n k c : ℕ} (hn : LeadingZeros w (n / 2 ^ k) c) :
    LeadingZeros (w + k) n c := by
  have hc := hn.lt
  obtain ⟨hlo, hhi⟩ := hn
  have hsplit := Nat.div_add_mod n (2 ^ k)
  have hrest := Nat.mod_lt n (Nat.two_pow_pos k)
  generalize n / 2 ^ k = upper at hlo hhi hsplit
  generalize n % 2 ^ k = lower at hrest hsplit
  rw [LeadingZeros, ← hsplit, pow_add]
  constructor
  · calc 2 ^ w * 2 ^ k ≤ upper * 2 ^ c * 2 * 2 ^ k := Nat.mul_le_mul_right _ hlo
      _ = 2 ^ k * upper * 2 ^ c * 2 := by ring
      _ ≤ (2 ^ k * upper + lower) * 2 ^ c * 2 :=
        Nat.mul_le_mul_right _ (Nat.mul_le_mul_right _ (Nat.le_add_right _ _))
  · -- the upper places leave room for one more, both numbers being multiples of `2 ^ c`
    have hroom : (upper + 1) * 2 ^ c ≤ 2 ^ w := by
      have hpow : 2 ^ w = 2 ^ (w - c) * 2 ^ c := by rw [← pow_add]; congr 1; omega
      rw [hpow] at hhi ⊢
      exact Nat.mul_le_mul_right _ (Nat.lt_of_mul_lt_mul_right hhi)
    calc (2 ^ k * upper + lower) * 2 ^ c < (2 ^ k * upper + 2 ^ k) * 2 ^ c :=
          Nat.mul_lt_mul_of_pos_right (by omega) (Nat.two_pow_pos c)
      _ = (upper + 1) * 2 ^ c * 2 ^ k := by ring
      _ ≤ 2 ^ w * 2 ^ k := Nat.mul_le_mul_right _ hroom

/-- Upper places that are empty are counted whole. -/
theorem leadingZeros_lower {n c : ℕ} (k : ℕ) (hn : LeadingZeros w n c) :
    LeadingZeros (k + w) n (k + c) := by
  obtain ⟨hlo, hhi⟩ := hn
  have hscale : n * 2 ^ (k + c) = n * 2 ^ c * 2 ^ k := by
    rw [pow_add]
    ring
  rw [LeadingZeros, hscale, Nat.add_comm k w, pow_add]
  constructor
  · calc 2 ^ w * 2 ^ k ≤ n * 2 ^ c * 2 * 2 ^ k := Nat.mul_le_mul_right _ hlo
      _ = n * 2 ^ c * 2 ^ k * 2 := by ring
  · exact Nat.mul_lt_mul_of_pos_right hhi (Nat.two_pow_pos k)

/-- A stage that finds its upper half empty counts all of it. -/
theorem leadingZeros_half {v : BitVec (h + h)} {c : ℕ} (hv : LeadingZeros h (half v).toNat c) :
    LeadingZeros (h + h) v.toNat ((upperZero v).toNat * h + c) := by
  rw [half_toNat] at hv
  cases hzero : upperZero v with
  | true =>
    rw [hzero, if_pos rfl] at hv
    rw [Bool.toNat_true, Nat.one_mul]
    exact leadingZeros_lower h hv
  | false =>
    rw [hzero, if_neg (by simp)] at hv
    rw [Bool.toNat_false, Nat.zero_mul, Nat.zero_add]
    exact leadingZeros_upper hv

/-- The last stage looks at one of the two places that are left. -/
theorem leadingZeros_last {v : BitVec (1 + 1)} (hv : 0 < v.toNat) :
    LeadingZeros 2 v.toNat (upperZero v).toNat := by
  have hcases : v.toNat = 1 ∧ upperZero v = true ∨ 2 ≤ v.toNat ∧ upperZero v = false := by
    have hiff := upperZero_iff v
    cases hzero : upperZero v <;> rw [hzero] at hiff <;> simp at hiff ⊢ <;> omega
  have hlt : v.toNat < 2 ^ 2 := v.isLt
  rcases hcases with ⟨hone, hzero⟩ | ⟨htwo, hzero⟩
  · rw [hone, hzero]
    exact ⟨by norm_num, by norm_num⟩
  · rw [hzero]
    exact ⟨by simp; omega, by simpa using hlt⟩

/-- Ones appended below a word that is not zero are not reached by the count. -/
theorem leadingZeros_pad {n k c : ℕ} (hn : 0 < n)
    (hpad : LeadingZeros (w + k) (n * 2 ^ k + (2 ^ k - 1)) c) : LeadingZeros w n c := by
  have hk := Nat.two_pow_pos k
  obtain ⟨hlo, hhi⟩ := hpad
  rw [pow_add] at hlo hhi
  have hbelow : n * 2 ^ c < 2 ^ w := by
    apply Nat.lt_of_mul_lt_mul_right (a := 2 ^ k)
    calc n * 2 ^ c * 2 ^ k = n * 2 ^ k * 2 ^ c := by ring
      _ ≤ (n * 2 ^ k + (2 ^ k - 1)) * 2 ^ c := Nat.mul_le_mul_right _ (Nat.le_add_right _ _)
      _ < 2 ^ w * 2 ^ k := hhi
  refine ⟨?_, hbelow⟩
  by_contra hshort
  rw [not_le] at hshort
  have hc : c < w := by
    rw [← Nat.pow_lt_pow_iff_right (a := 2) (by norm_num)]
    exact (Nat.le_mul_of_pos_left _ hn).trans_lt hbelow
  have hroom : (n + 1) * 2 ^ c * 2 ≤ 2 ^ w := by
    have hpow : 2 ^ w = 2 ^ (w - (c + 1)) * (2 ^ c * 2) := by
      rw [← pow_succ, ← pow_add]
      congr 1
      omega
    rw [hpow, Nat.mul_assoc] at hshort ⊢
    exact Nat.mul_le_mul_right _ (Nat.lt_of_mul_lt_mul_right hshort)
  have hfull : (n * 2 ^ k + (2 ^ k - 1)) * 2 ^ c * 2 < 2 ^ w * 2 ^ k := by
    calc (n * 2 ^ k + (2 ^ k - 1)) * 2 ^ c * 2 < (n * 2 ^ k + 2 ^ k) * 2 ^ c * 2 := by
          have := Nat.two_pow_pos c
          apply Nat.mul_lt_mul_of_pos_right _ (by norm_num)
          exact Nat.mul_lt_mul_of_pos_right (by omega) this
      _ = (n + 1) * 2 ^ c * 2 * 2 ^ k := by ring
      _ ≤ 2 ^ w * 2 ^ k := Nat.mul_le_mul_right _ hroom
  exact absurd hlo (by omega)

end DsdCordic.Shifters

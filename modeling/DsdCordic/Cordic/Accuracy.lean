import DsdCordic.Cordic.VectorRotation
import DsdCordic.Foundations.ArctanSeries
import Mathlib.Analysis.Real.Pi.Bounds

/-! The shipped constants against the real numbers they stand for, and what follows for the cosine:
the words never wrap, the packer only sees values that it can represent, and the packed result is
within `2^-14` of the cosine for every input in range. -/
namespace DsdCordic.Accuracy
open Binary32 Convergence Cosine Engine Rotation Sdiv VectorRotation
set_option autoImplicit false

/-! ## The table and the limit -/

theorem shippedAngle_eq : ∀ i < 16, shippedAngle i = [3294198, 1944679, 1027515, 521582, 261803,
    131029, 65530, 32767, 16383, 8191, 4095, 2047, 1024, 511, 255, 128].getD i 0 := by decide

theorem series_entry {x a : ℝ} (h0 : 0 ≤ x) (h1 : x ≤ 1 / 2)
    (ha : |2 ^ 22 * ArctanSeries.partialSum x 10 - a| ≤ 3 / 2) :
    |2 ^ 22 * Real.arctan x - a| ≤ 2 := by
  have hseries := ArctanSeries.abs_arctan_sub_le h0 (by linarith : x < 1) 10
  have hterm : ArctanSeries.term x 10 ≤ (1 / 2) ^ 21 / 21 := by
    have hpow := pow_le_pow_left₀ h0 h1 21
    unfold ArctanSeries.term
    norm_num at hpow ⊢
    linarith
  rw [abs_le] at hseries ha ⊢
  constructor <;> linarith

/-- Each shipped entry is its arctangent, at scale `2^22`, within two units. -/
theorem shipped_table (i : ℕ) (hi : i < 16) :
    |2 ^ 22 * Real.arctan ((1 / 2) ^ i) - shippedAngle i| ≤ 2 := by
  rw [shippedAngle_eq i hi]
  rcases Nat.eq_zero_or_pos i with rfl | hpos
  · have hlo := Real.pi_gt_d6
    have hhi := Real.pi_lt_d6
    rw [pow_zero, Real.arctan_one, abs_le]
    norm_num
    constructor <;> linarith
  · apply series_entry (by positivity)
    · calc ((1 : ℝ) / 2) ^ i ≤ (1 / 2) ^ 1 := pow_le_pow_of_le_one (by norm_num) (by norm_num) hpos
        _ = 1 / 2 := pow_one _
    · interval_cases i <;>
        norm_num [ArctanSeries.partialSum, ArctanSeries.term, Finset.sum_range_succ, abs_le]

theorem shipped_gain (v : XywZ) : |2547003 * gain (slope shippedAngle v) 16 - 2 ^ 22| ≤ 2 := by
  have hsq := gain_slope_sq shippedAngle v 16
  have hpos := gain_nonneg (slope shippedAngle v) 16
  norm_num [Finset.prod_range_succ] at hsq
  rw [abs_le]
  constructor <;> nlinarith

/-! ## No word wraps -/

theorem shipped_limit : shipped.limit.toInt = 2547003 := by decide

theorem shippedStart_x (x : Word) : (shippedStart x).toZ.x = 2547003 := shipped_limit

theorem shippedStart_y (x : Word) : (shippedStart x).toZ.y = 0 :=
  BitVec.toInt_zero (w := shipped.width + 2)

theorem shipped_bound (v : XywZ) (hx : v.x = 2547003) (hy : v.y = 0) (k : ℕ) (hk : k ≤ 16) :
    |(iterateZ shippedAngle k v).x| ≤ 2 ^ 22 + 34 ∧ |(iterateZ shippedAngle k v).y| ≤ 2 ^ 22 + 34 := by
  obtain ⟨hbx, hby⟩ := iterateZ_bound (a := shippedAngle) hy (by omega) k
  have hmono := gain_mono (slope shippedAngle v) hk
  have hgain := (abs_le.mp (shipped_gain v)).2
  have hk' : (k : ℝ) ≤ 16 := by exact_mod_cast hk
  rw [hx] at hbx hby
  push_cast at hbx hby
  have hcap : 2547003 * gain (slope shippedAngle v) k + 2 * (k : ℝ) ≤ 2 ^ 22 + 34 := by linarith
  constructor
  · exact_mod_cast hbx.trans hcap
  · exact_mod_cast hby.trans hcap

variable {x : Word} {q : ℚ}

/-- Every exact result of the shipped engines fits the 24-bit words. -/
theorem shipped_fits (hx : value x = some q) (h0 : 0 ≤ q) (h256 : q < 256) (k : ℕ) (hk : k ≤ 16) :
    (iterateZ shippedAngle k (shippedStart x).toZ).Fits 24 := by
  obtain ⟨hbx, hby⟩ := shipped_bound (shippedStart x).toZ (shippedStart_x x) (shippedStart_y x) k hk
  rw [abs_le] at hbx hby
  have hw := (shipped_w hx h0 h256 hk).1
  have hz := iterateZ_w shippedAngle k (shippedStart x).toZ
  refine ⟨⟨by omega, by omega⟩, ⟨by omega, by omega⟩, ?_⟩
  rw [hz]
  exact hw

theorem shipped_exact (hx : value x = some q) (h0 : 0 ≤ q) (h256 : q < 256) (k : ℕ) (hk : k ≤ 16) :
    (iterate shipped.angles k (shippedStart x)).toZ = iterateZ shippedAngle k (shippedStart x).toZ :=
  iterate_toZ shipped.angles (shippedStart x) k (by omega)
    (fun j hj => shipped_fits hx h0 h256 j (by omega))

/-! ## The final word against the cosine -/

/-- The cosine that the unit is asked for. -/
noncomputable def wanted (q : ℚ) : ℝ := Real.cos (((q : ℝ) - 128) / 128)

theorem wanted_ge (h0 : 0 ≤ q) (h256 : q < 256) : 17 / 32 ≤ wanted q := by
  have h0' : (0 : ℝ) ≤ q := by exact_mod_cast h0
  have h256' : (q : ℝ) < 256 := by exact_mod_cast h256
  have hhalf := Real.one_sub_sq_div_two_le_cos (x := ((q : ℝ) - 128) / 128 / 2)
  have hdouble := Real.cos_sq (((q : ℝ) - 128) / 128 / 2)
  rw [mul_div_cancel₀ _ (two_ne_zero)] at hdouble
  have hsmall : (((q : ℝ) - 128) / 128 / 2) ^ 2 ≤ 1 / 4 := by nlinarith
  unfold wanted
  nlinarith

theorem angle_floor (hx : value x = some q) (h0 : 0 ≤ q) (h256 : q < 256) :
    |((fixedFractionalAngle 22 x).toInt : ℝ) - 2 ^ 22 * (((q : ℝ) - 128) / 128)| ≤ 1 := by
  have hscale : 2 ^ 22 * (((q : ℝ) - 128) / 128) = (((q - 128) * 2 ^ 15 : ℚ) : ℝ) := by
    push_cast
    ring
  have hpow : (2 : ℚ) ^ (((22 : ℕ) : ℤ) - 7) = 2 ^ 15 := by norm_num
  rw [fixedFractionalAngle_floor 22 (by omega) hx h0 h256, hpow, hscale, abs_le]
  have hlo := Int.floor_le ((q - 128) * 2 ^ 15)
  have hhi := Int.lt_floor_add_one ((q - 128) * 2 ^ 15)
  have hlo' : ((⌊(q - 128) * 2 ^ 15⌋ : ℚ) : ℝ) ≤ (((q - 128) * 2 ^ 15 : ℚ) : ℝ) := by
    exact_mod_cast hlo
  have hhi' : (((q - 128) * 2 ^ 15 : ℚ) : ℝ) < ((⌊(q - 128) * 2 ^ 15⌋ + 1 : ℚ) : ℝ) := by
    exact_mod_cast hhi
  rw [Rat.cast_add, Rat.cast_one] at hhi'
  rw [Rat.cast_intCast] at hlo' hhi'
  constructor <;> linarith

/-- The angle of the exact product misses the wanted one by the residual angle, one unit of truncation
and two units for each table entry. -/
theorem angle_error (hx : value x = some q) (h0 : 0 ≤ q) (h256 : q < 256) :
    |2 ^ 22 * angle (slope shippedAngle (shippedStart x).toZ) 16 -
      2 ^ 22 * (((q : ℝ) - 128) / 128)| ≤ 166 := by
  have hconsumed := angle_consumed shippedAngle (shippedStart x).toZ (2 ^ 22) 2 16 shipped_table
  have hres := shipped_residual hx h0 h256 (k := 16) le_rfl
  rw [shipped_reach_end] at hres
  have hz : (iterateZ shippedAngle 16 (shippedStart x).toZ).w =
      AngleRecursion.residualAngle shippedAngle (shippedStart x).w.toInt 16 := iterateZ_w _ _ _
  rw [← hz] at hres
  have hres' : |((iterateZ shippedAngle 16 (shippedStart x).toZ).w : ℝ)| ≤ 133 := by
    exact_mod_cast hres
  have hfloor : |((shippedStart x).toZ.w : ℝ) - 2 ^ 22 * (((q : ℝ) - 128) / 128)| ≤ 1 :=
    angle_floor hx h0 h256
  rw [abs_le] at hconsumed hres' hfloor ⊢
  push_cast at hconsumed
  constructor <;> linarith

/-- The `x` output of the 16 engines for the input word `x`. -/
def x16 (x : Word) : BitVec 24 :=
  (iterate shipped.angles 16 (start shipped (fixedFractionalAngle 22 x))).x

/-- The final `x` against the cosine, in units of `2^-22`: 32 for the roundings of the engines, 2 for
the limit, 166 for the angle. -/
theorem final_error (hx : value x = some q) (h0 : 0 ≤ q) (h256 : q < 256) :
    |((x16 x).toInt : ℝ) - 2 ^ 22 * wanted q| ≤ 200 := by
  have hword : (x16 x).toInt = (iterateZ shippedAngle 16 (shippedStart x).toZ).x :=
    congrArg XywZ.x (shipped_exact hx h0 h256 16 le_rfl)
  have hround := iterateZ_x (a := shippedAngle) (shippedStart_y x) 16
  have hgain := shipped_gain (shippedStart x).toZ
  have hangle := angle_error hx h0 h256
  have hlip := Real.abs_cos_sub_cos_le (angle (slope shippedAngle (shippedStart x).toZ) 16)
    (((q : ℝ) - 128) / 128)
  rw [hword]
  rw [shippedStart_x] at hround
  generalize angle (slope shippedAngle (shippedStart x).toZ) 16 = φ at hround hangle hlip
  generalize gain (slope shippedAngle (shippedStart x).toZ) 16 = g at hround hgain
  have hstretch : |2547003 * g * Real.cos φ - 2 ^ 22 * Real.cos φ| ≤ 2 := by
    rw [← sub_mul, abs_mul]
    calc |2547003 * g - 2 ^ 22| * |Real.cos φ| ≤ 2 * 1 :=
          mul_le_mul hgain (Real.abs_cos_le_one φ) (abs_nonneg _) (by norm_num)
      _ = 2 := mul_one 2
  have hturn : |2 ^ 22 * Real.cos φ - 2 ^ 22 * wanted q| ≤ 166 := by
    rw [← mul_sub, abs_mul] at hangle ⊢
    exact (mul_le_mul_of_nonneg_left hlip (abs_nonneg _)).trans hangle
  rw [abs_le] at hround hstretch hturn ⊢
  push_cast at hround
  constructor <;> linarith

theorem final_range (hx : value x = some q) (h0 : 0 ≤ q) (h256 : q < 256) :
    2 ^ 21 ≤ (x16 x).toInt ∧ (x16 x).toInt ≤ 2 ^ 22 + 200 := by
  have herr := abs_le.mp (final_error hx h0 h256)
  have hlo := wanted_ge h0 h256
  have hhi : wanted q ≤ 1 := Real.cos_le_one _
  constructor
  · have h : ((2 ^ 21 : ℤ) : ℝ) ≤ (x16 x).toInt := by
      push_cast
      linarith
    exact_mod_cast h
  · have h : ((x16 x).toInt : ℝ) ≤ (2 ^ 22 + 200 : ℤ) := by
      push_cast
      linarith
    exact_mod_cast h

theorem toInt_of_nonneg {v : BitVec 24} (h : 0 ≤ v.toInt) : v.toInt = (v.toNat : ℤ) := by
  have hlt := v.isLt
  have hcond := BitVec.toInt_eq_toNat_cond v
  split at hcond <;> omega

/-- `packer` represents every final word: itself up to one, and one beyond. -/
theorem packer_final (v : BitVec 24) (hlo : 2 ^ 21 ≤ v.toInt) (hhi : v.toInt < 2 ^ 22 + 2 ^ 21) :
    value (Packer.packer 22 v) = some (if v.toInt ≤ 2 ^ 22 then (v.toInt : ℚ) / 2 ^ 22 else 1) := by
  have hnat := toInt_of_nonneg (by omega : 0 ≤ v.toInt)
  rw [hnat] at hlo hhi ⊢
  by_cases hone : v.toNat < 2 ^ 22
  · rw [Packer.packer_value_below_one 22 (by omega) (by omega) v (by omega) hone, if_pos (by omega)]
    rfl
  · rw [Packer.packer_value_one 22 (by omega) (by omega) v (by omega) (by omega)]
    split
    · have heq : v.toNat = 2 ^ 22 := by omega
      rw [heq]
      norm_num
    · rfl

/-! ## What the unit guarantees -/

/-- No engine of the shipped unit wraps, and the final word is one that `packer` represents. -/
theorem datapath_never_wraps (x : Word) (q : ℚ) (hx : value x = some q) (h0 : 0 ≤ q)
    (h256 : q < 256) :
    (∀ i < 16,
      let exact := engineZ i (shippedAngle i) (iterate shipped.angles i (shippedStart x)).toZ
      (-2 ^ 23 ≤ exact.x ∧ exact.x < 2 ^ 23) ∧ (-2 ^ 23 ≤ exact.y ∧ exact.y < 2 ^ 23) ∧
        (-2 ^ 23 ≤ exact.w ∧ exact.w < 2 ^ 23) ∧
        (iterate shipped.angles (i + 1) (shippedStart x)).toZ = exact) ∧
    2 ^ 21 ≤ (x16 x).toInt ∧ (x16 x).toInt < 2 ^ 22 + 2 ^ 21 ∧
      value (Packer.packer 22 (x16 x)) =
        some (if (x16 x).toInt ≤ 2 ^ 22 then ((x16 x).toInt : ℚ) / 2 ^ 22 else 1) := by
  obtain ⟨hlo, hhi⟩ := final_range hx h0 h256
  refine ⟨?_, hlo, by omega, packer_final _ hlo (by omega)⟩
  intro i hi
  obtain ⟨⟨hx1, hx2⟩, ⟨hy1, hy2⟩, hw1, hw2⟩ := shipped_fits hx h0 h256 (i + 1) (by omega)
  have hstep := shipped_exact hx h0 h256 (i + 1) (by omega)
  rw [iterateZ, ← shipped_exact hx h0 h256 i (by omega)] at hx1 hx2 hy1 hy2 hw1 hw2 hstep
  exact ⟨⟨by omega, by omega⟩, ⟨by omega, by omega⟩, ⟨by omega, by omega⟩, hstep⟩

theorem datapath_never_wraps_at_200 : 2 ^ 21 ≤ (x16 0x43480000#32).toInt :=
  (datapath_never_wraps 0x43480000#32 200 value_200 (by norm_num) (by norm_num)).2.1

/-- The packed result is within `2^-14` of the cosine of `(x - 128) / 128`. -/
theorem cosine_accuracy (x : Word) (q : ℚ) (hx : value x = some q) (h0 : 0 ≤ q) (h256 : q < 256) :
    ∃ r : ℚ, value (Packer.packer 22 (x16 x)) = some r ∧
      |(r : ℝ) - Real.cos (((q : ℝ) - 128) / 128)| ≤ 2 ^ (-14 : ℤ) := by
  obtain ⟨hlo, hhi⟩ := final_range hx h0 h256
  have herr := abs_le.mp (final_error hx h0 h256)
  have hone : wanted q ≤ 1 := Real.cos_le_one _
  have hbound : (2 : ℝ) ^ (-14 : ℤ) = 256 / 2 ^ 22 := by norm_num
  refine ⟨_, packer_final _ hlo (by omega), ?_⟩
  rw [hbound, ← wanted, abs_le]
  split
  · push_cast
    constructor <;> linarith
  · next hgt =>
    have hgt' : ((2 ^ 22 : ℤ) : ℝ) < (x16 x).toInt := by exact_mod_cast not_le.mp hgt
    push_cast at hgt' ⊢
    constructor <;> linarith

theorem cosine_accuracy_at_200 :
    ∃ r : ℚ, value (Packer.packer 22 (x16 0x43480000#32)) = some r ∧
      |(r : ℝ) - Real.cos ((((200 : ℚ) : ℝ) - 128) / 128)| ≤ 2 ^ (-14 : ℤ) :=
  cosine_accuracy 0x43480000#32 200 value_200 (by norm_num) (by norm_num)

end DsdCordic.Accuracy

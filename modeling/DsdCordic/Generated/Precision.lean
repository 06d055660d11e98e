import DsdCordic.Cordic.Accuracy
import DsdCordic.Generated.Elaborated

/-! What a sum is worth. The unit's `f(x)` is right to twelve digits or so, all of the error being the
cosine's; the accumulator adds exactly and its result is cut once, so the error of a sum is that of its
samples. -/
namespace DsdCordic.Precision
open Accuracy Binary32 Clocked Cores DsdCordic.Top Driver Elaborated Flushing Rounding
set_option autoImplicit false

/-! ## One result -/

/-- The number that the generated cores make of a result. -/
def rounded (q : ℚ) : ℚ := flush (nearest 24 q)

theorem rounded_error {q : ℚ} (hq : 0 ≤ q) :
    |rounded q - q| ≤ 2 ^ (-24 : ℤ) * q + 2 ^ (-126 : ℤ) := flush_nearest_error hq

theorem rounded_nonneg {q : ℚ} (hq : 0 ≤ q) : 0 ≤ rounded q := flush_nonneg (nearest_nonneg 24 hq)

theorem rounded_le {q : ℚ} (hq : 0 ≤ q) : rounded q ≤ 2 * q + 1 := by
  have herr := (abs_le.mp (rounded_error hq)).2
  norm_num at herr
  linarith

theorem rounded_zero : rounded 0 = 0 := by
  rw [rounded, nearest_zero, flush, ite_self]

theorem mul_reads {a b : Word} (ha : exponent a ≠ 255) (hb : exponent b ≠ 255)
    (hs : (sign a ^^ sign b) = false) (hlt : flushed a * flushed b < 2 ^ 127) :
    Reads (generated.mul a b) (rounded (flushed a * flushed b)) := by
  have h := FpMult0002.mul_delivers a b ha hb
  rw [hs] at h
  exact h.reads_nearest (mul_nonneg (flushed_nonneg a) (flushed_nonneg b)) hlt

theorem add_reads {a b : Word} {p r : ℚ} (ha : Reads a p) (hb : exponent b ≠ 255)
    (hbv : flushedValue b = r) (hr : 0 ≤ r) (hlt : p + r < 2 ^ 127) :
    Reads (generated.add a b) (rounded (p + r)) := by
  have h := FpAdd0002.add_delivers a b ha.finite hb
  have hp := ha.nonneg
  have hsign : FpAdd0002.sumSign a b = false := by
    rw [FpAdd0002.sumSign, ha.flushedValue, hbv, ha.sign, Bool.false_and, Bool.and_false]
    split
    · rfl
    · exact decide_eq_false (not_lt.mpr (by linarith))
  rw [hsign, ha.flushedValue, hbv, abs_of_nonneg (by linarith)] at h
  exact h.reads_nearest (by linarith) hlt

/-! ## The three lanes -/

section lanes

variable {x : Word} {q : ℚ} (hx : value x = some q) (h0 : 0 ≤ q) (h256 : q < 256)

include hx in
theorem finite_of_value : exponent x ≠ 255 := by
  intro h255
  rw [value, if_pos h255] at hx
  cases hx

include hx h0

/-- What the input counts as: itself, or zero when it is subnormal. -/
theorem flushed_input : flushed x ≤ q ∧ q - flushed x ≤ 2 ^ (-126 : ℤ) := by
  have hmag := (value_nonneg hx h0).1
  have hle := flushed_le x
  have hlt := magnitude_sub_flushed x
  rw [hmag] at hle hlt
  exact ⟨hle, hlt.le⟩

theorem half_counts (hlt : q < 2 ^ 127) :
    exponent (generated.mul x 0x3f000000#32) ≠ 255 ∧
      flushedValue (generated.mul x 0x3f000000#32) = rounded (flushed x * (1 / 2)) := by
  have hhalf : flushed 0x3f000000#32 = 1 / 2 := by
    rw [flushed_normal (by decide), show exponent 0x3f000000#32 = 126 by decide,
      show fraction 0x3f000000#32 = 0 by decide]
    norm_num
  have hle := (flushed_input hx h0).1
  have hnonneg := flushed_nonneg x
  cases hs : sign x with
  | false =>
    have hreads := mul_reads (b := 0x3f000000#32) (finite_of_value hx) (by decide) (by rw [hs]; decide)
      (by rw [hhalf]; linarith)
    rw [hhalf] at hreads
    exact ⟨hreads.finite, hreads.flushedValue⟩
  | true =>
    -- the only input with this sign is minus zero
    have hzero : flushed x = 0 := by rw [flushed, if_pos ((value_nonneg hx h0).2 hs).1]
    have hdel := FpMult0002.mul_delivers x 0x3f000000#32 (finite_of_value hx) (by decide)
    rw [hzero, zero_mul, nearest_zero] at hdel
    have hexp : exponent (generated.mul x 0x3f000000#32) = 0 := (hdel.zero (by positivity)).1
    rw [hzero, zero_mul, rounded_zero, flushedValue, flushed, hexp]
    norm_num

include h256

/-- The packed cosine against the real one. -/
theorem cosv_reads : ∃ c : ℚ, Reads (Cosine.cosv Cosine.shipped x) c ∧ c ≤ 1 ∧
    |(c : ℝ) - wanted q| ≤ 200 / 2 ^ 22 := by
  obtain ⟨hlo, hhi⟩ := final_range hx h0 h256
  have herr := abs_le.mp (final_error hx h0 h256)
  have hone : wanted q ≤ 1 := Real.cos_le_one _
  have hvalue := packer_final (x16 x) hlo (by omega)
  have hlo' : ((2 ^ 21 : ℤ) : ℚ) ≤ (x16 x).toInt := by exact_mod_cast hlo
  push_cast at hlo'
  refine ⟨_, Reads.of_value hvalue ?_, ?_, ?_⟩
  · split
    · norm_num
      linarith
    · norm_num
  · split
    · next hle =>
      have hle' : ((x16 x).toInt : ℚ) ≤ (2 ^ 22 : ℤ) := by exact_mod_cast hle
      push_cast at hle'
      rw [div_le_one (by norm_num)]
      exact hle'
    · exact le_rfl
  · rw [abs_le]
    split
    · push_cast
      constructor <;> linarith
    · next hgt =>
      have hgt' : ((2 ^ 22 : ℤ) : ℝ) < (x16 x).toInt := by exact_mod_cast not_le.mp hgt
      push_cast at hgt' ⊢
      constructor <;> linarith

/-- The unit computes `f(x)` with four roundings and the cosine of the engines. -/
theorem fx_reads : ∃ c : ℚ, 0 ≤ c ∧ c ≤ 1 ∧ |(c : ℝ) - wanted q| ≤ 200 / 2 ^ 22 ∧
    Reads (Term.fx generated x) (rounded (rounded (c * rounded (flushed x * flushed x)) +
      rounded (flushed x * (1 / 2)))) := by
  obtain ⟨c, hcos, hone, herr⟩ := cosv_reads hx h0 h256
  have hc := hcos.nonneg
  have hin := flushed_nonneg x
  have hle : flushed x < 256 := lt_of_le_of_lt (flushed_input hx h0).1 h256
  have hsq : flushed x * flushed x ≤ 256 * 256 := mul_le_mul hle.le hle.le hin (by norm_num)
  have hsquare := mul_reads (finite_of_value hx) (finite_of_value hx) (Bool.xor_self (sign x))
    (lt_of_le_of_lt hsq (by norm_num))
  have hsquare' := rounded_le (mul_nonneg hin hin)
  have hpos := rounded_nonneg (mul_nonneg hin hin)
  have hprod : c * rounded (flushed x * flushed x) ≤ 2 ^ 18 := by
    calc c * rounded (flushed x * flushed x) ≤ 1 * rounded (flushed x * flushed x) :=
          mul_le_mul_of_nonneg_right hone hpos
      _ ≤ 2 ^ 18 := by linarith
  have htop := mul_reads hcos.finite hsquare.finite (by rw [hcos.sign, hsquare.sign]; rfl)
    (by rw [hcos.flushed, hsquare.flushed]; linarith)
  rw [hcos.flushed, hsquare.flushed] at htop
  have htop' := rounded_le (mul_nonneg hc hpos)
  obtain ⟨hfin, hhalf⟩ := half_counts hx h0 (by linarith)
  have hhalfpos := rounded_nonneg (mul_nonneg hin (by norm_num : (0 : ℚ) ≤ 1 / 2))
  have hhalf' := rounded_le (mul_nonneg hin (by norm_num : (0 : ℚ) ≤ 1 / 2))
  exact ⟨c, hc, hone, herr, add_reads htop hfin hhalf hhalfpos (by linarith)⟩

end lanes

/-! ## The error of one sample -/

/-- What the unit is asked for. -/
noncomputable def f (q : ℚ) : ℝ := (q : ℝ) ^ 2 * wanted q + ((q / 2 : ℚ) : ℝ)

theorem f_eq (q : ℚ) : f q = (q : ℝ) ^ 2 * wanted q + q / 2 := by
  rw [f]
  push_cast
  rfl

/-- An input `q` taken as `p`, three products and a sum, each off by a little of itself and by `η` at
most: the error of the cosine, at most 377 parts in `2^22` of it, is all but the whole error. -/
theorem lanes_error {q p c k p1 p2 h s η : ℝ} (hη : 0 ≤ η) (hp0 : 0 ≤ p) (hpq : p ≤ q)
    (hqp : q - p ≤ η) (hq : q ≤ 256) (hc0 : 0 ≤ c) (hc1 : c ≤ 1) (hck : |c - k| ≤ 200 / 2 ^ 22)
    (hk : 17 / 32 ≤ k) (h1 : |p1 - p * p| ≤ 1 / 2 ^ 24 * (p * p) + η)
    (h2 : |p2 - c * p1| ≤ 1 / 2 ^ 24 * (c * p1) + η)
    (h3 : |h - p * (1 / 2)| ≤ 1 / 2 ^ 24 * (p * (1 / 2)) + η)
    (h4 : |s - (p2 + h)| ≤ 1 / 2 ^ 24 * (p2 + h) + η) :
    |s - (q ^ 2 * k + q / 2)| ≤ 380 / 2 ^ 22 * (q ^ 2 * k + q / 2) + 2 ^ 10 * η := by
  rw [abs_le] at hck h1 h2 h3 h4
  have hsq : p * p ≤ q ^ 2 := by
    rw [sq]
    exact mul_le_mul hpq hpq hp0 (hp0.trans hpq)
  have hsq' : q ^ 2 - 512 * η ≤ p * p := by
    have hdiff : (q - p) * (q + p) ≤ η * 512 := mul_le_mul hqp (by linarith) (by linarith) hη
    linarith
  -- the cosine on the square
  have hY : q ^ 2 * (17 / 32) ≤ q ^ 2 * k := mul_le_mul_of_nonneg_left hk (sq_nonneg q)
  have hX1 : q ^ 2 * c ≤ q ^ 2 * (k + 200 / 2 ^ 22) :=
    mul_le_mul_of_nonneg_left (by linarith) (sq_nonneg q)
  have hX2 : q ^ 2 * (k - 200 / 2 ^ 22) ≤ q ^ 2 * c :=
    mul_le_mul_of_nonneg_left (by linarith) (sq_nonneg q)
  -- the square as it was rounded
  have hcη : c * η ≤ η := mul_le_of_le_one_left hη hc1
  have hm1 : c * p1 ≤ c * ((1 + 1 / 2 ^ 24) * q ^ 2 + η) :=
    mul_le_mul_of_nonneg_left (by linarith) hc0
  have hm2 : c * ((1 - 1 / 2 ^ 24) * q ^ 2 - 513 * η) ≤ c * p1 :=
    mul_le_mul_of_nonneg_left (by linarith) hc0
  rw [abs_le]
  constructor <;> linarith

theorem rounded_error_real {q : ℚ} (hq : 0 ≤ q) :
    |((rounded q : ℚ) : ℝ) - q| ≤ 1 / 2 ^ 24 * q + 2 ^ (-126 : ℤ) := by
  have herr : ((|rounded q - q| : ℚ) : ℝ) ≤ ((2 ^ (-24 : ℤ) * q + 2 ^ (-126 : ℤ) : ℚ) : ℝ) := by
    exact_mod_cast rounded_error hq
  push_cast at herr
  norm_num at herr ⊢
  exact herr

/-- An input of the range that the cosine is made for. -/
def InRange (x : Word) : Prop := ∃ q, value x = some q ∧ 0 ≤ q ∧ q < 256

noncomputable def fOf (x : Word) : ℝ := f ((value x).getD 0)

theorem f_nonneg {q : ℚ} (h0 : 0 ≤ q) (h256 : q < 256) : 0 ≤ f q := by
  have hk := wanted_ge h0 h256
  have hq : (0 : ℝ) ≤ q := by exact_mod_cast h0
  rw [f_eq]
  positivity

/-- The result for one sample is right to 380 parts in `2^22`. -/
theorem fx_error {x : Word} {q : ℚ} (hx : value x = some q) (h0 : 0 ≤ q) (h256 : q < 256) :
    ∃ s : ℚ, Reads (Term.fx generated x) s ∧ s < 2 ^ 17 ∧
      |(s : ℝ) - f q| ≤ 380 / 2 ^ 22 * f q + 2 ^ (-116 : ℤ) := by
  obtain ⟨c, hc0, hc1, hck, hreads⟩ := fx_reads hx h0 h256
  obtain ⟨hle, hsub⟩ := flushed_input hx h0
  have hin := flushed_nonneg x
  have hsq := mul_nonneg hin hin
  have hhalf := mul_nonneg hin (by norm_num : (0 : ℚ) ≤ 1 / 2)
  have htop := mul_nonneg hc0 (rounded_nonneg hsq)
  have h1 := rounded_error_real hsq
  have h2 := rounded_error_real htop
  have h3 := rounded_error_real hhalf
  have h4 := rounded_error_real (add_nonneg (rounded_nonneg htop) (rounded_nonneg hhalf))
  have hsub' : ((q - flushed x : ℚ) : ℝ) ≤ ((2 ^ (-126 : ℤ) : ℚ) : ℝ) := by exact_mod_cast hsub
  push_cast at h1 h2 h3 h4 hsub'
  have herr := lanes_error (by positivity) (by exact_mod_cast hin) (by exact_mod_cast hle) hsub'
    (by exact_mod_cast h256.le) (by exact_mod_cast hc0) (by exact_mod_cast hc1) hck
    (wanted_ge h0 h256) h1 h2 h3 h4
  have hη : (2 : ℝ) ^ 10 * 2 ^ (-126 : ℤ) = 2 ^ (-116 : ℤ) := by norm_num
  rw [hη, ← f_eq] at herr
  refine ⟨_, hreads, ?_, herr⟩
  have hq0 : (0 : ℝ) ≤ q := by exact_mod_cast h0
  have hq1 : (q : ℝ) < 256 := by exact_mod_cast h256
  have hk1 : wanted q ≤ 1 := Real.cos_le_one _
  have hf : f q ≤ 65664 := by
    have hsquare : (q : ℝ) ^ 2 ≤ 256 ^ 2 := pow_le_pow_left₀ hq0 hq1.le 2
    have hcos : (q : ℝ) ^ 2 * wanted q ≤ (q : ℝ) ^ 2 := mul_le_of_le_one_right (sq_nonneg _) hk1
    rw [f_eq]
    linarith
  have hsmall : (2 : ℝ) ^ (-116 : ℤ) ≤ 1 := zpow_le_one_of_nonpos₀ (by norm_num) (by norm_num)
  have hlt := (abs_le.mp herr).2
  generalize rounded (rounded (c * rounded (flushed x * flushed x)) +
    rounded (flushed x * (1 / 2))) = s at hlt ⊢
  have hreal : (s : ℝ) < ((2 ^ 17 : ℚ) : ℝ) := by
    push_cast
    linarith
  exact_mod_cast hreal

/-- Reading a pattern with its subnormals makes next to no difference. -/
theorem value_of_reads {w : Word} {m : ℚ} (h : Reads w m) :
    ∃ v : ℚ, value w = some v ∧ |v - m| ≤ 2 ^ (-126 : ℤ) := by
  refine ⟨magnitude w, ?_, ?_⟩
  · rw [value, if_neg h.finite, h.sign]
    rfl
  · have hle := flushed_le w
    have hlt := magnitude_sub_flushed w
    rw [h.flushed] at hle hlt
    rw [abs_of_nonneg (by linarith)]
    exact hlt.le

/-- **The unit computes `f`.** From any contents of its registers, with the generated cores in place:
fifteen enabled clocks after a number from `[0, 256)` was at the input, the output is within 380 parts
in `2^22` of its `f(x)`. -/
theorem unit_accurate (input : ℕ → Term.Pins) (s : Lanes) (t : ℕ)
    (hreset : ∀ j ≤ 15, (input (t + j)).reset = false)
    (hen : ∀ j ≤ 14, (input (t + j)).clkEn = true) (q : ℚ) (hx : value (input t).x = some q)
    (h0 : 0 ≤ q) (h256 : q < 256) :
    ∃ v : ℚ, value (Lanes.result (input (t + 15)).reset (run Lanes.step input s (t + 15))) = some v ∧
      |(v : ℝ) - f q| ≤ 380 / 2 ^ 22 * f q + 2 ^ (-115 : ℤ) := by
  obtain ⟨m, hreads, -, herr⟩ := fx_error hx h0 h256
  obtain ⟨v, hv, hclose⟩ := value_of_reads hreads
  have hout := Term.result_run (C := generated) (s := s.view) hreset hen
  rw [← Lanes.view_run, ← Lanes.result_view] at hout
  refine ⟨v, by rw [hout, hv], ?_⟩
  have hclose' : ((|v - m| : ℚ) : ℝ) ≤ ((2 ^ (-126 : ℤ) : ℚ) : ℝ) := by exact_mod_cast hclose
  push_cast at hclose'
  have hη : (2 : ℝ) ^ (-116 : ℤ) + 2 ^ (-126 : ℤ) ≤ 2 ^ (-115 : ℤ) := by norm_num
  calc |(v : ℝ) - f q| ≤ |(v : ℝ) - m| + |(m : ℝ) - f q| := abs_sub_le _ _ _
    _ ≤ 2 ^ (-126 : ℤ) + (380 / 2 ^ 22 * f q + 2 ^ (-116 : ℤ)) := add_le_add hclose' herr
    _ = 380 / 2 ^ 22 * f q + (2 ^ (-116 : ℤ) + 2 ^ (-126 : ℤ)) := by ring
    _ ≤ 380 / 2 ^ 22 * f q + 2 ^ (-115 : ℤ) := by gcongr

theorem value_128 : value 0x43000000#32 = some 128 :=
  value_normal rfl (by decide : exponent 0x43000000#32 = 134)
    (by decide : fraction 0x43000000#32 = 0) (by norm_num) (by norm_num) (by norm_num)

theorem unit_accurate_at_128 : ∃ v : ℚ,
    value (Lanes.result false (run Lanes.step (fun _ => ⟨true, false, 0x43000000#32⟩) .powerOn (0 + 15))) =
        some v ∧
      |(v : ℝ) - f 128| ≤ 380 / 2 ^ 22 * f 128 + 2 ^ (-115 : ℤ) :=
  unit_accurate (fun _ => ⟨true, false, 0x43000000#32⟩) .powerOn 0 (fun _ _ => rfl) (fun _ _ => rfl) 128
    value_128 (by norm_num) (by norm_num)

/-! ## The error of a sum -/

theorem units_of_reads {w : Word} {s : ℚ} (h : Reads w s) (hlt : s < 2 ^ 17) :
    FpAcc0002.signedUnits w = ⌊s * 2 ^ 126⌋ := by
  have hexp : exponent w ≤ 177 := by
    by_cases h0 : exponent w = 0
    · omega
    · have hle : exponent w ≤ 143 := by
        apply exponent_le_of_lt
        have hflushed := h.flushed
        rw [flushed, if_neg h0] at hflushed
        rw [hflushed]
        norm_num at hlt ⊢
        exact hlt
      omega
  rw [FpAcc0002.signedUnits, h.sign, if_neg (by simp), FpAcc0002.units_floor w hexp, h.flushed]

/-- A sample in range counts for its `f(x)`, up to the error of the unit and one unit of the sum. -/
theorem sample_counts {x : Word} (h : InRange x) :
    0 ≤ (generated.v (Term.fx generated x)).toInt ∧
      (generated.v (Term.fx generated x)).toInt < 2 ^ 143 ∧
      |((generated.v (Term.fx generated x)).toInt : ℝ) * 2 ^ (-126 : ℤ) - fOf x| ≤
        380 / 2 ^ 22 * fOf x + 2 ^ (-115 : ℤ) := by
  obtain ⟨q, hx, h0, h256⟩ := h
  obtain ⟨s, hreads, hlt, herr⟩ := fx_error hx h0 h256
  have hv : (generated.v (Term.fx generated x)).toInt = ⌊s * 2 ^ 126⌋ := by
    rw [← units_of_reads hreads hlt]
    exact FpAcc0002.contribution_toInt _ false
  have hf : fOf x = f q := by rw [fOf, hx, Option.getD_some]
  have hpow : (0 : ℚ) < 2 ^ 126 := by positivity
  rw [hv, hf]
  refine ⟨Int.floor_nonneg.mpr (mul_nonneg hreads.nonneg hpow.le), ?_, ?_⟩
  · rw [Int.floor_lt]
    push_cast
    calc s * 2 ^ 126 < 2 ^ 17 * 2 ^ 126 := mul_lt_mul_of_pos_right hlt hpow
      _ = 2 ^ 143 := by norm_num
  · have hlo := Int.floor_le (s * 2 ^ 126)
    have hhi := Int.lt_floor_add_one (s * 2 ^ 126)
    generalize ⌊s * 2 ^ 126⌋ = n at hlo hhi ⊢
    have hlo' : ((n : ℚ) : ℝ) ≤ ((s * 2 ^ 126 : ℚ) : ℝ) := by exact_mod_cast hlo
    have hhi' : ((s * 2 ^ 126 : ℚ) : ℝ) ≤ ((n + 1 : ℚ) : ℝ) := by exact_mod_cast hhi.le
    have hη : (0 : ℝ) < 2 ^ (-126 : ℤ) := by positivity
    have hunit : (2 : ℝ) ^ 126 * 2 ^ (-126 : ℤ) = 1 := by norm_num
    have hsum : (2 : ℝ) ^ (-116 : ℤ) + 2 ^ (-126 : ℤ) ≤ 2 ^ (-115 : ℤ) := by norm_num
    push_cast at hlo' hhi'
    have hdown := mul_le_mul_of_nonneg_right hlo' hη.le
    have hup := mul_le_mul_of_nonneg_right hhi' hη.le
    rw [mul_assoc, hunit, mul_one] at hdown hup
    rw [add_mul, one_mul] at hup
    generalize (2 : ℝ) ^ (-126 : ℤ) = η at hη hsum hdown hup ⊢
    generalize (2 : ℝ) ^ (-116 : ℤ) = ε at hsum herr
    generalize (2 : ℝ) ^ (-115 : ℤ) = δ at hsum ⊢
    rw [abs_le] at herr ⊢
    constructor <;> linarith

theorem inRange_positive {x : Word} (h : InRange x) : sign (Term.fx generated x) = false := by
  obtain ⟨q, hx, h0, h256⟩ := h
  obtain ⟨s, hreads, -, -⟩ := fx_error hx h0 h256
  exact hreads.sign

/-- A result that is not negative adds what it counts for, also as the first one. -/
theorem total_concat (xs : List Word) {x : Word} (hsign : sign (Term.fx generated x) = false) :
    Batch.total generated (xs ++ [x]) =
      Batch.total generated xs + generated.v (Term.fx generated x) := by
  rw [Batch.total_snoc]
  cases xs with
  | nil =>
    have hfirst := FpAcc0002.v_eq_first (Term.fx generated x)
    rw [hsign] at hfirst
    exact ((add_zero _).symm.trans hfirst.symm).trans (zero_add _).symm
  | cons y ys => rfl

/-- The exact sum of what the unit makes of a batch. -/
theorem total_error (xs : List Word) (hlen : xs.length ≤ 2 ^ 34) (hxs : ∀ x ∈ xs, InRange x) :
    0 ≤ (Batch.total generated xs).toInt ∧
      (Batch.total generated xs).toInt ≤ xs.length * (2 ^ 143 - 1) ∧
      |((Batch.total generated xs).toInt : ℝ) * 2 ^ (-126 : ℤ) - (xs.map fOf).sum| ≤
        380 / 2 ^ 22 * (xs.map fOf).sum + xs.length * 2 ^ (-115 : ℤ) := by
  induction xs using List.reverseRecOn with
  | nil =>
    have hzero : (Batch.total generated []).toInt = 0 := rfl
    rw [hzero]
    simp
  | append_singleton xs x ih =>
    rw [List.length_append, List.length_singleton] at hlen
    obtain ⟨hlo, hhi, herr⟩ := ih (by omega) fun y hy => hxs y (List.mem_append_left _ hy)
    obtain ⟨hxlo, hxhi, hxerr⟩ := sample_counts (hxs x (List.mem_append_right _ List.mem_cons_self))
    have hadd : (Batch.total generated (xs ++ [x])).toInt =
        (Batch.total generated xs).toInt + (generated.v (Term.fx generated x)).toInt := by
      rw [total_concat xs (inRange_positive (hxs x (List.mem_append_right _ List.mem_cons_self)))]
      apply TwosComplement.toInt_add_of_fits
      have hcap : (xs.length : ℤ) * (2 ^ 143 - 1) ≤ 2 ^ 34 * (2 ^ 143 - 1) :=
        mul_le_mul_of_nonneg_right (by exact_mod_cast (by omega : xs.length ≤ 2 ^ 34)) (by norm_num)
      constructor <;> omega
    rw [hadd, List.length_append, List.length_singleton, List.map_append, List.sum_append,
      List.map_singleton, List.sum_singleton]
    push_cast
    generalize (2 : ℝ) ^ (-126 : ℤ) = η at herr hxerr ⊢
    generalize (2 : ℝ) ^ (-115 : ℤ) = δ at herr hxerr ⊢
    refine ⟨by omega, by linarith, ?_⟩
    rw [abs_le] at herr hxerr ⊢
    constructor <;> linarith

/-! ## What the bus returns -/

theorem batch_sampled (input : ℕ → Pins) (c : ℕ) :
    ∀ x ∈ (batchAt input c).samples, ∃ k, samples input k = true ∧ (input k).writedata = x := by
  induction c with
  | zero => exact fun x hx => absurd hx List.not_mem_nil
  | succ c ih =>
    intro x hx
    by_cases hreq : requests input c = true
    · rw [batchAt_request hreq] at hx
      exact absurd hx List.not_mem_nil
    · by_cases hs : samples input c = true
      · rw [batchAt_sample hs, List.mem_append, List.mem_singleton] at hx
        rcases hx with hx | rfl
        · exact ih x hx
        · exact ⟨c, hs, rfl⟩
      · rw [batchAt_idle (Bool.eq_false_iff.mpr hreq) (Bool.eq_false_iff.mpr hs)] at hx
        exact ih x hx

/-- The float of an exact sum. -/
theorem enc_error (xs : List Word) (hlen : xs.length ≤ 2 ^ 34) (hxs : ∀ x ∈ xs, InRange x) :
    ∃ v : ℚ, value (generated.enc (Batch.total generated xs)) = some v ∧
      |(v : ℝ) - (xs.map fOf).sum| ≤ 2 ^ (-13 : ℤ) * (xs.map fOf).sum + xs.length * 2 ^ (-114 : ℤ) := by
  obtain ⟨hlo, hhi, herr⟩ := total_error xs hlen hxs
  generalize Batch.total generated xs = t at hlo hhi herr ⊢
  have hcap : (xs.length : ℤ) * (2 ^ 143 - 1) ≤ 2 ^ 34 * (2 ^ 143 - 1) :=
    mul_le_mul_of_nonneg_right (by exact_mod_cast hlen) (by norm_num)
  refine ⟨_, FpAcc0002.enc_value t (by omega), ?_⟩
  have hτ : (0 : ℚ) ≤ t.toInt * 2 ^ (-126 : ℤ) :=
    mul_nonneg (by exact_mod_cast hlo) (by positivity)
  obtain ⟨hcut, hcut'⟩ := towardZero_error 24 hτ
  have hS : 0 ≤ (xs.map fOf).sum := by
    apply List.sum_nonneg
    intro y hy
    obtain ⟨x, hx, rfl⟩ := List.mem_map.mp hy
    obtain ⟨q, hq, h0, h256⟩ := hxs x hx
    rw [fOf, hq]
    exact f_nonneg h0 h256
  have hδ : (2 : ℝ) ^ (-114 : ℤ) = 2 * 2 ^ (-115 : ℤ) := by norm_num
  have hn : (0 : ℝ) ≤ xs.length * 2 ^ (-115 : ℤ) := by positivity
  have hτ' : (((t.toInt : ℚ) * 2 ^ (-126 : ℤ) : ℚ) : ℝ) = t.toInt * 2 ^ (-126 : ℤ) := by push_cast; rfl
  generalize (t.toInt : ℚ) * 2 ^ (-126 : ℤ) = τ at hτ hcut hcut' hτ' ⊢
  rw [← hτ'] at herr
  have hcutr : (0 : ℝ) ≤ (τ : ℝ) - (towardZero 24 τ : ℚ) := by exact_mod_cast hcut
  have hcutr' : (τ : ℝ) - (towardZero 24 τ : ℚ) ≤ 1 / 2 ^ 23 * τ := by
    have hcast : ((τ - towardZero 24 τ : ℚ) : ℝ) ≤ ((2 ^ (1 - ((24 : ℕ) : ℤ)) * τ : ℚ) : ℝ) := by
      exact_mod_cast hcut'
    norm_num at hcast ⊢
    exact hcast
  generalize ((towardZero 24 τ : ℚ) : ℝ) = v at hcutr hcutr' ⊢
  have hscale : (2 : ℝ) ^ (-13 : ℤ) = 512 / 2 ^ 22 := by norm_num
  rw [hδ, hscale]
  generalize (2 : ℝ) ^ (-115 : ℤ) = δ at hn herr ⊢
  rw [abs_le] at herr ⊢
  constructor <;> linarith

/-- **The peripheral computes sums of `f`.** For every disciplined traffic whose samples lie in
`[0, 256)`, with the generated cores in place: 23 cycles after a read of a batch of one to `2^34`
samples the bus carries a float that is off the sum of the exact values of `f` over the batch by at
most `2^-13` of that sum and `2^-114` for each sample. -/
theorem reads_accurate (input : ℕ → Pins) (h : Disciplined input)
    (hrange : ∀ c, samples input c = true → InRange (input c).writedata) (r : ℕ)
    (hr : reads input r = true) (hne : (batchAt input r).samples ≠ [])
    (hlen : (batchAt input r).samples.length ≤ 2 ^ 34) :
    ∃ v : ℚ, value (readdata (input (r + 23)) (run step input powerOn (r + 23))) = some v ∧
      |(v : ℝ) - ((batchAt input r).samples.map fOf).sum| ≤
        2 ^ (-13 : ℤ) * ((batchAt input r).samples.map fOf).sum +
          (batchAt input r).samples.length * 2 ^ (-114 : ℤ) := by
  rw [readdata_batch h hr fun hempty => absurd hempty hne, Batch.answer, if_neg hne]
  apply enc_error _ hlen
  intro x hx
  obtain ⟨k, hk, rfl⟩ := batch_sampled input r x hx
  exact hrange k hk

theorem inRange_128 : InRange 0x43000000#32 := ⟨128, value_128, by norm_num, by norm_num⟩

theorem reads_accurate_at_128 : ∃ v : ℚ,
    value (readdata .idle (run step (trigSum [0x43000000#32]) powerOn 25)) = some v ∧
      |(v : ℝ) - ([0x43000000#32].map fOf).sum| ≤
        2 ^ (-13 : ℤ) * ([0x43000000#32].map fOf).sum + (1 : ℕ) * 2 ^ (-114 : ℤ) :=
  reads_accurate (trigSum [0x43000000#32]) (trigSum_disciplined _) (by
    intro c hc
    obtain ⟨_, hx⟩ | ⟨x, h0, h1, hx⟩ | ⟨_, hx⟩ | hx := trigSum_cases [0x43000000#32] c
    · simp [samples, hx, Pins.request, Pins.write0] at hc
    · obtain rfl : c = 1 := by simp at h1; omega
      exact inRange_128
    · simp [samples, hx, Pins.poll, Pins.write0] at hc
    · simp [samples, hx, Pins.idle, Pins.write0] at hc) 2 rfl (by decide) (by decide)

end DsdCordic.Precision

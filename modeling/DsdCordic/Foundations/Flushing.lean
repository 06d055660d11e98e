import DsdCordic.Foundations.Binary32
import DsdCordic.Foundations.Rounding

/-! Single precision without subnormals: operands below the normal range count as zeros, and so do
results; results above the range are infinities. -/
namespace DsdCordic.Flushing
open Binary32 Rounding
set_option autoImplicit false

def flushed (x : Word) : ℚ := if exponent x = 0 then 0 else magnitude x

def flushedValue (x : Word) : ℚ := if sign x then -flushed x else flushed x

def IsInf (x : Word) : Prop := exponent x = 255 ∧ fraction x = 0

def IsNaN (x : Word) : Prop := exponent x = 255 ∧ fraction x ≠ 0

/-- The pattern for a sign and a magnitude of at most 24 digits. -/
structure Delivers (w : Word) (s : Bool) (m : ℚ) : Prop where
  sign : sign w = s
  zero : m < 2 ^ (-126 : ℤ) → exponent w = 0 ∧ fraction w = 0
  normal : 2 ^ (-126 : ℤ) ≤ m → m < 2 ^ 128 →
    exponent w ≠ 0 ∧ exponent w ≠ 255 ∧ magnitude w = m
  infinite : 2 ^ 128 ≤ m → exponent w = 255 ∧ fraction w = 0

theorem flushed_nonneg (x : Word) : 0 ≤ flushed x := by
  rw [flushed]
  split
  · exact le_rfl
  · exact magnitude_nonneg x

theorem flushed_normal {x : Word} (h : exponent x ≠ 0) :
    flushed x = (2 ^ 23 + fraction x : ℕ) * 2 ^ ((exponent x : ℤ) - 150) := by
  rw [flushed, if_neg h, magnitude, if_neg h]
  push_cast
  rfl

theorem flushed_le (x : Word) : flushed x ≤ magnitude x := by
  rw [flushed]
  split
  · exact magnitude_nonneg x
  · exact le_rfl

/-- Flushing loses less than the smallest normal number. -/
theorem magnitude_sub_flushed (x : Word) : magnitude x - flushed x < 2 ^ (-126 : ℤ) := by
  rw [flushed]
  split
  · next h =>
    have hlt := magnitude_lt (x := x) (n := 0) h.le
    simpa using hlt
  · rw [sub_self]
    positivity

/-! ## Fields of a result -/

theorem scale_bounds {f : ℕ} (hf : f < 2 ^ 23) (e : ℤ) :
    (2 : ℚ) ^ (e - 127) ≤ (2 ^ 23 + f) * 2 ^ (e - 150) ∧
      (2 ^ 23 + f) * 2 ^ (e - 150) < (2 : ℚ) ^ (e - 126) := by
  have hpow : ∀ k : ℕ, (2 : ℚ) ^ (e - 150 + k) = 2 ^ k * 2 ^ (e - 150) := by
    intro k
    rw [zpow_add₀ (by norm_num), zpow_natCast, mul_comm]
  have hlo := hpow 23
  have hhi := hpow 24
  rw [show e - 150 + (23 : ℕ) = e - 127 by push_cast; ring] at hlo
  rw [show e - 150 + (24 : ℕ) = e - 126 by push_cast; ring] at hhi
  have hf' : (f : ℚ) < 2 ^ 23 := by exact_mod_cast hf
  rw [hlo, hhi]
  constructor
  · apply mul_le_mul_of_nonneg_right _ (by positivity)
    linarith [(Nat.cast_nonneg f : (0 : ℚ) ≤ f)]
  · exact mul_lt_mul_of_pos_right (by linarith) (by positivity)

/-- An exponent outside the range of the field is what tells zeros and infinities from the rest. -/
theorem Delivers.of_fields {w : Word} {s : Bool} {e : ℤ} {f : ℕ} (hf : f < 2 ^ 23)
    (hs : Binary32.sign w = s) (hlow : e ≤ 0 → exponent w = 0 ∧ fraction w = 0)
    (hmid : 1 ≤ e → e ≤ 254 → (exponent w : ℤ) = e ∧ fraction w = f)
    (hhigh : 255 ≤ e → exponent w = 255 ∧ fraction w = 0) :
    Delivers w s ((2 ^ 23 + f) * 2 ^ (e - 150)) := by
  obtain ⟨hlo, hhi⟩ := scale_bounds hf e
  have htop : (2 : ℚ) ^ 128 = 2 ^ (128 : ℤ) := by norm_num
  have hone : (1 : ℚ) < 2 := by norm_num
  refine ⟨hs, fun hm => ?_, fun hm1 hm2 => ?_, fun hm => ?_⟩
  · have := (zpow_lt_zpow_iff_right₀ hone).mp (hlo.trans_lt hm)
    exact hlow (by omega)
  · rw [htop] at hm2
    have h1 := (zpow_lt_zpow_iff_right₀ hone).mp (hm1.trans_lt hhi)
    have h2 := (zpow_lt_zpow_iff_right₀ hone).mp (hlo.trans_lt hm2)
    obtain ⟨he, hfrac⟩ := hmid (by omega) (by omega)
    have h0 : exponent w ≠ 0 := by omega
    refine ⟨h0, by omega, ?_⟩
    rw [magnitude, if_neg h0, he, hfrac]
  · rw [htop] at hm
    have := (zpow_lt_zpow_iff_right₀ hone).mp (hm.trans_lt hhi)
    exact hhigh (by omega)

/-- Rounding may carry a mantissa to the next power of two; adding it to the exponent below the
binary point is right in both cases. -/
theorem carry_scale {e e' : ℤ} {r f : ℕ} (hlo : 2 ^ 23 ≤ r) (hhi : r ≤ 2 ^ 24) (hf : f < 2 ^ 23)
    (h : e' * 2 ^ 23 + f = e * 2 ^ 23 + r - 2 ^ 23) :
    (2 ^ 23 + f : ℚ) * 2 ^ (e' - 150) = r * 2 ^ (e - 150) := by
  rcases hhi.eq_or_lt with rfl | hlt
  · obtain rfl : e' = e + 1 := by omega
    obtain rfl : f = 0 := by omega
    rw [show e + 1 - 150 = e - 150 + 1 by ring, zpow_add_one₀ (by norm_num)]
    push_cast
    ring
  · obtain rfl : e' = e := by omega
    have hr : r = 2 ^ 23 + f := by omega
    rw [hr]
    push_cast
    rfl

theorem Delivers.of_zero {w : Word} {s : Bool} {m : ℚ} (hs : Binary32.sign w = s)
    (he : exponent w = 0) (hf : fraction w = 0) (hm : m < 2 ^ (-126 : ℤ)) : Delivers w s m := by
  have hsmall : (2 : ℚ) ^ (-126 : ℤ) < 2 ^ 128 := by norm_num
  exact ⟨hs, fun _ => ⟨he, hf⟩, fun h => absurd hm h.not_gt, fun h => by linarith⟩

/-- What a delivered pattern stands for. -/
theorem Delivers.value {w : Word} {s : Bool} {m : ℚ} (h : Delivers w s m) (hm : m < 2 ^ 128) :
    Binary32.value w = some (if m < 2 ^ (-126 : ℤ) then 0 else if s then -m else m) := by
  by_cases hsmall : m < 2 ^ (-126 : ℤ)
  · obtain ⟨he, hf⟩ := h.zero hsmall
    rw [if_pos hsmall, Binary32.value, magnitude, he, hf]
    simp
  · obtain ⟨_, h255, hmag⟩ := h.normal (not_lt.mp hsmall) hm
    rw [if_neg hsmall, Binary32.value, if_neg h255, h.sign, hmag]

/-! ## Rounding with flushing -/

/-- The number that a magnitude is delivered as. -/
def flush (m : ℚ) : ℚ := if m < 2 ^ (-126 : ℤ) then 0 else m

theorem flush_nonneg {m : ℚ} (hm : 0 ≤ m) : 0 ≤ flush m := by
  rw [flush]
  split
  · exact le_rfl
  · exact hm

/-- Flushing adds less than the smallest normal number to the error of rounding. -/
theorem flush_nearest_error {q : ℚ} (hq : 0 ≤ q) :
    |flush (nearest 24 q) - q| ≤ 2 ^ (-24 : ℤ) * q + 2 ^ (-126 : ℤ) := by
  have herr := nearest_error 24 q
  have hmin : (0 : ℚ) < 2 ^ (-126 : ℤ) := by positivity
  rw [abs_of_nonneg hq, Nat.cast_ofNat] at herr
  rw [flush]
  split
  · next hsmall =>
    rw [zero_sub, abs_neg, abs_of_nonneg hq]
    linarith [(abs_le.mp herr).1]
  · linarith

/-- A pattern that counts as a number which is not negative. -/
structure Reads (w : Word) (m : ℚ) : Prop where
  sign : Binary32.sign w = false
  finite : exponent w ≠ 255
  flushed : flushed w = m

theorem Reads.of_value {w : Word} {m : ℚ} (h : value w = some m) (hm : 2 ^ (-126 : ℤ) ≤ m) :
    Reads w m := by
  have hpos : (0 : ℚ) < m := lt_of_lt_of_le (by positivity) hm
  have hmag := (value_nonneg h hpos.le).1
  refine ⟨sign_of_pos h hpos, ?_, ?_⟩
  · intro h255
    rw [value, if_pos h255] at h
    cases h
  · rw [Flushing.flushed, if_neg, hmag]
    intro h0
    have hlt := magnitude_lt (x := w) (n := 0) h0.le
    rw [hmag] at hlt
    norm_num at hlt hm
    linarith

theorem Reads.nonneg {w : Word} {m : ℚ} (h : Reads w m) : 0 ≤ m := by
  rw [← h.flushed]
  exact flushed_nonneg w

theorem Reads.flushedValue {w : Word} {m : ℚ} (h : Reads w m) : flushedValue w = m := by
  rw [Flushing.flushedValue, h.sign, h.flushed]
  rfl

theorem Delivers.reads {w : Word} {m : ℚ} (h : Delivers w false m) (hm : m < 2 ^ 128) :
    Reads w (flush m) := by
  refine ⟨h.sign, ?_, ?_⟩
  · by_cases hsmall : m < 2 ^ (-126 : ℤ)
    · rw [(h.zero hsmall).1]
      norm_num
    · exact (h.normal (not_lt.mp hsmall) hm).2.1
  · rw [Flushing.flushed, flush]
    by_cases hsmall : m < 2 ^ (-126 : ℤ)
    · rw [if_pos (h.zero hsmall).1, if_pos hsmall]
    · obtain ⟨h0, -, hmag⟩ := h.normal (not_lt.mp hsmall) hm
      rw [if_neg h0, if_neg hsmall, hmag]

/-- A result that is rounded to the nearest and flushed. -/
theorem Delivers.reads_nearest {w : Word} {q : ℚ} (h : Delivers w false (nearest 24 q)) (hq : 0 ≤ q)
    (hlt : q < 2 ^ 127) : Reads w (flush (nearest 24 q)) := by
  have herr := (abs_le.mp (nearest_error 24 q)).2
  have hsmall : (2 : ℚ) ^ (-((24 : ℕ) : ℤ)) ≤ 1 := zpow_le_one_of_nonpos₀ (by norm_num) (by norm_num)
  have hle : (2 : ℚ) ^ (-((24 : ℕ) : ℤ)) * |q| ≤ q := by
    rw [abs_of_nonneg hq]
    exact mul_le_of_le_one_left hq hsmall
  exact h.reads (by linarith)

end DsdCordic.Flushing

import Dwell.Double.Numeral
import Dwell.Proofs.Double.Scaling

/-!
# Decimals as doubles

A decimal is read as the double that it is nearest to (`parts_ofDecimal`). Digits and powers of ten
that are doubles themselves are multiplied or divided as doubles, others as whole numbers; either
way the number is rounded only once.
-/

namespace Dwell.Double

open Float.Model (UnpackedFloat Format)
open Float.Model.UnpackedFloat (Sign)

section Exact

variable {x : Float} {a : ℚ} {m n e : Nat} {q : Int}

theorem unpack_of_pos (hx : value? x = some a) (ha : 0 < a) :
    ∃ m q hm, x.toModel.unpack = .finite .positive m q hm ∧ Normal m q ∧ a = size m q := by
  rcases unpack_of_nonneg hx ha.le with ⟨s, -, rfl⟩ | h
  · exact absurd ha (lt_irrefl 0)
  · exact h

/-- From one on, the mantissa of a double has all its bits. -/
theorem Normal.full_of_one_le (h : Normal m q) (hone : 1 ≤ size m q) : 2 ^ 52 ≤ m := by
  refine h.full.resolve_left ?_
  rintro rfl
  have hsmall : size m (-1074) < 1 := by
    calc size m (-1074) < size (2 ^ 53) (-1074) := size_lt_size_iff_left.2 h.lt
      _ ≤ size (2 ^ 53) (-53) := size_le_size le_rfl (by decide)
      _ = 1 := by norm_num [size]
  linarith

theorem value?_toFloat (h : n < 2 ^ 53) : value? n.toUInt64.toFloat = some (n : ℚ) := by
  have hofNat := value?_ofNat h
  rwa [ofNat, if_pos (by omega)] at hofNat

/-- The powers of ten up to the 22nd are doubles. -/
theorem value?_powerOfTen (h : e < Float.exactlyRepresentablePowersOfTen.size) :
    value? Float.exactlyRepresentablePowersOfTen[e] = some (10 ^ e : ℚ) := by
  have hwhole : ∀ e, (h : e < Float.exactlyRepresentablePowersOfTen.size) →
      toInt? Float.exactlyRepresentablePowersOfTen[e] = some (10 ^ e) := by
    decide +kernel
  have := toInt?_eq_some_iff.1 (hwhole e h)
  exact_mod_cast this

end Exact

section Scientific

variable {m d e : Nat} {q : Int}

theorem parts_ofModel_finite {u : UnpackedFloat} (hn : Normal m q) (hm : 0 < m)
    (h : u = .finite .positive m q hm) : parts (.ofModel (.pack u)) = .finite false m q :=
  h ▸ parts_pack_finite hn

/-- Digits and a power of ten that are doubles are multiplied or divided as such. -/
theorem parts_toFloat_mul (h : Rounds m q (d * 10 ^ e)) (hn : Normal m q) (hm : 0 < m) (hd : 0 < d)
    (hlt : d < 2 ^ 53) (he : e < Float.exactlyRepresentablePowersOfTen.size) :
    parts (d.toUInt64.toFloat * Float.exactlyRepresentablePowersOfTen[e]) = .finite false m q := by
  obtain ⟨m₁, q₁, h₁, hu₁, -, hv₁⟩ := unpack_of_pos (value?_toFloat hlt) (by exact_mod_cast hd)
  obtain ⟨m₂, q₂, h₂, hu₂, hn₂, hv₂⟩ := unpack_of_pos (value?_powerOfTen he) (by positivity)
  have hfull : 2 ^ 52 ≤ m₂ :=
    hn₂.full_of_one_le (hv₂ ▸ one_le_pow₀ (by norm_num))
  rw [hv₁, hv₂] at h
  refine parts_ofModel_finite hn hm ?_
  rw [hu₁, hu₂]
  exact h.mul hn hm h₁ h₂ (hfull.trans (Nat.le_mul_of_pos_left m₂ h₁))

theorem parts_toFloat_div (h : Rounds m q (d / 10 ^ e)) (hn : Normal m q) (hm : 0 < m) (hd : 0 < d)
    (hlt : d < 2 ^ 53) (he : e < Float.exactlyRepresentablePowersOfTen.size) :
    parts (d.toUInt64.toFloat / Float.exactlyRepresentablePowersOfTen[e]) = .finite false m q := by
  obtain ⟨m₁, q₁, h₁, hu₁, -, hv₁⟩ := unpack_of_pos (value?_toFloat hlt) (by exact_mod_cast hd)
  obtain ⟨m₂, q₂, h₂, hu₂, -, hv₂⟩ := unpack_of_pos (value?_powerOfTen he) (by positivity)
  rw [hv₁, hv₂] at h
  refine parts_ofModel_finite hn hm ?_
  rw [hu₁, hu₂]
  exact h.div hn hm h₁ h₂

theorem size_natCast (n : Nat) : size n 0 = n := by
  rw [size, zpow_zero, mul_one]

/-- Other digits and powers of ten are multiplied or divided as whole numbers. -/
theorem ofScientific_of_nonneg (h : Rounds m q (d * 10 ^ e)) (hn : Normal m q) (hm : 0 < m)
    (hd : 0 < d) (he : e ≤ 2048) :
    UnpackedFloat.ofScientific Format.binary64 d e = .finite .positive m q hm := by
  have hover : ¬ (e : Int) > 2 ^ Format.binary64.exponentBits := by
    change ¬ (e : Int) > 2048
    omega
  have hunder : ¬ (e : Int) < -((2 ^ Format.binary64.exponentBits : Int) + d.log2) := by
    change ¬ (e : Int) < -(2048 + d.log2)
    omega
  have hbits : Format.binary64.mantissaBits = 53 := rfl
  rw [UnpackedFloat.ofScientific, dif_neg hd.ne', if_neg hover, if_neg hunder,
    if_pos (Int.natCast_nonneg e)]
  simp only [hbits, Int.toNat_natCast]
  refine Rounds.mul ?_ hn hm _ _ ?_
  · rw [Nat.shiftLeft_eq, size_mul_pow, Nat.cast_ofNat, neg_add_cancel, size_natCast, size_natCast]
    exact_mod_cast h
  · rw [Nat.shiftLeft_eq]
    calc 2 ^ 52 ≤ d * 2 ^ 53 := by omega
      _ ≤ d * 2 ^ 53 * 10 ^ e := Nat.le_mul_of_pos_right _ (by positivity)

theorem ofScientific_of_neg (h : Rounds m q (d / 10 ^ e)) (hn : Normal m q) (hm : 0 < m)
    (hd : 0 < d) (he₀ : 0 < e) (he : e ≤ 2048 + d.log2) :
    UnpackedFloat.ofScientific Format.binary64 d (-e : Int) = .finite .positive m q hm := by
  have hover : ¬ (-e : Int) > 2 ^ Format.binary64.exponentBits := by
    change ¬ (-e : Int) > 2048
    omega
  have hunder : ¬ (-e : Int) < -((2 ^ Format.binary64.exponentBits : Int) + d.log2) := by
    change ¬ (-e : Int) < -(2048 + d.log2)
    omega
  rw [UnpackedFloat.ofScientific, dif_neg hd.ne', if_neg hover, if_neg hunder,
    if_neg (by omega)]
  simp only [neg_neg, Int.toNat_natCast]
  refine Rounds.div ?_ hn hm _ _
  rw [size_natCast, size_natCast]
  exact_mod_cast h

/-- Digits and a power of ten are rounded to the double that their product is nearest to. -/
theorem parts_ofScientific {k : Int} (h : Rounds m q (d * 10 ^ k)) (hn : Normal m q) (hm : 0 < m)
    (hd : 0 < d) (hk : k ≤ 2048) (hk' : -(2048 + d.log2 : Int) ≤ k) :
    parts (Float.ofScientific d (k < 0) k.natAbs) = .finite false m q := by
  have hsize : Float.exactlyRepresentablePowersOfTen.size = 23 := rfl
  rcases lt_or_ge k 0 with hneg | hnonneg
  · obtain ⟨e, rfl⟩ : ∃ e : Nat, k = -e := ⟨k.natAbs, by omega⟩
    rw [zpow_neg, zpow_natCast, ← div_eq_mul_inv] at h
    rw [decide_eq_true hneg, Int.natAbs_neg, Int.natAbs_natCast, Float.ofScientific]
    split
    · exact parts_toFloat_div h hn hm hd (by omega) _
    · exact parts_ofModel_finite hn hm (ofScientific_of_neg h hn hm hd (by omega) (by omega))
  · obtain ⟨e, rfl⟩ : ∃ e : Nat, k = e := ⟨k.natAbs, by omega⟩
    rw [zpow_natCast] at h
    rw [decide_eq_false (by omega), Int.natAbs_natCast, Float.ofScientific]
    split
    · exact parts_toFloat_mul h hn hm hd (by omega) _
    · exact parts_ofModel_finite hn hm (ofScientific_of_nonneg h hn hm hd (by omega))

end Scientific

section Range

variable {m d size : Nat} {q e : Int} {v : ℚ}

theorem two_pow_1024_le : (2 : ℚ) ^ 1024 ≤ 10 ^ 309 := by
  have h : 2 ^ 1024 ≤ 10 ^ 309 := by decide +kernel
  have h' := (Nat.cast_le (α := ℚ)).2 h
  rwa [Nat.cast_pow, Nat.cast_pow, Nat.cast_ofNat, Nat.cast_ofNat] at h'

theorem two_pow_1075_lt : (2 : ℚ) ^ 1075 < 10 ^ 324 := by
  have h : 2 ^ 1075 < 10 ^ 324 := by decide +kernel
  have h' := (Nat.cast_lt (α := ℚ)).2 h
  rwa [Nat.cast_pow, Nat.cast_pow, Nat.cast_ofNat, Nat.cast_ofNat] at h'

/-- What is rounded to a finite double has no more than 309 digits before the point. -/
theorem Rounds.lt_pow (h : Rounds m q v) (hn : Normal m q) : v < 10 ^ (309 : ℤ) := by
  have hm : ((m + 1 : ℕ) : ℚ) ≤ (2 ^ 53 : ℕ) := by exact_mod_cast hn.lt
  push_cast at hm
  calc v ≤ (m + 1 / 2) * 2 ^ q := h.high
    _ < 2 ^ 53 * 2 ^ (971 : ℤ) := by
        refine mul_lt_mul_of_lt_of_le_of_nonneg_of_pos ?_ ?_ ?_ ?_
        · linarith
        · exact zpow_le_zpow_right₀ (by norm_num) hn.greatest
        · positivity
        · positivity
    _ = 2 ^ 1024 := by rw [zpow_ofNat, ← pow_add]
    _ ≤ 10 ^ (309 : ℤ) := by
        rw [zpow_ofNat]
        exact two_pow_1024_le

/-- What is rounded to a double above zero has no more than 323 zeros behind the point. -/
theorem Rounds.pow_lt (h : Rounds m q v) (hn : Normal m q) (hm : 0 < m) :
    10 ^ (-324 : ℤ) < v := by
  have hm' : (1 : ℚ) ≤ m := by exact_mod_cast hm
  have hgap := halfGap_le m q
  calc (10 : ℚ) ^ (-324 : ℤ) < 2 ^ (-1075 : ℤ) := by
        rw [zpow_neg, zpow_neg, zpow_ofNat, zpow_ofNat]
        exact inv_strictAnti₀ (by positivity) two_pow_1075_lt
    _ = 1 / 2 * 2 ^ (-1074 : ℤ) := by
        rw [show (-1075 : ℤ) = -1 + -1074 from rfl, zpow_add₀ (by norm_num), zpow_neg_one, one_div]
    _ ≤ (m - halfGap m q) * 2 ^ q := by
        gcongr
        · linarith
        · linarith
        · norm_num
        · exact hn.least
    _ ≤ v := h.low

/-- The number of digits of a decimal that is rounded to a double says where its point is. -/
theorem Rounds.point_bounds (h : Rounds m q (d * 10 ^ e)) (hn : Normal m q) (hm : 0 < m)
    (hlow : 10 ^ size ≤ d) (hhigh : d < 10 ^ (size + 1)) :
    size + e < 309 ∧ -324 < size + 1 + e := by
  have hlow' : (10 : ℚ) ^ size ≤ d := by exact_mod_cast hlow
  have hhigh' : (d : ℚ) < 10 ^ (size + 1) := by exact_mod_cast hhigh
  constructor
  · rw [← zpow_lt_zpow_iff_right₀ (by norm_num : (1 : ℚ) < 10)]
    calc (10 : ℚ) ^ (size + e : ℤ) = 10 ^ size * 10 ^ e := by
          rw [zpow_add₀ (by norm_num), zpow_natCast]
      _ ≤ d * 10 ^ e := by gcongr
      _ < 10 ^ (309 : ℤ) := h.lt_pow hn
  · rw [← zpow_lt_zpow_iff_right₀ (by norm_num : (1 : ℚ) < 10)]
    calc (10 : ℚ) ^ (-324 : ℤ) < d * 10 ^ e := h.pow_lt hn hm
      _ ≤ 10 ^ (size + 1) * 10 ^ e := by gcongr
      _ = 10 ^ (size + 1 + e : ℤ) := by
          rw [zpow_add₀ (by norm_num)]
          norm_cast

/-- A decimal is read as the double that it is nearest to. -/
theorem parts_ofDecimal (h : Rounds m q (d * 10 ^ e)) (hn : Normal m q) (hm : 0 < m)
    (hlow : 10 ^ size ≤ d) (hhigh : d < 10 ^ (size + 1)) :
    parts (ofDecimal d (size + 1) e) = .finite false m q := by
  have hd : 0 < d := (by positivity : 0 < 10 ^ size).trans_le hlow
  have hlog : size ≤ d.log2 :=
    (Nat.le_log2 hd.ne').2 ((Nat.pow_le_pow_left (by decide) size).trans hlow)
  obtain ⟨habove, hbelow⟩ := h.point_bounds hn hm hlow hhigh
  rw [ofDecimal, if_neg hd.ne', if_neg (by omega), if_neg (by omega)]
  exact parts_ofScientific h hn hm hd (by omega) (by omega)

end Range

end Dwell.Double

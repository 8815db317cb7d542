import Dwell.Proofs.Double.Whole

/-!
# Large whole numbers as doubles

The double for a whole number from `2 ^ 53` on is at least as large as that, or infinite
(`le_value?_ofNat`). So a double that was made from a whole number tells which one it was, if that
is below `2 ^ 53` in size (`toInt?_ofInt_iff`). Doubles that are equal are the same number
(`value?_eq_of_beq`).
-/

namespace Dwell.Double

open Float.Model (UnpackedFloat Format)
open Float.Model.UnpackedFloat (Sign ExtendedMantissa)

section Rounding

theorem mantissa_shiftRight (em : ExtendedMantissa) :
    ∀ k : Nat, (em >>> k).mantissa = em.mantissa / 2 ^ k
  | 0 => by simp [HShiftRight.hShiftRight, Nat.repeat]
  | k + 1 => by
    change (em >>> k).mantissa / 2 = _
    rw [mantissa_shiftRight em k, Nat.div_div_eq_div_mul, Nat.pow_succ]

theorem roundedMantissa_bounds (em : ExtendedMantissa) :
    em.mantissa ≤ em.roundedMantissa ∧ em.roundedMantissa ≤ em.mantissa + 1 := by
  obtain ⟨m, r, s⟩ := em
  cases r <;> cases s <;>
    simp only [ExtendedMantissa.roundedMantissa, ExtendedMantissa.accuracy,
      UnpackedFloat.Accuracy.roundToNearestEven] <;> omega

variable {s : Sign} {m : Nat} {q : Int}

theorem le_log2 (hm : 2 ^ 52 ≤ m) : 52 ≤ m.log2 :=
  (Nat.le_log2 (by omega)).2 hm

/-- A mantissa that has all its bits, or more, is cut down to 53 of them. -/
theorem shiftToTargetExponent_eq (hm : 2 ^ 52 ≤ m) (hq : -1074 ≤ q) :
    UnpackedFloat.shiftToTargetExponent Format.binary64 m q .exact
      = (ExtendedMantissa.mk m false false >>> (m.log2 - 52), q + (m.log2 - 52 : Nat)) := by
  have hlog := le_log2 hm
  have htarget : Format.binary64.targetExponent (Float.Model.totalExponent m q)
      = q + (m.log2 - 52 : Nat) := by
    have hmin : Format.binary64.minExponent = -1074 := rfl
    have hbits : (Format.binary64.mantissaBits : Int) = 53 := rfl
    rw [Format.targetExponent, Float.Model.totalExponent, hmin, hbits]
    omega
  have hshift : (q + (m.log2 - 52 : Nat) - q).toNat = m.log2 - 52 := by omega
  simp only [UnpackedFloat.shiftToTargetExponent, UnpackedFloat.shiftToExponent, htarget, hshift,
    ExtendedMantissa.ofMantissaAndAccuracy]

theorem div_pow_bounds (hm : 2 ^ 52 ≤ m) :
    2 ^ 52 ≤ m / 2 ^ (m.log2 - 52) ∧ m / 2 ^ (m.log2 - 52) < 2 ^ 53 := by
  have hlog := le_log2 hm
  have hpos : 0 < 2 ^ (m.log2 - 52) := by positivity
  constructor
  · rw [Nat.le_div_iff_mul_le hpos, ← pow_add, show 52 + (m.log2 - 52) = m.log2 by omega]
    exact Nat.log2_self_le (by omega)
  · rw [Nat.div_lt_iff_lt_mul hpos, ← pow_add, show 53 + (m.log2 - 52) = m.log2 + 1 by omega]
    exact Nat.lt_log2_self

theorem size_mul_pow (m k : Nat) (q : Int) : size (m * 2 ^ k) q = size m (q + k) := by
  rw [size, size, zpow_add₀ (by norm_num), zpow_natCast]
  push_cast
  ring

/-- A mantissa of one bit too many that was rounded up to it loses nothing when it is cut down. -/
theorem size_cut (h₁ : 2 ^ 52 ≤ m) (h₂ : m ≤ 2 ^ 53) (q : Int) :
    size (m / 2 ^ (m.log2 - 52)) (q + (m.log2 - 52 : Nat)) = size m q := by
  rcases h₂.lt_or_eq with hlt | rfl
  · rw [(Nat.log2_eq_iff (by omega)).2 ⟨h₁, hlt⟩]
    simp
  · rw [Nat.log2_two_pow, ← size_mul_pow]
    norm_num

/-- Rounding leaves a mantissa that has exactly its 53 bits, and no less an exponent than cutting
it down to them does. -/
theorem roundWithAccuracy_full (s : Sign) (hm : 2 ^ 52 ≤ m) (hq : -1074 ≤ q) : ∃ m' q' h,
    UnpackedFloat.roundWithAccuracy Format.binary64 s m q .exact = .finite s m' q' h ∧
      2 ^ 52 ≤ m' ∧ m' < 2 ^ 53 ∧ q + (m.log2 - 52 : Nat) ≤ q' ∧
      q' ≤ q + (m.log2 - 52 : Nat) + 1 ∧
      size m' q' = size (ExtendedMantissa.mk m false false >>> (m.log2 - 52)).roundedMantissa
        (q + (m.log2 - 52 : Nat)) := by
  have hfirst := shiftToTargetExponent_eq hm hq
  obtain ⟨hlow, hhigh⟩ := div_pow_bounds hm
  rw [← mantissa_shiftRight ⟨m, false, false⟩] at hlow hhigh
  obtain ⟨hr, hr'⟩ :=
    roundedMantissa_bounds (ExtendedMantissa.mk m false false >>> (m.log2 - 52))
  generalize ExtendedMantissa.mk m false false >>> (m.log2 - 52) = em at hfirst hlow hhigh hr hr'
  have hfull : 2 ^ 52 ≤ em.roundedMantissa := by omega
  -- The mantissa may have been rounded up to one bit more, and is then cut down again.
  have hsecond := shiftToTargetExponent_eq hfull (q := q + (m.log2 - 52 : Nat)) (by omega)
  obtain ⟨hlow', hhigh'⟩ := div_pow_bounds hfull
  rw [← mantissa_shiftRight ⟨em.roundedMantissa, false, false⟩] at hlow' hhigh'
  unfold UnpackedFloat.roundWithAccuracy
  simp only [hfirst, hsecond]
  rw [dif_neg (by omega)]
  have hlog : em.roundedMantissa.log2 ≤ 53 := by
    have := (Nat.log2_lt (by omega)).2 (show em.roundedMantissa < 2 ^ 54 by omega)
    omega
  refine ⟨_, _, lt_of_lt_of_le (by norm_num) hlow', rfl, hlow', hhigh', by omega, by omega, ?_⟩
  rw [mantissa_shiftRight]
  exact size_cut hfull (by omega) _

theorem unpack_pack_of_overflow (hm : 0 < m) (hq : 971 < q) :
    UnpackedFloat.unpack Format.binary64 (UnpackedFloat.pack Format.binary64 (.finite s m q hm))
      = .infinity s := by
  have hbig : 2 ^ Format.binary64.exponentBits ≤ (q + Format.binary64.exponentBias
      + Format.binary64.mantissaBitsWithoutImplicit).toNat + 1 := by
    change 2048 ≤ (q + 1023 + 52).toNat + 1
    omega
  rw [UnpackedFloat.pack, if_pos hbig]
  cases s <;> rfl

/-- A mantissa with all its bits and a positive exponent make a large double. -/
theorem le_value?_pack {v : ℚ} {hm : 0 < m} (h₁ : 2 ^ 52 ≤ m) (h₂ : m < 2 ^ 53) (hq : 1 ≤ q)
    (h : value? (.ofModel (.pack (.finite .positive m q hm))) = some v) : 2 ^ 53 ≤ v := by
  rcases le_or_gt q 971 with hle | hlt
  · rw [value?, parts_ofModel_pack (unpack_pack ⟨h₂, by omega, hle, .inr h₁⟩)] at h
    have hv : size m q = v := Option.some.inj h
    rw [← hv, size]
    calc (2 : ℚ) ^ 53 = 2 ^ 52 * (2 : ℚ) ^ (1 : ℤ) := by norm_num
      _ ≤ m * (2 : ℚ) ^ q := by
        gcongr
        · exact_mod_cast h₁
        · norm_num
  · have hp : parts (.ofModel (.pack (.finite .positive m q hm))) = .infinite false := by
      rw [parts_eq]
      exact congrArg Parts.ofUnpacked (unpack_pack_of_overflow hm hlt)
    rw [value?, hp] at h
    cases h

end Rounding

section Whole

variable {n : Nat} {v : ℚ}

theorem round_large (hn : 2 ^ 53 ≤ n) : UnpackedFloat.round Format.binary64 .positive n 0
    = UnpackedFloat.roundWithAccuracy Format.binary64 .positive n 0 .exact := by
  have hlog := le_log2 (m := n) (by omega)
  have htarget : Format.binary64.targetExponent (Float.Model.totalExponent n 0)
      = (n.log2 - 52 : Nat) := by
    have hmin : Format.binary64.minExponent = -1074 := rfl
    have hbits : (Format.binary64.mantissaBits : Int) = 53 := rfl
    rw [Format.targetExponent, Float.Model.totalExponent, hmin, hbits]
    omega
  have hshift : ((0 : Int) - (n.log2 - 52 : Nat)).toNat = 0 := by omega
  simp only [UnpackedFloat.round, htarget, UnpackedFloat.decreaseExponent, hshift,
    Nat.shiftLeft_zero, Nat.cast_zero, sub_zero]

theorem ofNat_eq_round (hn : 2 ^ 53 ≤ n) (hlt : n < 2 ^ 64) : ofNat n = .ofModel (.pack
    (UnpackedFloat.roundWithAccuracy Format.binary64 .positive n 0 .exact)) := by
  have hmod : n.toUInt64.toNat = n := Nat.mod_eq_of_lt hlt
  rw [ofNat, if_pos (by simpa using hlt)]
  change Float.ofModel (.pack (UnpackedFloat.normalize Format.binary64 n.toUInt64.toNat 0 _)) = _
  rw [hmod, UnpackedFloat.normalize, compare_gt_iff_gt.2 (by exact_mod_cast (by omega : 0 < n)),
    ← round_large hn]
  rfl

/-- What a whole number from `2 ^ 53` on is rounded from, as a mantissa and an exponent. -/
theorem ofNat_large (hn : 2 ^ 53 ≤ n) : ∃ (m : Nat) (q : Int), 2 ^ 52 ≤ m ∧ -1074 ≤ q ∧
    1 ≤ q + (m.log2 - 52 : Nat) ∧ ofNat n = .ofModel (.pack
      (UnpackedFloat.roundWithAccuracy Format.binary64 .positive m q .exact)) := by
  have hlog : 53 ≤ n.log2 := (Nat.le_log2 (by omega)).2 hn
  by_cases hlt : n < 2 ^ 64
  · exact ⟨n, 0, by omega, by omega, by omega, ofNat_eq_round hn hlt⟩
  · rw [ofNat, if_neg (by simpa using hlt)]
    have hpow : 2 ^ 106 ≤ n <<< 53 := by
      rw [Nat.shiftLeft_eq]
      omega
    have hlog' : 106 ≤ (n <<< 53).log2 := (Nat.le_log2 (by omega)).2 hpow
    refine ⟨n <<< 53, -53, by omega, by omega, by omega, ?_⟩
    rw [Float.ofScientific, dif_neg (by omega)]
    change Float.ofModel (.pack (UnpackedFloat.ofScientific Format.binary64 n 0)) = _
    have hsmall : ¬ (0 : Int) < -((2 ^ Format.binary64.exponentBits : Int) + n.log2) := by
      change ¬ (0 : Int) < -(2048 + n.log2)
      omega
    have hbits : Format.binary64.mantissaBits = 53 := rfl
    have hten : 10 ^ (0 : Int).toNat = 1 := rfl
    rw [UnpackedFloat.ofScientific, dif_neg (by omega), if_neg (by decide), if_neg hsmall,
      if_pos le_rfl]
    simp only [UnpackedFloat.mul, hbits, hten, mul_one, add_zero]
    rfl

/-- A whole number from `2 ^ 53` on is rounded to no less than that. -/
theorem le_value?_ofNat (hn : 2 ^ 53 ≤ n) (h : value? (ofNat n) = some v) : 2 ^ 53 ≤ v := by
  obtain ⟨m, q, hm, hq, hone, he⟩ := ofNat_large hn
  obtain ⟨m', q', hm', hr, hlow, hhigh, hle, -⟩ := roundWithAccuracy_full .positive hm hq
  rw [he, hr] at h
  exact le_value?_pack hlow hhigh (by omega) h

end Whole

section Numbers

variable {x y : Float}

/-- A double that is no number is none of the finite ones. -/
theorem unpack_of_value?_eq_none (h : value? x = none) :
    x.toModel.unpack = .notANumber ∨ ∃ s, x.toModel.unpack = .infinity s := by
  rw [value?, parts_eq] at h
  cases hu : x.toModel.unpack with
  | notANumber => exact .inl rfl
  | infinity s => exact .inr ⟨s, rfl⟩
  | zero s => simp [hu, Parts.ofUnpacked, Parts.value?] at h
  | finite s m q hm => simp [hu, Parts.ofUnpacked, Parts.value?] at h

/-- A positive double that is not above a finite one is finite. -/
theorem exists_value?_of_le {a : ℚ} (hx : 0 < x) (hle : x ≤ y) (hy : value? y = some a) :
    ∃ b, value? x = some b := by
  rcases h : value? x with _ | b
  · have hpos : UnpackedFloat.lt (0 : Float).toModel.unpack x.toModel.unpack = true :=
      of_decide_eq_true hx
    have hle' : UnpackedFloat.le x.toModel.unpack y.toModel.unpack = true := of_decide_eq_true hle
    rcases unpack_of_value?_eq_none h with hu | ⟨s, hu⟩
    · rw [hu] at hpos
      cases hpos
    · rw [hu] at hpos hle'
      cases s
      · cases hpos
      · rcases unpack_of_value? hy with ⟨s', hu', -⟩ | ⟨s', m, q, hm, hu', -⟩ <;>
          rw [hu'] at hle' <;> cases hle'
  · exact ⟨b, rfl⟩

theorem unpack_of_infinite {negative : Bool} (h : parts x = .infinite negative) :
    x.toModel.unpack = .infinity (if negative then .negative else .positive) := by
  rw [parts_eq] at h
  rcases hu : x.toModel.unpack with s | _ | s | ⟨s, m, q, hm⟩ <;> rw [hu] at h <;>
    simp only [Parts.ofUnpacked, reduceCtorEq, Parts.infinite.injEq] at h
  cases s with
  | negative => rw [← h]; rfl
  | positive => rw [← h]; rfl

theorem beq_of_infinite {negative : Bool} (hx : parts x = .infinite negative)
    (hy : parts y = .infinite negative) : (x == y) = true := by
  change UnpackedFloat.beq x.toModel.unpack y.toModel.unpack = true
  rw [unpack_of_infinite hx, unpack_of_infinite hy]
  cases negative <;> rfl

/-- A finite double is not above infinity. -/
theorem le_of_infinite {a : ℚ} (hx : value? x = some a) (hy : parts y = .infinite false) :
    x ≤ y := by
  change decide (x.toModel ≤ y.toModel) = true
  rw [decide_eq_true_iff]
  change UnpackedFloat.le _ _ = true
  rw [unpack_of_infinite hy]
  rcases unpack_of_value? hx with ⟨s, hu, -⟩ | ⟨s, m, q, hm, hu, -⟩ <;> rw [hu] <;> cases s <;> rfl

theorem le_infinity {a : ℚ} (hx : value? x = some a) : x ≤ infinity false :=
  le_of_infinite hx (by decide +kernel)

theorem value?_neg_of_none (h : value? x = none) : value? (-x) = none := by
  have hneg : -x = .ofModel (.pack (UnpackedFloat.neg x.toModel.unpack)) := rfl
  rcases unpack_of_value?_eq_none h with hu | ⟨s, hu⟩
  · rw [hneg, hu, value?, UnpackedFloat.neg, parts_ofModel_pack rfl]
    rfl
  · rw [hneg, hu, value?, UnpackedFloat.neg, parts_ofModel_pack (by cases s <;> rfl)]
    rfl

/-- Doubles that are equal are the same number, if they are one. -/
theorem value?_eq_of_beq (h : (x == y) = true) : value? x = value? y := by
  have hc : UnpackedFloat.beq x.toModel.unpack y.toModel.unpack = true := h
  rcases hx : value? x with _ | a <;> rcases hy : value? y with _ | b
  · rfl
  · rcases unpack_of_value?_eq_none hx with hu | ⟨s, hu⟩ <;>
      rcases unpack_of_value? hy with ⟨s', hu', -⟩ | ⟨s', m, q, hm, hu', -⟩ <;>
      rw [hu, hu'] at hc
    · cases hc
    · cases hc
    · cases s <;> cases hc
    · cases s <;> cases hc
  · rcases unpack_of_value? hx with ⟨s, hu, -⟩ | ⟨s, m, q, hm, hu, -⟩ <;>
      rcases unpack_of_value?_eq_none hy with hu' | ⟨s', hu'⟩ <;>
      rw [hu, hu'] at hc
    · cases hc
    · cases s' <;> cases hc
    · cases hc
    · cases s' <;> cases hc
  · rw [(beq_iff hx hy).1 h]

/-- Of two whole numbers, one below `2 ^ 53` in size, the doubles tell whether they are the
same. -/
theorem toInt?_ofInt_iff {n s : Int} (hs : s.natAbs < 2 ^ 53) :
    toInt? (ofInt n) = some s ↔ n = s := by
  refine ⟨fun h => ?_, fun h => h.symm ▸ toInt?_ofInt hs⟩
  by_cases hn : n.natAbs < 2 ^ 53
  · rw [toInt?_ofInt hn] at h
    exact Option.some.inj h
  -- A large number's double is large, or no number.
  rw [toInt?_eq_some_iff] at h
  have hs' : |(s : ℚ)| < 2 ^ 53 := by
    rw [← Int.cast_abs, Int.abs_eq_natAbs]
    exact_mod_cast hs
  rw [abs_lt] at hs'
  cases n with
  | ofNat a =>
    have : (2 : ℚ) ^ 53 ≤ s := le_value?_ofNat (n := a) (by simpa using hn) h
    linarith
  | negSucc a =>
    rw [ofInt] at h
    rcases hv : value? (ofNat (a + 1)) with _ | v
    · rw [value?_neg_of_none hv] at h
      cases h
    · rw [value?_neg hv, Option.some.injEq] at h
      have : (2 : ℚ) ^ 53 ≤ v := le_value?_ofNat (by simpa using hn) hv
      linarith

end Numbers

end Dwell.Double

import Dwell.Proofs.Double.Value

/-!
# Whole numbers as doubles

The double for a whole number below `2 ^ 53` in size is that number (`value?_ofInt`): scaled so
that its mantissa has all bits, it is neither rounded nor changed when it is packed.
-/

namespace Dwell.Double

open Float.Model (UnpackedFloat Format)
open Float.Model.UnpackedFloat (Sign)

theorem toNat_ofNat_mod (m : Nat) : (BitVec.ofNat 52 m).toNat = m % hiddenBit := by
  simp [hiddenBit]

/-- The exponent of a double as its bits, with none of the reserved values. -/
theorem biased_exponent {q : Int} (h₁ : -1074 ≤ q) (h₂ : q ≤ 971) :
    (BitVec.ofNat 11 (q + 1075).toNat).toNat = (q + 1075).toNat ∧
      BitVec.ofNat 11 (q + 1075).toNat ≠ -1#11 ∧ BitVec.ofNat 11 (q + 1075).toNat ≠ 0#11 := by
  have he : (BitVec.ofNat 11 (q + 1075).toNat).toNat = (q + 1075).toNat := by
    rw [BitVec.toNat_ofNat, Nat.mod_eq_of_lt (by omega)]
  refine ⟨he, fun h => ?_, fun h => ?_⟩
  · have := congrArg BitVec.toNat h
    rw [he] at this
    simp at this
    omega
  · have := congrArg BitVec.toNat h
    rw [he] at this
    simp at this
    omega

theorem log2_eq_of_full {m : Nat} (h₁ : 2 ^ 52 ≤ m) (h₂ : m < 2 ^ 53) :
    m.log2 + 1 = Format.binary64.mantissaBits := by
  rw [(Nat.log2_eq_iff (by omega)).2 ⟨h₁, h₂⟩]
  rfl

theorem log2_ne_of_not_full {m : Nat} (hm : 0 < m) (h : m < 2 ^ 52) :
    ¬ m.log2 + 1 = Format.binary64.mantissaBits := by
  have := (Nat.log2_lt hm.ne').2 h
  change ¬ m.log2 + 1 = 53
  omega

/-- Packing the parts of a double loses nothing. -/
theorem unpack_pack {s : Sign} {m : Nat} {q : Int} {hm : 0 < m} (h : Normal m q) :
    UnpackedFloat.unpack Format.binary64 (UnpackedFloat.pack Format.binary64 (.finite s m q hm))
      = .finite s m q hm := by
  obtain ⟨hlt, hq, hq', hfull⟩ := h
  have hbias : (q + Format.binary64.exponentBias + Format.binary64.mantissaBitsWithoutImplicit)
      = q + 1075 := add_assoc ..
  have hbig : ¬ 2 ^ Format.binary64.exponentBits ≤ (q + 1075).toNat + 1 := by
    change ¬ 2048 ≤ _
    omega
  unfold UnpackedFloat.pack UnpackedFloat.unpack
  by_cases hm' : 2 ^ 52 ≤ m
  · obtain ⟨he, h1, h0⟩ := biased_exponent hq hq'
    simp only [hbias, if_neg hbig, if_pos (log2_eq_of_full hm' hlt),
      UnpackedFloat.unpackExponent_packComponents, UnpackedFloat.unpackMantissa_packComponents,
      UnpackedFloat.unpackSign_packComponents, Sign.ofBitVec_toBitVec, if_neg h1, if_neg h0,
      toNat_hidden_append, toNat_ofNat_mod, he]
    congr 1
    · unfold hiddenBit; omega
    · change ((q + 1075).toNat : Int) - 1075 = q
      omega
  · obtain rfl : q = -1074 := hfull.resolve_right hm'
    have hfraction : BitVec.ofNat 52 m ≠ 0#52 := by
      intro h
      have := congrArg BitVec.toNat h
      rw [toNat_ofNat_mod, hiddenBit] at this
      simp at this
      omega
    have hones : (0#11 : BitVec 11) ≠ -1#11 := by decide
    simp only [hbias, if_neg hbig, if_neg (log2_ne_of_not_full hm (not_le.1 hm')),
      UnpackedFloat.unpackExponent_packComponents, UnpackedFloat.unpackMantissa_packComponents,
      UnpackedFloat.unpackSign_packComponents, Sign.ofBitVec_toBitVec, if_neg hones, if_pos,
      dif_neg hfraction, toNat_ofNat_mod]
    congr 1
    unfold hiddenBit; omega

theorem targetExponent_eq {m : Nat} (h₁ : 2 ^ 52 ≤ m) (h₂ : m < 2 ^ 53) {q : Int}
    (hq : -1074 ≤ q) :
    Format.binary64.targetExponent (Float.Model.totalExponent m q) = q := by
  have hlog : m.log2 = 52 := (Nat.log2_eq_iff (by omega)).2 ⟨h₁, h₂⟩
  have hmin : Format.binary64.minExponent = -1074 := rfl
  have hbits : (Format.binary64.mantissaBits : Int) = 53 := rfl
  rw [Format.targetExponent, Float.Model.totalExponent, hlog, hmin, hbits]
  omega

/-- A mantissa that has all its bits is not rounded. -/
theorem roundWithAccuracy_exact {s : Sign} {m : Nat} (h₁ : 2 ^ 52 ≤ m) (h₂ : m < 2 ^ 53)
    {q : Int} (hq : -1074 ≤ q) (hm : 0 < m) :
    UnpackedFloat.roundWithAccuracy Format.binary64 s m q .exact = .finite s m q hm := by
  have hshift : UnpackedFloat.shiftToTargetExponent Format.binary64 m q .exact
      = (⟨m, false, false⟩, q) := by
    simp only [UnpackedFloat.shiftToTargetExponent, UnpackedFloat.shiftToExponent,
      targetExponent_eq h₁ h₂ hq, sub_self, Int.toNat_zero, Nat.cast_zero, add_zero]
    rfl
  unfold UnpackedFloat.roundWithAccuracy
  simp only [hshift]
  change (if h : (UnpackedFloat.shiftToTargetExponent Format.binary64 m q .exact).1.mantissa = 0
    then _ else _) = _
  rw [dif_neg (by rw [hshift]; exact hm.ne')]
  simp only [UnpackedFloat.ExtendedMantissa.roundedMantissa, hshift,
    UnpackedFloat.ExtendedMantissa.accuracy, UnpackedFloat.Accuracy.roundToNearestEven]

/-- A whole number below `2 ^ 53` is scaled to a mantissa that has all its bits. -/
theorem round_natCast {n : Nat} (h₀ : 0 < n) (h : n < 2 ^ 53) :
    ∃ m q hm, UnpackedFloat.round Format.binary64 .positive n 0 = .finite .positive m q hm
      ∧ Normal m q ∧ size m q = n := by
  have hlog : n.log2 ≤ 52 := by
    have := (Nat.log2_lt (by omega)).2 h
    omega
  obtain ⟨k, hk⟩ : ∃ k, n.log2 + k = 52 := ⟨52 - n.log2, by omega⟩
  have h₁ : 2 ^ 52 ≤ n <<< k := by
    rw [Nat.shiftLeft_eq, ← hk, pow_add]
    exact Nat.mul_le_mul_right _ (Nat.log2_self_le (by omega))
  have h₂ : n <<< k < 2 ^ 53 := by
    rw [Nat.shiftLeft_eq, show 53 = n.log2 + 1 + k by omega, pow_add]
    exact Nat.mul_lt_mul_of_pos_right (Nat.lt_log2_self) (by positivity)
  have htarget : Format.binary64.targetExponent (Float.Model.totalExponent n 0) = -(k : Int) := by
    have hmin : Format.binary64.minExponent = -1074 := rfl
    have hbits : (Format.binary64.mantissaBits : Int) = 53 := rfl
    rw [Format.targetExponent, Float.Model.totalExponent, hmin, hbits]
    omega
  refine ⟨n <<< k, -k, by omega, ?_, ⟨h₂, by omega, by omega, .inr h₁⟩, ?_⟩
  · unfold UnpackedFloat.round
    simp only [htarget, UnpackedFloat.decreaseExponent, sub_neg_eq_add, zero_add,
      Int.toNat_natCast, zero_sub]
    exact roundWithAccuracy_exact h₁ h₂ (by omega) _
  · rw [size, Nat.shiftLeft_eq, zpow_neg, zpow_natCast]
    push_cast
    field_simp

theorem parts_ofModel_pack {u : UnpackedFloat}
    (h : UnpackedFloat.unpack Format.binary64 (UnpackedFloat.pack Format.binary64 u) = u) :
    parts (.ofModel (.pack u)) = .ofUnpacked u := by
  rw [parts_eq]
  exact congrArg Parts.ofUnpacked h

/-- A whole number below `2 ^ 53` is a double. -/
theorem value?_ofNat {n : Nat} (h : n < 2 ^ 53) : value? (ofNat n) = some (n : ℚ) := by
  rcases Nat.eq_zero_or_pos n with rfl | h₀
  · have hp : parts (ofNat 0) = .finite false 0 (-1074) := by decide
    rw [value?, hp]
    simp [Parts.value?, size_zero]
  obtain ⟨m, q, hm, hr, hn, hv⟩ := round_natCast h₀ h
  have hpack : ofNat n = .ofModel (.pack (.finite .positive m q hm)) := by
    have hlt : n < 0x10000000000000000 := by omega
    have hmod : n.toUInt64.toNat = n := Nat.mod_eq_of_lt hlt
    rw [ofNat, if_pos hlt, ← hr]
    change Float.ofModel (.pack (UnpackedFloat.normalize Format.binary64 n.toUInt64.toNat 0 _)) = _
    rw [hmod, UnpackedFloat.normalize, compare_gt_iff_gt.2 (by exact_mod_cast h₀)]
    rfl
  rw [hpack, value?, parts_ofModel_pack (unpack_pack hn)]
  simp [Parts.ofUnpacked, Parts.value?, isMinus, hv]

theorem value?_neg {x : Float} {a : ℚ} (h : value? x = some a) : value? (-x) = some (-a) := by
  rcases unpack_of_value? h with ⟨s, hu, rfl⟩ | ⟨s, m, q, hm, hu, hn, rfl⟩
  · have hneg : -x = .ofModel (.pack (.zero (-s))) := by
      change Float.ofModel (.pack (UnpackedFloat.neg x.toModel.unpack)) = _
      rw [hu]; rfl
    rw [hneg, value?, parts_ofModel_pack (by cases s <;> rfl)]
    simp [Parts.ofUnpacked, Parts.value?, size_zero]
  · have hneg : -x = .ofModel (.pack (.finite (-s) m q hm)) := by
      change Float.ofModel (.pack (UnpackedFloat.neg x.toModel.unpack)) = _
      rw [hu]; rfl
    rw [hneg, value?, parts_ofModel_pack (unpack_pack hn)]
    cases s
    · change some (size m q) = some (- -size m q)
      rw [neg_neg]
    · rfl

theorem value?_ofInt {n : Int} (h : n.natAbs < 2 ^ 53) : value? (ofInt n) = some (n : ℚ) := by
  cases n with
  | ofNat n => exact value?_ofNat h
  | negSucc n =>
    rw [ofInt, value?_neg (value?_ofNat (by simpa using h))]
    simp

/-- A double that is a whole number below `2 ^ 53` in size equals the double for that number. -/
theorem ofInt_beq {x : Float} {n : Int} (hn : n.natAbs < 2 ^ 53) (h : toInt? x = some n) :
    (ofInt n == x) = true :=
  (beq_iff (value?_ofInt hn) (toInt?_eq_some_iff.1 h)).2 rfl

theorem toInt?_ofInt {n : Int} (hn : n.natAbs < 2 ^ 53) : toInt? (ofInt n) = some n :=
  toInt?_eq_some_iff.2 (value?_ofInt hn)

theorem value?_zero : value? 0 = some 0 := by
  have hp : parts 0 = .finite false 0 (-1074) := by decide
  rw [value?, hp]
  simp [Parts.value?, size_zero]

theorem exists_value?_of_ceil? {x : Float} {n : Int} (h : ceil? x = some n) :
    ∃ v, value? x = some v := by
  unfold ceil? at h
  split at h
  · rename_i m q hp
    exact ⟨_, by rw [value?, hp]; rfl⟩
  · rename_i m q hp
    exact ⟨_, by rw [value?, hp]; rfl⟩
  · simp at h

/-- A positive double is rounded up to a positive number. -/
theorem ceil?_pos {x : Float} {n : Int} (hx : 0 < x) (h : ceil? x = some n) : 0 < n := by
  obtain ⟨v, hv⟩ := exists_value?_of_ceil? h
  rw [ceil?_eq hv, Option.some.injEq] at h
  rw [← h, Int.ceil_pos]
  exact (lt_iff value?_zero hv).1 hx

end Dwell.Double

import Dwell.Proofs.Double.Large

/-!
# Which doubles lie around a whole number

From `2 ^ 53` on a whole number is cut down to 53 bits, and rounded up only if something was cut off
(`roundedMantissa_shiftRight`). The next double is one unit of the last bit away (`size_succ_le`),
so no double lies between a number and the one that is made from it (`exists_value?_ofNat`).
-/

namespace Dwell.Double

open Float.Model (UnpackedFloat Format)
open Float.Model.UnpackedFloat (Sign ExtendedMantissa)

/-- Nothing is lost when zeros are cut off. -/
theorem shiftRight_mul_pow (a : Nat) : ∀ k : Nat,
    ExtendedMantissa.mk (a * 2 ^ k) false false >>> k = ⟨a, false, false⟩
  | 0 => by simp [HShiftRight.hShiftRight, Nat.repeat]
  | k + 1 => by
    change (ExtendedMantissa.mk (a * 2 ^ (k + 1)) false false >>> k).shiftRightOne = _
    rw [show a * 2 ^ (k + 1) = a * 2 * 2 ^ k by ring, shiftRight_mul_pow (a * 2) k]
    simp [ExtendedMantissa.shiftRightOne]

theorem roundedMantissa_shiftRight (n k : Nat) :
    (ExtendedMantissa.mk n false false >>> k).roundedMantissa = n / 2 ^ k ∨
      (ExtendedMantissa.mk n false false >>> k).roundedMantissa = n / 2 ^ k + 1 ∧
        n / 2 ^ k * 2 ^ k < n := by
  rcases (Nat.div_mul_le_self n (2 ^ k)).lt_or_eq with hlt | heq
  · have hbounds := roundedMantissa_bounds (ExtendedMantissa.mk n false false >>> k)
    rw [mantissa_shiftRight] at hbounds
    dsimp only at hbounds
    omega
  · refine .inl ?_
    conv_lhs => rw [← heq]
    rw [shiftRight_mul_pow]
    rfl

section Doubles

variable {n a : Nat} {q : Int} {x : Float} {v : ℚ}

/-- A double above one whose mantissa has all its bits is above it by a unit of the last of them. -/
theorem size_succ_le (ha : Normal a q) (hfull : 2 ^ 52 ≤ a) (hv : value? x = some v)
    (hlt : size a q < v) : size (a + 1) q ≤ v := by
  obtain ⟨s, m, p, hp, rfl⟩ := exists_parts hv
  have hm := normal_of_parts hp
  cases s with
  | true =>
    have hpos : 0 < size a q := size_pos (by omega)
    have hneg : 0 ≤ size m p := by unfold size; positivity
    simp only [if_true] at hlt
    linarith
  | false =>
    simp only [Bool.false_eq_true, if_false] at hlt ⊢
    have hle : q ≤ p := not_lt.1 fun h => absurd hlt (size_lt_size hm ha h).not_gt
    obtain ⟨e, rfl⟩ : ∃ e : Nat, p = q + e := ⟨(p - q).toNat, by omega⟩
    rw [← size_mul_pow] at hlt ⊢
    have hmantissa : a + 1 ≤ m * 2 ^ e := size_lt_size_iff_left.1 hlt
    unfold size
    gcongr

theorem size_natCast_exponent (a k : Nat) : size a (0 + k) = (a * 2 ^ k : Nat) := by
  rw [← size_mul_pow, size, zpow_zero, mul_one]

/-- No double lies between a whole number and the mantissa of 53 bits that it is rounded to. -/
theorem sides_of_rounded (hfull : 2 ^ 52 ≤ n) (hlog : n.log2 < 64) (hv : value? x = some v) :
    (v ≤ n → v ≤ size (ExtendedMantissa.mk n false false >>> (n.log2 - 52)).roundedMantissa
      (0 + (n.log2 - 52 : Nat))) ∧
    (n ≤ v → size (ExtendedMantissa.mk n false false >>> (n.log2 - 52)).roundedMantissa
      (0 + (n.log2 - 52 : Nat)) ≤ v) := by
  obtain ⟨hlow, hhigh⟩ := div_pow_bounds hfull
  have hround := roundedMantissa_shiftRight n (n.log2 - 52)
  generalize hk : n.log2 - 52 = k at hlow hhigh hround ⊢
  generalize (ExtendedMantissa.mk n false false >>> k).roundedMantissa = r at hround ⊢
  have hbelow : size (n / 2 ^ k) (0 + k) ≤ n := by
    rw [size_natCast_exponent]
    exact_mod_cast Nat.div_mul_le_self n (2 ^ k)
  have habove : n < size (n / 2 ^ k + 1) (0 + k) := by
    rw [size_natCast_exponent, mul_comm]
    exact_mod_cast Nat.lt_mul_div_succ n (Nat.two_pow_pos k)
  have hsucc : size (n / 2 ^ k) (0 + k) < v → size (n / 2 ^ k + 1) (0 + k) ≤ v :=
    size_succ_le ⟨hhigh, by omega, by omega, .inr hlow⟩ hlow hv
  rcases hround with rfl | ⟨rfl, hlt⟩
  · refine ⟨fun hle => not_lt.1 fun hgt => ?_, fun hle => hbelow.trans hle⟩
    exact absurd (habove.trans_le (hsucc hgt)) (not_lt.2 hle)
  · have hcut : size (n / 2 ^ k) (0 + k) < n := by
      rw [size_natCast_exponent]
      exact_mod_cast hlt
    exact ⟨fun hle => hle.trans habove.le, fun hle => hsucc (hcut.trans_le hle)⟩

/-- A double is not above a whole number just when it is not above the double made from it, and the
same holds below. -/
theorem exists_value?_ofNat (hn : n < 2 ^ 64) : ∃ w, value? (ofNat n) = some w ∧
    ∀ {x v}, value? x = some v → (v ≤ n → v ≤ w) ∧ (n ≤ v → w ≤ v) := by
  rcases lt_or_ge n (2 ^ 53) with hsmall | hlarge
  · exact ⟨n, value?_ofNat hsmall, fun _ => ⟨id, id⟩⟩
  have hlog : n.log2 < 64 := (Nat.log2_lt (by omega)).2 hn
  have hfull : 2 ^ 52 ≤ n := by omega
  obtain ⟨m', q', hm', hr, hlow, hhigh, hle, hle', hsize⟩ :=
    roundWithAccuracy_full .positive hfull (show -1074 ≤ (0 : Int) by omega)
  have hw : value? (ofNat n) = some (size m' q') := by
    rw [ofNat_eq_round hlarge hn, hr, value?,
      parts_ofModel_pack (unpack_pack ⟨hhigh, by omega, by omega, .inr hlow⟩)]
    rfl
  exact ⟨_, hsize ▸ hw, fun hv => sides_of_rounded hfull hlog hv⟩

end Doubles

end Dwell.Double

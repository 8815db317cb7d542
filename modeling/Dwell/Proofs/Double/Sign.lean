import Dwell.Double.Numeral
import Dwell.Proofs.Double.Whole

/-!
# Doubles without a minus sign

Rounding keeps the sign of what it rounds, so products and quotients of doubles without a minus sign
have none either. A numeral that does not start with a minus sign denotes a double without one
(`isPlus_read?`), and a finite double without a minus sign is not negative (`nonneg_of_isPlus`).
-/

namespace Dwell.Double

open Float.Model (UnpackedFloat Format)
open Float.Model.UnpackedFloat (Sign)

/-- Not a number, or one whose sign is plus. -/
inductive IsPlus : UnpackedFloat → Prop
  | notANumber : IsPlus .notANumber
  | infinity : IsPlus (.infinity .positive)
  | zero : IsPlus (.zero .positive)
  | finite {m q} (hm) : IsPlus (.finite .positive m q hm)

section Operations

variable {u v : UnpackedFloat} {x y : Float}

theorem isPlus_roundWithAccuracy (m : Nat) (q : Int) (a : UnpackedFloat.Accuracy) :
    IsPlus (UnpackedFloat.roundWithAccuracy Format.binary64 .positive m q a) := by
  unfold UnpackedFloat.roundWithAccuracy
  dsimp only
  split
  · exact .zero
  · exact .finite _

theorem isPlus_mul (hu : IsPlus u) (hv : IsPlus v) :
    IsPlus (UnpackedFloat.mul Format.binary64 u v) := by
  cases hu <;> cases hv <;>
    first
    | exact .notANumber
    | exact .infinity
    | exact .zero
    | exact isPlus_roundWithAccuracy ..

theorem isPlus_div (hu : IsPlus u) (hv : IsPlus v) :
    IsPlus (UnpackedFloat.div Format.binary64 u v) := by
  cases hu <;> cases hv <;>
    first
    | exact .notANumber
    | exact .infinity
    | exact .zero
    | exact isPlus_roundWithAccuracy ..

theorem isPlus_unpack_packComponents (e : BitVec 11) (m : BitVec 52) :
    IsPlus (UnpackedFloat.unpack Format.binary64
      (UnpackedFloat.packComponents Format.binary64 .positive e m)) := by
  unfold UnpackedFloat.unpack
  simp only [UnpackedFloat.unpackExponent_packComponents,
    UnpackedFloat.unpackMantissa_packComponents, UnpackedFloat.unpackSign_packComponents,
    Sign.ofBitVec_toBitVec]
  split
  · split
    · exact .infinity
    · exact .notANumber
  split
  · split
    · exact .zero
    · exact .finite _
  · exact .finite _

/-- Packing keeps the sign, whatever it does to the mantissa. -/
theorem isPlus_unpack_pack (h : IsPlus u) :
    IsPlus (UnpackedFloat.unpack Format.binary64 (UnpackedFloat.pack Format.binary64 u)) := by
  cases h with
  | notANumber => exact isPlus_unpack_packComponents ..
  | infinity => exact isPlus_unpack_packComponents ..
  | zero => exact isPlus_unpack_packComponents ..
  | finite hm =>
    unfold UnpackedFloat.pack
    dsimp only
    split
    · exact isPlus_unpack_packComponents ..
    split <;> exact isPlus_unpack_packComponents ..

theorem isPlus_ofModel_pack (h : IsPlus u) :
    IsPlus (Float.ofModel (.pack u)).toModel.unpack :=
  isPlus_unpack_pack h

theorem isFinite_iff {x : Float} : x.isFinite = true ↔ ∃ a, value? x = some a := by
  change x.toModel.unpack.isFinite = true ↔ _
  rw [value?, parts_eq]
  cases x.toModel.unpack <;>
    simp [UnpackedFloat.isFinite, Parts.ofUnpacked, Parts.value?]

theorem isNaN_iff {x : Float} : x.isNaN = true ↔ parts x = .nan := by
  change x.toModel.unpack.isNaN = true ↔ _
  rw [parts_eq]
  cases x.toModel.unpack <;> simp [UnpackedFloat.isNaN, Parts.ofUnpacked]

/-- A finite double without a minus sign is not negative. -/
theorem nonneg_of_isPlus (h : IsPlus x.toModel.unpack) (hx : x.isFinite = true) : 0 ≤ x := by
  obtain ⟨a, ha⟩ := isFinite_iff.1 hx
  refine (le_iff value?_zero ha).2 ?_
  rcases unpack_of_value? ha with ⟨s, -, rfl⟩ | ⟨s, m, q, hm, hu, -, rfl⟩
  · exact le_rfl
  · rw [hu] at h
    cases h
    exact (size_pos hm).le

end Operations

section Decimal

/-- Whether parts have a minus sign. -/
def Parts.isNegative : Parts → Bool
  | .nan => false
  | .infinite negative => negative
  | .finite negative _ _ => negative

theorem isPlus_of_parts {x : Float} (h : (parts x).isNegative = false) :
    IsPlus x.toModel.unpack := by
  rw [parts_eq] at h
  rcases hu : x.toModel.unpack with s | _ | s | ⟨s, m, q, hm⟩ <;> rw [hu] at h
  · cases s with
    | negative => cases h
    | positive => exact .infinity
  · exact .notANumber
  · cases s with
    | negative => cases h
    | positive => exact .zero
  · cases s with
    | negative => cases h
    | positive => exact .finite hm

/-- The powers of ten that are doubles. -/
theorem isPlus_powersOfTen : ∀ x ∈ Float.exactlyRepresentablePowersOfTen,
    IsPlus x.toModel.unpack := by
  have h : ∀ x ∈ Float.exactlyRepresentablePowersOfTen.toList, (parts x).isNegative = false := by
    decide +kernel
  exact fun x hx => isPlus_of_parts (h x (Array.mem_toList_iff.2 hx))

theorem isPlus_toFloat (n : UInt64) : IsPlus n.toFloat.toModel.unpack := by
  refine isPlus_ofModel_pack (u := UnpackedFloat.ofUInt64 Format.binary64 n) ?_
  change IsPlus (UnpackedFloat.normalize Format.binary64 n.toNat 0 .positive)
  unfold UnpackedFloat.normalize
  rcases n.toNat.eq_zero_or_pos with h | h
  · rw [h]
    exact .zero
  · rw [compare_gt_iff_gt.2 (by exact_mod_cast h)]
    exact isPlus_roundWithAccuracy ..

theorem isPlus_ofScientific (m : Nat) (e : Int) :
    IsPlus (UnpackedFloat.ofScientific Format.binary64 m e) := by
  unfold UnpackedFloat.ofScientific
  split
  · exact .zero
  split
  · exact .infinity
  split
  · exact .zero
  split
  · exact isPlus_mul (.finite _) (.finite _)
  · exact isPlus_div (.finite _) (.finite _)

theorem isPlus_floatOfScientific (m : Nat) (s : Bool) (e : Nat) :
    IsPlus (Float.ofScientific m s e).toModel.unpack := by
  unfold Float.ofScientific
  split
  · have hten := fun (h : e < Float.exactlyRepresentablePowersOfTen.size) =>
      isPlus_powersOfTen Float.exactlyRepresentablePowersOfTen[e] (Array.getElem_mem h)
    dsimp only
    split
    · exact isPlus_ofModel_pack (isPlus_div (isPlus_toFloat _) (hten _))
    · exact isPlus_ofModel_pack (isPlus_mul (isPlus_toFloat _) (hten _))
  · exact isPlus_ofModel_pack (isPlus_ofScientific ..)

theorem isPlus_ofDecimal (m size : Nat) (e : Int) : IsPlus (ofDecimal m size e).toModel.unpack := by
  have hzero : IsPlus (0.0 : Float).toModel.unpack := isPlus_floatOfScientific ..
  unfold ofDecimal
  split
  · exact hzero
  split
  · exact isPlus_of_parts (by decide +kernel)
  split
  · exact hzero
  · exact isPlus_floatOfScientific ..

theorem exists_ofDecimal {s : List Char} {x : Float} (h : readDigits? s = some x) :
    ∃ m size e, ofDecimal m size e = x := by
  unfold readDigits? at h
  dsimp only at h
  split at h <;> split at h
  · cases h
  · obtain ⟨e, -, he⟩ := Option.map_eq_some_iff.1 h
    exact ⟨_, _, _, he⟩
  · cases h
  · obtain ⟨e, -, he⟩ := Option.map_eq_some_iff.1 h
    exact ⟨_, _, _, he⟩

/-- A numeral that does not start with a minus sign denotes a double without one. -/
theorem isPlus_read? {s : List Char} {x : Float} (hs : '-' ∉ s.head?) (hx : read? s = some x) :
    IsPlus x.toModel.unpack := by
  have hsign : (splitSign s).1 = false := by
    unfold splitSign
    split
    · exact absurd rfl hs
    · rfl
    · rfl
  rcases hsplit : splitSign s with ⟨negative, t⟩
  rw [hsplit] at hsign
  obtain rfl : negative = false := hsign
  simp only [read?, hsplit] at hx
  obtain ⟨y, hy, rfl⟩ := Option.map_eq_some_iff.1 hx
  rw [if_neg (by decide)]
  unfold readUnsigned? at hy
  dsimp only at hy
  split at hy
  · cases hy
    exact isPlus_of_parts (by decide +kernel)
  split at hy
  · cases hy
    exact isPlus_of_parts (by decide +kernel)
  obtain ⟨m, size, e, rfl⟩ := exists_ofDecimal hy
  exact isPlus_ofDecimal ..

end Decimal

end Dwell.Double

import Dwell.Proofs.Double.Rounding
import Dwell.Proofs.Double.Sign

/-!
# Products of doubles

A product of doubles is rounded, and its mantissa may be rounded up to one bit more than it has
(`roundedMantissa_eq_full_iff`). So a product that is not negative is finite if and only if it is
below the middle between the greatest double and the power of two behind it, and infinite otherwise
(`Cuts.value?_round`, `value?_mul`). A quotient by one is the dividend (`value?_div_one`).
-/

namespace Dwell.Double

open Float.Model (UnpackedFloat Format)
open Float.Model.UnpackedFloat (Sign)

section Rounding

variable {s : Sign} {m k : Nat} {q : Int}

/-- A mantissa is rounded up to one bit more than it has if it is cut within half a unit of it. -/
theorem roundedMantissa_eq_full_iff (hm : m < 2 ^ (53 + k)) :
    (cut m .exact k).roundedMantissa = 2 ^ 53 ↔ (2 ^ 54 - 1) * 2 ^ k ≤ 2 * m := by
  have hnearest : IsNearest ((m : ℚ) / 2 ^ k) (cut m .exact k).roundedMantissa :=
    ((represents_exact m).shiftRight k).isNearest
  have hpow : (0 : ℚ) < 2 ^ k := by positivity
  have hhalf : (2 ^ 54 - 1) * 2 ^ k ≤ 2 * m ↔ (2 ^ 53 - 1 / 2 : ℚ) ≤ m / 2 ^ k := by
    rw [le_div_iff₀ hpow, ← Nat.cast_le (α := ℚ)]
    push_cast
    constructor <;> intro h <;> linarith
  rw [hhalf]
  constructor
  · intro h
    rw [h] at hnearest
    exact_mod_cast hnearest.low
  · intro h
    have hlt : (m : ℚ) / 2 ^ k < 2 ^ 53 := by
      rw [div_lt_iff₀ hpow, ← pow_add]
      exact_mod_cast hm
    exact hnearest.unique
      ⟨by push_cast; exact h, by push_cast; linarith, .inl (by decide)⟩

/-- The middle between the greatest double and the power of two behind it: numbers below it are
rounded to doubles, the others to infinity. -/
def limit : ℚ :=
  2 ^ 1024 - 2 ^ 970

theorem limit_pos : 0 < limit :=
  sub_pos.2 (pow_lt_pow_right₀ (by norm_num) (by norm_num))

theorem size_eq_limit : size (2 ^ 54 - 1) 970 = limit := by
  have hcast : ((2 ^ 54 - 1 : ℕ) : ℚ) = 2 ^ 54 - 1 := by norm_num
  rw [size, limit, hcast, show 1024 = 54 + 970 from rfl, pow_add, zpow_ofNat, sub_mul, one_mul]

theorem size_le_size {a b : Nat} {p : Int} (h : a ≤ b) (hq : q ≤ p) : size a q ≤ size b p := by
  unfold size
  gcongr
  norm_num

theorem Cuts.size_lt_limit_iff (h : Cuts m q k) :
    size m q < limit ↔ q + k ≤ 970 ∨ q + k = 971 ∧ 2 * m < (2 ^ 54 - 1) * 2 ^ k := by
  have hlt : size m q < size (2 ^ 53) (q + k) := by
    rw [← size_mul_pow, ← pow_add]
    exact size_lt_size_iff_left.2 h.lt
  rcases lt_trichotomy (q + k) 971 with hq | hq | hq
  · have hle : size (2 ^ 53) (q + k) ≤ size (2 ^ 54 - 1) 970 :=
      size_le_size (by decide) (by omega)
    rw [size_eq_limit] at hle
    simp [hlt.trans_le hle, show q + k ≤ 970 by omega]
  · -- Both sides doubled are whole numbers of the same unit.
    have hdouble (a : ℕ) (p : ℤ) : size (a * 2 ^ 1) p = 2 * size a p := by
      unfold size
      push_cast
      ring
    have hlimit : size ((2 ^ 54 - 1) * 2 ^ k) q = 2 * limit := by
      rw [size_mul_pow, hq, ← size_eq_limit, ← hdouble, size_mul_pow]
      rfl
    have hiff : size m q < limit ↔ m * 2 ^ 1 < (2 ^ 54 - 1) * 2 ^ k := by
      rw [← size_lt_size_iff_left (q := q), hlimit, hdouble]
      exact (mul_lt_mul_iff_right₀ (by norm_num)).symm
    rw [hiff, hq]
    omega
  · have hfull := h.full (by omega)
    have hle : size (2 ^ 52) 972 ≤ size m q := by
      calc size (2 ^ 52) 972 ≤ size (2 ^ 52) (q + k) := size_le_size le_rfl (by omega)
        _ = size (2 ^ 52 * 2 ^ k) q := (size_mul_pow ..).symm
        _ ≤ size m q := size_le_size hfull le_rfl
    have hlimit : limit < size (2 ^ 52) 972 := by
      have hpow : size (2 ^ 52) 972 = 2 ^ 1024 := by
        rw [size, zpow_ofNat, Nat.cast_pow, Nat.cast_ofNat, ← pow_add]
      rw [hpow, limit]
      exact sub_lt_self _ (by positivity)
    simp only [not_lt.2 (hlimit.trans_le hle).le, false_iff]
    omega

theorem parts_pack_finite {hm : 0 < m} (h : Normal m q) :
    parts (.ofModel (.pack (.finite s m q hm))) = .finite (isMinus s) m q :=
  parts_ofModel_pack (unpack_pack h)

theorem parts_pack_overflow {hm : 0 < m} (hq : 971 < q) :
    parts (.ofModel (.pack (.finite s m q hm))) = .infinite (isMinus s) := by
  rw [parts_eq]
  exact congrArg Parts.ofUnpacked (unpack_pack_of_overflow hm hq)

/-- What is rounded becomes a double if it is below the limit, and infinite otherwise. -/
theorem Cuts.value?_round (h : Cuts m q k) : let x := Float.ofModel (.pack
      (UnpackedFloat.roundWithAccuracy Format.binary64 .positive m q .exact))
    (size m q < limit → ∃ v, 0 ≤ v ∧ value? x = some v) ∧
      (limit ≤ size m q → parts x = .infinite false) := by
  have hlimit := h.size_lt_limit_iff
  have hup := roundedMantissa_eq_full_iff h.lt
  have hfull := fun hq => h.le_rounded hq .exact
  have hleast := h.least
  have hvalue {a : Nat} {p : Int} {x : Float} (hp : parts x = .finite false a p) :
      ∃ v, 0 ≤ v ∧ value? x = some v :=
    ⟨size a p, by unfold size; positivity, by rw [value?, hp]; rfl⟩
  intro x
  have hx {u : UnpackedFloat} (he : UnpackedFloat.roundWithAccuracy Format.binary64 .positive m q
      .exact = u) : x = .ofModel (.pack u) := he ▸ rfl
  rw [← not_lt, hlimit]
  rcases h.roundWithAccuracy (s := .positive) .exact with ⟨hr, he⟩ | ⟨hr, hpos, he⟩ | ⟨hr, hpos, he⟩
  · -- Only what is at the least exponent is rounded to zero.
    have hp : parts x = .finite false 0 (-1074) := by
      rw [hx he, parts_ofModel_pack rfl]
      rfl
    refine ⟨fun _ => hvalue hp, fun hover => ?_⟩
    have := hfull (by omega)
    omega
  · by_cases hq : q + k ≤ 971
    · have hnormal : Normal _ (q + k) :=
        ⟨hr, hleast, hq, hleast.eq_or_lt.imp Eq.symm hfull⟩
      have hp := (congrArg parts (hx he)).trans (parts_pack_finite hnormal)
      refine ⟨fun _ => hvalue hp, fun hover => ?_⟩
      have := hup.2 (by omega)
      omega
    · have hp := (congrArg parts (hx he)).trans (parts_pack_overflow (by omega))
      exact ⟨fun hunder => by omega, fun _ => hp⟩
  · have hover := hup.1 hr
    by_cases hq : q + k ≤ 970
    · have hnormal : Normal (2 ^ 52) (q + k + 1) := ⟨by decide, by omega, by omega, .inr le_rfl⟩
      have hp := (congrArg parts (hx he)).trans (parts_pack_finite hnormal)
      exact ⟨fun _ => hvalue hp, fun h => by omega⟩
    · have hp := (congrArg parts (hx he)).trans (parts_pack_overflow (by omega))
      exact ⟨fun hunder => by omega, fun _ => hp⟩

end Rounding

section Operations

variable {x y : Float} {a : ℚ} {m n : Nat} {p q : Int}

/-- A double that is no negative number, in the form its arithmetic is defined on. -/
theorem unpack_of_nonneg (hx : value? x = some a) (ha : 0 ≤ a) :
    (∃ s, x.toModel.unpack = .zero s ∧ a = 0) ∨
      ∃ m q hm, x.toModel.unpack = .finite .positive m q hm ∧ Normal m q ∧ a = size m q := by
  rcases unpack_of_value? hx with h | ⟨s, m, q, hm, hu, hn, rfl⟩
  · exact .inl h
  · cases s with
    | negative =>
      have := size_pos (q := q) hm
      have hle : 0 ≤ -size m q := ha
      linarith
    | positive => exact .inr ⟨m, q, hm, hu, hn, rfl⟩

theorem unpack_of_finite (hm : 0 < m) (h : parts x = .finite false m q) :
    x.toModel.unpack = .finite .positive m q hm := by
  rw [parts_eq] at h
  rcases hu : x.toModel.unpack with s | _ | s | ⟨s, m', q', hm'⟩ <;> rw [hu] at h <;>
    simp only [Parts.ofUnpacked, reduceCtorEq, Parts.finite.injEq] at h
  · omega
  · obtain ⟨hs, rfl, rfl⟩ := h
    cases s with
    | negative => cases hs
    | positive => rfl

/-- A product with a number whose mantissa has all its bits is finite if it is below the limit, and
infinite otherwise. -/
theorem value?_mul (hx : value? x = some a) (ha : 0 ≤ a) (hy : parts y = .finite false n p)
    (hn : 2 ^ 52 ≤ n) :
    (a * size n p < limit → ∃ v, 0 ≤ v ∧ value? (x * y) = some v) ∧
      (limit ≤ a * size n p → parts (x * y) = .infinite false) := by
  have hmul : x * y = .ofModel (.pack
    (UnpackedFloat.mul Format.binary64 x.toModel.unpack y.toModel.unpack)) := rfl
  rw [unpack_of_finite (by omega) hy] at hmul
  rcases unpack_of_nonneg hx ha with ⟨s, hu, rfl⟩ | ⟨m, q, hm, hu, -, rfl⟩
  · have hzero : value? (x * y) = some 0 := by
      rw [hmul, hu, value?, UnpackedFloat.mul, parts_ofModel_pack (by cases s <;> rfl)]
      cases s <;> simp [Parts.ofUnpacked, Parts.value?, size_zero]
    exact ⟨fun _ => ⟨0, le_rfl, hzero⟩,
      fun h => absurd (h.trans_eq (zero_mul _)) (not_le.2 limit_pos)⟩
  · obtain ⟨k, hk⟩ := exists_cuts (m := m * n) (hn.trans (Nat.le_mul_of_pos_left n hm)) (q + p)
    have hround := hk.value?_round
    rw [size_mul_size]
    rw [hu] at hmul
    exact hmul ▸ hround

theorem unpack_one : (1.0 : Float).toModel.unpack = .finite .positive (2 ^ 52) (-52) (by decide) :=
  unpack_of_finite (by decide) (by decide +kernel)

/-- Dividing by one changes no number that is not negative, nor infinity. -/
theorem value?_div_one (hx : value? x = some a) (ha : 0 ≤ a) : value? (x / 1.0) = some a := by
  have hdiv : x / 1.0 = .ofModel (.pack
    (UnpackedFloat.div Format.binary64 x.toModel.unpack (1.0 : Float).toModel.unpack)) := rfl
  rw [unpack_one] at hdiv
  rcases unpack_of_nonneg hx ha with ⟨s, hu, rfl⟩ | ⟨m, q, hm, hu, hn, rfl⟩
  · rw [hdiv, hu, value?, UnpackedFloat.div, parts_ofModel_pack (by cases s <;> rfl)]
    cases s <;> simp [Parts.ofUnpacked, Parts.value?, size_zero]
  · have hone : size m q / size (2 ^ 52) (-52) = size m q := by
      norm_num [size]
    have hround : Rounds m q (size m q / size (2 ^ 52) (-52)) := by
      rw [hone]
      exact rounds_size m q
    rw [hdiv, hu, hround.div hn hm, value?]
    exact congrArg Parts.value? (parts_pack_finite hn)

theorem parts_div_one (hx : parts x = .infinite false) : parts (x / 1.0) = .infinite false := by
  have hdiv : x / 1.0 = .ofModel (.pack
    (UnpackedFloat.div Format.binary64 x.toModel.unpack (1.0 : Float).toModel.unpack)) := rfl
  rw [hdiv, unpack_one, unpack_of_infinite hx, UnpackedFloat.div, parts_ofModel_pack rfl]
  rfl

end Operations

end Dwell.Double

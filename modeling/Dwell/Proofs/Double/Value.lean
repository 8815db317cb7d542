import Dwell.Double.Parts
import Mathlib

/-!
# The number that a double is

The parts of a double are those of the form its arithmetic is defined on (`parts_eq`), and a finite
double is a rational number (`value?`). Two finite doubles compare as their numbers do (`lt_iff`,
`le_iff`, `beq_iff`), rounding up gives the ceiling (`ceil?_eq`), and a double is a whole number
exactly when its number is one (`toInt?_eq_some_iff`).
-/

namespace Dwell.Double

open Float.Model (UnpackedFloat Format)
open Float.Model.UnpackedFloat (Sign)

/-- Whether a sign is that of the numbers below zero. -/
def isMinus : Sign → Bool
  | .negative => true
  | .positive => false

/-- The parts of a double in the form its arithmetic is defined on. -/
def Parts.ofUnpacked : UnpackedFloat → Parts
  | .notANumber => .nan
  | .infinity s => .infinite (isMinus s)
  | .zero s => .finite (isMinus s) 0 (-1074)
  | .finite s m e _ => .finite (isMinus s) m e

section Bits

variable (b : BitVec 64)

theorem toNat_unpackExponent :
    (@UnpackedFloat.unpackExponent Format.binary64 b).toNat
      = b.toNat / hiddenBit % 2048 := by
  simp [UnpackedFloat.unpackExponent, BitVec.extractLsb, BitVec.extractLsb', hiddenBit,
    Nat.shiftRight_eq_div_pow]

theorem toNat_unpackMantissa :
    (@UnpackedFloat.unpackMantissa Format.binary64 b).toNat = b.toNat % hiddenBit := by
  simp [UnpackedFloat.unpackMantissa, BitVec.extractLsb, BitVec.extractLsb', hiddenBit]

theorem isMinus_unpackSign :
    isMinus (Sign.ofBitVec (@UnpackedFloat.unpackSign Format.binary64 b))
      = (b.toNat / 0x8000000000000000 % 2 == 1) := by
  have h : (@UnpackedFloat.unpackSign Format.binary64 b).toNat
      = b.toNat / 0x8000000000000000 % 2 := by
    simp [UnpackedFloat.unpackSign, BitVec.extractLsb, BitVec.extractLsb',
      Nat.shiftRight_eq_div_pow]
  rw [← h]
  generalize @UnpackedFloat.unpackSign Format.binary64 b = s
  revert s
  decide

theorem toNat_hidden_append (m : BitVec 52) : (1#1 ++ m).toNat = m.toNat + hiddenBit := by
  rw [BitVec.toNat_append, ← Nat.shiftLeft_add_eq_or_of_lt m.isLt]
  simp [hiddenBit]
  omega

theorem ofBits_eq_ofUnpacked :
    Parts.ofBits b.toNat = .ofUnpacked (UnpackedFloat.unpack Format.binary64 b) := by
  have h1 : @UnpackedFloat.unpackExponent Format.binary64 b = -1#_
      ↔ b.toNat / hiddenBit % 2048 = 2047 := by
    rw [← toNat_unpackExponent, ← BitVec.toNat_inj]; rfl
  have h2 : @UnpackedFloat.unpackExponent Format.binary64 b = 0#_
      ↔ b.toNat / hiddenBit % 2048 = 0 := by
    rw [← toNat_unpackExponent, ← BitVec.toNat_inj]; rfl
  have h3 : @UnpackedFloat.unpackMantissa Format.binary64 b = 0#_
      ↔ b.toNat % hiddenBit = 0 := by
    rw [← toNat_unpackMantissa, ← BitVec.toNat_inj]; rfl
  have hs := isMinus_unpackSign b
  unfold Parts.ofBits UnpackedFloat.unpack
  by_cases he : b.toNat / hiddenBit % 2048 = 2047
  · by_cases hm : b.toNat % hiddenBit = 0
    · simp only [if_pos he, if_pos hm, if_pos (h1.2 he), if_pos (h3.2 hm), Parts.ofUnpacked, hs]
    · simp only [if_pos he, if_neg hm, if_pos (h1.2 he), if_neg (h3.not.2 hm), Parts.ofUnpacked]
  by_cases he0 : b.toNat / hiddenBit % 2048 = 0
  · by_cases hm : b.toNat % hiddenBit = 0
    · simp only [if_neg he, if_pos he0, hm, if_neg (h1.not.2 he), if_pos (h2.2 he0),
        dif_pos (h3.2 hm), Parts.ofUnpacked, hs]
    · simp only [if_neg (h1.not.2 he), if_pos (h2.2 he0), dif_neg (h3.not.2 hm), Parts.ofUnpacked,
        hs, toNat_unpackMantissa, toNat_unpackExponent, he0]
      rfl
  · simp only [if_neg he, if_neg he0, if_neg (h1.not.2 he), if_neg (h2.not.2 he0),
      Parts.ofUnpacked, hs, toNat_hidden_append, toNat_unpackMantissa, toNat_unpackExponent]
    rfl

end Bits

theorem parts_eq (x : Float) : parts x = .ofUnpacked x.toModel.unpack :=
  ofBits_eq_ofUnpacked x.toModel.toBits.toBitVec

/-- The mantissa and the exponent of a finite double: the mantissa has 53 bits, or fewer where
the exponent is the least. -/
structure Normal (m : Nat) (q : Int) : Prop where
  lt : m < 2 ^ 53
  least : -1074 ≤ q
  greatest : q ≤ 971
  full : q = -1074 ∨ 2 ^ 52 ≤ m

theorem normal_of_parts {x : Float} {s : Bool} {m : Nat} {q : Int}
    (h : parts x = .finite s m q) : Normal m q := by
  unfold parts Parts.ofBits at h
  dsimp only at h
  split at h
  · split at h <;> simp at h
  split at h <;> simp only [Parts.finite.injEq] at h <;> obtain ⟨-, rfl, rfl⟩ := h
  · exact ⟨by unfold hiddenBit; omega, by omega, by omega, .inl rfl⟩
  · exact ⟨by unfold hiddenBit; omega, by omega, by omega, .inr (by unfold hiddenBit; omega)⟩

/-- The size of a number with a mantissa and an exponent. -/
def size (m : Nat) (q : Int) : ℚ :=
  m * 2 ^ q

section Size

variable {m n : Nat} {p q : Int}

theorem size_pos (h : 0 < m) : 0 < size m q := by
  unfold size; positivity

theorem size_zero (q : Int) : size 0 q = 0 := by
  simp [size]

theorem size_lt_size_iff_left : size m q < size n q ↔ m < n := by
  unfold size
  rw [mul_lt_mul_iff_left₀ (by positivity), Nat.cast_lt]

/-- With a greater exponent the number is greater, too. -/
theorem size_lt_size (hm : Normal m p) (hn : Normal n q) (h : p < q) : size m p < size n q := by
  have hfull : 2 ^ 52 ≤ n := hn.full.resolve_left (by have := hm.least; omega)
  have hm' : (m : ℚ) < 2 ^ 53 := by exact_mod_cast hm.lt
  have hn' : (2 : ℚ) ^ 52 ≤ n := by exact_mod_cast hfull
  calc size m p < 2 ^ 53 * 2 ^ p := by
        unfold size; gcongr
    _ = 2 ^ 52 * 2 ^ (p + 1) := by
        rw [zpow_add₀ (by norm_num)]; ring
    _ ≤ n * 2 ^ q := by
        gcongr
        · norm_num
        · exact Int.add_one_le_iff.2 h

theorem compare_size (hm : Normal m p) (hn : Normal n q) :
    (compare p q).then (compare m n) = compare (size m p) (size n q) := by
  rcases lt_trichotomy p q with h | rfl | h
  · rw [compare_lt_iff_lt.2 h, compare_lt_iff_lt.2 (size_lt_size hm hn h)]
    rfl
  · rw [compare_eq_iff_eq.2 rfl, Ordering.eq_then]
    rcases lt_trichotomy m n with h | rfl | h
    · rw [compare_lt_iff_lt.2 h, compare_lt_iff_lt.2 (size_lt_size_iff_left.2 h)]
    · rw [compare_eq_iff_eq.2 rfl, compare_eq_iff_eq.2 rfl]
    · rw [compare_gt_iff_gt.2 h, compare_gt_iff_gt.2 (size_lt_size_iff_left.2 h)]
  · rw [compare_gt_iff_gt.2 h, compare_gt_iff_gt.2 (size_lt_size hn hm h)]
    rfl

end Size

/-- The number that parts stand for, if they stand for one. -/
def Parts.value? : Parts → Option ℚ
  | .finite negative m q => some (if negative then -size m q else size m q)
  | _ => none

/-- The number that a double is. -/
def value? (x : Float) : Option ℚ :=
  (parts x).value?

section Order

variable {x y : Float} {a b : ℚ}

theorem exists_parts (h : value? x = some a) :
    ∃ s m q, parts x = .finite s m q ∧ a = if s then -size m q else size m q := by
  unfold value? Parts.value? at h
  split at h
  · rename_i s m q hp
    exact ⟨s, m, q, hp, (Option.some.inj h).symm⟩
  · simp at h

theorem compare_neg (a b : ℚ) : compare (-a) (-b) = (compare a b).swap := by
  rcases lt_trichotomy a b with h | rfl | h
  · rw [compare_lt_iff_lt.2 h, compare_gt_iff_gt.2 (neg_lt_neg h)]; rfl
  · rw [compare_eq_iff_eq.2 rfl, compare_eq_iff_eq.2 rfl]; rfl
  · rw [compare_gt_iff_gt.2 h, compare_lt_iff_lt.2 (neg_lt_neg h)]; rfl

/-- A finite double in the form its arithmetic is defined on. -/
theorem unpack_of_value? (h : value? x = some a) :
    (∃ s, x.toModel.unpack = .zero s ∧ a = 0)
      ∨ ∃ s m q hm, x.toModel.unpack = .finite s m q hm ∧ Normal m q
        ∧ a = if isMinus s then -size m q else size m q := by
  obtain ⟨s, m, q, hp, ha⟩ := exists_parts h
  have hn := normal_of_parts hp
  rw [parts_eq] at hp
  rcases hu : x.toModel.unpack with s' | _ | s' | ⟨s', m', q', hm⟩ <;> rw [hu] at hp <;>
    simp only [Parts.ofUnpacked, Parts.finite.injEq, reduceCtorEq] at hp <;>
    obtain ⟨rfl, rfl, rfl⟩ := hp
  · exact .inl ⟨s', rfl, by simpa [size_zero] using ha⟩
  · exact .inr ⟨s', _, _, hm, rfl, hn, ha⟩

theorem compare_unpack (hx : value? x = some a) (hy : value? y = some b) :
    x.toModel.unpack.compare y.toModel.unpack = some (compare a b) := by
  rcases unpack_of_value? hx with ⟨s, hu, rfl⟩ | ⟨s, m, q, hm, hu, hn, rfl⟩ <;>
    rcases unpack_of_value? hy with ⟨s', hu', rfl⟩ | ⟨s', m', q', hm', hu', hn', rfl⟩ <;>
    rw [hu, hu']
  · rw [compare_eq_iff_eq.2 rfl]; rfl
  · have := size_pos (q := q') hm'
    cases s'
    · exact congrArg some (compare_gt_iff_gt.2 (by simpa [isMinus] using this)).symm
    · exact congrArg some (compare_lt_iff_lt.2 (by simpa [isMinus] using this)).symm
  · have := size_pos (q := q) hm
    cases s
    · exact congrArg some (compare_lt_iff_lt.2 (by simpa [isMinus] using this)).symm
    · exact congrArg some (compare_gt_iff_gt.2 (by simpa [isMinus] using this)).symm
  · have h := size_pos (q := q) hm
    have h' := size_pos (q := q') hm'
    cases s <;> cases s' <;> simp only [isMinus, if_true, Bool.false_eq_true, if_false]
    · rw [compare_neg, ← compare_size hn hn']; rfl
    · exact congrArg some (compare_lt_iff_lt.2 (by linarith)).symm
    · exact congrArg some (compare_gt_iff_gt.2 (by linarith)).symm
    · rw [← compare_size hn hn']; rfl

theorem lt_iff (hx : value? x = some a) (hy : value? y = some b) : x < y ↔ a < b := by
  change decide (x.toModel < y.toModel) = true ↔ _
  rw [decide_eq_true_iff]
  change UnpackedFloat.lt _ _ = true ↔ _
  rw [UnpackedFloat.lt, compare_unpack hx hy, ← compare_lt_iff_lt]
  cases compare a b <;> decide

theorem le_iff (hx : value? x = some a) (hy : value? y = some b) : x ≤ y ↔ a ≤ b := by
  change decide (x.toModel ≤ y.toModel) = true ↔ _
  rw [decide_eq_true_iff]
  change UnpackedFloat.le _ _ = true ↔ _
  rw [UnpackedFloat.le, compare_unpack hx hy, ← compare_le_iff_le]
  cases compare a b <;> decide

theorem beq_iff (hx : value? x = some a) (hy : value? y = some b) : (x == y) = true ↔ a = b := by
  change UnpackedFloat.beq _ _ = true ↔ _
  rw [UnpackedFloat.beq, compare_unpack hx hy, ← compare_eq_iff_eq (a := a)]
  cases compare a b <;> decide

end Order

section Whole

variable {x : Float} {v : ℚ}

theorem size_negSucc (m e : Nat) : size m (.negSucc e) = (m : ℚ) / (2 ^ (e + 1) : ℕ) := by
  rw [size, zpow_negSucc, div_eq_mul_inv]
  push_cast
  rfl

theorem floor_size (m : Nat) (q : Int) : ⌊size m q⌋ = wholePart m q := by
  cases q with
  | ofNat e =>
    have : size m (.ofNat e) = ((m * 2 ^ e : ℕ) : ℤ) := by
      simp [size]
    rw [this, Int.floor_intCast]; rfl
  | negSucc e => rw [size_negSucc, Rat.floor_natCast_div_natCast]; rfl

theorem isWhole_iff (m : Nat) (q : Int) : isWhole m q = true ↔ size m q = wholePart m q := by
  cases q with
  | ofNat e => simp [isWhole, wholePart, size]
  | negSucc e =>
    have hp : (0 : ℚ) < (2 ^ (e + 1) : ℕ) := by positivity
    rw [size_negSucc, div_eq_iff hp.ne', isWhole, wholePart, beq_iff_eq]
    have hd := Nat.div_add_mod m (2 ^ (e + 1))
    norm_cast
    change m % 2 ^ (e + 1) = 0 ↔ m = m / 2 ^ (e + 1) * 2 ^ (e + 1)
    rw [mul_comm]
    omega

theorem ceil_size (m : Nat) (q : Int) :
    ⌈size m q⌉ = if isWhole m q then (wholePart m q : Int) else wholePart m q + 1 := by
  split
  · rename_i h
    rw [(isWhole_iff m q).1 h]
    exact Int.ceil_natCast _
  · rename_i h
    rw [isWhole_iff] at h
    rw [← floor_size, Int.ceil_eq_iff]
    refine ⟨?_, ?_⟩
    · push_cast
      have := Int.floor_le (size m q)
      rw [floor_size] at this ⊢
      exact lt_of_le_of_ne (by linarith) (by push_cast; intro h'; exact h (by linarith))
    · push_cast
      exact (Int.lt_floor_add_one _).le

theorem ceil?_eq (h : value? x = some v) : ceil? x = some ⌈v⌉ := by
  obtain ⟨s, m, q, hp, rfl⟩ := exists_parts h
  unfold ceil?
  cases s <;> simp only [hp, Bool.false_eq_true, if_false, if_true]
  · rw [ceil_size]
  · rw [Int.ceil_neg, floor_size]

theorem isWhole_of_size_eq {m : Nat} {q n : Int} (h : size m q = n) : isWhole m q = true := by
  rw [isWhole_iff, ← Int.cast_natCast, ← floor_size, h, Int.floor_intCast]

theorem toInt?_eq_some_iff {n : Int} : toInt? x = some n ↔ value? x = some (n : ℚ) := by
  constructor
  · intro h
    unfold toInt? at h
    split at h
    · rename_i s m q hp
      split at h
      · rename_i hw
        rw [isWhole_iff] at hw
        simp only [value?, hp, Parts.value?, hw]
        rw [← Option.some.inj h]
        cases s <;> simp
      · simp at h
    · simp at h
  · intro h
    obtain ⟨s, m, q, hp, hv⟩ := exists_parts h
    have hw : size m q = ((if s then -n else n : Int) : ℚ) := by
      cases s <;> simp only [Bool.false_eq_true, if_false, if_true] at hv ⊢
      · exact hv.symm
      · push_cast; linarith
    have hf := floor_size m q
    rw [hw, Int.floor_intCast] at hf
    unfold toInt?
    simp only [hp, isWhole_of_size_eq hw, if_true, Option.some.injEq, ← hf]
    cases s <;> simp

end Whole

end Dwell.Double

import Dwell.Proofs.Double.Large

/-!
# How doubles are rounded

A mantissa that was cut down stands, with what is known of the bits that were cut off, for a
rational number (`Represents`), and it is rounded to the whole number nearest to that, the even one
of two (`Represents.isNearest`). So a number is rounded to a double if it is nearer to it than to the next
ones, and also in the middle if the double's mantissa is even (`Rounds.roundWithAccuracy`).
-/

namespace Dwell.Double

open Float.Model (UnpackedFloat Format)
open Float.Model.UnpackedFloat (Sign ExtendedMantissa Accuracy)

section Mantissa

variable {em : ExtendedMantissa} {r : ℚ} {m n : Nat}

/-- A number of which the mantissa is the whole part: the bits say whether it is that, and on which
side of the middle to the next one it is otherwise. -/
def Represents : ExtendedMantissa → ℚ → Prop
  | ⟨m, false, false⟩, r => r = m
  | ⟨m, false, true⟩, r => m < r ∧ r < m + 1 / 2
  | ⟨m, true, false⟩, r => r = m + 1 / 2
  | ⟨m, true, true⟩, r => m + 1 / 2 < r ∧ r < m + 1

/-- The whole number nearest to a number, the even one of two. -/
structure IsNearest (r : ℚ) (m : Nat) : Prop where
  low : m - 1 / 2 ≤ r
  high : r ≤ m + 1 / 2
  even : m % 2 = 0 ∨ m - 1 / 2 < r ∧ r < m + 1 / 2

theorem isNearest_of_lt (hlow : m - 1 / 2 < r) (hhigh : r < m + 1 / 2) : IsNearest r m :=
  ⟨hlow.le, hhigh.le, .inr ⟨hlow, hhigh⟩⟩

theorem Represents.isNearest (h : Represents em r) : IsNearest r em.roundedMantissa := by
  obtain ⟨m, round, sticky⟩ := em
  cases round <;> cases sticky <;> simp only [Represents] at h <;>
    simp only [ExtendedMantissa.roundedMantissa, ExtendedMantissa.accuracy,
      Accuracy.roundToNearestEven]
  · exact isNearest_of_lt (by linarith) (by linarith)
  · exact isNearest_of_lt (by linarith) (by linarith)
  · rcases Nat.mod_two_eq_zero_or_one m with hm | hm <;> rw [hm]
    · exact ⟨by push_cast; linarith, by push_cast; linarith, .inl hm⟩
    · exact ⟨by push_cast; linarith, by push_cast; linarith, .inl (by omega)⟩
  · exact isNearest_of_lt (by push_cast; linarith) (by push_cast; linarith)

theorem IsNearest.unique (hm : IsNearest r m) (hn : IsNearest r n) : m = n := by
  wlog hlt : m < n generalizing m n
  · rcases (not_lt.1 hlt).eq_or_lt with h | h
    · exact h.symm
    · exact (this hn hm h).symm
  have hsucc : (m : ℚ) + 1 ≤ n := by exact_mod_cast hlt
  have hlow := hn.low
  have hhigh := hm.high
  have hnext : n = m + 1 := by
    have : (n : ℚ) ≤ m + 1 := by linarith
    exact le_antisymm (by exact_mod_cast this) hlt
  rcases hm.even with h | h
  · rcases hn.even with h' | h'
    · omega
    · linarith
  · linarith

theorem Represents.shiftRightOne (h : Represents em r) :
    Represents em.shiftRightOne (r / 2) := by
  obtain ⟨m, round, sticky⟩ := em
  have hhalf : (m : ℚ) = 2 * (m / 2 : ℕ) + (m % 2 : ℕ) := by
    exact_mod_cast (Nat.div_add_mod m 2).symm
  unfold ExtendedMantissa.shiftRightOne
  rcases Nat.mod_two_eq_zero_or_one m with hm | hm <;> rw [hm] at hhalf ⊢ <;>
    cases round <;> cases sticky <;> simp [Represents] at h hhalf ⊢ <;>
    first
    | linarith
    | constructor <;> linarith

theorem Represents.shiftRight (h : Represents em r) : ∀ k : Nat,
    Represents (em >>> k) (r / 2 ^ k)
  | 0 => by simpa [HShiftRight.hShiftRight, Nat.repeat] using h
  | k + 1 => by
    have := (h.shiftRight k).shiftRightOne
    rwa [div_div, ← pow_succ] at this

theorem represents_exact (m : Nat) : Represents (.ofMantissaAndAccuracy m .exact) m := rfl

/-- A quotient without its fraction, and what the fraction is. -/
theorem represents_fraction (num : Nat) {den : Nat} (hden : 0 < den) :
    Represents (.ofMantissaAndAccuracy (num / den)
      (UnpackedFloat.accuracyOfFraction (num % den) den)) ((num : ℚ) / den) := by
  have hden' : (0 : ℚ) < den := by exact_mod_cast hden
  have hlt : ((num % den : ℕ) : ℚ) < den := by exact_mod_cast Nat.mod_lt num hden
  have hdiv : (num : ℚ) / den = (num / den : ℕ) + (num % den : ℕ) / den := by
    have hnum : (num : ℚ) = den * (num / den : ℕ) + (num % den : ℕ) := by
      exact_mod_cast (Nat.div_add_mod num den).symm
    rw [div_eq_iff hden'.ne', add_mul, div_mul_cancel₀ _ hden'.ne', mul_comm]
    exact hnum
  rw [hdiv]
  generalize num / den = a
  generalize num % den = b at *
  unfold UnpackedFloat.accuracyOfFraction
  split
  · rename_i hb
    simp [hb, ExtendedMantissa.ofMantissaAndAccuracy, Represents]
  · rename_i hb
    have hpos : (0 : ℚ) < b := by exact_mod_cast Nat.pos_of_ne_zero hb
    rcases lt_trichotomy (2 * b) den with h | h | h
    · rw [compare_lt_iff_lt.2 h]
      have h' : (2 : ℚ) * b < den := by exact_mod_cast h
      have : (b : ℚ) / den < 1 / 2 := by
        rw [div_lt_div_iff₀ hden' (by norm_num)]
        linarith
      exact ⟨by linarith [div_pos hpos hden'], by linarith⟩
    · rw [compare_eq_iff_eq.2 h]
      have h' : (2 : ℚ) * b = den := by exact_mod_cast h
      have : (b : ℚ) / den = 1 / 2 := by
        rw [div_eq_div_iff hden'.ne' (by norm_num)]
        linarith
      exact congrArg _ this
    · rw [compare_gt_iff_gt.2 h]
      have h' : (den : ℚ) < 2 * b := by exact_mod_cast h
      have hhalf : 1 / 2 < (b : ℚ) / den := by
        rw [div_lt_div_iff₀ (by norm_num) hden']
        linarith
      have hone : (b : ℚ) / den < 1 := (div_lt_one hden').2 hlt
      exact ⟨by linarith, by linarith⟩

theorem Represents.floor (h : Represents em r) : em.mantissa ≤ r ∧ r < em.mantissa + 1 := by
  obtain ⟨m, round, sticky⟩ := em
  cases round <;> cases sticky <;> simp only [Represents] at h ⊢ <;> constructor <;> linarith

end Mantissa

section Cut

variable {s : Sign} {m k : Nat} {q : Int} {a : Accuracy}

/-- A mantissa from which some bits are cut off. -/
def cut (m : Nat) (a : Accuracy) (k : Nat) : ExtendedMantissa :=
  ExtendedMantissa.ofMantissaAndAccuracy m a >>> k

theorem mantissa_ofMantissaAndAccuracy (m : Nat) (a : Accuracy) :
    (ExtendedMantissa.ofMantissaAndAccuracy m a).mantissa = m := by
  rcases a with _ | o
  · rfl
  · cases o <;> rfl

theorem mantissa_cut (m : Nat) (a : Accuracy) (k : Nat) : (cut m a k).mantissa = m / 2 ^ k := by
  rw [cut, mantissa_shiftRight, mantissa_ofMantissaAndAccuracy]

/-- The least exponent at which a mantissa has no more than 53 bits. -/
theorem targetExponent_total (m : Nat) (q : Int) :
    Format.binary64.targetExponent (Float.Model.totalExponent m q)
      = max (m.log2 + q - 52) (-1074) := by
  have hmin : Format.binary64.minExponent = -1074 := rfl
  have hbits : (Format.binary64.mantissaBits : Int) = 53 := rfl
  rw [Format.targetExponent, Float.Model.totalExponent, hmin, hbits]
  omega

/-- At the exponent `q + k` the mantissa has no more than its bits, and no exponent below does. -/
def Cuts (m : Nat) (q : Int) (k : Nat) : Prop :=
  max (m.log2 + q - 52) (-1074) = q + k

theorem exists_cuts (hm : 2 ^ 52 ≤ m) (q : Int) : ∃ k, Cuts m q k := by
  have hlog := le_log2 hm
  refine ⟨(max (m.log2 + q - 52) (-1074) - q).toNat, ?_⟩
  unfold Cuts
  omega

theorem Cuts.shiftToTargetExponent (h : Cuts m q k) (a : Accuracy) :
    UnpackedFloat.shiftToTargetExponent Format.binary64 m q a = (cut m a k, q + k) := by
  have hshift : (max (m.log2 + q - 52) (-1074) - q).toNat = k := by
    rw [h]
    omega
  simp only [UnpackedFloat.shiftToTargetExponent, UnpackedFloat.shiftToExponent,
    targetExponent_total, hshift, cut]

theorem Cuts.lt (h : Cuts m q k) : m < 2 ^ (53 + k) := by
  unfold Cuts at h
  calc m < 2 ^ (m.log2 + 1) := Nat.lt_log2_self
    _ ≤ 2 ^ (53 + k) := Nat.pow_le_pow_right (by decide) (by omega)

theorem Cuts.full (h : Cuts m q k) (hq : -1074 < q + k) : 2 ^ 52 * 2 ^ k ≤ m := by
  unfold Cuts at h
  have hlog : m.log2 = 52 + k := by omega
  have hm : m ≠ 0 := by
    rintro rfl
    rw [Nat.log2_zero] at hlog
    omega
  rw [← pow_add, ← hlog]
  exact Nat.log2_self_le hm

theorem Cuts.least (h : Cuts m q k) : -1074 ≤ q + k := by
  unfold Cuts at h
  omega

theorem Cuts.le_rounded (h : Cuts m q k) (hq : -1074 < q + k) (a : Accuracy) :
    2 ^ 52 ≤ (cut m a k).roundedMantissa := by
  have hle := (roundedMantissa_bounds (cut m a k)).1
  rw [mantissa_cut] at hle
  exact ((Nat.le_div_iff_mul_le (by positivity)).2 (h.full hq)).trans hle

theorem Cuts.rounded_le (h : Cuts m q k) (a : Accuracy) :
    (cut m a k).roundedMantissa ≤ 2 ^ 53 := by
  have hle := (roundedMantissa_bounds (cut m a k)).2
  have hlt : m / 2 ^ k < 2 ^ 53 := by
    rw [Nat.div_lt_iff_lt_mul (by positivity), ← pow_add]
    exact h.lt
  rw [mantissa_cut] at hle
  omega

/-- What is rounded keeps the exponent that it was cut down to, unless its mantissa was rounded up
to one bit more. -/
theorem Cuts.roundWithAccuracy (h : Cuts m q k) (a : Accuracy) :
    let r := (cut m a k).roundedMantissa
    let rounded := UnpackedFloat.roundWithAccuracy Format.binary64 s m q a
    (r = 0 ∧ rounded = .zero s) ∨
      (r < 2 ^ 53 ∧ ∃ hr, rounded = .finite s r (q + k) hr) ∨
      (r = 2 ^ 53 ∧ ∃ hr, rounded = .finite s (2 ^ 52) (q + k + 1) hr) := by
  have hle := h.rounded_le a
  have hfull := fun hq => h.le_rounded hq a
  have hleast := h.least
  intro r rounded
  have hrounded : rounded = UnpackedFloat.roundWithAccuracy Format.binary64 s m q a := rfl
  unfold UnpackedFloat.roundWithAccuracy at hrounded
  simp only [h.shiftToTargetExponent] at hrounded
  change r ≤ 2 ^ 53 at hle
  change _ → 2 ^ 52 ≤ r at hfull
  rcases hle.lt_or_eq with hlt | heq
  · have hcuts : Cuts r (q + k) 0 := by
      have hlog : r.log2 ≤ 52 := by
        rcases Nat.eq_zero_or_pos r with h₀ | hpos
        · rw [h₀, Nat.log2_zero]
          omega
        · have := (Nat.log2_lt hpos.ne').2 hlt
          omega
      have hlog' : 2 ^ 52 ≤ r → 52 ≤ r.log2 := le_log2
      unfold Cuts
      omega
    have hsecond : UnpackedFloat.shiftToTargetExponent Format.binary64 r (q + k) .exact
        = (⟨r, false, false⟩, q + k) := by
      rw [hcuts.shiftToTargetExponent, Nat.cast_zero, add_zero]
      rfl
    simp only [r, hsecond] at hrounded
    by_cases hr : r = 0
    · exact .inl ⟨hr, by rw [hrounded, dif_pos hr]⟩
    · exact .inr (.inl ⟨hlt, Nat.pos_of_ne_zero hr, by rw [hrounded, dif_neg hr]⟩)
  · have hcuts : Cuts r (q + k) 1 := by
      unfold Cuts
      rw [heq, Nat.log2_two_pow]
      omega
    have hsecond : UnpackedFloat.shiftToTargetExponent Format.binary64 r (q + k) .exact
        = (⟨2 ^ 52, false, false⟩, q + k + 1) := by
      rw [hcuts.shiftToTargetExponent, heq]
      rfl
    simp only [r, hsecond] at hrounded
    exact .inr (.inr ⟨heq, by decide, by rw [hrounded, dif_neg (by decide)]⟩)

end Cut

section Rounds

variable {s : Sign} {m n k : Nat} {q e : Int} {a : Accuracy} {v r : ℚ}

/-- How far below a double with some mantissa and exponent the middle to the next one lies, in units
of the last bit. Below a power of two doubles are twice as close. -/
def halfGap (m : Nat) (q : Int) : ℚ :=
  if m = 2 ^ 52 ∧ q ≠ -1074 then 1 / 4 else 1 / 2

/-- The number is nearer to the double with a mantissa and an exponent than to others; in the middle
between two the mantissa must be even. -/
structure Rounds (m : Nat) (q : Int) (v : ℚ) : Prop where
  low : (m - halfGap m q) * 2 ^ q ≤ v
  high : v ≤ (m + 1 / 2) * 2 ^ q
  even : m % 2 = 0 ∨ (m - halfGap m q) * 2 ^ q < v ∧ v < (m + 1 / 2) * 2 ^ q

theorem halfGap_le (m : Nat) (q : Int) : halfGap m q ≤ 1 / 2 := by
  unfold halfGap
  split <;> norm_num

theorem halfGap_pos (m : Nat) (q : Int) : 0 < halfGap m q := by
  unfold halfGap
  split <;> norm_num

/-- A double is nearest to itself. -/
theorem rounds_size (m : Nat) (q : Int) : Rounds m q (size m q) := by
  have hpow : (0 : ℚ) < 2 ^ q := by positivity
  have hgap := halfGap_pos m q
  have hlow : (m - halfGap m q) * 2 ^ q < size m q :=
    mul_lt_mul_of_pos_right (by linarith) hpow
  have hhigh : size m q < (m + 1 / 2) * 2 ^ q := mul_lt_mul_of_pos_right (by linarith) hpow
  exact ⟨hlow.le, hhigh.le, .inr ⟨hlow, hhigh⟩⟩

/-- At the exponent of its double, a number is rounded to the double's mantissa. -/
theorem Rounds.isNearest (h : Rounds m q (r * 2 ^ q)) : IsNearest r m := by
  have hpow : (0 : ℚ) < 2 ^ q := by positivity
  have hgap := halfGap_le m q
  have hlow := le_of_mul_le_mul_right h.low hpow
  have hhigh := le_of_mul_le_mul_right h.high hpow
  refine ⟨by linarith, hhigh, h.even.imp id fun ⟨hlt, hgt⟩ => ?_⟩
  have hlt := lt_of_mul_lt_mul_right hlt hpow.le
  exact ⟨by linarith, lt_of_mul_lt_mul_right hgt hpow.le⟩

/-- A number below the exponent of its double is rounded up to the power of two above it. -/
theorem Rounds.isNearest_below (h : Rounds m q (r * 2 ^ (q - 1))) (hn : Normal m q)
    (hq : -1074 < q) (hr : r < 2 ^ 53) : m = 2 ^ 52 ∧ IsNearest r (2 ^ 53) := by
  have hpow : (0 : ℚ) < 2 ^ (q - 1) := by positivity
  have hdouble : (2 : ℚ) ^ q = 2 * 2 ^ (q - 1) := by
    rw [← zpow_one_add₀ (by norm_num), add_sub_cancel]
  have hlow := h.low
  rw [hdouble, ← mul_assoc] at hlow
  have hlow := le_of_mul_le_mul_right hlow hpow
  have hgap := halfGap_le m q
  have hfull : 2 ^ 52 ≤ m := hn.full.resolve_left (by omega)
  have hm : m = 2 ^ 52 := by
    have : (m : ℚ) < (2 ^ 52 + 1 : ℕ) := by
      push_cast
      linarith
    have : m < 2 ^ 52 + 1 := by exact_mod_cast this
    omega
  have hquarter : halfGap m q = 1 / 4 := if_pos ⟨hm, by omega⟩
  rw [hquarter, hm] at hlow
  push_cast at hlow
  exact ⟨hm, by push_cast; linarith, by push_cast; linarith, .inl (by decide)⟩

/-- Cutting a mantissa down to its bits leaves a number of the size that 53 bits have. -/
theorem Represents.cut_bounds (h : Represents (.ofMantissaAndAccuracy n a) r) (hcuts : Cuts n e k) :
    r / 2 ^ k < 2 ^ 53 ∧ (-1074 < e + k → 2 ^ 52 ≤ r / 2 ^ k) := by
  have hpow : (0 : ℚ) < 2 ^ k := by positivity
  obtain ⟨hlow, hhigh⟩ := h.floor
  rw [mantissa_ofMantissaAndAccuracy] at hlow hhigh
  constructor
  · have hlt : ((n + 1 : ℕ) : ℚ) ≤ (2 ^ (53 + k) : ℕ) := by exact_mod_cast hcuts.lt
    push_cast at hlt
    rw [div_lt_iff₀ hpow, ← pow_add]
    linarith
  · intro hq
    have hle : ((2 ^ 52 * 2 ^ k : ℕ) : ℚ) ≤ n := by exact_mod_cast hcuts.full hq
    push_cast at hle
    rw [le_div_iff₀ hpow]
    linarith

/-- Cut down to its bits, a number has the exponent of its double, or one less. -/
theorem Rounds.exponent_eq {p : Int} (h : Rounds m q (r * 2 ^ p)) (hn : Normal m q)
    (hp : -1074 ≤ p) (hlt : r < 2 ^ 53) (hfull : -1074 < p → 2 ^ 52 ≤ r) :
    p = q ∨ p = q - 1 := by
  have hpow : (0 : ℚ) < 2 ^ q := by positivity
  have hnot_above : ¬ q < p := fun hq => by
    have hm : ((m + 1 : ℕ) : ℚ) ≤ (2 ^ 53 : ℕ) := by exact_mod_cast hn.lt
    push_cast at hm
    have hleast := hn.least
    have hr := hfull (by omega)
    have hle : 2 ^ 53 * (2 : ℚ) ^ q ≤ r * 2 ^ p := by
      calc 2 ^ 53 * (2 : ℚ) ^ q = 2 ^ 52 * 2 ^ (q + 1) := by
            rw [zpow_add₀ (by norm_num)]
            ring
        _ ≤ r * 2 ^ p := by
            gcongr
            · linarith
            · exact hq
    have := le_of_mul_le_mul_right (hle.trans h.high) hpow
    linarith
  have hnot_below : ¬ p ≤ q - 2 := fun hq => by
    have hm : ((2 ^ 52 : ℕ) : ℚ) ≤ m := by exact_mod_cast hn.full.resolve_left (by omega)
    push_cast at hm
    have hgap := halfGap_le m q
    have hle : r * 2 ^ p ≤ 2 ^ 51 * (2 : ℚ) ^ q := by
      calc r * 2 ^ p ≤ 2 ^ 53 * 2 ^ (q - 2) := by
            gcongr
            norm_num
        _ = 2 ^ 51 * (2 : ℚ) ^ q := by
            rw [zpow_sub₀ (by norm_num)]
            norm_num
            ring
    have := le_of_mul_le_mul_right (h.low.trans hle) hpow
    linarith
  omega

/-- A number is rounded to the double that it is nearest to, however its mantissa and exponent are
given, as long as there are enough bits. -/
theorem Rounds.roundWithAccuracy (h : Rounds m q (r * 2 ^ e)) (hn : Normal m q) (hm : 0 < m)
    (hr : Represents (.ofMantissaAndAccuracy n a) r) (hcuts : Cuts n e k) :
    UnpackedFloat.roundWithAccuracy Format.binary64 s n e a = .finite s m q hm := by
  have hcases := hcuts.roundWithAccuracy (s := s) a
  have hnearest : IsNearest (r / 2 ^ k) (cut n a k).roundedMantissa := (hr.shiftRight k).isNearest
  obtain ⟨hlt, hfull⟩ := hr.cut_bounds hcuts
  have hleast := hcuts.least
  have hvalue : r * 2 ^ e = r / 2 ^ k * 2 ^ (e + k) := by
    rw [zpow_add₀ (by norm_num), zpow_natCast]
    field_simp
  rw [hvalue] at h
  have hmlt := hn.lt
  rcases h.exponent_eq hn hleast hlt hfull with hq | hq <;> rw [hq] at h hleast hcases
  · have hrounded := hnearest.unique h.isNearest
    rw [hrounded] at hcases
    rcases hcases with ⟨h₀, -⟩ | ⟨-, _, he⟩ | ⟨h₁, -⟩
    · omega
    · exact he
    · omega
  · obtain ⟨rfl, hbelow⟩ := h.isNearest_below hn (by omega) hlt
    have hrounded := hnearest.unique hbelow
    rw [hrounded] at hcases
    rcases hcases with ⟨h₀, -⟩ | ⟨h₁, -⟩ | ⟨-, _, he⟩
    · omega
    · omega
    · rw [he]
      congr 1
      omega

end Rounds

section Operations

variable {s s₁ s₂ : Sign} {m m₁ m₂ : Nat} {q e₁ e₂ : Int}

/-- A quotient is computed with enough bits to round it. -/
theorem divCore_represents (e₁ e₂ : Int) (h₁ : 0 < m₁) (h₂ : 0 < m₂) : ∃ n e a r k,
    UnpackedFloat.divCore Format.binary64 m₁ e₁ m₂ e₂ = (n, e, a) ∧
      Represents (.ofMantissaAndAccuracy n a) r ∧ r * 2 ^ e = size m₁ e₁ / size m₂ e₂ ∧
      Cuts n e k := by
  have htotal : Float.Model.totalExponent m₁ e₁ - Float.Model.totalExponent m₂ e₂
      = m₁.log2 + e₁ - (m₂.log2 + e₂) := by
    rw [Float.Model.totalExponent, Float.Model.totalExponent]
    omega
  have htarget (x : Int) : Format.binary64.targetExponent x = max (x - 53) (-1074) := rfl
  obtain ⟨t, ht⟩ : ∃ t, t = min (e₁ - e₂)
      (Format.binary64.targetExponent (m₁.log2 + e₁ - (m₂.log2 + e₂))) := ⟨_, rfl⟩
  obtain ⟨j, hj⟩ : ∃ j : Nat, e₁ - e₂ = t + j := ⟨(e₁ - e₂ - t).toNat, by omega⟩
  have hcore : UnpackedFloat.divCore Format.binary64 m₁ e₁ m₂ e₂ = (m₁ * 2 ^ j / m₂, t,
      UnpackedFloat.accuracyOfFraction (m₁ * 2 ^ j % m₂) m₂) := by
    have hshift : (e₁ - e₂ - t).toNat = j := by omega
    simp only [UnpackedFloat.divCore, htotal, ← ht, hshift, Nat.shiftLeft_eq]
  -- Unless the exponent is the least, the quotient has all bits of a mantissa.
  have hbits : -1074 < t → 2 ^ 52 ≤ m₁ * 2 ^ j / m₂ := fun hleast => by
    rw [htarget] at ht
    rw [Nat.le_div_iff_mul_le h₂]
    calc 2 ^ 52 * m₂ ≤ 2 ^ 52 * 2 ^ (m₂.log2 + 1) :=
          Nat.mul_le_mul_left _ Nat.lt_log2_self.le
      _ = 2 ^ (52 + (m₂.log2 + 1)) := (pow_add ..).symm
      _ ≤ 2 ^ (m₁.log2 + j) := Nat.pow_le_pow_right (by decide) (by omega)
      _ = 2 ^ m₁.log2 * 2 ^ j := pow_add ..
      _ ≤ m₁ * 2 ^ j := Nat.mul_le_mul_right _ (Nat.log2_self_le h₁.ne')
  have hvalue : ((m₁ * 2 ^ j : ℕ) : ℚ) / m₂ * 2 ^ t = size m₁ e₁ / size m₂ e₂ := by
    have hpow : (2 : ℚ) ^ e₁ = 2 ^ e₂ * (2 ^ t * 2 ^ j) := by
      rw [← zpow_natCast, ← zpow_add₀ (by norm_num), ← zpow_add₀ (by norm_num)]
      congr 1
      omega
    have hm₂ : (m₂ : ℚ) ≠ 0 := by exact_mod_cast h₂.ne'
    unfold size
    rw [hpow]
    push_cast
    field_simp
  obtain ⟨k, hk⟩ : ∃ k, Cuts (m₁ * 2 ^ j / m₂) t k := by
    by_cases hleast : -1074 < t
    · exact exists_cuts (hbits hleast) t
    · refine ⟨(max ((m₁ * 2 ^ j / m₂).log2 + t - 52) (-1074) - t).toNat, ?_⟩
      unfold Cuts
      omega
  exact ⟨_, _, _, _, k, hcore, represents_fraction _ h₂, hvalue, hk⟩

theorem Rounds.div (h : Rounds m q (size m₁ e₁ / size m₂ e₂)) (hn : Normal m q) (hm : 0 < m)
    (h₁ : 0 < m₁) (h₂ : 0 < m₂) :
    UnpackedFloat.div Format.binary64 (.finite s₁ m₁ e₁ h₁) (.finite s₂ m₂ e₂ h₂)
      = .finite (s₁ / s₂) m q hm := by
  obtain ⟨n, e, a, r, k, hcore, hr, hvalue, hcuts⟩ := divCore_represents e₁ e₂ h₁ h₂
  rw [← hvalue] at h
  rw [UnpackedFloat.div]
  simp only [hcore]
  exact h.roundWithAccuracy hn hm hr hcuts

theorem size_mul_size (m₁ m₂ : Nat) (e₁ e₂ : Int) :
    size m₁ e₁ * size m₂ e₂ = size (m₁ * m₂) (e₁ + e₂) := by
  unfold size
  rw [zpow_add₀ (by norm_num)]
  push_cast
  ring

/-- A product is rounded if one of its mantissas has all its bits. -/
theorem Rounds.mul (h : Rounds m q (size m₁ e₁ * size m₂ e₂)) (hn : Normal m q) (hm : 0 < m)
    (h₁ : 0 < m₁) (h₂ : 0 < m₂) (hbits : 2 ^ 52 ≤ m₁ * m₂) :
    UnpackedFloat.mul Format.binary64 (.finite s₁ m₁ e₁ h₁) (.finite s₂ m₂ e₂ h₂)
      = .finite (s₁ * s₂) m q hm := by
  obtain ⟨k, hk⟩ := exists_cuts hbits (e₁ + e₂)
  rw [size_mul_size] at h
  exact Rounds.roundWithAccuracy h hn hm (represents_exact _) hk

end Operations

end Dwell.Double

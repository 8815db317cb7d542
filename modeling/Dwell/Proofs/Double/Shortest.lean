import Dwell.Double.Shortest
import Dwell.Proofs.Double.Rounding

/-!
# The shortest decimal of a double

The decimal that `shortest` gives for a double is nearer to that double than to any other
(`rounds_shortest`): the search takes only whole numbers of the interval, and with seventeen digits
one of the two neighbours lies in it, as the interval is wider than the grid.
-/

namespace Dwell.Double

section Powers

/-- A power of which the parts above and below one are held apart. -/
theorem pow_toNat_div (b : ℚ) (e : Int) : b ^ e.toNat / b ^ (-e).toNat = b ^ e := by
  rcases le_total 0 e with h | h
  · obtain ⟨n, rfl⟩ := Int.eq_ofNat_of_zero_le h
    simp
  · obtain ⟨n, hn⟩ := Int.eq_ofNat_of_zero_le (neg_nonneg.2 h)
    obtain rfl : e = -n := by omega
    simp

theorem decimalLength_bounds {n : Nat} (hn : 0 < n) : ∃ k, decimalLength n = k + 1 ∧
    10 ^ k ≤ n ∧ n < 10 ^ (k + 1) := by
  induction n using Nat.strongRecOn with
  | ind n ih =>
    rw [decimalLength, dif_neg hn.ne']
    rcases Nat.eq_zero_or_pos (n / 10) with h | h
    · exact ⟨0, by rw [h]; simp [decimalLength], by omega, by omega⟩
    · obtain ⟨k, hk, hlow, hhigh⟩ := ih (n / 10) (by omega) h
      refine ⟨k + 1, by rw [hk], ?_, ?_⟩
      · rw [pow_succ]
        omega
      · rw [pow_succ]
        omega

/-- The first digit of a quotient is not before the place that is given for it. -/
theorem pow_leadingExponent_le {num den : Nat} (hnum : 0 < num) (hden : 0 < den) :
    (10 : ℚ) ^ leadingExponent num den ≤ num / den := by
  obtain ⟨k, hk, hlow, -⟩ := decimalLength_bounds hnum
  obtain ⟨l, hl, -, hhigh⟩ := decimalLength_bounds hden
  have hden' : (0 : ℚ) < den := by exact_mod_cast hden
  have hlow' : (10 : ℚ) ^ k ≤ num := by exact_mod_cast hlow
  have hhigh' : (den : ℚ) < 10 ^ (l + 1) := by exact_mod_cast hhigh
  unfold leadingExponent
  simp only [hk, hl]
  split
  · rw [le_div_iff₀ hden']
    calc (10 : ℚ) ^ (((k + 1 : ℕ) : ℤ) - (l + 1 : ℕ) - 1) * den
        ≤ 10 ^ (((k + 1 : ℕ) : ℤ) - (l + 1 : ℕ) - 1) * 10 ^ (l + 1) := by gcongr
      _ = 10 ^ k := by
          rw [← zpow_natCast, ← zpow_add₀ (by norm_num), ← zpow_natCast]
          congr 1
          omega
      _ ≤ num := hlow'
  · rename_i hle
    generalize ((k + 1 : ℕ) : ℤ) - (l + 1 : ℕ) = e at hle ⊢
    have hle' : ((den * 10 ^ e.toNat : ℕ) : ℚ) ≤ (num * 10 ^ (-e).toNat : ℕ) := by
      exact_mod_cast not_lt.1 hle
    push_cast at hle'
    rw [← pow_toNat_div, div_le_div_iff₀ (by positivity) hden']
    linarith

end Powers

section Interval

variable {i : Interval} {n : Nat} {e : Int} {tie : Tie}

/-- A quotient and a decimal compare as whole numbers do. -/
theorem mul_pow_le_div_iff {den : Nat} (hden : 0 < den) (a n : Nat) (e : Int) :
    ((n : ℚ) * 10 ^ e ≤ a / den ↔ n * (den * 10 ^ e.toNat) ≤ a * 10 ^ (-e).toNat) ∧
      ((a : ℚ) / den ≤ n * 10 ^ e ↔ a * 10 ^ (-e).toNat ≤ n * (den * 10 ^ e.toNat)) := by
  have hden' : (0 : ℚ) < den := by exact_mod_cast hden
  have hdown : (0 : ℚ) < 10 ^ (-e).toNat := by positivity
  have hscale : (0 : ℚ) < den * 10 ^ (-e).toNat := by positivity
  have hleft : (n : ℚ) * 10 ^ e * (den * 10 ^ (-e).toNat) = (n * (den * 10 ^ e.toNat) : ℕ) := by
    rw [← pow_toNat_div]
    push_cast
    field_simp
  have hright : (a : ℚ) / den * (den * 10 ^ (-e).toNat) = (a * 10 ^ (-e).toNat : ℕ) := by
    push_cast
    field_simp
  rw [← mul_le_mul_iff_of_pos_right hscale, hleft, hright, Nat.cast_le,
    ← mul_le_mul_iff_of_pos_right hscale, hleft, hright, Nat.cast_le]
  exact ⟨Iff.rfl, Iff.rfl⟩

/-- Whether a whole number times a power of ten lies in an interval. -/
theorem contains_scale (hden : 0 < i.den) : (i.scale e).contains n = true ↔
    if i.closed then (i.low : ℚ) / i.den ≤ n * 10 ^ e ∧ (n : ℚ) * 10 ^ e ≤ i.high / i.den
    else (i.low : ℚ) / i.den < n * 10 ^ e ∧ (n : ℚ) * 10 ^ e < i.high / i.den := by
  obtain ⟨hlow, hlow'⟩ := mul_pow_le_div_iff hden i.low n e
  obtain ⟨hhigh, hhigh'⟩ := mul_pow_le_div_iff hden i.high n e
  rw [lt_iff_lt_of_le_iff_le hlow, lt_iff_lt_of_le_iff_le hhigh', hlow', hhigh]
  unfold Interval.contains Interval.scale
  dsimp only
  split <;> rw [Bool.and_eq_true, decide_eq_true_eq, decide_eq_true_eq] <;> rfl

/-- The neighbours of the interval's value on the grid. -/
theorem floor_scale (hden : 0 < i.den) (e : Int) :
    let below := (i.scale e).value / (i.scale e).den
    (below : ℚ) * 10 ^ e ≤ i.value / i.den ∧ (i.value : ℚ) / i.den < (below + 1 : ℕ) * 10 ^ e := by
  intro below
  have hden' : 0 < i.den * 10 ^ e.toNat := Nat.mul_pos hden (Nat.pow_pos (by decide))
  have hbelow : below = i.value * 10 ^ (-e).toNat / (i.den * 10 ^ e.toNat) := rfl
  rw [(mul_pow_le_div_iff hden i.value below e).1,
    lt_iff_lt_of_le_iff_le (mul_pow_le_div_iff hden i.value (below + 1) e).1, hbelow]
  exact ⟨Nat.div_mul_le_self .., Nat.lt_mul_of_div_lt (Nat.lt_succ_self _) hden'⟩

theorem contains_of_nearest? (h : i.nearest? tie = some n) : i.contains n = true := by
  unfold Interval.nearest? at h
  dsimp only at h
  split at h
  · rename_i hbelow habove
    obtain rfl := Option.some.inj h
    split
    · exact hbelow
    · exact habove
  · rename_i hbelow habove
    exact Option.some.inj h ▸ hbelow
  · rename_i hbelow habove
    exact Option.some.inj h ▸ habove
  · cases h

theorem nearest?_ne_none (h : i.contains (i.value / i.den) = true ∨
    i.contains (i.value / i.den + 1) = true) : i.nearest? tie ≠ none := by
  unfold Interval.nearest?
  dsimp only
  split
  · simp
  · simp
  · simp
  · rename_i hbelow habove
    rcases h with h | h
    · rw [hbelow] at h
      cases h
    · rw [habove] at h
      cases h

/-- What is found lies in the interval. -/
theorem contains_of_search {lead : Int} : ∀ {left count : Nat} {d : Decimal},
    i.search tie lead count left = some d → (i.scale d.exponent).contains d.digits = true
  | 0, _, _, h => nomatch h
  | left + 1, count, d, h => by
    unfold Interval.search at h
    dsimp only at h
    split at h
    · rename_i n hn
      obtain rfl := Option.some.inj h
      exact contains_of_nearest? hn
    · exact contains_of_search h

/-- The search finds something if there is something at the last count of digits. -/
theorem search_ne_none {lead : Int} : ∀ {left count : Nat},
    (i.scale (lead + 1 - (count + left : Nat))).nearest? tie ≠ none →
      i.search tie lead count (left + 1) ≠ none
  | 0, count, h => by
    unfold Interval.search
    dsimp only
    split
    · simp
    · rename_i hn
      exact absurd hn h
  | left + 1, count, h => by
    unfold Interval.search
    dsimp only
    split
    · simp
    · exact search_ne_none (by rwa [show count + 1 + left = count + (left + 1) by omega])

end Interval

section Shortest

variable {m n : Nat} {q e : Int} {tie : Tie}

theorem den_around (m : Nat) (q : Int) : 0 < (Interval.around m q).den :=
  Nat.pow_pos (by decide)

/-- The ends of a double's interval, and the double between them. -/
theorem ends_around (hm : 0 < m) (q : Int) : let i := Interval.around m q
    (i.low : ℚ) / i.den = (m - halfGap m q) * 2 ^ q ∧ (i.value : ℚ) / i.den = m * 2 ^ q ∧
      (i.high : ℚ) / i.den = (m + 1 / 2) * 2 ^ q := by
  have hquarter : (2 : ℚ) ^ (q - 2).toNat / 2 ^ (2 - q).toNat = 2 ^ q / 4 := by
    rw [show 2 - q = -(q - 2) by omega, pow_toNat_div, zpow_sub₀ (by norm_num)]
    norm_num
  have hcast (a : ℕ) : ((a * 2 ^ (q - 2).toNat : ℕ) : ℚ) / (2 ^ (2 - q).toNat : ℕ)
      = a / 4 * 2 ^ q := by
    push_cast
    rw [mul_div_assoc, hquarter]
    ring
  have hlow : ((if m = hiddenBit ∧ q ≠ -1074 then 4 * m - 1 else 4 * m - 2 : ℕ) : ℚ) / 4
      = m - halfGap m q := by
    unfold halfGap hiddenBit
    split
    · rw [if_pos (by assumption), Nat.cast_sub (by omega)]
      push_cast
      ring
    · rw [if_neg (by assumption), Nat.cast_sub (by omega)]
      push_cast
      ring
  refine ⟨?_, ?_, ?_⟩
  · exact (hcast _).trans (by rw [hlow])
  · exact (hcast _).trans (by push_cast; ring)
  · exact (hcast _).trans (by push_cast; ring)

theorem rounds_of_contains (hm : 0 < m)
    (h : ((Interval.around m q).scale e).contains n = true) : Rounds m q (n * 10 ^ e) := by
  obtain ⟨hlow, -, hhigh⟩ := ends_around hm q
  rw [contains_scale (den_around m q), hlow, hhigh] at h
  split at h
  · rename_i heven
    exact ⟨h.1, h.2, .inl (beq_iff_eq.1 heven)⟩
  · exact ⟨h.1.le, h.2.le, .inr h⟩

theorem contains_of_between (hm : 0 < m) (hlow : (m - halfGap m q) * 2 ^ q < n * 10 ^ e)
    (hhigh : (n : ℚ) * 10 ^ e < (m + 1 / 2) * 2 ^ q) :
    ((Interval.around m q).scale e).contains n = true := by
  obtain ⟨hlow', -, hhigh'⟩ := ends_around hm q
  rw [contains_scale (den_around m q), hlow', hhigh']
  split
  · exact ⟨hlow.le, hhigh.le⟩
  · exact ⟨hlow, hhigh⟩

/-- If the grid is finer than the interval is wide, a neighbour on the grid lies in it. -/
theorem nearest?_of_grid (hm : 0 < m) (hgrid : 10 ^ e < (halfGap m q + 1 / 2) * 2 ^ q) :
    ((Interval.around m q).scale e).nearest? tie ≠ none := by
  obtain ⟨hbelow, habove⟩ := floor_scale (den_around m q) e
  rw [(ends_around hm q).2.1] at hbelow habove
  have hpow : (0 : ℚ) < 2 ^ q := by positivity
  have hgap := mul_pos (halfGap_pos m q) hpow
  refine nearest?_ne_none ?_
  generalize ((Interval.around m q).scale e).value / ((Interval.around m q).scale e).den = below
    at *
  push_cast at habove
  rcases lt_or_ge ((m - halfGap m q) * 2 ^ q) (below * 10 ^ e) with h | h
  · exact .inl (contains_of_between hm h (by linarith))
  · exact .inr (contains_of_between hm (by push_cast; linarith) (by push_cast; linarith))

/-- With seventeen digits the grid is finer than the interval is wide. -/
theorem grid_seventeen (hn : Normal m q) {lead : Int} (hlead : 10 ^ lead ≤ (m : ℚ) * 2 ^ q) :
    10 ^ (lead - 16) < (halfGap m q + 1 / 2) * 2 ^ q := by
  have hpow : (0 : ℚ) < 2 ^ q := by positivity
  have hunit : (10 : ℚ) ^ lead = 10 ^ 16 * 10 ^ (lead - 16) := by
    rw [← zpow_natCast, ← zpow_add₀ (by norm_num)]
    congr 1
    push_cast
    omega
  have hsmall : (m : ℚ) < 10 ^ 16 * (halfGap m q + 1 / 2) := by
    have hlt : (m : ℚ) < (2 ^ 53 : ℕ) := by exact_mod_cast hn.lt
    unfold halfGap
    split
    · rename_i h
      rw [h.1]
      norm_num
    · push_cast at hlt
      linarith
  have := mul_lt_mul_of_pos_right hsmall hpow
  rw [hunit] at hlead
  linarith

/-- The number that a decimal is. -/
def Decimal.value (d : Decimal) : ℚ :=
  d.digits * 10 ^ d.exponent

theorem value_trimZeros (d : Decimal) : d.trimZeros.value = d.value := by
  induction d using Decimal.trimZeros.induct with
  | case1 d h ih =>
    rw [Decimal.trimZeros, dif_pos h, ih]
    have hdigits : (d.digits : ℚ) = (d.digits / 10 : ℕ) * 10 := by
      exact_mod_cast (Nat.div_mul_cancel (Nat.dvd_of_mod_eq_zero h.2)).symm
    unfold Decimal.value
    rw [zpow_add₀ (by norm_num), hdigits]
    ring
  | case2 d h => rw [Decimal.trimZeros, dif_neg h]

/-- The decimal that is given for a double is nearer to it than to any other. -/
theorem rounds_shortest (hn : Normal m q) (hm : 0 < m) (tie : Tie) :
    Rounds m q (shortest tie m q).value := by
  have hpos : 0 < (Interval.around m q).value := Nat.mul_pos (by omega) (Nat.pow_pos (by decide))
  have hlead := pow_leadingExponent_le hpos (den_around m q)
  rw [(ends_around hm q).2.1] at hlead
  unfold shortest
  rw [if_neg hm.ne']
  dsimp only
  generalize leadingExponent (Interval.around m q).value (Interval.around m q).den = lead at *
  have hsearch : (Interval.around m q).search tie lead 1 17 ≠ none := by
    refine search_ne_none ?_
    have hlast : lead + 1 - (1 + 16 : Nat) = lead - 16 := by omega
    rw [hlast]
    exact nearest?_of_grid hm (grid_seventeen hn hlead)
  obtain ⟨d, hd⟩ := Option.ne_none_iff_exists'.1 hsearch
  rw [hd, Option.getD_some, value_trimZeros]
  exact rounds_of_contains hm (contains_of_search hd)

end Shortest

end Dwell.Double

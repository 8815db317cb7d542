import Dwell.Proofs.Instant
import Dwell.Text.Digits

/-!
# Sums at the end of the clock

Rounding up to a granularity gives the least multiple that is not before the instant, as far as the
clock reaches, and its arithmetic stays within the range of the clock on the way
(`soften_least_multiple`). The end of a dwell is the sum of its beginning and its rounded seconds,
as far as the clock reaches, unless the seconds alone are beyond the range (`after_capped_sum`): a
dwell that begins before the origin has no end then, even if the sum is on the clock
(`after_not_sum`).
-/

namespace Dwell.Instant

section Rounding

variable {g : Int} {s t : Instant}

theorem isLeast_add_gap (hg : 1 ≤ g) (n : Int) : IsLeast {k | g ∣ k ∧ n ≤ k} (n + gap g n) := by
  refine ⟨⟨dvd_add_gap g n, by have := gap_nonneg hg n; omega⟩, ?_⟩
  rintro k ⟨⟨c, rfl⟩, hk⟩
  obtain ⟨d, hd⟩ := dvd_add_gap g n
  have hlt := gap_lt hg n
  -- The multiple before the one that is found is below `n`.
  have hbefore : g * (d - 1) < g * c := by
    rw [mul_sub, ← hd]
    omega
  have hle : d ≤ c := by
    have := lt_of_mul_lt_mul_left hbefore (by omega)
    omega
  rw [hd]
  exact mul_le_mul_of_nonneg_left hle (by omega)

theorem soften_mono (hg : 1 ≤ g) (h : s ≤ t) : s.soften g ≤ t.soften g := by
  have hleast := (isLeast_add_gap hg s.seconds).2
    ⟨dvd_add_gap g t.seconds, (le_iff.1 h).trans (isLeast_add_gap hg t.seconds).1.2⟩
  rw [le_iff, seconds_soften hg, seconds_soften hg]
  exact min_le_min_right _ hleast

theorem soften_soften (hg : 1 ≤ g) (t : Instant) : (t.soften g).soften g = t.soften g := by
  rcases soften_eq_never_or_dvd hg t with h | h
  · rw [h, soften, if_pos (.inl rfl)]
  · have hgap : gap g (t.soften g).seconds = 0 := if_pos (Int.emod_eq_zero_of_dvd h)
    refine ext ?_
    rw [seconds_soften hg, hgap, add_zero]
    exact min_eq_left (t.soften g).upper

/-- Rounding up gives the least multiple that is not before the instant, as far as the clock
reaches. -/
theorem soften_least_multiple (hg : 1 ≤ g) (hsigned : Text.isSigned g) (t : Instant) :
    (∃ n, IsLeast {k | g ∣ k ∧ t.seconds ≤ k} n ∧
      (t.soften g = never ↔ t = never ∨ never.seconds ≤ n) ∧
      (t.soften g ≠ never → (t.soften g).seconds = n)) ∧
    (g = 1 → t.soften g = t) ∧
    t ≤ t.soften g ∧
    (t.soften g ≠ never → (t.soften g).seconds < t.seconds + g) ∧
    (∀ s, s ≤ t → s.soften g ≤ t.soften g) ∧
    (t.soften g).soften g = t.soften g ∧
    Text.isSigned (t.seconds % g) ∧ Text.isSigned (g - t.seconds % g) := by
  have hseconds := seconds_soften hg t
  have hleast := isLeast_add_gap hg t.seconds
  have hlt := gap_lt hg t.seconds
  have hrem := Int.emod_nonneg t.seconds (show g ≠ 0 by omega)
  have hrem' := Int.emod_lt_of_pos t.seconds (show 0 < g by omega)
  have hle : t.seconds ≤ t.seconds + gap g t.seconds := hleast.1.2
  simp only [Text.isSigned, Bool.and_eq_true, decide_eq_true_eq] at hsigned ⊢
  have hnever {n : Int} : t.soften g ≠ never → min n never.seconds = (t.soften g).seconds →
      (t.soften g).seconds = n := fun hne h => by
    rcases min_choice n never.seconds with hmin | hmin
    · rw [← h, hmin]
    · exact absurd (ext (h.symm.trans hmin)) hne
  refine ⟨⟨t.seconds + gap g t.seconds, hleast, ⟨fun h => ?_, fun h => ?_⟩, fun h => ?_⟩,
    fun h => soften_of_le_one h.le t, le_soften t g, fun h => ?_, fun s => soften_mono hg,
    soften_soften hg t, by omega, by omega⟩
  · rw [h] at hseconds
    exact .inr (min_eq_right_iff.1 hseconds.symm)
  · have hend : never.seconds ≤ t.seconds + gap g t.seconds := by
      rcases h with rfl | h
      · exact hle
      · exact h
    exact ext (hseconds.trans (min_eq_right hend))
  · exact hnever h hseconds.symm
  · rw [hnever h hseconds.symm]
    omega

/-- A second before the origin, rounded up to whole minutes. -/
theorem soften_least_multiple_minute :
    let t := clamp (-61)
    (1 ≤ (60 : Int) ∧ Text.isSigned 60) ∧ t.soften 60 ≠ never ∧
      (∃ n, IsLeast {k | 60 ∣ k ∧ t.seconds ≤ k} n ∧ (t.soften 60).seconds = n) := by
  intro t
  have hne : t.soften 60 ≠ never := by decide
  obtain ⟨⟨n, hleast, -, hn⟩, -⟩ := soften_least_multiple (g := 60) (by decide) (by decide) t
  exact ⟨by decide, hne, n, hleast, hn hne⟩

end Rounding

section Dwells

variable {s t : Instant} {x y : Float} {v : ℚ}

theorem seconds_after (ht : t ≠ never) (hv : Double.value? x = some v) (hx : 0 < x) :
    (t.after x).seconds =
      if ⌈v⌉ < 0x8000000000000000 then min (t.seconds + ⌈v⌉) never.seconds
      else never.seconds := by
  have hpos : 0 < v := (Double.lt_iff Double.value?_zero hv).1 hx
  rw [after, if_neg (by simp [ht, hx]), Double.ceil?_eq hv]
  dsimp only
  by_cases h : ⌈v⌉ < 0x8000000000000000
  · rw [if_neg (by omega), if_pos h, seconds_later (Int.ceil_pos.2 hpos).le]
  · rw [if_pos (by omega), if_neg h]

theorem after_mono (hv : Double.value? x = some v) (hst : s ≤ t) (hy : 0 < y) (hle : y ≤ x) :
    s.after y ≤ t.after x := by
  by_cases ht : t = never
  · have hend : t.after x = never := if_pos (.inl ht)
    exact hend ▸ le_never _
  have hs : s ≠ never := ne_never_iff.2 (hst.trans_lt (ne_never_iff.1 ht))
  obtain ⟨w, hw⟩ := Double.exists_value?_of_le hy hle hv
  have hpos : 0 < w := (Double.lt_iff Double.value?_zero hw).1 hy
  have hwv : w ≤ v := (Double.le_iff hw hv).1 hle
  have hx : 0 < x := (Double.lt_iff Double.value?_zero hv).2 (hpos.trans_le hwv)
  have hceil := Int.ceil_le_ceil hwv
  rw [le_iff] at hst ⊢
  rw [seconds_after hs hw hy, seconds_after ht hv hx]
  split <;> split <;> omega

/-- The end of a dwell is the sum of its beginning and its rounded seconds, as far as the clock
reaches, and a dwell whose seconds alone are beyond the range has no end. Later dwells and longer
ones end later. -/
theorem after_capped_sum (ht : t ≠ never) (hv : Double.value? x = some v) (hx : 0 < x) :
    (⌈v⌉ < 2 ^ 63 → (t.after x).seconds = min (t.seconds + ⌈v⌉) never.seconds) ∧
    (2 ^ 63 ≤ ⌈v⌉ → t.after x = never) ∧
    (t.after x = never → never.seconds ≤ t.seconds + ⌈v⌉ ∨ 2 ^ 63 ≤ ⌈v⌉) ∧
    (∀ s y, s ≤ t → 0 < y → y ≤ x → s.after y ≤ t.after x) := by
  have hseconds := seconds_after ht hv hx
  have hnever : never.seconds = 0x7FFFFFFFFFFFFFFF := rfl
  refine ⟨fun h => ?_, fun h => ext ?_, fun h => ?_, fun s y => after_mono hv⟩
  · rw [hseconds, if_pos (by omega)]
  · rw [hseconds, if_neg (by omega)]
  · rw [h] at hseconds
    split at hseconds <;> omega

/-- Seven and a half seconds from five seconds before the origin. -/
theorem after_capped_sum_half :
    let t := clamp (-5)
    let x : Float := 7.5
    (t ≠ never ∧ Double.value? x = some (15 / 2) ∧ 0 < x ∧ ⌈(15 / 2 : ℚ)⌉ < 2 ^ 63) ∧
      (t.after x).seconds = 3 := by
  intro t x
  have ht : t ≠ never := by decide
  have hparts : Double.parts x = .finite false (15 * 2 ^ 49) (-50) := by decide +kernel
  have hv : Double.value? x = some (15 / 2) := by
    rw [Double.value?, hparts]
    norm_num [Double.Parts.value?, Double.size]
  have hx : 0 < x := by decide +kernel
  have hceil : ⌈(15 / 2 : ℚ)⌉ = 8 := by norm_num [Int.ceil_eq_iff]
  have hsmall : ⌈(15 / 2 : ℚ)⌉ < 2 ^ 63 := by rw [hceil]; norm_num
  refine ⟨⟨ht, hv, hx, hsmall⟩, ?_⟩
  rw [(after_capped_sum ht hv hx).1 hsmall, hceil]
  decide

/-- From the least instant the clock reaches 2 ^ 63 seconds later, which is the origin. -/
theorem after_not_sum : ¬ ∀ (t : Instant) (x : Float) (v : ℚ), t ≠ never →
    Double.value? x = some v → 0 < x →
    (t.after x).seconds = min (t.seconds + ⌈v⌉) never.seconds := by
  intro h
  have hparts : Double.parts 9223372036854775808 = .finite false (2 ^ 52) 11 := by decide +kernel
  have hv : Double.value? 9223372036854775808 = some (2 ^ 63) := by
    rw [Double.value?, hparts]
    norm_num [Double.Parts.value?, Double.size]
  have hsum := h (clamp (-0x8000000000000000)) 9223372036854775808 (2 ^ 63) (by decide) hv
    (by decide +kernel)
  have hceil : ⌈(2 ^ 63 : ℚ)⌉ = 2 ^ 63 := by norm_num [Int.ceil_eq_iff]
  rw [hceil] at hsum
  have hleft : ((clamp (-0x8000000000000000)).after 9223372036854775808).seconds
      = 0x7FFFFFFFFFFFFFFF := by decide +kernel
  have hright : min ((clamp (-0x8000000000000000)).seconds + 2 ^ 63) never.seconds = 0 := by decide
  omega

end Dwells

end Dwell.Instant

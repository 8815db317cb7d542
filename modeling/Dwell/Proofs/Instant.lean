import Dwell.Instant
import Dwell.Proofs.Double.Nearest
import Mathlib.Order.Defs.LinearOrder

/-!
# The order of instants

What moves an instant forward moves it forward strictly, or up to `never`: a dwell ends after it
begins (`lt_after`), and rounding to the granularity never moves a time back (`le_soften`) and gives
a multiple of it, or `never` (`soften_eq_never_or_dvd`).

A dwell has an end if the clock shows one (`after_ne_never_iff`), and then the instants before it
are those at which the dwell's seconds have not passed (`EndsAfter.within_iff`). The elapsed seconds
that are shown come to those of the dwell just then, although both are rounded (`le_secondsSince`,
`secondsSince_le`).

On a clock that is some seconds ahead every instant but `never` is shown those seconds later
(`shift`). Differences stay the same (`secondsSince_shift`), and so do the ends of dwells where both
clocks show them (`after_shift`, `soften_shift`).
-/

namespace Dwell.Instant

variable {r s t : Instant}

instance : LinearOrder Instant where
  le_refl t := Int.le_refl t.seconds
  le_trans _ _ _ := Int.le_trans
  lt_iff_le_not_ge _ _ := Int.lt_iff_le_and_not_ge
  le_antisymm _ _ h₁ h₂ := Instant.ext (Int.le_antisymm h₁ h₂)
  le_total s t := Int.le_total s.seconds t.seconds
  toDecidableLE := inferInstance
  toDecidableLT := inferInstance
  toDecidableEq := inferInstance

theorem ne_never_iff : t ≠ never ↔ t < never :=
  (le_never t).lt_iff_ne.symm

theorem not_lt_never (t : Instant) : ¬ never < t :=
  not_lt.2 t.le_never

/-- Moving forward adds the seconds, up to the end of the clock. -/
theorem seconds_later {n : Int} (hn : 0 ≤ n) :
    (t.later n).seconds = min (t.seconds + n) never.seconds := by
  have ht := t.lower
  have hnever : never.seconds = 0x7FFFFFFFFFFFFFFF := rfl
  rw [later]
  split
  · omega
  · rw [seconds_clamp (by omega) (by omega)]
    omega

theorem le_later {n : Int} (hn : 0 ≤ n) : t ≤ t.later n := by
  rw [le_iff, seconds_later hn]
  exact le_min (by omega) t.upper

/-- A dwell ends strictly after it begins, or has no end. -/
theorem lt_after (ht : t < never) (x : Float) : t < t.after x := by
  rw [after]
  split
  · exact ht
  rename_i hx
  split
  · exact ht
  rename_i n hn
  split
  · exact ht
  simp only [not_or, Classical.not_not] at hx
  exact lt_later ht (Double.ceil?_pos hx.2 hn)

/-- A later time than `t`, or none at all. -/
def IsAhead (t s : Instant) : Prop :=
  t < s ∨ s = never

theorem IsAhead.lt (h : t.IsAhead s) (ht : t < never) : t < s := by
  rcases h with h | rfl
  · exact h
  · exact ht

theorem IsAhead.min (hr : t.IsAhead r) (hs : t.IsAhead s) : t.IsAhead (min r s) := by
  rcases min_choice r s with h | h <;> rwa [h]

theorem ne_never_of_lt (h : s < t) : s ≠ never := by
  rintro rfl
  exact not_lt_never t h

theorem ne_never_of_after {x : Float} (h : t.after x ≠ never) : t ≠ never := by
  rintro rfl
  exact h (if_pos (.inl rfl))

theorem seconds_later_le {n : Int} (hn : 0 ≤ n) : (t.later n).seconds ≤ t.seconds + n :=
  (seconds_later hn).trans_le (min_le_left ..)

theorem seconds_after_lt {x : Float} (h : t.after x ≠ never) :
    (t.after x).seconds < t.seconds + 0x8000000000000000 := by
  rw [after] at h ⊢
  split at h
  · exact absurd rfl h
  rename_i hx
  simp only [not_or, Classical.not_not] at hx
  rw [if_neg (by simpa using hx)]
  split at h
  · exact absurd rfl h
  rename_i n hn
  split at h
  · exact absurd rfl h
  have hpos := Double.ceil?_pos hx.2 hn
  have hle := seconds_later_le (t := t) hpos.le
  rw [if_neg ‹_›]
  omega

/-- Between instants that the clock shows, the elapsed time is the exact difference. -/
theorem secondsSince_eq (hs : s ≠ never) (ht : t ≠ never)
    (h₁ : -0x8000000000000000 ≤ t.seconds - s.seconds)
    (h₂ : t.seconds - s.seconds ≤ 0x7FFFFFFFFFFFFFFF) :
    t.secondsSince s = Double.ofInt (t.seconds - s.seconds) := by
  rw [secondsSince, if_neg (by simp [hs, ht]), seconds_clamp h₁ h₂]

section Rounding

variable {g : Int}

/-- The seconds from a number to the first multiple of `g` that is not below it. -/
def gap (g n : Int) : Int :=
  if n % g = 0 then 0 else g - n % g

theorem gap_nonneg (hg : 1 ≤ g) (n : Int) : 0 ≤ gap g n := by
  have hlt := Int.emod_lt_of_pos n (show 0 < g by omega)
  rw [gap]
  split <;> omega

theorem gap_lt (hg : 1 ≤ g) (n : Int) : gap g n < g := by
  have hpos := Int.emod_nonneg n (show g ≠ 0 by omega)
  rw [gap]
  split <;> omega

theorem dvd_add_gap (g n : Int) : g ∣ n + gap g n := by
  have hdiv := Int.mul_ediv_add_emod n g
  rw [gap]
  split
  · exact ⟨n / g, by linarith⟩
  · exact ⟨n / g + 1, by linarith⟩

theorem soften_of_le_one (hg : g ≤ 1) (t : Instant) : t.soften g = t := by
  rw [soften, if_pos (.inr hg)]

theorem seconds_soften (hg : 1 ≤ g) (t : Instant) :
    (t.soften g).seconds = min (t.seconds + gap g t.seconds) never.seconds := by
  have hgap := gap_nonneg hg t.seconds
  have hupper : t.seconds ≤ never.seconds := t.upper
  rw [soften]
  split
  · rename_i h
    rcases h with rfl | h
    · exact (min_eq_right (by omega)).symm
    · rw [gap, if_pos (by rw [show g = 1 by omega]; exact Int.emod_one _)]
      omega
  split
  · rw [gap, if_pos ‹_›]
    omega
  · rename_i hmod
    rw [gap, if_neg hmod] at hgap ⊢
    exact seconds_later hgap

theorem le_soften (t : Instant) (g : Int) : t ≤ t.soften g := by
  rcases le_total g 1 with hg | hg
  · rw [soften_of_le_one hg]
  · have hgap := gap_nonneg hg t.seconds
    rw [le_iff, seconds_soften hg]
    exact le_min (by omega) t.upper

theorem soften_eq_never_or_dvd (hg : 1 ≤ g) (t : Instant) :
    t.soften g = never ∨ g ∣ (t.soften g).seconds := by
  have hseconds := seconds_soften hg t
  rcases min_choice (t.seconds + gap g t.seconds) never.seconds with h | h
  · exact .inr (by rw [hseconds, h]; exact dvd_add_gap g _)
  · exact .inl (ext (hseconds.trans h))

end Rounding

section Dwells

variable {now : Instant} {x y : Float} {n : Int}

/-- A dwell of `x` seconds that begins at `t` ends `n` whole seconds later, and the clock shows
that. -/
structure EndsAfter (t : Instant) (x : Float) (n : Int) : Prop where
  ceil? : Double.ceil? x = some n
  small : n < 0x8000000000000000
  shown : t.seconds + n < never.seconds

/-- Fewer than `x` seconds have passed from `t` to `now`. An infinite `x` never passes. -/
def Within (t : Instant) (x : Float) (now : Instant) : Prop :=
  ∀ v, Double.value? x = some v → ((now.seconds - t.seconds : Int) : ℚ) < v

theorem EndsAfter.seconds_after (h : t.EndsAfter x n) (hx : 0 < x) :
    (t.after x).seconds = t.seconds + n := by
  obtain ⟨hn, hsmall, hshown⟩ := h
  have hpos := Double.ceil?_pos hx hn
  have ht : t ≠ never := by
    rintro rfl
    omega
  have hlow := t.lower
  have hnever : never.seconds = 0x7FFFFFFFFFFFFFFF := rfl
  rw [after, if_neg (by simp [ht, hx]), hn]
  dsimp only
  rw [if_neg (by omega), later, if_neg (by omega), seconds_clamp (by omega) (by omega)]

theorem EndsAfter.after_ne_never (h : t.EndsAfter x n) (hx : 0 < x) : t.after x ≠ never := by
  intro he
  have hs := h.seconds_after hx
  have hshown := h.shown
  rw [he] at hs
  omega

/-- A positive dwell has an end just when the clock shows it. -/
theorem after_ne_never_iff (hx : 0 < x) : t.after x ≠ never ↔ ∃ n, t.EndsAfter x n := by
  refine ⟨fun h => ?_, fun ⟨n, hn⟩ => hn.after_ne_never hx⟩
  rw [after] at h
  split at h
  · exact absurd rfl h
  split at h
  · exact absurd rfl h
  rename_i n hn
  split at h
  · exact absurd rfl h
  rename_i hsmall
  refine ⟨n, hn, by omega, ?_⟩
  have hpos := Double.ceil?_pos hx hn
  have hlow := t.lower
  have hnever : never.seconds = 0x7FFFFFFFFFFFFFFF := rfl
  rw [later] at h
  split at h
  · exact absurd rfl h
  · rename_i hle
    -- What is clamped stays as it is, so it is not the last instant.
    have hne : (clamp (t.seconds + n)).seconds ≠ never.seconds := fun he => h (ext he)
    rw [seconds_clamp (by omega) (by omega)] at hne
    omega

theorem EndsAfter.value? (h : t.EndsAfter x n) : ∃ v, Double.value? x = some v ∧ ⌈v⌉ = n := by
  obtain ⟨v, hv⟩ := Double.exists_value?_of_ceil? h.ceil?
  exact ⟨v, hv, Option.some.inj ((Double.ceil?_eq hv).symm.trans h.ceil?)⟩

theorem EndsAfter.within_iff (h : t.EndsAfter x n) (hx : 0 < x) :
    t.Within x now ↔ now < t.after x := by
  obtain ⟨v, hv, rfl⟩ := h.value?
  rw [lt_iff, h.seconds_after hx, ← sub_lt_iff_lt_add', Int.lt_ceil]
  refine ⟨fun hw => hw v hv, fun hw w hw' => ?_⟩
  obtain rfl : v = w := Option.some.inj (hv.symm.trans hw')
  exact hw

/-- The seconds that are shown from `t` on come to those of a dwell when it ends, and do not pass
them before. -/
theorem EndsAfter.exists_secondsSince (h : t.EndsAfter x n) (hx : 0 < x) (hle : t ≤ now)
    (hnow : now ≠ never) : ∃ v w, Double.value? x = some v ∧
      Double.value? (now.secondsSince t) = some w ∧
      (t.after x ≤ now → v ≤ w) ∧ (now < t.after x → w ≤ v) := by
  obtain ⟨v, hv, rfl⟩ := h.value?
  have ht : t ≠ never := ne_never_of_after (h.after_ne_never hx)
  rw [le_iff] at hle
  -- The difference that is shown, cut at the end of the range.
  obtain ⟨d, hd, hmin⟩ : ∃ d : Nat, (clamp (now.seconds - t.seconds)).seconds = d ∧
      (d : Int) = min (now.seconds - t.seconds) 0x7FFFFFFFFFFFFFFF :=
    ⟨(min (now.seconds - t.seconds) 0x7FFFFFFFFFFFFFFF).toNat,
      by simp only [clamp]; omega, by omega⟩
  have hshown : now.secondsSince t = Double.ofNat d := by
    rw [secondsSince, if_neg (by simp [hnow, ht]), hd]
    rfl
  obtain ⟨w, hw, hsides⟩ := Double.exists_value?_ofNat (n := d) (by omega)
  obtain ⟨hupper, hlower⟩ := hsides hv
  refine ⟨v, w, hv, hshown ▸ hw, fun hdue => hupper ?_, fun hdue => hlower ?_⟩
  · have hceil : ⌈v⌉ ≤ (d : Int) := by
      rw [le_iff, h.seconds_after hx] at hdue
      have hsmall := h.small
      omega
    exact_mod_cast Int.ceil_le.1 hceil
  · have hwithin := (h.within_iff hx).2 hdue v hv
    have hcut : ((d : Int) : ℚ) ≤ ((now.seconds - t.seconds : Int) : ℚ) := by
      exact_mod_cast hmin.le.trans (min_le_left ..)
    exact_mod_cast hcut.trans hwithin.le

theorem le_secondsSince (hx : 0 < x) (hdue : t.after x ≠ never) (hle : t.after x ≤ now) :
    x ≤ now.secondsSince t := by
  obtain ⟨n, hn⟩ := (after_ne_never_iff hx).1 hdue
  by_cases hnow : now = never
  · obtain ⟨v, hv, -⟩ := hn.value?
    rw [hnow, secondsSince, if_pos (.inl rfl)]
    exact Double.le_infinity hv
  · have hlt := lt_after (ne_never_iff.1 (ne_never_of_after hdue)) x
    obtain ⟨v, w, hv, hw, hupper, -⟩ := hn.exists_secondsSince hx (hlt.le.trans hle) hnow
    exact (Double.le_iff hv hw).2 (hupper hle)

theorem secondsSince_le (hx : 0 < x) (hdue : t.after x ≠ never) (hle : t ≤ now)
    (hlt : now < t.after x) : now.secondsSince t ≤ x := by
  obtain ⟨n, hn⟩ := (after_ne_never_iff hx).1 hdue
  obtain ⟨v, w, hv, hw, -, hlower⟩ := hn.exists_secondsSince hx hle (ne_never_of_lt hlt)
  exact (Double.le_iff hw hv).2 (hlower hlt)

/-- A shorter dwell ends no later than a longer one that has an end. -/
theorem EndsAfter.after_le_after (h : t.EndsAfter x n) (hy : 0 < y) (hle : y ≤ x) :
    t.after y ≤ t.after x := by
  obtain ⟨v, hv, rfl⟩ := h.value?
  obtain ⟨w, hw⟩ := Double.exists_value?_of_le hy hle hv
  have hx : 0 < x := by
    rw [Double.lt_iff Double.value?_zero hw] at hy
    rw [Double.le_iff hw hv] at hle
    exact (Double.lt_iff Double.value?_zero hv).2 (hy.trans_le hle)
  have hceil := Int.ceil_le_ceil ((Double.le_iff hw hv).1 hle)
  have hends : t.EndsAfter y ⌈w⌉ :=
    ⟨Double.ceil?_eq hw, hceil.trans_lt h.small, by have := h.shown; omega⟩
  rw [le_iff, hends.seconds_after hy, h.seconds_after hx]
  omega

end Dwells

section Shifts

variable {k g : Int} {x : Float}

/-- The instant `k` seconds later, or earlier if `k` is negative. -/
def moved (t : Instant) (k : Int) : Instant :=
  clamp (t.seconds + k)

/-- The clock shows the instant that is `k` seconds from `t`. -/
def Movable (t : Instant) (k : Int) : Prop :=
  -0x8000000000000000 ≤ t.seconds + k ∧ t.seconds + k ≤ 0x7FFFFFFFFFFFFFFF

instance : Decidable (t.Movable k) := inferInstanceAs (Decidable (_ ∧ _))

/-- The instant that stands for the same on a clock that is `k` seconds ahead. -/
def shift (t : Instant) (k : Int) : Instant :=
  if t = never then never else t.moved k

/-- On a clock that is `k` seconds ahead, the instant is shown, and not as `never` unless it is. -/
def Shiftable (t : Instant) (k : Int) : Prop :=
  t ≠ never → -0x8000000000000000 ≤ t.seconds + k ∧ t.seconds + k < 0x7FFFFFFFFFFFFFFF

theorem Movable.seconds_moved (h : t.Movable k) : (t.moved k).seconds = t.seconds + k :=
  seconds_clamp h.1 h.2

theorem moved_le_moved_iff (hs : s.Movable k) (ht : t.Movable k) :
    s.moved k ≤ t.moved k ↔ s ≤ t := by
  rw [le_iff, le_iff, hs.seconds_moved, ht.seconds_moved, add_le_add_iff_right]

theorem shift_of_ne_never (h : t ≠ never) : t.shift k = t.moved k :=
  if_neg h

theorem shiftable_never (k : Int) : never.Shiftable k :=
  fun h => absurd rfl h

theorem seconds_eq_iff : t.seconds = 0x7FFFFFFFFFFFFFFF ↔ t = never :=
  ⟨fun h => ext h, fun h => h ▸ rfl⟩

/-- The seconds of a shifted instant, in a form that linear arithmetic can open. -/
theorem Shiftable.seconds_shift (h : t.Shiftable k) : (t.shift k).seconds
    = if t.seconds = 0x7FFFFFFFFFFFFFFF then 0x7FFFFFFFFFFFFFFF else t.seconds + k := by
  simp only [seconds_eq_iff, shift]
  split
  · rfl
  · have := h ‹_›
    exact seconds_clamp this.1 this.2.le

theorem shift_le_shift_iff (hs : s.Shiftable k) (ht : t.Shiftable k) :
    s.shift k ≤ t.shift k ↔ s ≤ t := by
  have := t.upper
  have := s.upper
  rw [le_iff, le_iff, hs.seconds_shift, ht.seconds_shift]
  simp only [Shiftable, ne_eq, ← seconds_eq_iff] at hs ht
  omega

theorem shift_lt_shift_iff (hs : s.Shiftable k) (ht : t.Shiftable k) :
    s.shift k < t.shift k ↔ s < t := by
  rw [← not_le, ← not_le, shift_le_shift_iff ht hs]

theorem shift_min (hs : s.Shiftable k) (ht : t.Shiftable k) :
    min (s.shift k) (t.shift k) = (min s t).shift k := by
  rcases le_total s t with h | h
  · rw [min_eq_left h, min_eq_left ((shift_le_shift_iff hs ht).2 h)]
  · rw [min_eq_right h, min_eq_right ((shift_le_shift_iff ht hs).2 h)]

theorem Shiftable.min (hs : s.Shiftable k) (ht : t.Shiftable k) : (min s t).Shiftable k := by
  rcases min_choice s t with h | h <;> rw [h] <;> assumption

theorem Shiftable.shift_eq_never_iff (h : t.Shiftable k) : t.shift k = never ↔ t = never := by
  rw [← seconds_eq_iff, h.seconds_shift, ← seconds_eq_iff]
  simp only [Shiftable, ne_eq, ← seconds_eq_iff] at h
  split <;> omega

theorem secondsSince_shift (hs : s.Shiftable k) (ht : t.Shiftable k) :
    (t.shift k).secondsSince (s.shift k) = t.secondsSince s := by
  simp only [secondsSince, ht.shift_eq_never_iff, hs.shift_eq_never_iff]
  split
  · rfl
  · rename_i h
    simp only [not_or, ← seconds_eq_iff] at h
    rw [ht.seconds_shift, hs.seconds_shift, if_neg h.1, if_neg h.2, add_sub_add_right_eq_sub]

/-- Where the clock shows the end of a dwell before and after the shift, the dwell is shifted. -/
theorem after_shift (ht : t.Shiftable k) (hroom : ∀ n, Double.ceil? x = some n →
      t.seconds + n < never.seconds ∧ t.seconds + k + n < never.seconds) :
    (t.shift k).after x = (t.after x).shift k ∧ (t.after x).Shiftable k := by
  by_cases hx : t = never ∨ ¬ 0 < x
  · have hx' : t.shift k = never ∨ ¬ 0 < x := by rwa [ht.shift_eq_never_iff]
    rw [after, after, if_pos hx, if_pos hx']
    exact ⟨rfl, shiftable_never k⟩
  simp only [not_or, not_not] at hx
  obtain ⟨hne, hpos⟩ := hx
  have hseconds := ht.seconds_shift
  rw [if_neg (mt seconds_eq_iff.1 hne)] at hseconds
  have hends (n : Int) : (t.shift k).EndsAfter x n ↔ t.EndsAfter x n := by
    constructor
    · exact fun h => ⟨h.ceil?, h.small, (hroom n h.ceil?).1⟩
    · exact fun h => ⟨h.ceil?, h.small, by have := (hroom n h.ceil?).2; omega⟩
  by_cases hend : t.after x = never
  · have hend' : (t.shift k).after x = never := by
      by_contra h
      obtain ⟨n, hn⟩ := (after_ne_never_iff hpos).1 h
      exact ((hends n).1 hn).after_ne_never hpos hend
    rw [hend, hend']
    exact ⟨rfl, shiftable_never k⟩
  · obtain ⟨n, hn⟩ := (after_ne_never_iff hpos).1 hend
    have hafter := hn.seconds_after hpos
    have := Double.ceil?_pos hpos hn.ceil?
    have hlow := ht hne
    have hroom := hroom n hn.ceil?
    have hnever : never.seconds = 0x7FFFFFFFFFFFFFFF := rfl
    have hs : (t.after x).Shiftable k := fun _ => by omega
    refine ⟨ext ?_, hs⟩
    rw [hs.seconds_shift, if_neg (mt seconds_eq_iff.1 hend), hafter,
      ((hends n).2 hn).seconds_after hpos, hseconds]
    omega

/-- Rounding up to a granularity comes to the same before and after a shift by a multiple of it. -/
theorem soften_shift (ht : t.Shiftable k) (hk : g ∣ k) (hroom : t ≠ never →
      t.seconds + g < never.seconds ∧ t.seconds + k + g < never.seconds) :
    (t.shift k).soften g = (t.soften g).shift k ∧ (t.soften g).Shiftable k := by
  by_cases hg : g ≤ 1
  · rw [soften_of_le_one hg, soften_of_le_one hg]
    exact ⟨rfl, ht⟩
  by_cases hne : t = never
  · subst hne
    exact ⟨by simp [shift, soften], shiftable_never k⟩
  have hseconds := ht.seconds_shift
  rw [if_neg (mt seconds_eq_iff.1 hne)] at hseconds
  obtain ⟨hroom₁, hroom₂⟩ := hroom hne
  have hlow := ht hne
  have hgap := gap_nonneg (g := g) (by omega) t.seconds
  have hlt := gap_lt (g := g) (by omega) t.seconds
  have hsame : gap g (t.seconds + k) = gap g t.seconds := by
    obtain ⟨c, rfl⟩ := hk
    simp only [gap, Int.add_mul_emod_self_left]
  have hnever : never.seconds = 0x7FFFFFFFFFFFFFFF := rfl
  have hsoft : (t.soften g).seconds = t.seconds + gap g t.seconds := by
    rw [seconds_soften (by omega)]
    omega
  have hsoft' : ((t.shift k).soften g).seconds = t.seconds + k + gap g t.seconds := by
    rw [seconds_soften (by omega), hseconds, hsame]
    omega
  have hs : (t.soften g).Shiftable k := fun _ => by omega
  refine ⟨ext ?_, hs⟩
  rw [hs.seconds_shift, hsoft', hsoft]
  split <;> omega

end Shifts

end Dwell.Instant

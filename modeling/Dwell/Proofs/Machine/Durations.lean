import Dwell.Proofs.Double.Scaling
import Dwell.Proofs.Machine.Replay
import Dwell.Proofs.Rule.Duration

/-!
# How long holds are

The number of a hold is finite and not negative, and its unit scales it to seconds. So the seconds
are not negative, either, but they may be too many for a double, and then they are infinite
(`Measures.isFinite_iff`). The same holds of what a machine keeps for its states, whatever
operations led to it (`Machine.Reachable.measured`).
-/

namespace Dwell

open Double

/-- `seconds` is what `x` of a unit of time are rounded to; exactly they are `v`. -/
inductive Measures (x : Float) (unit : String) (v : ℚ) (seconds : Float) : Prop
  | intro {scale a b} :
    value? x = some a → 0 ≤ a → secondsPer unit = some scale → value? scale = some b →
    v = a * b → seconds = x * scale / 1.0 → Measures x unit v seconds

section Units

variable {x seconds scale : Float} {unit : String} {v : ℚ}

/-- The seconds in a unit of time are a double whose mantissa has all its bits. -/
theorem parts_secondsPer (h : secondsPer unit = some scale) :
    ∃ n p, parts scale = .finite false n p ∧ 2 ^ 52 ≤ n := by
  unfold secondsPer at h
  split_ifs at h <;> cases h
  · exact ⟨4611686018427388, -62, by decide +kernel, by decide⟩
  · exact ⟨4503599627370496, -52, by decide +kernel, by decide⟩
  · exact ⟨8444249301319680, -47, by decide +kernel, by decide⟩
  · exact ⟨7916483719987200, -41, by decide +kernel, by decide⟩
  · exact ⟨5937362789990400, -36, by decide +kernel, by decide⟩
  · exact ⟨5195192441241600, -33, by decide +kernel, by decide⟩

theorem convert_time (x : Float) (unit : String) :
    Units.time.convert x unit "s" = (secondsPer unit).map fun scale => x * scale / 1.0 := by
  have hs : secondsPer "s" = some 1.0 := by decide +kernel
  change (do let s ← secondsPer unit; let t ← secondsPer "s"; return x * s / t) = _
  rw [hs]
  cases secondsPer unit <;> rfl

namespace Measures

/-- Measured seconds are the number of the exact ones, rounded, if that is below the limit, and
infinite otherwise. -/
theorem cases (h : Measures x unit v seconds) :
    (v < limit ∧ ∃ w, 0 ≤ w ∧ value? seconds = some w) ∨
      (limit ≤ v ∧ parts seconds = .infinite false) := by
  obtain @⟨scale, a, b, hx, ha, hscale, hb, rfl, rfl⟩ := h
  obtain ⟨n, p, hparts, hn⟩ := parts_secondsPer hscale
  obtain rfl : size n p = b := by
    rw [value?, hparts] at hb
    exact Option.some.inj hb
  obtain ⟨hfinite, hinfinite⟩ := value?_mul hx ha hparts hn
  rcases lt_or_ge (a * size n p) limit with hlt | hle
  · obtain ⟨w, hw, hvalue⟩ := hfinite hlt
    exact .inl ⟨hlt, w, hw, value?_div_one hvalue hw⟩
  · exact .inr ⟨hle, parts_div_one (hinfinite hle)⟩

theorem nonneg (h : Measures x unit v seconds) : 0 ≤ seconds := by
  rcases h.cases with ⟨-, w, hw, hvalue⟩ | ⟨-, hparts⟩
  · exact (le_iff value?_zero hvalue).2 hw
  · exact le_of_infinite value?_zero hparts

theorem isFinite_iff (h : Measures x unit v seconds) : seconds.isFinite = true ↔ v < limit := by
  rw [Double.isFinite_iff]
  rcases h.cases with ⟨hlt, w, -, hvalue⟩ | ⟨hle, hparts⟩
  · simp [hlt, hvalue]
  · simp [value?, hparts, Parts.value?, not_lt.2 hle]

theorem zero : Measures 0.0 "s" 0 0.0 := by
  have hzero : value? 0.0 = some 0 := by decide +kernel
  have hone : value? 1.0 = some 1 := by decide +kernel
  exact .intro hzero le_rfl (by decide +kernel) hone (by norm_num) (by decide +kernel)

end Measures

end Units

/-- A hold that can be read is of a number of a unit of time. -/
theorem Scope.measures_of_hold {sc : Scope} {spec : String} {s : Nat} {seconds : Float}
    (hu : sc.host.units = .time) (h : sc.hold spec = .ok (s, seconds)) :
    ∃ name x unit v, splitHold spec.toList = .ok (name, x, unit) ∧
      Measures x unit v seconds := by
  obtain ⟨w₁, n, w₂, text, x, unit, hspec, hw, hn, hd, hconv⟩ := hold_eq_ok_iff.1 h
  obtain ⟨-, -, -, -, -, -, -, -, ⟨hfin, hnonneg⟩, -⟩ := splitDuration_eq_ok_iff.1 hd
  obtain ⟨a, ha⟩ := Double.isFinite_iff.1 hfin
  rw [hu, convert_time] at hconv
  obtain ⟨scale, hscale, hseconds⟩ := Option.map_eq_some_iff.1 hconv
  obtain ⟨n', p, hparts, -⟩ := parts_secondsPer hscale
  have hb : value? scale = some (size n' p) := by
    rw [value?, hparts]
    rfl
  have hm : Measures x unit (a * size n' p) seconds :=
    .intro ha ((le_iff value?_zero ha).1 hnonneg) hscale hb rfl hseconds.symm
  exact ⟨_, x, unit, _,
    splitHold_eq_ok_iff.2 ⟨w₁, n, w₂, text, hspec, hw, hn.word, rfl, hd⟩, hm⟩

namespace Machine

/-- On a host with the usual units, all that the program keeps for its states was measured. -/
def Measured (host : Host) (p : Program) : Prop :=
  host.units = .time → ∀ seconds ∈ p.holds, ∃ x unit v, Measures x unit v seconds

/-- New programs keep a state for no time, and programming for a time that was read. -/
theorem measured_invariant : Program.Invariant Measured where
  of_fixed hf h hu := h ((congrArg Host.units hf).symm.trans hu)
  blank _ _ _ seconds hseconds := by
    obtain rfl := List.eq_of_mem_replicate hseconds
    exact ⟨_, _, _, Measures.zero⟩
  push h _ := h
  holds h hs hu seconds' hseconds := by
    rcases List.mem_or_eq_of_mem_set hseconds with hmem | rfl
    · exact h hu seconds' hmem
    · obtain ⟨_, x, unit, v, -, hv⟩ := Scope.measures_of_hold (by exact hu) hs
      exact ⟨x, unit, v, hv⟩
  hooks _ _ h := h

variable {m : Machine} {host : Host}

theorem Reachable.measured (hr : m.Reachable host) : m.Meets Measured host :=
  Reachable.meets measured_invariant hr

/-- On a host with the usual units, a hold that can be read is of a number of a unit of time, and
whatever a machine keeps for a state is so, too. Its seconds are never negative, and they are finite
if and only if the exact number of them is below the limit of doubles. -/
theorem Reachable.durations (hr : m.Reachable host) (hu : host.units = .time) :
    (∀ (sc : Scope) (spec : String) (s : Nat) (seconds : Float), sc.host.units = .time →
      sc.hold spec = .ok (s, seconds) →
        ∃ name x unit v, splitHold spec.toList = .ok (name, x, unit) ∧
          Measures x unit v seconds ∧ 0 ≤ seconds ∧ (seconds.isFinite = true ↔ v < limit)) ∧
    ∀ p, m.program? = some p → ∀ seconds ∈ p.holds, ∃ x unit v,
      Measures x unit v seconds ∧ 0 ≤ seconds ∧ (seconds.isFinite = true ↔ v < limit) := by
  refine ⟨fun sc spec s seconds hu' hspec => ?_, fun p hp seconds hseconds => ?_⟩
  · obtain ⟨name, x, unit, v, hsplit, hv⟩ := Scope.measures_of_hold hu' hspec
    exact ⟨name, x, unit, v, hsplit, hv, hv.nonneg, hv.isFinite_iff⟩
  · obtain ⟨x, unit, v, hv⟩ := hr.measured p hp hu seconds hseconds
    exact ⟨x, unit, v, hv, hv.nonneg, hv.isFinite_iff⟩

/-- The switch is kept on for a finite time, and off for none. -/
theorem durations_switch : ∃ (m : Machine) (host : Host) (p : Program), m.Reachable host ∧
    m.program? = some p ∧ p.holds = [0.0, 5.0] ∧ ∀ seconds ∈ p.holds, ∃ x unit v,
      Measures x unit v seconds ∧ 0 ≤ seconds := by
  let done := Machine.afterAll {} switchHost switchOperations
  have hr : Reachable done.1 done.2 := ⟨{}, switchHost, switchOperations, rfl⟩
  obtain ⟨p, hp⟩ : ∃ p, done.1.program? = some p :=
    Option.isSome_iff_exists.1 (by decide +kernel)
  have hholds : (done.1.program?.map (·.holds)) = some [0.0, 5.0] := by decide +kernel
  rw [hp, Option.map_some, Option.some.injEq] at hholds
  refine ⟨done.1, done.2, p, hr, hp, hholds, fun seconds hseconds => ?_⟩
  obtain ⟨x, unit, v, hv, hle, -⟩ := (hr.durations rfl).2 p hp seconds hseconds
  exact ⟨x, unit, v, hv, hle⟩

/-- More minutes than a double can show in seconds are read as an infinite hold, and kept. -/
theorem infinite_hold_switch :
    let sc : Scope := ⟨switchHost, [⟨"OFF", 0⟩, ⟨"ON", 1⟩], 2⟩
    let done := Machine.afterAll {} switchHost [.bind "switch", .addHold "ON=1e308min"]
    sc.host.units = .time ∧ sc.hold "ON=1e308min" = .ok (1, infinity false) ∧
      (infinity false).isFinite = false ∧ done.1.Reachable done.2 ∧
      done.1.hold? 1 = some (infinity false) :=
  ⟨rfl, by decide +kernel, by decide +kernel, ⟨{}, switchHost, _, Prod.mk.eta.symm⟩,
    by decide +kernel⟩

end Machine

end Dwell

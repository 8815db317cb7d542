import Dwell.Double.Parts

/-!
# Instants

A point on the clock, in whole seconds within the 64-bit range. The greatest instant is `never`:
it stands for "no wake-up is needed" and for "no dwell is owed", and sorts after every other.
Instants that an operation would move past the range become `never`.
-/

namespace Dwell

structure Instant where
  seconds : Int
  lower : -0x8000000000000000 ≤ seconds := by decide
  upper : seconds ≤ 0x7FFFFFFFFFFFFFFF := by decide
  deriving DecidableEq, Repr

namespace Instant

@[ext] theorem ext {s t : Instant} (h : s.seconds = t.seconds) : s = t := by
  cases s; cases t; simp_all

def zero : Instant where
  seconds := 0

def never : Instant where
  seconds := 0x7FFFFFFFFFFFFFFF

instance : Inhabited Instant := ⟨zero⟩

/-- The instant nearest to a number of seconds. -/
def clamp (n : Int) : Instant where
  seconds := max (-0x8000000000000000) (min n 0x7FFFFFFFFFFFFFFF)
  lower := by omega
  upper := by omega

instance : LE Instant := ⟨fun s t => s.seconds ≤ t.seconds⟩
instance : LT Instant := ⟨fun s t => s.seconds < t.seconds⟩

theorem le_iff {s t : Instant} : s ≤ t ↔ s.seconds ≤ t.seconds := Iff.rfl

theorem lt_iff {s t : Instant} : s < t ↔ s.seconds < t.seconds := Iff.rfl

instance (s t : Instant) : Decidable (s ≤ t) := inferInstanceAs (Decidable (s.seconds ≤ t.seconds))
instance (s t : Instant) : Decidable (s < t) := inferInstanceAs (Decidable (s.seconds < t.seconds))

instance : Min Instant := ⟨fun s t => if s ≤ t then s else t⟩

theorem le_never (t : Instant) : t ≤ never := t.upper

theorem seconds_clamp {n : Int} (h₁ : -0x8000000000000000 ≤ n) (h₂ : n ≤ 0x7FFFFFFFFFFFFFFF) :
    (clamp n).seconds = n := by
  simp only [clamp]; omega

/-- The instant a number of seconds later, or `never` when the clock does not reach it. -/
def later (t : Instant) (n : Int) : Instant :=
  if 0x7FFFFFFFFFFFFFFF < t.seconds + n then never else clamp (t.seconds + n)

theorem lt_later {t : Instant} {n : Int} (ht : t < never) (hn : 0 < n) : t < t.later n := by
  rw [lt_iff] at *
  rw [later]
  split
  · exact ht
  · rw [seconds_clamp] <;> have := t.lower <;> omega

theorem lt_min {r s t : Instant} : r < min s t ↔ r < s ∧ r < t := by
  simp only [min, lt_iff]
  split <;> simp_all only [le_iff] <;> omega

/-- The seconds from `earlier` to `t`, infinite when either is `never`. A difference beyond the
64-bit range counts as its end. -/
def secondsSince (t earlier : Instant) : Float :=
  if t = never ∨ earlier = never then Double.infinity false
  else Double.ofInt (clamp (t.seconds - earlier.seconds)).seconds

/-- The end of a dwell of `seconds` that begins at `t`, rounded up to a whole second. A dwell that
is not positive and finite has no end, nor has one of `2 ^ 63` seconds or more. -/
def after (t : Instant) (seconds : Float) : Instant :=
  if t = never ∨ ¬ 0 < seconds then never
  else match Double.ceil? seconds with
    | none => never
    | some n => if 0x8000000000000000 ≤ n then never else t.later n

/-- The first multiple of the granularity that is not before `t`. A granularity of one or less
leaves `t` as it is. -/
def soften (t : Instant) (granularity : Int) : Instant :=
  if t = never ∨ granularity ≤ 1 then t
  else if t.seconds % granularity = 0 then t
  else t.later (granularity - t.seconds % granularity)

/-- An instant as log lines and diagnostics show it. -/
def text (t : Instant) : String :=
  if t = never then "NEVER" else toString t.seconds

end Instant

end Dwell

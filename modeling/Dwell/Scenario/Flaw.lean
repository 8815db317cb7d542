import Dwell.Scenario.Basic

/-!
# What is wrong with a scenario

A scenario that was read may still make no sense as a whole. Its flaws are looked for in a fixed
order, and the first one counts.
-/

namespace Dwell

inductive Flaw where
  | stopBeforeStart (stop start : Instant)
  | maxStep (seconds : Int)
  | granularity (seconds : Int)
  | repeatedHost (name : String)
  deriving DecidableEq, Repr

def Flaw.message : Flaw → String
  | .stopBeforeStart stop start =>
    s!"clock.stop ({stop.seconds}) is before clock.start ({start.seconds})"
  | .maxStep seconds => s!"clock.max_step must be positive, got {seconds}"
  | .granularity seconds => s!"engine.granularity must be positive, got {seconds}"
  | .repeatedHost name => s!"duplicate object name '{name}'"

/-- A flaw as the failure of a scenario's validation. -/
def Flaw.text (f : Flaw) : String :=
  "configuration validation failed: " ++ f.message

/-- The first text that stands behind an equal one, or is one of those seen before. -/
def firstRepeat? (seen : List String) : List String → Option String
  | [] => none
  | s :: ss => if s ∈ seen then some s else firstRepeat? (s :: seen) ss

/-- The first flaw of a scenario. -/
def Scenario.flaw? (s : Scenario) : Option Flaw :=
  let w := s.window
  if w.stop < w.start then some (.stopBeforeStart w.stop w.start)
  else if w.maxStep ≤ 0 then some (.maxStep w.maxStep)
  else if s.options.granularity ≤ 0 then some (.granularity s.options.granularity)
  else (firstRepeat? [] (s.hosts.map (·.name))).map .repeatedHost

theorem firstRepeat?_eq_none_iff {seen ss : List String} :
    firstRepeat? seen ss = none ↔ ss.Nodup ∧ ∀ s ∈ ss, s ∉ seen := by
  induction ss generalizing seen with
  | nil => simp [firstRepeat?]
  | cons s ss ih =>
    by_cases h : s ∈ seen
    · simp [firstRepeat?, h]
    · simp only [firstRepeat?, h, if_false, ih, List.nodup_cons, List.mem_cons]
      grind

end Dwell

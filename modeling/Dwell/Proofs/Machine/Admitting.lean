import Dwell.Proofs.Machine.WellFormed
import Mathlib.Data.Set.Subsingleton
import Mathlib.Order.Bounds.Basic

/-!
# Which enumerations have machines

A machine is bound to an enumeration that has a positive state value (`Machine.bind_ok_iff`), and
has the states up to the greatest one (`Machine.states_bind`). So each enumeration with two state
values is admitted; one with a single state value is admitted unless that is zero.
-/

namespace Dwell

/-- The values of keywords that are states. -/
def KeywordTable.stateValues (table : KeywordTable) : Set Int :=
  {v | 0 ≤ v ∧ v ≤ Machine.greatestState ∧ ∃ k ∈ table, k.value = v}

namespace Machine

variable {table : KeywordTable}

theorem statesOf_le_iff {n : Nat} : statesOf table ≤ n ↔ ∀ v ∈ table.stateValues, v < n := by
  rw [statesOf, foldl_states_le_iff]
  constructor
  · rintro ⟨-, h⟩ _ ⟨h₀, hmax, k, hk, rfl⟩
    have hlt := h k hk h₀ hmax
    omega
  · intro h
    refine ⟨Nat.zero_le n, fun k hk h₀ hmax => ?_⟩
    have hlt := h k.value ⟨h₀, hmax, k, hk, rfl⟩
    omega

theorem two_le_statesOf_iff : 2 ≤ statesOf table ↔ ∃ v ∈ table.stateValues, 0 < v := by
  rw [← not_lt, Nat.lt_succ_iff, statesOf_le_iff]
  push Not
  refine exists_congr fun v => and_congr_right fun _ => ?_
  omega

theorem isGreatest_statesOf (h : 0 < statesOf table) :
    IsGreatest table.stateValues ((statesOf table : Int) - 1) := by
  have hlt : ∀ v ∈ table.stateValues, v < statesOf table := statesOf_le_iff.1 le_rfl
  refine ⟨?_, fun v hv => by have := hlt v hv; omega⟩
  -- Otherwise the states would be fewer.
  by_contra hnot
  have hle : statesOf table ≤ statesOf table - 1 := by
    refine statesOf_le_iff.2 fun v hv => ?_
    have hne : v ≠ (statesOf table : Int) - 1 := fun heq => hnot (heq ▸ hv)
    have := hlt v hv
    omega
  omega

/-- Two state values make two states, and so does one that is not zero. -/
theorem nontrivial_stateValues_iff :
    table.stateValues.Nontrivial ↔ 2 ≤ statesOf table ∧ ∀ v, table.stateValues ≠ {v} := by
  rw [two_le_statesOf_iff]
  constructor
  · intro h
    obtain ⟨v, hv, hne⟩ := h.exists_ne 0
    exact ⟨⟨v, hv, lt_of_le_of_ne hv.1 hne.symm⟩, fun _ => h.ne_singleton⟩
  · rintro ⟨⟨v, hv, -⟩, hne⟩
    rcases Set.Nonempty.exists_eq_singleton_or_nontrivial ⟨v, hv⟩ with ⟨w, hw⟩ | h
    · exact absurd hw (hne w)
    · exact h

variable {m : Machine} {host : Host} {property : String} {e : Enumeration}

theorem bind_ok_iff (hp : host.property? property = some (.enumeration e)) :
    (m.bind host property).answer = .ok () ↔ 2 ≤ statesOf e.keywords := by
  rw [bind, hp]
  dsimp only
  split
  · simp [refuse]
    omega
  · simp
    omega

theorem states_bind (hp : host.property? property = some (.enumeration e))
    (h : 2 ≤ statesOf e.keywords) :
    (m.bind host property).machine.states = statesOf e.keywords := by
  rw [bind, hp]
  dsimp only
  rw [if_neg (by omega)]
  simp [states, Program.states, Program.blank, RuleGraph.states_ofStates]

/-- A machine is bound to a property just when it is an enumeration with a positive state value, and
then has the states up to the greatest. Two state values are enough, and what else is admitted has
a single one. -/
theorem bind_admits (m : Machine) (host : Host) (property : String) :
    ((m.bind host property).answer = .ok () ↔
      ∃ e, host.property? property = some (.enumeration e) ∧ ∃ v ∈ e.keywords.stateValues, 0 < v) ∧
    ∀ e, host.property? property = some (.enumeration e) →
      ((m.bind host property).answer = .ok () → IsGreatest e.keywords.stateValues
        (((m.bind host property).machine.states : Int) - 1)) ∧
      (e.keywords.stateValues.Nontrivial ↔
        (m.bind host property).answer = .ok () ∧ ∀ v, e.keywords.stateValues ≠ {v}) := by
  refine ⟨⟨fun h => ?_, ?_⟩, fun e hp => ⟨fun h => ?_, ?_⟩⟩
  · rcases m.bind_cases host property with ⟨_, _, he⟩ | ⟨e, _, hp, hs, -⟩
    · rw [he] at h
      cases h
    · exact ⟨e, hp, two_le_statesOf_iff.1 hs⟩
  · rintro ⟨e, hp, hv⟩
    exact (bind_ok_iff hp).2 (two_le_statesOf_iff.2 hv)
  · have hs := (bind_ok_iff hp).1 h
    rw [states_bind hp hs]
    exact isGreatest_statesOf (by omega)
  · rw [bind_ok_iff hp]
    exact nontrivial_stateValues_iff

/-- A beacon with a single mode. -/
def beacon : Host :=
  ({ name := "beacon" } : Host).withEnumeration "mode" ⟨[⟨"ON", 1⟩], []⟩ 1

/-- A machine is bound to the mode of the beacon, although that has no two values. -/
theorem bind_beacon : (Machine.bind {} beacon "mode").answer = .ok () ∧
    ∃ e, beacon.property? "mode" = some (.enumeration e) ∧ ¬ e.keywords.stateValues.Nontrivial := by
  refine ⟨rfl, _, rfl, ?_⟩
  rintro ⟨_, ⟨-, -, k, hk, rfl⟩, _, ⟨-, -, k', hk', rfl⟩, hne⟩
  obtain rfl := List.mem_singleton.1 hk
  obtain rfl := List.mem_singleton.1 hk'
  exact hne rfl

end Machine

end Dwell

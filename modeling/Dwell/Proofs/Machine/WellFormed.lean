import Dwell.Machine.Directive
import Dwell.Proofs.Machine.Programming
import Dwell.Proofs.Rule
import Mathlib.Tactic.Tauto

/-!
# Well-formed programs

A program is bound to an enumeration of its host, and has a hold, a hook and a row of candidates
for each state; candidates lead to states that have a name. Binding gives such a program, and
every operation that changes a program keeps it so (`Program.wellFormed_invariant`).
-/

namespace Dwell

namespace Program

structure WellFormed (host : Host) (p : Program) : Prop where
  keywords : ∃ e, host.enumerations.lookup p.variableName = some e ∧ e.keywords = p.keywords
  two_le : 2 ≤ p.states
  states_eq : p.states = Machine.statesOf p.keywords
  holds : p.holds.length = p.states
  hooks : p.hooks.length = p.states
  tests : ∀ s, ∀ c ∈ p.rules.candidates s, c.tests ≠ []
  targets : ∀ s, ∀ c ∈ p.rules.candidates s, c.target < p.states ∧ p.keywords.Names c.target

variable {host host' : Host} {p : Program}

theorem wellFormed_of_fixed (hf : host'.fixed = host.fixed) (h : p.WellFormed host) :
    p.WellFormed host' := by
  have he : host'.enumerations = host.enumerations := congrArg (·.enumerations) hf
  obtain ⟨hk, h⟩ := h
  rw [← he] at hk
  exact ⟨hk, by assumption, by assumption, by assumption, by assumption, by assumption,
    by assumption⟩

theorem candidates_ofStates (count s : Nat) : (RuleGraph.ofStates count).candidates s = [] := by
  simp only [RuleGraph.ofStates, RuleGraph.candidates, List.getElem?_replicate]
  split <;> rfl

theorem wellFormed_blank {name : String} {e : Enumeration}
    (he : host.enumerations.lookup name = some e) (hs : 2 ≤ Machine.statesOf e.keywords) :
    (blank name e.keywords (Machine.statesOf e.keywords)).WellFormed host where
  keywords := ⟨e, he, rfl⟩
  two_le := by simpa [states, blank, RuleGraph.states_ofStates] using hs
  states_eq := by simp [states, blank, RuleGraph.states_ofStates]
  holds := by simp [states, blank, RuleGraph.states_ofStates]
  hooks := by simp [states, blank, RuleGraph.states_ofStates]
  tests := by simp [blank, candidates_ofStates]
  targets := by simp [blank, candidates_ofStates]

theorem WellFormed.push (h : p.WellFormed host) {origin : Nat} {c : Candidate}
    (ht : c.tests ≠ []) (hc : c.target < p.states ∧ p.keywords.Names c.target) :
    WellFormed host { p with rules := p.rules.push origin c } := by
  have hstates : Program.states { p with rules := p.rules.push origin c } = p.states :=
    RuleGraph.states_push ..
  refine ⟨h.keywords, hstates ▸ h.two_le, hstates ▸ h.states_eq, hstates ▸ h.holds,
    hstates ▸ h.hooks, fun s c' hc' => ?_, fun s c' hc' => ?_⟩
  · rcases RuleGraph.mem_candidates_push hc' with hc' | rfl
    · exact h.tests s c' hc'
    · exact ht
  · rw [hstates]
    rcases RuleGraph.mem_candidates_push hc' with hc' | rfl
    · exact h.targets s c' hc'
    · exact hc

theorem WellFormed.setHold (h : p.WellFormed host) (s : Nat) (seconds : Float) :
    WellFormed host { p with holds := p.holds.set s seconds } :=
  ⟨h.keywords, h.two_le, h.states_eq, (List.length_set ..).trans h.holds, h.hooks, h.tests,
    h.targets⟩

theorem WellFormed.setHook (h : p.WellFormed host) (s : Nat) (k : Option Hook) :
    WellFormed host { p with hooks := p.hooks.set s k } :=
  ⟨h.keywords, h.two_le, h.states_eq, h.holds, (List.length_set ..).trans h.hooks, h.tests,
    h.targets⟩

end Program

namespace Machine

section StatesOf

/-- The states that keywords have, after some that were counted before. -/
theorem foldl_states_le_iff {n : Nat} : ∀ (table : KeywordTable) (count : Nat),
    table.foldl (fun n k =>
      if 0 ≤ k.value ∧ k.value ≤ greatestState then max n (k.value.toNat + 1) else n) count ≤ n ↔
    count ≤ n ∧ ∀ k ∈ table, 0 ≤ k.value → k.value ≤ greatestState → k.value.toNat < n
  | [], count => by simp
  | k :: table, count => by
    rw [List.foldl_cons, foldl_states_le_iff table, List.forall_mem_cons]
    split
    · rw [Nat.max_le, Nat.add_one_le_iff]
      tauto
    · rename_i hk
      constructor
      · rintro ⟨h₁, h₂⟩
        exact ⟨h₁, fun h h' => absurd ⟨h, h'⟩ hk, h₂⟩
      · rintro ⟨h₁, -, h₂⟩
        exact ⟨h₁, h₂⟩

theorem statesOf_le (table : KeywordTable) : statesOf table ≤ 257 := by
  refine (foldl_states_le_iff table 0).2 ⟨by omega, fun k _ _ h => ?_⟩
  rw [greatestState] at h
  omega

theorem lt_statesOf {table : KeywordTable} {k : Keyword} (hk : k ∈ table) (h₀ : 0 ≤ k.value)
    (h : k.value ≤ greatestState) : k.value.toNat < statesOf table :=
  ((foldl_states_le_iff table 0).1 (Nat.le_refl _)).2 k hk h₀ h

end StatesOf

/-- If the machine is bound, its program is well-formed. -/
def WellFormed (host : Host) (m : Machine) : Prop :=
  ∀ p, m.program? = some p → p.WellFormed host

end Machine

/-- Binding gives a well-formed program, and programming keeps it well-formed. -/
theorem Program.wellFormed_invariant : Program.Invariant fun host p => p.WellFormed host where
  of_fixed hf h := wellFormed_of_fixed hf h
  blank hp hs := wellFormed_blank (Host.property?_eq_enumeration hp) hs
  push h hr := by
    obtain ⟨-, ⟨name, hn⟩, ht⟩ := Scope.rule_ok hr
    exact h.push ht ⟨(KeywordTable.state?_eq_some hn).2, KeywordTable.names_of_state? hn⟩
  holds h _ := h.setHold _ _
  hooks s k h := h.setHook s k

end Dwell

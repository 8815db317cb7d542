import Dwell.Rule.Comparison

/-!
# Rules

A candidate is a way out of a state: all its tests must be true for it to lead to its target. A
graph holds, for every state, its candidates in the order they were added; they are alternatives.
-/

namespace Dwell

structure Candidate where
  target : Nat
  tests : List Comparison := []

/-- How a row of tests came out: all true, or the position and outcome of the first that is not. -/
inductive Judgement where
  | satisfied
  | stopped (position : Nat) (outcome : Outcome)
  deriving DecidableEq, Repr

namespace Candidate

/-- Judges tests from left to right up to the first that is not true; `position` is the place of
the first one. -/
def judgeFrom (host : Host) (frame : Frame) (position : Nat) : List Comparison → Judgement
  | [] => .satisfied
  | t :: ts => match t.outcome host frame with
    | .isTrue => judgeFrom host frame (position + 1) ts
    | o => .stopped position o

def judge (c : Candidate) (host : Host) (frame : Frame) : Judgement :=
  judgeFrom host frame 0 c.tests

/-- The sources asked by tests judged from left to right up to the first that is not true. -/
def readsOf (host : Host) (frame : Frame) : List Comparison → List SourceRead
  | [] => []
  | t :: ts => t.reads host frame ++
    if t.outcome host frame = .isTrue then readsOf host frame ts else []

def reads (c : Candidate) (host : Host) (frame : Frame) : List SourceRead :=
  readsOf host frame c.tests

end Candidate

/-- The candidates of each state, by its number. -/
structure RuleGraph where
  byOrigin : List (List Candidate) := []

namespace RuleGraph

/-- The graph of a number of states without any rules. -/
def ofStates (count : Nat) : RuleGraph where
  byOrigin := List.replicate count []

def states (g : RuleGraph) : Nat :=
  g.byOrigin.length

/-- A graph with one more candidate for a state, after those it has. A state the graph does not
have gets none. -/
def push (g : RuleGraph) (origin : Nat) (c : Candidate) : RuleGraph where
  byOrigin := g.byOrigin.modify origin (· ++ [c])

def candidates (g : RuleGraph) (origin : Nat) : List Candidate :=
  (g.byOrigin[origin]?).getD []

/-- The number of candidates of all states together. -/
def size (g : RuleGraph) : Nat :=
  g.byOrigin.flatten.length

theorem states_ofStates (count : Nat) : (ofStates count).states = count := by
  simp [ofStates, states]

theorem states_push (g : RuleGraph) (origin : Nat) (c : Candidate) :
    (g.push origin c).states = g.states := by
  simp [push, states]

theorem candidates_push (g : RuleGraph) (origin s : Nat) (c : Candidate) :
    (g.push origin c).candidates s =
      if s = origin ∧ origin < g.states then g.candidates s ++ [c] else g.candidates s := by
  simp only [push, candidates, states, List.getElem?_modify]
  by_cases h : origin = s
  · subst h
    by_cases hl : origin < g.byOrigin.length <;> simp [hl]
  · simp [h, Ne.symm h]

theorem mem_candidates_push {g : RuleGraph} {origin s : Nat} {c c' : Candidate}
    (h : c' ∈ (g.push origin c).candidates s) : c' ∈ g.candidates s ∨ c' = c := by
  rw [candidates_push] at h
  split at h
  · simpa using h
  · exact .inl h

end RuleGraph

end Dwell

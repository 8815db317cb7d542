import Dwell.Proofs.Machine.Reading
import Dwell.Proofs.Rule.Form

/-!
# What operands stand for

A rule is accepted only if its host offers what its operands stand for, and what a host offers stays
as it is. So the operands of a reachable machine are all offered (`Reachable.offered`). An element
of an array can then always be read, while a source may fail at any read: on a host without sources
every test of the machine is decided, true or false, whatever the present values are
(`Reachable.decides`), and so is every candidate that a tick examines (`Decides.isDecided`).
-/

namespace Dwell

namespace Host

/-- The host has what an operand stands for. Of a source this is known as far as it says how many
elements it has. -/
inductive Offers (host : Host) : Operand → Prop
  | literal {x} : Offers host (.literal x)
  | timer : Offers host .timer
  | state : Offers host .state
  | array {property index length} :
    host.property? property = some (.array length) → index < length →
    Offers host (.element property index)
  | source {property index s} :
    host.property? property = some (.source s) → (∀ length ∈ s.elements, index < length) →
    Offers host (.element property index)

variable {host host' : Host} {o : Operand}

theorem Offers.of_fixed (hf : host'.fixed = host.fixed) (h : host.Offers o) : host'.Offers o := by
  cases h with
  | literal => exact .literal
  | timer => exact .timer
  | state => exact .state
  | array hp hlt => exact .array (by rwa [property?_of_fixed hf]) hlt
  | source hp hlt => exact .source (by rwa [property?_of_fixed hf]) hlt

/-- Without sources, what is offered has a value, whatever the readings are. -/
theorem Offers.value?_isSome (h : host.Offers o) (hs : host.sources = []) (frame : Frame) :
    (o.value? host frame).isSome = true := by
  cases h with
  | literal | timer | state => rfl
  | array hp hlt => simp [Operand.value?, read?, hp, element?, property?_eq_array hp, hlt]
  | source hp _ => exact absurd hp (property?_ne_source hs _)

end Host

namespace Scope

variable {sc : Scope} {o : Operand}

theorem offers_of_hasElement {property : String} {index : Nat}
    (h : sc.HasElement property index) : sc.host.Offers (.element property index) := by
  cases h with
  | array hp hlt => exact .array hp hlt
  | source hp hlt => exact .source hp hlt

theorem offers_of_denotes {token : List Char} (h : sc.Denotes token o) : sc.host.Offers o := by
  cases h with
  | timer => exact .timer
  | state => exact .state
  | literal => exact .literal
  | scalar _ _ he | element _ _ _ he => exact offers_of_hasElement he

theorem offers_of_writesTest {text : List Char} {t : Comparison} (h : sc.WritesTest text t) :
    ∀ side, sc.host.Offers (t.side side) := by
  cases h with
  | intro _ _ _ _ _ hleft hright =>
    intro side
    cases side with
    | left => exact offers_of_denotes hleft
    | right => exact offers_of_denotes hright

theorem offers_of_writesTests {texts : List (List Char)} {ts : List Comparison}
    (h : List.Forall₂ sc.WritesTest texts ts) : ∀ t ∈ ts, ∀ side, sc.host.Offers (t.side side) := by
  induction h with
  | nil => simp
  | cons ht _ ih => exact List.forall_mem_cons.2 ⟨offers_of_writesTest ht, ih⟩

/-- The tests of a rule that is accepted stand for what the host offers. -/
theorem offers_of_rule {spec : String} {origin : Nat} {c : Candidate}
    (h : (sc.rule spec).1 = .ok (origin, c)) :
    ∀ t ∈ c.tests, ∀ side, sc.host.Offers (t.side side) := by
  obtain ⟨_, -, htests⟩ := rule_eq_ok_iff_ruleHead.1 h
  exact offers_of_writesTests ((comparisons_eq_ok_iff _).1 (tests_eq_ok_iff.1 htests).1)

end Scope

/-- Each element that the test compares is one of an array of the host, and the test is true or
false there, whatever the present values are. -/
structure Comparison.Decided (host : Host) (t : Comparison) : Prop where
  elements : ∀ side property index, t.side side = .element property index →
    ∃ length, host.property? property = some (.array length) ∧ index < length
  outcome : ∀ host' : Host, host'.fixed = host.fixed → ∀ frame,
    t.outcome host' frame = .isTrue ∨ t.outcome host' frame = .isFalse

section Decided

variable {host host' : Host} {t : Comparison}

theorem Comparison.decided_of_offers (h : ∀ side, host.Offers (t.side side))
    (hs : host.sources = []) : t.Decided host where
  elements side property index ho := by
    have hside := ho ▸ h side
    cases hside with
    | array hp hlt => exact ⟨_, hp, hlt⟩
    | source hp _ => exact absurd hp (Host.property?_ne_source hs _)
  outcome host' hf frame := by
    have hs' : host'.sources = [] := (congrArg (·.sources) hf).trans hs
    obtain ⟨a, ha⟩ := Option.isSome_iff_exists.1
      (((h .left).of_fixed hf).value?_isSome hs' frame)
    obtain ⟨b, hb⟩ := Option.isSome_iff_exists.1
      (((h .right).of_fixed hf).value?_isSome hs' frame)
    rcases hab : t.comparator.holds a b with _ | _
    · exact .inr (ComesOut.isFalse ha hb hab).outcome_eq
    · exact .inl (ComesOut.isTrue ha hb hab).outcome_eq

theorem Comparison.Decided.of_fixed (hf : host'.fixed = host.fixed) (h : t.Decided host) :
    t.Decided host' where
  elements side property index ho := by
    rw [Host.property?_of_fixed hf]
    exact h.elements side property index ho
  outcome host'' hf' := h.outcome host'' (hf'.trans hf)

/-- All tests were true, or one was false. -/
def Judgement.IsDecided : Judgement → Prop
  | .satisfied => True
  | .stopped _ o => o = .isFalse

theorem Candidate.isDecided_judge {c : Candidate} (h : ∀ t ∈ c.tests, t.Decided host)
    (frame : Frame) : (c.judge host frame).IsDecided := by
  rcases hc : c.judge host frame with _ | ⟨i, o⟩
  · trivial
  obtain ⟨before, t, after, htests, -, -, rfl, hne⟩ := judgeFrom_eq_stopped_iff.1 hc
  have ht : t ∈ c.tests := by simp [htests]
  exact ((h t ht).outcome host rfl frame).resolve_left hne

end Decided

/-- The host offers what the operands of the program stand for. -/
def Program.Offered (host : Host) (p : Program) : Prop :=
  ∀ s, ∀ c ∈ p.rules.candidates s, ∀ t ∈ c.tests, ∀ side, host.Offers (t.side side)

theorem Program.offered_invariant : Program.Invariant Program.Offered where
  of_fixed hf h s c hc t ht side := (h s c hc t ht side).of_fixed hf
  blank _ _ s c hc := by simp [Program.blank, candidates_ofStates] at hc
  push h hr s c hc := by
    rcases RuleGraph.mem_candidates_push hc with hc | rfl
    · exact h s c hc
    · exact Scope.offers_of_rule hr
  holds h _ := h
  hooks _ _ h := h

namespace Machine

variable {m m' : Machine} {host host' : Host}

theorem Reachable.offered (hr : m.Reachable host) : m.Meets Program.Offered host :=
  Reachable.meets Program.offered_invariant hr

/-- The machine has a rule with the test. -/
def HasTest (m : Machine) (t : Comparison) : Prop :=
  ∃ p, m.program? = some p ∧ ∃ s, ∃ c ∈ p.rules.candidates s, t ∈ c.tests

/-- Every test of the machine is decided on the host. -/
def Decides (host : Host) (m : Machine) : Prop :=
  ∀ t, m.HasTest t → t.Decided host

theorem Reachable.decides (hr : m.Reachable host) (hs : host.sources = []) : m.Decides host :=
  fun t ⟨p, hp, s, c, hc, ht⟩ => Comparison.decided_of_offers (hr.offered p hp s c hc t ht) hs

theorem Decides.of_fixed (hf : host'.fixed = host.fixed) (h : m.Decides host) : m.Decides host' :=
  fun t ht => (h t ht).of_fixed hf

theorem decides_of_program? (hp : m'.program? = m.program?) (h : m.Decides host) :
    m'.Decides host :=
  fun t ht => h t (by rwa [HasTest, hp] at ht)

theorem Examined.isDecided {origin : Nat} {policy : Scan} {frame : Frame} {position : Nat}
    {cs : List Candidate} {seen : List (Nat × Nat × Judgement)}
    (h : Examined origin policy frame host position cs seen)
    (hcs : ∀ c ∈ cs, ∀ t ∈ c.tests, t.Decided host) : ∀ x ∈ seen, x.2.2.IsDecided := by
  induction h with
  | none => simp
  | passed _ _ ih =>
    rw [List.forall_mem_cons] at hcs
    exact List.forall_mem_cons.2 ⟨Candidate.isDecided_judge hcs.1 frame, ih hcs.2⟩
  | ended => simp [Judgement.IsDecided]
  | fired _ _ hf _ ih =>
    rw [List.forall_mem_cons] at hcs
    exact List.forall_mem_cons.2
      ⟨trivial, ih fun c hc t ht => (hcs.2 c hc t ht).of_fixed hf⟩

/-- What a tick examines is decided. -/
theorem Decides.isDecided (h : m.Decides host) (now horizon : Instant) :
    ∀ x ∈ Journal.examinations (m.tickUntil host now horizon).journal, x.2.2.IsDecided := by
  by_cases hblind : ∀ p, m.program? = some p →
      m.isHeld now horizon = true ∨ p.stateOf? (host.level p.variableName) = none
  · -- Nothing is examined.
    rw [(isBlind_tickUntil host now horizon hblind).examinations]
    simp
  · push Not at hblind
    obtain ⟨p, hp, hh, hs⟩ := hblind
    obtain ⟨s, hs⟩ := Option.ne_none_iff_exists'.1 hs
    exact (examined_tickUntil m host now horizon hp (by simpa using hh) hs).isDecided
      fun c hc t ht => h t ⟨p, hp, s, c, hc, ht⟩

end Machine

end Dwell

import Dwell.Proofs.Machine.History
import Dwell.Proofs.Machine.Programming

/-!
# A dwell holds until it ends

After a tick that fired into a state with a dwell, ticks before the end of the dwell answer that
end and do nothing else, whatever is written to the host and whatever rules, holds and hooks are
added in between; the first tick at the end or later examines the candidates again.
-/

namespace Dwell

/-- Until `due`, the machine is only ticked, its host written from outside, or rules, holds and
hooks added; bindings are refused. -/
def Deed.isInterim (due : Instant) (d : Deed) : Prop :=
  match d.operation with
  | .tick now horizon => now < due ∧ horizon = .never
  | .bind _ => ∃ fault, d.effect.answer = .programmed (.error fault)
  | .addRule _ | .addHold _ | .setHook _ _ | .outside _ => True
  | .configure _ _ | .init _ | .reset _ | .clear | .setValue _ | .setOptions _ => False

/-- A tick that was held by a dwell that is due: it answers so, and only refreshes the time spent
in the state, which was entered at `entry` with the value `x`. -/
def Deed.isHeld (x : Float) (entry due now : Instant) (d : Deed) : Prop :=
  d.machine.value = x ∧ d.machine.entryTime = entry ∧ d.machine.holdUntil = due ∧
    d.effect = ⟨.wake due, { d.machine with elapsed := now.secondsSince entry }, d.host, []⟩

namespace Machine

/-- A machine bound to a variable that entered its state at `entry` and owes a dwell. -/
structure Dwells (name : String) (x : Float) (entry due : Instant) (m : Machine) : Prop where
  boundTo? : m.boundTo? = some name
  value : m.value = x
  entryTime : m.entryTime = entry
  holdUntil : m.holdUntil = due

variable {m : Machine} {host : Host} {name : String} {x : Float} {entry due : Instant}

theorem Dwells.reprogram (h : m.Dwells name x entry due) {p p' : Program}
    (hp : m.program? = some p) (hn : p'.variableName = p.variableName) :
    Dwells name x entry due { m with program? := some p' } where
  boundTo? := by
    have hb := h.boundTo?
    simp only [Machine.boundTo?, hp] at hb
    simpa [Machine.boundTo?, hn] using hb
  value := h.value
  entryTime := h.entryTime
  holdUntil := h.holdUntil

/-- What happens before the dwell ends leaves it alone, and ticks are held. -/
theorem Dwells.perform (hdue : due ≠ .never) (op : Operation) (h : m.Dwells name x entry due)
    (hi : Deed.isInterim due ⟨op, m, host, m.perform host op⟩) :
    (∀ now horizon, op = .tick now horizon →
        Deed.isHeld x entry due now ⟨op, m, host, m.perform host op⟩) ∧
      (m.perform host op).machine.Dwells name x entry due := by
  cases op with
  | bind property =>
    refine ⟨by simp, ?_⟩
    obtain ⟨fault, hf⟩ := hi
    rcases m.bind_cases host property with ⟨_, _, he⟩ | ⟨_, _, -, -, he⟩
    · simpa only [Machine.perform, Effect.map, he] using h
    · simp [Machine.perform, Effect.map, he] at hf
  | addRule spec =>
    refine ⟨by simp, ?_⟩
    rcases m.addRule_cases host spec with ⟨_, _, he⟩ | ⟨p, _, _, _, hp, -, he⟩
    · simpa only [Machine.perform, Effect.map, he] using h
    · simp only [Machine.perform, Effect.map, he]
      exact h.reprogram hp rfl
  | addHold spec =>
    refine ⟨by simp, ?_⟩
    rcases m.addHold_cases host spec with ⟨_, _, he⟩ | ⟨p, _, _, hp, -, he⟩
    · simpa only [Machine.perform, Effect.map, he] using h
    · simp only [Machine.perform, Effect.map, he]
      exact h.reprogram hp rfl
  | setHook state k =>
    refine ⟨by simp, ?_⟩
    rcases m.setHook_cases host state k with ⟨_, _, he⟩ | ⟨p, _, hp, -, he⟩
    · simpa only [Machine.perform, Effect.map, he] using h
    · simp only [Machine.perform, Effect.map, he]
      exact h.reprogram hp rfl
  | tick now horizon =>
    obtain ⟨hnow, rfl⟩ := hi
    obtain ⟨p, hp, -⟩ := Option.map_eq_some_iff.1 h.boundTo?
    have hh : m.isHeld now .never = true := by
      rw [isHeld_iff, h.holdUntil]
      exact ⟨hnow, Instant.ne_never_iff.1 hdue⟩
    have he : m.perform host (.tick now .never)
        = ⟨.wake due, { m with elapsed := now.secondsSince entry }, host, []⟩ := by
      simp only [Machine.perform, tickUntil_of_held host now _ hp hh, Effect.map, h.holdUntil,
        h.entryTime]
    refine ⟨?_, ?_⟩
    · rintro _ _ ⟨⟩
      exact ⟨h.value, h.entryTime, h.holdUntil, he⟩
    · rw [he]
      exact ⟨h.boundTo?, h.value, h.entryTime, h.holdUntil⟩
  | outside write => exact ⟨by simp, h⟩
  | configure | init | reset | clear | setValue | setOptions => exact hi.elim

theorem dwells_tickUntil {p : Program} {now horizon : Instant} {s : Nat}
    (hp : m.program? = some p)
    (hs : (m.tickUntil host now horizon).journal.targets.getLast? = some s)
    (hdue : now.after ((p.holds[s]?).getD 0.0) = due) :
    (m.tickUntil host now horizon).machine.Dwells p.variableName
      (m.tickUntil host now horizon).machine.value now due := by
  rcases hh : m.isHeld now horizon with _ | _
  · obtain ⟨x, hx⟩ := m.tickUntil_machine host now horizon hp hh
    rw [hs] at hx
    have hb := m.tickUntil_program? host now horizon
    refine ⟨?_, rfl, ?_, ?_⟩
    · rw [boundTo?, hb, hp]
      rfl
    · rw [hx]
      rfl
    · rw [hx]
      exact hdue
  · rw [tickUntil_of_held host now horizon hp hh] at hs
    cases hs

theorem Dwells.history (hdue : due ≠ .never) (ops : List Operation)
    (h : m.Dwells name x entry due) (hops : ∀ d ∈ m.history host ops, d.isInterim due) :
    (∀ d ∈ m.history host ops, ∀ now horizon, d.operation = .tick now horizon →
        d.isHeld x entry due now) ∧
      (m.afterAll host ops).1.Dwells name x entry due :=
  @history_induction (fun m _ => m.Dwells name x entry due) (·.isInterim due)
    (fun d => ∀ now horizon, d.operation = .tick now horizon → d.isHeld x entry due now)
    (fun _ _ op h hi => h.perform hdue op hi) ops m host h hops

theorem Dwells.isHeld_eq_false (h : m.Dwells name x entry due) {now : Instant} (hnow : due ≤ now)
    (horizon : Instant) : m.isHeld now horizon = false := by
  refine Bool.eq_false_iff.2 fun hh => ?_
  rw [isHeld_iff, h.holdUntil, ← not_le] at hh
  exact hh.1 hnow

/-- A dwell that a tick at `t` opened holds back every tick before its end, and none from its end
on. -/
theorem held_until_dwell_ends {p : Program} {t horizon : Instant} {s : Nat}
    {opened : Effect Instant} (ho : m.tickUntil host t horizon = opened)
    (hp : m.program? = some p) (hs : opened.journal.targets.getLast? = some s)
    (hdue : t.after ((p.holds[s]?).getD 0.0) = due) (hnever : due ≠ .never)
    (ops : List Operation) (hops : ∀ d ∈ opened.history ops, d.isInterim due) :
    (∀ d ∈ opened.history ops, ∀ now horizon, d.operation = .tick now horizon →
      d.isHeld opened.machine.value t due now ∧
        (-0x8000000000000000 ≤ now.seconds - t.seconds →
          d.effect.machine.elapsed = Double.ofInt (now.seconds - t.seconds))) ∧
    ∀ now horizon m' host', due ≤ now → opened.afterAll ops = (m', host') →
      m'.isHeld now horizon = false ∧
      ∃ p', m'.program? = some p' ∧ p'.variableName = p.variableName ∧
        ∀ state, p'.stateOf? (host'.level p.variableName) = some state →
          Examined state m'.options.scan ⟨now.secondsSince t, m'.value⟩ host' 0
            (p'.rules.candidates state)
            (m'.tickUntil host' now horizon).journal.examinations := by
  subst ho
  obtain ⟨hheld, hend⟩ := (dwells_tickUntil hp hs hdue).history hnever ops hops
  refine ⟨fun d hd now horizon hop => ?_, fun now horizon m' host' hnow hlast => ?_⟩
  · have hd' := hheld d hd now horizon hop
    refine ⟨hd', fun hlow => ?_⟩
    have hnow : now < due := by
      have hi := hops d hd
      rw [Deed.isInterim, hop] at hi
      exact hi.1
    have hhigh := Instant.seconds_after_lt (hdue ▸ hnever)
    rw [hd'.2.2.2]
    refine Instant.secondsSince_eq (Instant.ne_never_of_after (hdue ▸ hnever))
      (Instant.ne_never_of_lt hnow) hlow ?_
    rw [hdue] at hhigh
    rw [Instant.lt_iff] at hnow
    omega
  · rw [Effect.afterAll] at hlast
    rw [hlast] at hend
    have hh := hend.isHeld_eq_false hnow horizon
    obtain ⟨p', hp', hn⟩ := Option.map_eq_some_iff.1 hend.boundTo?
    refine ⟨hh, p', hp', hn, fun state hstate => ?_⟩
    rw [← hn] at hstate
    have hex := m'.examined_tickUntil host' now horizon hp' hh hstate
    rwa [hend.entryTime] at hex

section Switch

/-- A host with a switch that is on or off. -/
def switchHost : Host :=
  Host.withEnumeration { name := "room" } "switch" ⟨[⟨"OFF", 0⟩, ⟨"ON", 1⟩], []⟩ 0

/-- Turns the switch on after a second, stays on for five seconds, and turns it off again. -/
def switchMachine : Machine where
  holdUntil := .never
  program? := some {
    variableName := "switch"
    keywords := [⟨"OFF", 0⟩, ⟨"ON", 1⟩]
    rules := ⟨[[⟨1, [⟨.timer, .ge, .literal 1.0⟩]⟩], [⟨0, [⟨.timer, .ge, .literal 1.0⟩]⟩]]⟩
    holds := [0.0, 5.0]
    hooks := [none, none] }

theorem held_until_dwell_ends_switch :
    let opened := switchMachine.tickUntil switchHost (.clamp 2) .never
    let ops := [Operation.bind "lamp", .tick (.clamp 6) .never, .outside fun _ => {},
      .addRule "ON->OFF=1<2", .tick (.clamp 3) .never]
    opened.journal.targets.getLast? = some 1 ∧
      ∀ d ∈ opened.history ops, ∀ now horizon, d.operation = .tick now horizon →
        d.effect.answer = .wake (.clamp 7) := by
  intro opened ops
  have ho : switchMachine.tickUntil switchHost (.clamp 2) .never = opened := rfl
  have hs : opened.journal.targets.getLast? = some 1 := by decide +kernel
  have hdue : (Instant.clamp 2).after ((([0.0, 5.0] : List Float)[1]?).getD 0.0) = .clamp 7 := by
    decide +kernel
  have hlamp : opened.host.property? "lamp" = none := by
    rw [← Host.property?_fixed, fixed_tickUntil]
    rfl
  have hops : ∀ d ∈ opened.history ops, d.isInterim (.clamp 7) := by
    simp only [ops, Effect.history, history, List.forall_mem_cons]
    refine ⟨?_, ⟨by decide, rfl⟩, trivial, trivial, ⟨by decide, rfl⟩, by simp⟩
    simp only [Deed.isInterim, perform, bind, hlamp]
    exact ⟨_, rfl⟩
  refine ⟨hs, fun d hd now horizon hop => ?_⟩
  obtain ⟨⟨-, -, -, he⟩, -⟩ :=
    (held_until_dwell_ends ho rfl hs hdue (by decide) ops hops).1 d hd now horizon hop
  rw [he]

end Switch

end Machine

end Dwell

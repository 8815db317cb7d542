import Dwell.Proofs.Machine.Replay

/-!
# How long a hold holds

A hold that was added is kept for its state (`Reachable.hold?_addHold`). A machine that enters the
state is held until the hold's seconds have passed, if the clock shows the time at which they have:
then ticks within them do nothing, and a shorter hold would not end later. If the clock does not
show it, the hold is as if it was never added (`Reachable.holds_while_within`).
-/

namespace Dwell

/-- The machine is ticked within `x` seconds from `t`, or its host is written from outside. -/
def Operation.isWithin (t : Instant) (x : Float) : Operation → Prop
  | .tick now horizon => t.Within x now ∧ horizon = .never
  | .outside _ => True
  | _ => False

namespace Machine

variable {m m₀ : Machine} {host host₀ : Host} {p₀ : Program} {spec : String} {s : Nat} {x : Float}
  {t horizon : Instant}

theorem Reachable.hold?_addHold (hr : m₀.Reachable host₀) (hp : m₀.program? = some p₀)
    (hspec : (p₀.scope host₀).hold spec = .ok (s, x)) :
    (m₀.addHold host₀ spec).machine.hold? s = some x := by
  obtain ⟨name, hn⟩ := Scope.hold_ok hspec
  have hs : s < p₀.states := (KeywordTable.state?_eq_some hn).2
  rw [addHold, hp]
  dsimp only
  rw [hspec]
  simp [hold?, (hr.wellFormed p₀ hp).holds, hs]

/-- What happens within a dwell that has an end happens before the end. -/
theorem isInterim_of_isWithin {n : Int} (hn : t.EndsAfter x n) (hx : 0 < x) {d : Deed}
    (h : d.operation.isWithin t x) : d.isInterim (t.after x) := by
  unfold Deed.isInterim
  cases hop : d.operation with
  | tick now horizon =>
    rw [hop] at h
    exact ⟨(hn.within_iff hx).1 h.1, h.2⟩
  | outside write => trivial
  | bind | addRule | addHold | setHook | configure | init | reset | clear | setValue | setOptions =>
    rw [hop] at h
    exact h.elim

/-- Let a positive hold have been added to a state, and a tick at `t` have entered the state. If the
hold has an end, every tick within its seconds is held until then, while nothing but such ticks
happens to the machine, and a shorter hold would end no later. If it has none, nothing is held. -/
theorem Reachable.holds_while_within (hr : m₀.Reachable host₀) (hp₀ : m₀.program? = some p₀)
    (hspec : (p₀.scope host₀).hold spec = .ok (s, x)) (hx : 0 < x)
    (hhold : m.hold? s = (m₀.addHold host₀ spec).machine.hold? s)
    {opened : Effect Instant} (ho : m.tickUntil host t horizon = opened)
    (hs : opened.journal.targets.getLast? = some s) :
    (∀ n, t.EndsAfter x n →
      (∀ ops : List Operation, (∀ op ∈ ops, op.isWithin t x) →
        ∀ d ∈ opened.history ops, ∀ now horizon, d.operation = .tick now horizon →
          d.effect = ⟨.wake (t.after x),
            { d.machine with elapsed := now.secondsSince t }, d.host, []⟩) ∧
      ∀ y, 0 < y → y ≤ x → t.after y ≤ t.after x) ∧
    ((∀ n, ¬ t.EndsAfter x n) → opened.machine.holdUntil = .never ∧
      ∀ now horizon p state, opened.machine.isHeld now horizon = false ∧
        (opened.machine.program? = some p →
          p.stateOf? (opened.host.level p.variableName) = some state →
          Examined state opened.machine.options.scan
            ⟨now.secondsSince t, opened.machine.value⟩ opened.host 0 (p.rules.candidates state)
            (opened.machine.tickUntil opened.host now horizon).journal.examinations)) := by
  subst ho
  rw [hr.hold?_addHold hp₀ hspec] at hhold
  obtain ⟨p, hp, -⟩ := of_targets_tickUntil hs
  have hholds : p.holds[s]? = some x := by simpa [hold?, hp] using hhold
  have hdue : t.after ((p.holds[s]?).getD 0.0) = t.after x := by rw [hholds, Option.getD_some]
  have hd := dwells_tickUntil hp hs hdue
  refine ⟨fun n hn => ⟨fun ops hops d hd' now horizon' hop => ?_, fun y hy hle =>
    hn.after_le_after hy hle⟩, fun hnone => ?_⟩
  · have hinterim : ∀ d ∈ m.tickUntil host t horizon |>.history ops, d.isInterim (t.after x) :=
      fun d hd' => isInterim_of_isWithin hn hx (hops _ (operation_mem_of_mem_history hd'))
    exact ((hd.history (hn.after_ne_never hx) ops hinterim).1 d hd' now horizon' hop).2.2.2
  · have hnever : t.after x = .never := by
      by_contra hne
      obtain ⟨n, hn⟩ := (Instant.after_ne_never_iff hx).1 hne
      exact hnone n hn
    rw [hnever] at hd
    have hh (now horizon' : Instant) :
        (m.tickUntil host t horizon).machine.isHeld now horizon' = false :=
      Bool.eq_false_iff.2 fun h => Instant.not_lt_never horizon' (hd.holdUntil ▸ (isHeld_iff.1 h).2)
    refine ⟨hd.holdUntil, fun now horizon' p state => ⟨hh now horizon', fun hp hstate => ?_⟩⟩
    have hex := examined_tickUntil _ _ now horizon' hp (hh now horizon') hstate
    rwa [hd.entryTime] at hex

theorem holds_while_within_switch :
    let opened := switchMachine.tickUntil switchHost (.clamp 2) .never
    let ops := [Operation.tick (.clamp 6) .never, .outside fun _ => {}, .tick (.clamp 3) .never]
    opened.journal.targets.getLast? = some 1 ∧
      ∀ d ∈ opened.history ops, ∀ now horizon, d.operation = .tick now horizon →
        d.effect.answer = .wake (.clamp 7) := by
  intro opened ops
  let bound : Machine := { program? := some (.blank "switch" [⟨"OFF", 0⟩, ⟨"ON", 1⟩] 2) }
  have hr : bound.Reachable switchHost := ⟨{}, switchHost, [.bind "switch"], rfl⟩
  have hspec : ((Program.blank "switch" [⟨"OFF", 0⟩, ⟨"ON", 1⟩] 2).scope switchHost).hold "ON=5"
      = .ok (1, 5.0) := by decide +kernel
  have hx : (0 : Float) < 5.0 := by decide +kernel
  have hhold : switchMachine.hold? 1 = (bound.addHold switchHost "ON=5").machine.hold? 1 := by
    decide +kernel
  have ho : switchMachine.tickUntil switchHost (.clamp 2) .never = opened := rfl
  have hs : opened.journal.targets.getLast? = some 1 := by decide +kernel
  have hends : (Instant.clamp 2).EndsAfter 5.0 5 := ⟨by decide +kernel, by decide, by decide⟩
  have hafter : (Instant.clamp 2).after 5.0 = .clamp 7 := by decide +kernel
  have hops : ∀ op ∈ ops, op.isWithin (.clamp 2) 5.0 := by
    have hin {now : Instant} (h : now < .clamp 7) : (Instant.clamp 2).Within 5.0 now :=
      (hends.within_iff hx).2 (hafter ▸ h)
    simp only [ops, List.forall_mem_cons]
    exact ⟨⟨hin (by decide), rfl⟩, trivial, ⟨hin (by decide), rfl⟩, by simp⟩
  refine ⟨hs, fun d hd now horizon hop => ?_⟩
  obtain ⟨hheld, -⟩ := hr.holds_while_within rfl hspec hx hhold ho hs
  rw [(hheld 5 hends).1 ops hops d hd now horizon hop, hafter]

/-- A hold of more seconds than the clock can show holds nothing: the switch is turned off a second
after it was turned on, while a hold of five seconds is kept. -/
theorem drops_long_hold_switch :
    let long := (switchMachine.addHold switchHost "ON=1e19").machine
    let opened := long.tickUntil switchHost (.clamp 2) .never
    let short := switchMachine.tickUntil switchHost (.clamp 2) .never
    ∃ x, long.hold? 1 = some x ∧ (5.0 : Float) < x ∧ (Instant.clamp 2).Within x (.clamp 3) ∧
      opened.journal.targets = [1] ∧
      (opened.machine.tickUntil opened.host (.clamp 3) .never).journal.targets = [0] ∧
      switchMachine.hold? 1 = some 5.0 ∧ short.journal.targets = [1] ∧
      (short.machine.tickUntil short.host (.clamp 3) .never).journal.targets = [] := by
  have hvalue : Double.value? 1e19 = some 10000000000000000000 := by decide +kernel
  refine ⟨1e19, by decide +kernel, by decide +kernel, fun v hv => ?_, by decide +kernel,
    by decide +kernel, rfl, by decide +kernel, by decide +kernel⟩
  obtain rfl := Option.some.inj (hvalue.symm.trans hv)
  norm_num [Instant.clamp]

end Machine

end Dwell

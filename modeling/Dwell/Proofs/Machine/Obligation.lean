import Dwell.Proofs.Machine.Debounce

/-!
# How long a dwell is owed

A tick that fires nothing keeps the dwell that is owed if it is held by it, and drops it otherwise,
whether or not the dwell has ended (`holdUntil_tickUntil`). A tick is not held either if its caller
goes on to the end of the dwell or to an earlier time. So after ticks that fired nothing the dwell
is still owed if each of them kept it, and none is owed if one did not (`held_iff_kept`).
-/

namespace Dwell

/-- A tick comes before the end of a dwell, and its caller goes on past it. -/
def Operation.keeps (due : Instant) : Operation → Bool
  | .tick now horizon => now < due && due < horizon
  | _ => true

namespace Machine

/-- The machine entered its state at `entry`, and owes a dwell until `due` if it was kept, or no
dwell if it was dropped. -/
structure Owes (p : Program) (entry due : Instant) (kept : Bool) (m : Machine) : Prop where
  program? : m.program? = some p
  entryTime : m.entryTime = entry
  holdUntil : m.holdUntil = if kept then due else .never

variable {m : Machine} {host : Host} {p : Program} {now horizon entry due t : Instant} {kept : Bool}

/-- A tick that fires nothing leaves the dwell if it was held by it, and no dwell otherwise. -/
theorem holdUntil_tickUntil (hp : m.program? = some p)
    (hnone : (m.tickUntil host now horizon).journal.targets = []) :
    (m.tickUntil host now horizon).machine.holdUntil
        = (if m.isHeld now horizon then m.holdUntil else .never) ∧
      (m.tickUntil host now horizon).machine.entryTime = m.entryTime := by
  rcases hh : m.isHeld now horizon with _ | _
  · obtain ⟨x, hx⟩ := m.tickUntil_machine host now horizon hp hh
    rw [hx, hnone]
    exact ⟨rfl, rfl⟩
  · rw [tickUntil_of_held host now horizon hp hh]
    exact ⟨rfl, rfl⟩

theorem Owes.isHeld (h : m.Owes p entry due kept) (now horizon : Instant) :
    m.isHeld now horizon = (kept && Operation.keeps due (.tick now horizon)) := by
  cases kept with
  | true => simp [Machine.isHeld, Operation.keeps, h.holdUntil]
  | false => simp [Machine.isHeld, h.holdUntil, Instant.not_lt_never]

theorem Owes.perform (h : m.Owes p entry due kept) {op : Operation} (hop : op.isRunning)
    (hnone : (m.perform host op).journal.targets = []) :
    (m.perform host op).machine.Owes p entry due (kept && op.keeps due) := by
  cases op with
  | tick now horizon =>
    obtain ⟨hhold, hentry⟩ := holdUntil_tickUntil h.program? hnone
    refine ⟨(m.tickUntil_program? host now horizon).trans h.program?, hentry.trans h.entryTime,
      hhold.trans ?_⟩
    rw [h.isHeld, h.holdUntil]
    cases kept <;> simp
  | outside write => simpa [Operation.keeps] using ⟨h.program?, h.entryTime, h.holdUntil⟩
  | bind | addRule | addHold | setHook | configure | init | reset | clear | setValue | setOptions =>
    exact hop.elim

/-- What is owed after operations that fire nothing is what all of them kept. -/
theorem Owes.afterAll : ∀ (ops : List Operation) {kept : Bool} {m : Machine} {host : Host},
    m.Owes p entry due kept → (∀ op ∈ ops, op.isRunning) →
    (∀ d ∈ m.history host ops, d.effect.journal.targets = []) →
    (m.afterAll host ops).1.Owes p entry due (kept && ops.all (·.keeps due))
  | [], kept, m, host, h, _, _ => by simpa [Machine.afterAll] using h
  | op :: ops, kept, m, host, h, hops, hnone => by
    rw [List.forall_mem_cons] at hops
    rw [Machine.history, List.forall_mem_cons] at hnone
    rw [List.all_cons, ← Bool.and_assoc]
    exact Owes.afterAll ops (h.perform hops.1 hnone.1) hops.2 hnone.2

theorem owes_tickUntil {s : Nat} (hp : m.program? = some p)
    (hs : (m.tickUntil host t horizon).journal.targets.getLast? = some s)
    (hdue : t.after ((p.holds[s]?).getD 0.0) = due) :
    (m.tickUntil host t horizon).machine.Owes p t due true := by
  have hd := dwells_tickUntil hp hs hdue
  exact ⟨(m.tickUntil_program? host t horizon).trans hp, hd.entryTime, hd.holdUntil⟩

/-- While nothing fires, the dwell that a tick at `t` opened holds a later tick before its end just
when every tick in between came before the end as well, and had a caller that went on past it. If
it does not hold it, the tick examines the candidates. -/
theorem held_iff_kept {s : Nat} {opened : Effect Instant}
    (ho : m.tickUntil host t horizon = opened) (hp : m.program? = some p)
    (hs : opened.journal.targets.getLast? = some s)
    (hdue : t.after ((p.holds[s]?).getD 0.0) = due) (hnever : due ≠ .never)
    {ops : List Operation} (hops : ∀ op ∈ ops, op.isRunning)
    (hnone : ∀ d ∈ opened.history ops, d.effect.journal.targets = [])
    {m' : Machine} {host' : Host} (hlast : opened.afterAll ops = (m', host'))
    (hnow : now < due) :
    m'.isHeld now .never = ops.all (·.keeps due) ∧
      (ops.all (·.keeps due) = true → m'.tickUntil host' now .never
        = ⟨due, { m' with elapsed := now.secondsSince t }, host', []⟩) ∧
      (ops.all (·.keeps due) = false → m'.holdUntil = .never ∧
        ∀ state, p.stateOf? (host'.level p.variableName) = some state →
          Examined state m'.options.scan ⟨now.secondsSince t, m'.value⟩ host' 0
            (p.rules.candidates state)
            (m'.tickUntil host' now .never).journal.examinations) := by
  subst ho
  have howes := (owes_tickUntil hp hs hdue).afterAll ops hops hnone
  rw [Effect.afterAll] at hlast
  rw [Bool.true_and, hlast] at howes
  have hheld : m'.isHeld now .never = ops.all (·.keeps due) := by
    rw [howes.isHeld, Operation.keeps]
    simp [hnow, Instant.ne_never_iff.1 hnever]
  refine ⟨hheld, fun hkept => ?_, fun hdropped => ⟨?_, fun state hstate => ?_⟩⟩
  · rw [hkept] at hheld
    rw [tickUntil_of_held host' now .never howes.program? hheld, howes.entryTime,
      howes.holdUntil, if_pos hkept]
  · rw [howes.holdUntil, hdropped]
    rfl
  · rw [hdropped] at hheld
    have hex := m'.examined_tickUntil host' now .never howes.program? hheld hstate
    rwa [howes.entryTime] at hex

theorem held_iff_kept_switch :
    let opened := switchMachine.tickUntil switchHost (.clamp 2) .never
    let kept := opened.machine.tickUntil opened.host (.clamp 3) (.clamp 20)
    let dropped := opened.machine.tickUntil opened.host (.clamp 2) (.clamp 7)
    kept.machine.isHeld (.clamp 4) .never = true ∧
      dropped.machine.isHeld (.clamp 4) .never = false := by
  intro opened kept dropped
  have hs : opened.journal.targets.getLast? = some 1 := by decide +kernel
  have hdue : (Instant.clamp 2).after ((([0.0, 5.0] : List Float)[1]?).getD 0.0) = .clamp 7 := by
    decide +kernel
  have held (now horizon : Instant)
      (hnone : (opened.machine.tickUntil opened.host now horizon).journal.targets = []) :
      (opened.machine.tickUntil opened.host now horizon).machine.isHeld (.clamp 4) .never
        = (Operation.tick now horizon).keeps (.clamp 7) := by
    have h := (held_iff_kept (show _ = opened from rfl) rfl hs hdue (by decide)
      (show ∀ op ∈ [Operation.tick now horizon], op.isRunning by simp [Operation.isRunning])
      (by simpa [Effect.history, history, perform, Effect.map] using hnone) rfl
      (show Instant.clamp 4 < .clamp 7 by decide)).1
    rwa [List.all_cons, List.all_nil, Bool.and_true] at h
  exact ⟨(held _ _ (by decide +kernel)).trans (by decide),
    (held _ _ (by decide +kernel)).trans (by decide)⟩

/-- A tick whose caller goes on to the end of the dwell at most drops the dwell, though it fires
nothing: the switch is turned off a second after it was turned on. -/
theorem drops_dwell_switch :
    let opened := switchMachine.tickUntil switchHost (.clamp 2) .never
    let looked := opened.machine.tickUntil opened.host (.clamp 2) (.clamp 7)
    let left := looked.machine.tickUntil looked.host (.clamp 3) .never
    opened.journal.targets = [1] ∧ opened.machine.holdUntil = .clamp 7 ∧
      looked.journal.targets = [] ∧ left.journal.targets = [0] ∧ left.answer = .never := by
  decide +kernel

end Machine

end Dwell

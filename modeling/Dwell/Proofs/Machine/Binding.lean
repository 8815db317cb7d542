import Dwell.Proofs.Machine.Debounce
import Dwell.Proofs.Machine.Directive

/-!
# To which binding a dwell is owed

A configuration text is made of operations, and has the effect that they have in a row
(`afterAll_spelled`). Of the others, each leaves the dwell that is owed as it was, or drops it, or
is a tick that opens another (`holdUntil_perform`). A binding leaves it, so what a machine owes may
be owed to an earlier binding; once the machine is started, reset or ticked without being held, what
it owes is owed to the binding that it has (`owed_to_binding_iff`).
-/

namespace Dwell

open Text

/-- The operation that a directive stands for, if it stands for one. -/
def Directive.operation? (now : Instant) : Directive → Option Operation
  | .value text => (Double.read? text).map .setValue
  | .state property => some (.bind property)
  | .rule spec => some (.addRule spec)
  | .hold spec => some (.addHold spec)
  | .reset => some (.reset now)
  | .clear => some .clear
  | .external _ | .unknown _ => none

/-- The operation is not a configuration text. -/
def Operation.isPlain : Operation → Prop
  | .configure _ _ => False
  | _ => True

namespace Machine

section Spelling

/-- The operations that directives stand for, up to the first that fails. -/
def spellAll (now : Instant) (whole : String) : Machine → Host → List (List Char) → List Operation
  | _, _, [] => []
  | m, host, s :: rest =>
    let e := m.apply host now whole (.ofText s)
    ((Directive.ofText s).operation? now).toList ++ match e.answer with
      | .ok () => spellAll now whole e.machine e.host rest
      | .error _ => []

/-- The operations that an operation is made of: those that a configuration text stands for, or the
operation itself. -/
def spell (m : Machine) (host : Host) : Operation → List Operation
  | .configure text now =>
    match dropBlank text.toList with
    | [] => []
    | c :: _ =>
      if c.isDigit then ((Double.read? (trim text.toList)).map .setValue).toList
      else m.spellAll now text host (Directive.textsOf text.toList)
  | op => [op]

/-- Operations in a row, without configuration texts. -/
def spelled : Machine → Host → List Operation → List Operation
  | _, _, [] => []
  | m, host, op :: ops =>
    m.spell host op ++ spelled (m.perform host op).machine (m.perform host op).host ops

variable (m : Machine) (host : Host) (now : Instant)

theorem afterAll_setValue (text : List Char) :
    m.afterAll host ((Double.read? text).map .setValue).toList
      = ((m.assign host text).machine, (m.assign host text).host) := by
  unfold assign
  cases Double.read? text <;> rfl

theorem afterAll_operation? (whole : String) (d : Directive) :
    m.afterAll host (d.operation? now).toList
      = ((m.apply host now whole d).machine, (m.apply host now whole d).host) := by
  cases d with
  | value text => exact afterAll_setValue ..
  | state | rule | hold | reset | clear | external | unknown => rfl

theorem afterAll_spellAll (whole : String) : ∀ (texts : List (List Char)) (m : Machine)
    (host : Host), m.afterAll host (m.spellAll now whole host texts)
      = ((m.applyAll host now whole texts).machine, (m.applyAll host now whole texts).host)
  | [], _, _ => rfl
  | s :: rest, m, host => by
    rw [spellAll, afterAll_append, m.afterAll_operation? host now whole, applyAll]
    rcases (m.apply host now whole (.ofText s)).answer with fault | _
    · rfl
    · exact afterAll_spellAll whole rest _ _

theorem afterAll_spell (op : Operation) : m.afterAll host (m.spell host op)
    = ((m.perform host op).machine, (m.perform host op).host) := by
  cases op with
  | configure text now =>
    simp only [spell, perform, Effect.map, configure]
    rcases dropBlank text.toList with _ | ⟨c, _⟩
    · rfl
    · dsimp only
      split
      · exact afterAll_setValue ..
      · exact afterAll_spellAll ..
  | bind | addRule | addHold | setHook | init | reset | clear | setValue | setOptions | tick
  | outside => rfl

/-- Configuration texts do what the operations do that they are made of. -/
theorem afterAll_spelled : ∀ (ops : List Operation) (m : Machine) (host : Host),
    m.afterAll host (m.spelled host ops) = m.afterAll host ops
  | [], _, _ => rfl
  | op :: ops, m, host => by
    rw [spelled, afterAll_append, afterAll_spell]
    exact afterAll_spelled ops _ _

theorem isPlain_of_mem_operation? {d : Directive} :
    ∀ op ∈ (d.operation? now).toList, op.isPlain := by
  cases d <;> simp [Directive.operation?, Operation.isPlain]

theorem isPlain_of_mem_spellAll (whole : String) : ∀ (texts : List (List Char)) (m : Machine)
    (host : Host), ∀ op ∈ m.spellAll now whole host texts, op.isPlain
  | [], _, _ => by simp [spellAll]
  | s :: rest, m, host => by
    rw [spellAll, List.forall_mem_append]
    refine ⟨isPlain_of_mem_operation? now, ?_⟩
    split
    · exact isPlain_of_mem_spellAll whole rest _ _
    · simp

theorem isPlain_of_mem_spell (op : Operation) : ∀ op' ∈ m.spell host op, op'.isPlain := by
  cases op with
  | configure text now =>
    simp only [spell]
    split
    · simp
    · split
      · cases Double.read? (trim text.toList) <;> simp [Operation.isPlain]
      · exact isPlain_of_mem_spellAll now text _ m host
  | bind | addRule | addHold | setHook | init | reset | clear | setValue | setOptions | tick
  | outside => simp [spell, Operation.isPlain]

theorem isPlain_of_mem_spelled : ∀ (ops : List Operation) (m : Machine) (host : Host),
    ∀ op ∈ m.spelled host ops, op.isPlain
  | [], _, _ => by simp [spelled]
  | op :: ops, m, host => by
    rw [spelled, List.forall_mem_append]
    exact ⟨isPlain_of_mem_spell m host op, isPlain_of_mem_spelled ops _ _⟩

end Spelling

end Machine

/-- A binding that succeeded. -/
def Deed.binds (d : Deed) : Bool :=
  match d.operation, d.effect.answer with
  | .bind _, .programmed (.ok _) => true
  | _, _ => false

/-- Decides what dwell is owed: the machine is started or reset, or a tick is not held. -/
def Deed.settles (d : Deed) : Bool :=
  match d.operation with
  | .init _ | .reset _ => true
  | .tick now horizon => !d.machine.isHeld now horizon
  | _ => false

/-- A tick that opened a dwell until `due`: the last transition that it fired led to a state with a
positive hold. -/
def Deed.Opens (due : Instant) (d : Deed) : Prop :=
  ∃ now horizon s x, d.operation = .tick now horizon ∧
    d.effect.journal.targets.getLast? = some s ∧ d.machine.hold? s = some x ∧ 0 < x ∧
    now.after x = due

/-- What was done since the last binding that succeeded. -/
def sinceBinding (ds : List Deed) : List Deed :=
  ds.foldl (fun since d => if d.binds then [] else since ++ [d]) []

theorem sinceBinding_concat (ds : List Deed) (d : Deed) :
    sinceBinding (ds ++ [d]) = if d.binds then [] else sinceBinding ds ++ [d] := by
  rw [sinceBinding, List.foldl_append]
  rfl

theorem mem_of_mem_sinceBinding {ds : List Deed} {d : Deed} (hd : d ∈ sinceBinding ds) :
    d ∈ ds := by
  induction ds using List.reverseRecOn with
  | nil => exact hd
  | append_singleton ds d' ih =>
    rw [sinceBinding_concat] at hd
    split at hd
    · cases hd
    · rw [List.mem_append] at hd ⊢
      exact hd.imp_left ih

namespace Deed

variable {due : Instant} {d : Deed}

theorem Opens.binds_eq_false (h : d.Opens due) : d.binds = false := by
  obtain ⟨_, _, _, _, hop, -⟩ := h
  simp [binds, hop]

theorem Opens.settles (h : d.Opens due) (he : d.effect = d.machine.perform d.host d.operation) :
    d.settles = true := by
  obtain ⟨now, horizon, s, _, hop, hs, -⟩ := h
  rw [he, hop] at hs
  obtain ⟨-, -, hh⟩ := Machine.of_targets_tickUntil hs
  simp [Deed.settles, hop, hh]

end Deed

namespace Machine

section Owing

variable {m : Machine} {host : Host} {ds : List Deed}

/-- A dwell that ends is that of a positive hold. -/
theorem hold?_of_after {p : Program} {s : Nat} {now : Instant} (hp : m.program? = some p)
    (h : now.after ((p.holds[s]?).getD 0.0) ≠ .never) :
    ∃ x, m.hold? s = some x ∧ 0 < x ∧ now.after x = now.after ((p.holds[s]?).getD 0.0) := by
  have hpos : 0 < (p.holds[s]?).getD 0.0 := by
    by_contra hx
    exact h (if_pos (.inr hx))
  rcases hs : p.holds[s]? with _ | x
  · rw [hs] at hpos
    exact absurd hpos (by decide +kernel)
  · rw [hs] at hpos
    exact ⟨x, by simp [hold?, hp, hs], hpos, rfl⟩

/-- A tick that is not held leaves no dwell, or opens the one that it leaves. -/
theorem opens_tickUntil {p : Program} {now horizon : Instant} (hp : m.program? = some p)
    (hh : m.isHeld now horizon = false) :
    (m.tickUntil host now horizon).machine.holdUntil = .never ∨
      Deed.Opens (m.tickUntil host now horizon).machine.holdUntil
        ⟨.tick now horizon, m, host, m.perform host (.tick now horizon)⟩ := by
  obtain ⟨x, hx⟩ := m.tickUntil_machine host now horizon hp hh
  rcases hs : (m.tickUntil host now horizon).journal.targets.getLast? with _ | s
  · rw [hx, hs]
    exact .inl rfl
  by_cases hnever : now.after ((p.holds[s]?).getD 0.0) = .never
  · rw [hx, hs]
    exact .inl hnever
  · obtain ⟨x', hold, hpos, he⟩ := hold?_of_after hp hnever
    refine .inr ⟨now, horizon, s, x', rfl, hs, hold, hpos, ?_⟩
    rw [hx, hs]
    exact he

/-- What an operation does to the dwell that is owed: it drops it, or opens the one that it leaves,
or leaves it as it was, unless it leaves the machine unbound. -/
theorem holdUntil_perform (m : Machine) (host : Host) {op : Operation} (hop : op.isPlain) :
    let d : Deed := ⟨op, m, host, m.perform host op⟩
    (d.effect.machine.holdUntil = .never ∨ d.Opens d.effect.machine.holdUntil) ∨
      (d.effect.machine.holdUntil = m.holdUntil ∧ (d.binds ∨ d.settles = false ∧
        d.effect.machine.isBound = m.isBound)) ∨
      (d.effect.machine.isBound = false ∧
        (d.effect.machine.holdUntil = m.holdUntil ∨ d.effect.machine.holdUntil = .zero)) := by
  intro d
  cases op with
  | bind property =>
    refine .inr (.inl ?_)
    rcases m.bind_cases host property with ⟨_, _, he⟩ | ⟨_, _, -, -, he⟩
    · simp [d, perform, Effect.map, he, Deed.settles]
    · simp [d, perform, Effect.map, he, Deed.binds]
  | addRule spec =>
    refine .inr (.inl ?_)
    rcases m.addRule_cases host spec with ⟨_, _, he⟩ | ⟨p, _, _, _, hp, -, he⟩
    · simp [d, perform, Effect.map, he, Deed.settles]
    · simp [d, perform, Effect.map, he, Deed.settles, isBound, hp]
  | addHold spec =>
    refine .inr (.inl ?_)
    rcases m.addHold_cases host spec with ⟨_, _, he⟩ | ⟨p, _, _, hp, -, he⟩
    · simp [d, perform, Effect.map, he, Deed.settles]
    · simp [d, perform, Effect.map, he, Deed.settles, isBound, hp]
  | setHook state k =>
    refine .inr (.inl ?_)
    rcases m.setHook_cases host state k with ⟨_, _, he⟩ | ⟨p, _, hp, -, he⟩
    · simp [d, perform, Effect.map, he, Deed.settles]
    · simp [d, perform, Effect.map, he, Deed.settles, isBound, hp]
  | setValue | setOptions | outside => exact .inr (.inl ⟨rfl, .inr ⟨rfl, rfl⟩⟩)
  | configure text now => exact hop.elim
  | init now => exact .inl (.inl rfl)
  | reset now =>
    rcases hp : m.program? with _ | p
    · simp [d, perform, Effect.map, reset, hp, isBound]
    · simp [d, perform, Effect.map, reset, hp]
  | clear => exact .inr (.inr ⟨rfl, .inr rfl⟩)
  | tick now horizon =>
    rcases hp : m.program? with _ | p
    · refine .inr (.inr ?_)
      simp [d, perform, Effect.map, tickUntil_of_unbound host now horizon hp, isBound, hp]
    rcases hh : m.isHeld now horizon with _ | _
    · exact .inl (opens_tickUntil hp hh)
    · refine .inr (.inl ?_)
      simp [d, perform, Effect.map, tickUntil_of_held host now horizon hp hh, Deed.settles, hh,
        isBound]

/-- What the machine owes after what was done: if since the last binding it was decided what is
owed, then a dwell that was opened since, or none; and in any case a dwell that was opened at some
time, or the instant zero that a new machine has. -/
structure Accounts (ds : List Deed) (m : Machine) : Prop where
  since : m.isBound → (∃ d ∈ sinceBinding ds, d.settles) →
    m.holdUntil = .never ∨ ∃ d ∈ sinceBinding ds, d.Opens m.holdUntil
  ever : m.holdUntil = .zero ∨ m.holdUntil = .never ∨ ∃ d ∈ ds, d.Opens m.holdUntil

theorem Accounts.perform (h : m.Accounts ds) (host : Host) {op : Operation} (hop : op.isPlain) :
    (m.perform host op).machine.Accounts (ds ++ [⟨op, m, host, m.perform host op⟩]) := by
  have hever : m.holdUntil = .zero ∨ m.holdUntil = .never ∨
      ∃ d ∈ ds ++ [⟨op, m, host, m.perform host op⟩], d.Opens m.holdUntil :=
    h.ever.imp_right (·.imp_right fun ⟨d, hd, ho⟩ => ⟨d, List.mem_append_left _ hd, ho⟩)
  rcases holdUntil_perform m host hop with (hn | ho) | ⟨hk, hd⟩ | ⟨hu, hk | hk⟩
  · exact ⟨fun _ _ => .inl hn, .inr (.inl hn)⟩
  · refine ⟨fun _ _ => .inr ⟨_, ?_, ho⟩, .inr (.inr ⟨_, by simp, ho⟩)⟩
    simp [sinceBinding_concat, ho.binds_eq_false]
  · dsimp only at hk hd
    refine ⟨fun hb hs => ?_, hk ▸ hever⟩
    rw [sinceBinding_concat] at hs ⊢
    split at hs
    · simp at hs
    rename_i hfree
    obtain ⟨hstill, hbound⟩ := hd.resolve_left hfree
    -- Only what was done before the operation decided what is owed.
    have hbefore : ∃ d ∈ sinceBinding ds, d.settles := by
      simpa [or_and_right, exists_or, hstill] using hs
    rw [hk, if_neg hfree]
    exact (h.since (hbound ▸ hb) hbefore).imp_right fun ⟨d, hd, ho⟩ =>
      ⟨d, List.mem_append_left _ hd, ho⟩
  · dsimp only at hk hu
    exact ⟨fun hb => absurd hb (by simp [hu]), hk ▸ hever⟩
  · dsimp only at hk hu
    exact ⟨fun hb => absurd hb (by simp [hu]), .inl hk⟩

/-- Operations in a row account for what the machine owes after them. -/
theorem Accounts.afterAll : ∀ (ops : List Operation) (host : Host) {ds : List Deed} {m : Machine},
    m.Accounts ds → (∀ op ∈ ops, op.isPlain) →
    (m.afterAll host ops).1.Accounts (ds ++ m.history host ops)
  | [], host, ds, m, h, _ => by simpa [Machine.afterAll, history] using h
  | op :: ops, host, ds, m, h, hops => by
    rw [List.forall_mem_cons] at hops
    have hrest := Accounts.afterAll ops (m.perform host op).host (h.perform host hops.1) hops.2
    rwa [List.append_assoc] at hrest

theorem accounts_new (options : Options) : Accounts [] { options } where
  since _ h := by simp [sinceBinding] at h
  ever := .inl rfl

/-- When a dwell holds a tick, the dwell was opened since the last binding just when it was decided
since then what dwell is owed. If it was not, a tick before the binding opened it, or it is the
instant zero that a new machine has. -/
theorem owed_to_binding_iff (options : Options) (host₀ : Host) (ops : List Operation) {m : Machine}
    {host : Host} (hlast : ({ options } : Machine).afterAll host₀ ops = (m, host)) {p : Program}
    (hp : m.program? = some p) {now horizon : Instant} (hh : m.isHeld now horizon = true) :
    let plain := ({ options } : Machine).spelled host₀ ops
    let ds := ({ options } : Machine).history host₀ plain
    (∀ op ∈ plain, op.isPlain) ∧ ({ options } : Machine).afterAll host₀ plain = (m, host) ∧
      m.tickUntil host now horizon
        = ⟨m.holdUntil, { m with elapsed := now.secondsSince m.entryTime }, host, []⟩ ∧
      ((∃ d ∈ sinceBinding ds, d.Opens m.holdUntil) ↔ ∃ d ∈ sinceBinding ds, d.settles) ∧
      (m.holdUntil = .zero ∨ ∃ d ∈ ds, d.Opens m.holdUntil) := by
  intro plain ds
  have hplain := isPlain_of_mem_spelled ops { options } host₀
  have hsame : ({ options } : Machine).afterAll host₀ plain = (m, host) :=
    (afterAll_spelled ..).trans hlast
  obtain ⟨hsince, hever⟩ := (accounts_new options).afterAll plain host₀ hplain
  rw [hsame, List.nil_append] at hsince hever
  have hnever : m.holdUntil ≠ .never := Instant.ne_never_of_lt (isHeld_iff.1 hh).2
  have hbound : m.isBound = true := by rw [isBound, hp, Option.isSome_some]
  refine ⟨hplain, hsame, tickUntil_of_held host now horizon hp hh, ⟨?_, fun hs => ?_⟩, ?_⟩
  · rintro ⟨d, hd, ho⟩
    exact ⟨d, hd, ho.settles (effect_of_mem_history (mem_of_mem_sinceBinding hd))⟩
  · exact (hsince hbound hs).resolve_left hnever
  · exact hever.imp_right fun h => h.resolve_left hnever

/-- A switch is programmed and started, and turned on by a tick. -/
def programmedSwitch : List Operation :=
  [.configure "state:switch; rule:OFF->ON=$timer>=1; hold:ON=5" (.clamp 0), .init (.clamp 0),
    .tick (.clamp 2) .never]

theorem owed_to_binding_iff_switch :
    (({} : Machine).afterAll switchHost programmedSwitch).1.isHeld (.clamp 3) .never = true ∧
      ∃ d ∈ sinceBinding (({} : Machine).history switchHost
        (({} : Machine).spelled switchHost programmedSwitch)), d.Opens (.clamp 7) := by
  have hh : (({} : Machine).afterAll switchHost programmedSwitch).1.isHeld (.clamp 3) .never
      = true := by decide +kernel
  have hdue : (({} : Machine).afterAll switchHost programmedSwitch).1.holdUntil = .clamp 7 := by
    decide +kernel
  obtain ⟨p, hp⟩ : ∃ p, (({} : Machine).afterAll switchHost programmedSwitch).1.program? = some p :=
    Option.isSome_iff_exists.1 (by decide +kernel)
  refine ⟨hh, ?_⟩
  generalize hlast : ({} : Machine).afterAll switchHost programmedSwitch = left at hh hdue hp
  obtain ⟨-, -, -, howed, -⟩ := owed_to_binding_iff {} switchHost programmedSwitch hlast hp hh
  rw [hdue] at howed
  exact howed.2 (by decide +kernel)

/-- A machine that was just bound is held before the instant zero. One that owes a dwell in one
switch, and is then bound to another, is held by that dwell still. -/
theorem held_when_bound_switch :
    let room := Host.withEnumeration switchHost "fan" ⟨[⟨"OFF", 0⟩, ⟨"ON", 1⟩], []⟩ 0
    let new := ({} : Machine).afterAll room [.bind "switch"]
    let turned := ({} : Machine).afterAll room (programmedSwitch ++ [.bind "fan"])
    new.1.boundTo? = some "switch" ∧ new.1.isHeld (.clamp (-5)) .never = true ∧
      (new.1.tickUntil new.2 (.clamp (-5)) .never).answer = .zero ∧
      turned.1.boundTo? = some "fan" ∧ turned.1.isHeld (.clamp 3) .never = true ∧
      (turned.1.tickUntil turned.2 (.clamp 3) .never).answer = .clamp 7 := by
  decide +kernel

end Owing

end Machine

end Dwell

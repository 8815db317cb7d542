import Dwell.Machine.Programming
import Dwell.Proofs.Host

/-!
# What programming does

A programming operation is refused and changes nothing, or it changes the program alone, in one
place (`bind_cases`, `addRule_cases`, `addHold_cases`, `setHook_cases`). None of them writes to
the host. So what new programs have, and what each of these changes keeps, programs have after
programming (`Program.Invariant`).
-/

namespace Dwell

namespace Machine

variable (m : Machine) (host : Host)

/-- An operation that failed and left everything as it was. -/
def Refused (e : Effect (Except Fault Unit)) : Prop :=
  ∃ (fault : Fault) (notices : List Notice), e = ⟨.error fault, m, host, notices.map .noted⟩

theorem refused_refuse (cause : Cause) (notices : List Notice) :
    m.Refused host (m.refuse host cause notices) :=
  ⟨_, notices, rfl⟩

theorem bind_cases (property : String) :
    m.Refused host (m.bind host property) ∨ ∃ (e : Enumeration) (notices : List Notice),
      host.property? property = some (.enumeration e) ∧ 2 ≤ statesOf e.keywords ∧
      m.bind host property = ⟨.ok (), { m with
        program? := some (.blank property e.keywords (statesOf e.keywords)) }, host,
        notices.map .noted⟩ := by
  unfold bind
  split
  · exact .inl (refused_refuse ..)
  · rename_i e he
    dsimp only
    split
    · exact .inl (refused_refuse ..)
    · exact .inr ⟨e, _, he, by omega, rfl⟩
  · exact .inl (refused_refuse ..)

theorem addRule_cases (spec : String) :
    m.Refused host (m.addRule host spec) ∨ ∃ p origin c, ∃ notices : List Notice,
      m.program? = some p ∧ ((p.scope host).rule spec).1 = .ok (origin, c) ∧
      m.addRule host spec = ⟨.ok (),
        { m with program? := some { p with rules := p.rules.push origin c } }, host,
        notices.map .noted⟩ := by
  unfold addRule
  split
  · exact .inl (refused_refuse ..)
  · rename_i p hp
    dsimp only
    split
    · exact .inl ⟨_, _, rfl⟩
    · rename_i origin c hr
      exact .inr ⟨p, origin, c, _, hp, hr, rfl⟩

theorem addHold_cases (spec : String) :
    m.Refused host (m.addHold host spec) ∨ ∃ p state seconds,
      m.program? = some p ∧ (p.scope host).hold spec = .ok (state, seconds) ∧
      m.addHold host spec = ⟨.ok (),
        { m with program? := some { p with holds := p.holds.set state seconds } }, host, []⟩ := by
  unfold addHold
  split
  · exact .inl (refused_refuse ..)
  · rename_i p hp
    split
    · exact .inl ⟨_, [], rfl⟩
    · rename_i state seconds hr
      exact .inr ⟨p, state, seconds, hp, hr, rfl⟩

theorem setHook_cases (state : String) (k : Hook) :
    m.Refused host (m.setHook host state k) ∨ ∃ p s,
      m.program? = some p ∧ p.keywords.state? p.states state = some s ∧
      m.setHook host state k = ⟨.ok (),
        { m with program? := some { p with hooks := p.hooks.set s (some k) } }, host, []⟩ := by
  unfold setHook
  split
  · exact .inl (refused_refuse ..)
  · rename_i p hp
    split
    · exact .inl (refused_refuse ..)
    · rename_i s hs
      exact .inr ⟨p, s, hp, hs, rfl⟩

/-- The program of the machine has a property on the host, if the machine is bound. -/
def Meets (P : Host → Program → Prop) (host : Host) (m : Machine) : Prop :=
  ∀ p, m.program? = some p → P host p

theorem meets_of_program? {P : Host → Program → Prop} {m m' : Machine} {host : Host}
    (hp : m'.program? = m.program?) (h : m.Meets P host) : m'.Meets P host :=
  fun p hp' => h p (hp ▸ hp')

end Machine

namespace Program

/-- A property of programs on hosts that new programs have and that programming keeps. It may depend
on what properties a host has, but not on their values. -/
structure Invariant (P : Host → Program → Prop) : Prop where
  of_fixed {host host' p} : host'.fixed = host.fixed → P host p → P host' p
  blank {host property e} :
    host.property? property = some (.enumeration e) → 2 ≤ Machine.statesOf e.keywords →
    P host (.blank property e.keywords (Machine.statesOf e.keywords))
  push {host p spec origin c} :
    P host p → ((p.scope host).rule spec).1 = .ok (origin, c) →
    P host { p with rules := p.rules.push origin c }
  holds {host p spec s seconds} :
    P host p → (p.scope host).hold spec = .ok (s, seconds) →
    P host { p with holds := p.holds.set s seconds }
  hooks {host p} (s k) : P host p → P host { p with hooks := p.hooks.set s k }

namespace Invariant

variable {P : Host → Program → Prop} (hI : Invariant P) {m : Machine} {host host' : Host}
include hI

theorem meets_of_fixed (hf : host'.fixed = host.fixed) (h : m.Meets P host) : m.Meets P host' :=
  fun p hp => hI.of_fixed hf (h p hp)

theorem bind (h : m.Meets P host) (property : String) :
    (m.bind host property).machine.Meets P host := by
  rcases m.bind_cases host property with ⟨_, _, he⟩ | ⟨_, _, hp, hs, he⟩ <;> rw [he]
  · exact h
  · rintro _ ⟨⟩
    exact hI.blank hp hs

theorem addRule (h : m.Meets P host) (spec : String) :
    (m.addRule host spec).machine.Meets P host := by
  rcases m.addRule_cases host spec with ⟨_, _, he⟩ | ⟨p, _, _, _, hp, hr, he⟩ <;> rw [he]
  · exact h
  · rintro _ ⟨⟩
    exact hI.push (h p hp) hr

theorem addHold (h : m.Meets P host) (spec : String) :
    (m.addHold host spec).machine.Meets P host := by
  rcases m.addHold_cases host spec with ⟨_, _, he⟩ | ⟨p, _, _, hp, hs, he⟩ <;> rw [he]
  · exact h
  · rintro _ ⟨⟩
    exact hI.holds (h p hp) hs

theorem setHook (h : m.Meets P host) (state : String) (k : Hook) :
    (m.setHook host state k).machine.Meets P host := by
  rcases m.setHook_cases host state k with ⟨_, _, he⟩ | ⟨p, s, hp, -, he⟩ <;> rw [he]
  · exact h
  · rintro _ ⟨⟩
    exact hI.hooks s (some k) (h p hp)

end Invariant

end Program

end Dwell

import Dwell.Proofs.Simulation.Building

/-!
# Building at another time

The time at which machines are configured shows in their own times alone: whatever it is, the same
directives succeed, and the machines and hosts that they leave are the same but for those times
(`configure_untimed`). Starting the machines sets them, so a registry that is assembled at another
time is the same once it is started (`initAll_untimed`).
-/

namespace Dwell

/-- The machine with the times that a new one has. -/
def Machine.untimed (m : Machine) : Machine :=
  { m with entryTime := .zero, holdUntil := .zero, elapsed := 0.0 }

/-- What an operation answers and leaves, but for the machine's times and the journal. -/
def Effect.untimed {α : Type} (e : Effect α) : α × Machine × Host :=
  (e.answer, e.machine.untimed, e.host)

def Station.untimed (s : Station) : Station :=
  { s with machine := s.machine.untimed }

def Registry.untimed (r : Registry) : Registry :=
  { r with stations := r.stations.map (·.untimed) }

namespace Machine

variable {host : Host} {now now' : Instant}

/-- Every directive does the same at any time, and whatever the times of the machine are. -/
theorem apply_untimed (m : Machine) (host : Host) (now : Instant) (whole : String)
    (d : Directive) :
    (m.apply host now whole d).untimed = (m.untimed.apply host .zero whole d).untimed := by
  cases d with
  | value text =>
    simp only [apply, assign]
    cases Double.read? text <;> rfl
  | state property =>
    simp only [apply, bind]
    split
    · rfl
    · split <;> rfl
    · rfl
  | rule spec =>
    have hp : m.untimed.program? = m.program? := rfl
    simp only [apply, addRule, hp]
    cases m.program? with
    | none => rfl
    | some p =>
      dsimp only
      split <;> rfl
  | hold spec =>
    have hp : m.untimed.program? = m.program? := rfl
    simp only [apply, addHold, hp]
    cases m.program? with
    | none => rfl
    | some p =>
      dsimp only
      split <;> rfl
  | reset =>
    have hp : m.untimed.program? = m.program? := rfl
    simp only [apply, reset, hp]
    cases m.program? <;> rfl
  | clear | external | unknown => rfl

theorem applyAll_untimed (whole : String) : ∀ (texts : List (List Char)) {m m' : Machine}
    (host : Host), m'.untimed = m.untimed →
    (m'.applyAll host now' whole texts).untimed = (m.applyAll host now whole texts).untimed
  | [], m, m', host, h => by simp [applyAll, Effect.untimed, h]
  | s :: rest, m, m', host, h => by
    have he := (m'.apply_untimed host now' whole (.ofText s)).trans
      (h ▸ (m.apply_untimed host now whole (.ofText s)).symm)
    simp only [applyAll]
    generalize m'.apply host now' whole (.ofText s) = e' at he
    generalize m.apply host now whole (.ofText s) = e at he
    obtain ⟨_, _, _, _⟩ := e
    obtain ⟨answer, _, host, _⟩ := e'
    simp only [Effect.untimed, Prod.mk.injEq] at he
    obtain ⟨rfl, hafter, rfl⟩ := he
    cases answer with
    | error fault => simp [Effect.untimed, hafter]
    | ok _ => exact applyAll_untimed whole rest host hafter

theorem configure_untimed (m : Machine) (host : Host) (text : String) (now now' : Instant) :
    (m.configure host text now').untimed = (m.configure host text now).untimed := by
  unfold configure
  split
  · rfl
  · split
    · rfl
    · exact applyAll_untimed text _ host rfl

theorem setHook_untimed (m : Machine) (host : Host) (state : String) (k : Hook) :
    (m.setHook host state k).untimed = (m.untimed.setHook host state k).untimed := by
  have hp : m.untimed.program? = m.program? := rfl
  simp only [setHook, hp]
  cases m.program? with
  | none => rfl
  | some p =>
    dsimp only
    split <;> rfl

theorem watch_untimed : ∀ (states : List String) {m m' w : Machine}, m'.untimed = m.untimed →
    m.watch host states = .ok w → ∃ w', m'.watch host states = .ok w' ∧ w'.untimed = w.untimed
  | [], m, m', w, h, hw => ⟨m', rfl, Except.ok.inj hw ▸ h⟩
  | state :: states, m, m', w, h, hw => by
    have he := (m'.setHook_untimed host state .watching).trans
      (h ▸ (m.setHook_untimed host state .watching).symm)
    simp only [watch] at hw ⊢
    generalize m'.setHook host state .watching = e' at he ⊢
    generalize m.setHook host state .watching = e at he hw
    obtain ⟨_, _, _, _⟩ := e
    obtain ⟨answer, _, _, _⟩ := e'
    simp only [Effect.untimed, Prod.mk.injEq] at he
    obtain ⟨rfl, hafter, rfl⟩ := he
    cases answer with
    | error fault => cases hw
    | ok _ => exact watch_untimed states hafter hw

theorem stateNames_untimed (m : Machine) : m.untimed.stateNames = m.stateNames := rfl

/-- Starting a machine sets its times. -/
theorem init_untimed (m : Machine) (host : Host) (now : Instant) :
    m.untimed.init host now = m.init host now := rfl

end Machine

section Assemble

variable {options : Options} {now : Instant} (now' : Instant)

theorem commission_untimed {host host' : Host} {spec : String} {m : Machine}
    (h : (commission options now host spec).result = .ok (m, host')) :
    ∃ m', (commission options now' host spec).result = .ok (m', host') ∧
      m'.untimed = m.untimed := by
  have he := Machine.configure_untimed { options } host spec now now'
  unfold commission at h ⊢
  dsimp only at h ⊢
  generalize Machine.configure { options } host spec now' = e' at he ⊢
  generalize Machine.configure { options } host spec now = e at he h
  obtain ⟨_, n, _, _⟩ := e
  obtain ⟨answer, n', host'', _⟩ := e'
  simp only [Effect.untimed, Prod.mk.injEq] at he
  obtain ⟨rfl, hn, rfl⟩ := he
  cases answer with
  | error fault => cases h
  | ok _ =>
    -- The states that are watched are named by the program alone.
    have hnames : n'.stateNames = n.stateNames := by
      rw [← n'.stateNames_untimed, hn, n.stateNames_untimed]
    dsimp only at h ⊢
    rw [hnames]
    split at h
    · rename_i w hw
      cases h
      obtain ⟨w', hw', hm⟩ := Machine.watch_untimed _ hn hw
      exact ⟨w', by rw [hw'], hm⟩
    · cases h

theorem equip_untimed : ∀ {specs : List String} {position : Nat} {host host' : Host}
    {stations : List Station},
    (equip options now position host specs).result = .ok (host', stations) →
    ∃ stations', (equip options now' position host specs).result = .ok (host', stations') ∧
      stations'.map (·.untimed) = stations.map (·.untimed)
  | [], position, host, host', stations, h => by
    cases h
    exact ⟨[], rfl, rfl⟩
  | spec :: specs, position, host, host', stations, h => by
    simp only [equip, Logged.result_bind] at h ⊢
    obtain ⟨⟨m, host₁⟩, hm, h⟩ := bind_eq_ok h
    obtain ⟨⟨host₂, rest⟩, hrest, h⟩ := bind_eq_ok h
    cases h
    obtain ⟨m', hm', hmachine⟩ := commission_untimed now' hm
    obtain ⟨rest', hrest', hstations⟩ := equip_untimed hrest
    refine ⟨⟨position, m'⟩ :: rest', ?_, ?_⟩
    · rw [hm', Except.bind, hrest']
      rfl
    · simpa [Station.untimed, hmachine] using hstations

/-- The time at which a registry is assembled shows in the times of its machines alone. -/
theorem assemble_untimed : ∀ {specs : List HostSpec} {position : Nat} {r : Registry},
    (assemble options now position specs).result = .ok r →
    ∃ r', (assemble options now' position specs).result = .ok r' ∧ r'.untimed = r.untimed
  | [], position, r, h => by
    cases h
    exact ⟨{}, rfl, rfl⟩
  | spec :: specs, position, r, h => by
    simp only [assemble, Logged.result_bind] at h ⊢
    obtain ⟨⟨host, stations⟩, hm, h⟩ := bind_eq_ok h
    obtain ⟨r, hr, h⟩ := bind_eq_ok h
    cases h
    obtain ⟨stations', hm', hstations⟩ := equip_untimed now' hm
    obtain ⟨r', hr', hrest⟩ := assemble_untimed hr
    simp only [Registry.untimed, Registry.mk.injEq] at hrest
    refine ⟨⟨host :: r'.hosts, stations' ++ r'.stations⟩, ?_, ?_⟩
    · rw [hm', Except.bind, hr']
      rfl
    · simp [Registry.untimed, hstations, hrest]

end Assemble

/-- The times of the machines do not show in a registry that is started. -/
theorem Registry.initAll_untimed {r : Registry} (hr : r.Fits) (now : Instant) :
    r.untimed.initAll now = r.initAll now := by
  simp only [initAll, untimed, List.map_map]
  congr 1
  refine List.map_congr_left fun st hst => ?_
  have hhost := List.getElem?_eq_getElem (hr st hst)
  simp only [Function.comp_apply, Station.untimed, hhost, Machine.init_untimed]

end Dwell

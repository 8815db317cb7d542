import Dwell.Proofs.Machine.Directive
import Dwell.Proofs.Registry
import Dwell.Simulation.Building

/-!
# What a built simulation is like

Building takes over the window and the events of a scenario that has no flaw (`build_ok`), and
gives each of its hosts, under its name, with the machines it has (`assemble_all`). A machine of a
simulation has the scenario's options and a well-formed program, and calls a hook that changes
nothing in every state that has a name (`commission_ok`).
-/

namespace Dwell

theorem Scenario.flaw?_eq_none {sc : Scenario} (h : sc.flaw? = none) :
    sc.window.start ≤ sc.window.stop ∧ 0 < sc.window.maxStep ∧ 0 < sc.options.granularity ∧
      (sc.hosts.map (·.name)).Nodup := by
  unfold flaw? at h
  dsimp only at h
  split at h
  · cases h
  · split at h
    · cases h
    · split at h
      · cases h
      · rw [Option.map_eq_none_iff, firstRepeat?_eq_none_iff] at h
        exact ⟨not_lt.1 ‹_›, by omega, by omega, h.1⟩

/-- What a new host has, and every declaration keeps, the host of a scenario has. -/
theorem HostSpec.host_induction {P : Host → Prop} {spec : HostSpec} (hnew : P { name := spec.name })
    (hdeclare : ∀ h, P h → ∀ p ∈ spec.properties, P (h.declare p.1 p.2)) : P spec.host :=
  List.foldlRecOn spec.properties _ hnew hdeclare

theorem Hook.isQuiet_watching : Hook.watching.isQuiet := fun _ _ _ => rfl

namespace Machine

section Watch

variable {m m' : Machine} {host : Host}

theorem watch_induction {I : Machine → Prop}
    (hI : ∀ m state, I m → I (m.setHook host state .watching).machine) :
    ∀ (names : List String) {m m' : Machine}, I m → m.watch host names = .ok m' → I m'
  | [], _, _, h, hw => Except.ok.inj hw ▸ h
  | state :: names, m, m', h, hw => by
    simp only [watch] at hw
    split at hw
    · exact watch_induction hI names (hI m state h) hw
    · cases hw

/-- The hooks of a machine's program are those of a simulation. -/
def Watches (m : Machine) : Prop :=
  ∀ p, m.program? = some p → ∀ k, some k ∈ p.hooks → k = .watching

theorem watches_setHook (h : m.Watches) (state : String) :
    (m.setHook host state .watching).machine.Watches := by
  rcases m.setHook_cases host state .watching with ⟨_, _, he⟩ | ⟨p, s, hp, -, he⟩
  · rw [he]
    exact h
  · rw [he]
    rintro _ ⟨⟩ k hk
    rcases List.mem_or_eq_of_mem_set hk with hk | hk
    · exact h p hp k hk
    · exact Option.some.inj hk

theorem watches_configure (h : m.Watches) (text : String) (now : Instant) :
    (m.configure host text now).machine.Watches := by
  refine @configure_induction m host now (fun m _ => m.Watches) ?_ ?_ ?_ ?_ ?_ ?_ h text
  · exact fun _ _ _ h => h
  · intro m host s h
    rcases m.bind_cases host s with ⟨_, _, he⟩ | ⟨e, _, -, -, he⟩
    · rwa [he]
    · rw [he]
      rintro _ ⟨⟩ k hk
      simp [Program.blank] at hk
  · intro m host s h
    rcases m.addRule_cases host s with ⟨_, _, he⟩ | ⟨p, _, _, _, hp, -, he⟩
    · rwa [he]
    · rw [he]
      rintro _ ⟨⟩ k hk
      exact h p hp k hk
  · intro m host s h
    rcases m.addHold_cases host s with ⟨_, _, he⟩ | ⟨p, _, _, hp, -, he⟩
    · rwa [he]
    · rw [he]
      rintro _ ⟨⟩ k hk
      exact h p hp k hk
  · intro m host h
    unfold reset
    split
    · exact h
    · exact h
  · intro _ _ _ _ hp
    cases hp

/-- Watching names states sets their hooks. -/
theorem hook?_watch : ∀ (names : List String) {m m' : Machine} {p p' : Program},
    m.watch host names = .ok m' → m.program? = some p → m'.program? = some p' →
    p.hooks.length = p.states → ∀ s, p.hook? s = some .watching ∨
      (∃ name ∈ names, p.keywords.state? p.states name = some s) → p'.hook? s = some .watching
  | [], m, m', p, p', hw, hp, hp', hlen, s, h => by
    cases hw
    cases hp.symm.trans hp'
    simpa using h
  | state :: names, m, m', p, p', hw, hp, hp', hlen, s, h => by
    simp only [watch] at hw
    split at hw
    · rename_i hans
      rcases m.setHook_cases host state .watching with ⟨_, _, he⟩ | ⟨q, t, hq, ht, he⟩
      · rw [he] at hans
        cases hans
      · cases hp.symm.trans hq
        rw [he] at hw
        refine hook?_watch names hw rfl hp' ((List.length_set ..).trans hlen) s ?_
        have hlt : t < p.hooks.length := hlen ▸ (KeywordTable.state?_eq_some ht).2
        have hset : Program.hook? { p with hooks := p.hooks.set t (some .watching) } s
            = if t = s then some .watching else p.hook? s := by
          simp only [Program.hook?, List.getElem?_set, hlt, if_true]
          split <;> rfl
        rw [hset]
        rcases h with h | ⟨name, hname, hs⟩
        · left
          split
          · rfl
          · exact h
        · rcases List.mem_cons.1 hname with rfl | hname
          · rw [ht] at hs
            exact .inl (if_pos (Option.some.inj hs))
          · exact .inr ⟨name, hname, hs⟩
    · cases hw

end Watch

/-- A machine of a simulation. -/
structure Commissioned (options : Options) (host : Host) (m : Machine) : Prop where
  options : m.options = options
  wellFormed : m.WellFormed host
  watches : m.Watches
  /-- In states that have a name of their own, there is a hook. -/
  hook? : ∀ p, m.program? = some p → (p.keywords.map (·.name)).Nodup → ∀ s < p.states,
    (p.stateName? s).isSome → p.hook? s = some .watching

end Machine

section Commission

variable {options : Options} {now : Instant} {host host' : Host} {m : Machine}

/-- A program without its hooks. -/
def Program.unhooked (p : Program) : Program :=
  { p with hooks := [] }

theorem Machine.program?_setHook (m : Machine) (host : Host) (state : String) (k : Hook) :
    (m.setHook host state k).machine.program?.map (·.unhooked)
      = m.program?.map (·.unhooked) := by
  rcases m.setHook_cases host state k with ⟨_, _, he⟩ | ⟨p, s, hp, -, he⟩
  · rw [he]
  · rw [he, hp]
    rfl

theorem Machine.state?_of_stateName? {p : Program} {s : Nat} {name : String}
    (hn : (p.keywords.map (·.name)).Nodup) (hs : s < p.states) (h : p.stateName? s = some name) :
    p.keywords.state? p.states name = some s := by
  obtain ⟨k, hk, rfl⟩ := Option.map_eq_some_iff.1 h
  have hv : k.value = s := by simpa using List.find?_some hk
  have hvalue := KeywordTable.value?_of_mem hn k (List.mem_of_find?_eq_some hk)
  simp [KeywordTable.state?, hvalue, hv, hs]

theorem Machine.options_setHook (m : Machine) (host : Host) (state : String) (k : Hook) :
    (m.setHook host state k).machine.options = m.options := by
  rcases m.setHook_cases host state k with ⟨_, _, he⟩ | ⟨p, s, hp, -, he⟩ <;> rw [he]

theorem Machine.stateName?_mem {p : Program} {s : Nat} {name : String} (hp : m.program? = some p)
    (hs : s < p.states) (h : p.stateName? s = some name) : name ∈ m.stateNames := by
  refine List.mem_filterMap.2 ⟨s, List.mem_range.2 ?_, ?_⟩
  · simpa [Machine.states, hp] using hs
  · simpa [Machine.stateName?, hp] using h

/-- A machine that is commissioned is configured on its host, and then watched. -/
theorem of_commission {spec : String}
    (h : (commission options now host spec).result = .ok (m, host')) :
    let e := Machine.configure { options } host spec now
    e.machine.watch e.host e.machine.stateNames = .ok m ∧ host' = e.host := by
  unfold commission at h
  dsimp only at h
  split at h
  · cases h
  dsimp only at h
  split at h
  · rename_i hw
    cases h
    exact ⟨hw, rfl⟩
  · cases h

theorem commission_ok {spec : String}
    (h : (commission options now host spec).result = .ok (m, host')) :
    host'.fixed = host.fixed ∧ m.Commissioned options host.fixed := by
  obtain ⟨hw, rfl⟩ := of_commission h
  generalize he : Machine.configure { options } host spec now = e at hw
  have hfixed : e.host.fixed = host.fixed := he ▸ Machine.fixed_configure _ host now spec
  have hwf : e.machine.WellFormed e.host :=
    he ▸ Program.wellFormed_invariant.configure now (fun _ hp => by cases hp) spec
  have hwatches : e.machine.Watches :=
    he ▸ Machine.watches_configure (fun _ hp => by cases hp) spec now
  have hprog := Machine.watch_induction
    (I := fun n => n.program?.map (·.unhooked) = e.machine.program?.map (·.unhooked))
    (fun m state h => (m.program?_setHook e.host state .watching).trans h) _ rfl hw
  refine ⟨hfixed, ?_, ?_, ?_, fun p hp hn s hs hname => ?_⟩
  · exact Machine.watch_induction (I := fun n => n.options = options)
      (fun m state h => (m.options_setHook e.host state .watching).trans h) _
      (he ▸ Machine.options_configure _ host now spec) hw
  · exact Program.wellFormed_invariant.meets_of_fixed hfixed.symm
      (Machine.watch_induction (I := fun n => n.WellFormed e.host)
        (fun m state h => Program.wellFormed_invariant.setHook h state _) _ hwf hw)
  · exact Machine.watch_induction (I := fun n => n.Watches)
      (fun m state h => Machine.watches_setHook h state) _ hwatches hw
  · rw [hp, Option.map_some, eq_comm, Option.map_eq_some_iff] at hprog
    obtain ⟨q, hq, heq⟩ := hprog
    have hkeywords : q.keywords = p.keywords := congrArg (·.keywords) heq
    have hstates : q.states = p.states := congrArg (·.rules.states) heq
    obtain ⟨name, hname⟩ := Option.isSome_iff_exists.1 hname
    have hname' : q.stateName? s = some name := by
      rw [Program.stateName?, hkeywords]
      exact hname
    refine Machine.hook?_watch _ hw hq hp (hwf q hq).hooks s (.inr ⟨name, ?_, ?_⟩)
    · exact Machine.stateName?_mem hq (hstates ▸ hs) hname'
    · exact Machine.state?_of_stateName? (hkeywords ▸ hn) (hstates ▸ hs) hname'

end Commission

section Assemble

variable {options : Options} {now : Instant}

/-- What holds of every machine that is commissioned, on its host, holds of the machines of a
host. -/
theorem equip_all {P : Machine → Host → Prop}
    (hP : ∀ {host host' spec m}, (commission options now host spec).result = .ok (m, host') →
      P m host.fixed) : ∀ {specs : List String} {position : Nat} {host host' : Host}
    {stations : List Station},
    (equip options now position host specs).result = .ok (host', stations) →
    host'.fixed = host.fixed ∧ stations.length = specs.length ∧
      ∀ st ∈ stations, st.host = position ∧ P st.machine host.fixed
  | [], position, host, host', stations, h => by
    cases h
    simp
  | spec :: specs, position, host, host', stations, h => by
    simp only [equip, Logged.result_bind] at h
    obtain ⟨⟨m, host₁⟩, hm, h⟩ := bind_eq_ok h
    obtain ⟨⟨host₂, rest⟩, hrest, h⟩ := bind_eq_ok h
    cases h
    obtain ⟨hf', hlen, hall⟩ := equip_all hP hrest
    rw [(commission_ok hm).1] at hf' hall
    exact ⟨hf', congrArg (· + 1) hlen, List.forall_mem_cons.2 ⟨⟨rfl, hP hm⟩, hall⟩⟩

/-- The hosts of a registry that is assembled, and what holds of its machines, each on the host that
has it. -/
theorem assemble_all {P : Machine → Host → Prop}
    (hP : ∀ {host host' spec m}, (commission options now host spec).result = .ok (m, host') →
      P m host.fixed) : ∀ {specs : List HostSpec} {position : Nat} {r : Registry},
    (assemble options now position specs).result = .ok r →
    r.hosts.map (·.fixed) = specs.map (·.host.fixed) ∧
      ∀ st ∈ r.stations, ∃ k spec, st.host = position + k ∧ specs[k]? = some spec ∧
        P st.machine spec.host.fixed
  | [], position, r, h => by
    cases h
    simp
  | spec :: specs, position, r, h => by
    simp only [assemble, Logged.result_bind] at h
    obtain ⟨⟨host, stations⟩, hm, h⟩ := bind_eq_ok h
    obtain ⟨r', hr', h⟩ := bind_eq_ok h
    cases h
    obtain ⟨hf, -, hall⟩ := equip_all hP hm
    obtain ⟨hhosts, hrest⟩ := assemble_all hP hr'
    refine ⟨by simp [hf, hhosts], fun st hst => ?_⟩
    rcases List.mem_append.1 hst with hst | hst
    · exact ⟨0, spec, (hall st hst).1, rfl, (hall st hst).2⟩
    · obtain ⟨k, spec', hk, hspec, hc⟩ := hrest st hst
      exact ⟨k + 1, spec', by omega, hspec, hc⟩

theorem assemble_ok {specs : List HostSpec} {position : Nat} {r : Registry}
    (h : (assemble options now position specs).result = .ok r) :
    r.hosts.map (·.fixed) = specs.map (·.host.fixed) ∧
      ∀ st ∈ r.stations, ∃ k spec, st.host = position + k ∧ specs[k]? = some spec ∧
        st.machine.Commissioned options spec.host.fixed :=
  assemble_all (P := fun m host => m.Commissioned options host) (fun h => (commission_ok h).2) h

end Assemble

theorem Scenario.build_ok {sc : Scenario} {s : Simulation} (h : sc.build.result = .ok s) :
    sc.flaw? = none ∧
      (assemble sc.options sc.window.start 0 sc.hosts).result = .ok s.registry ∧
      s.window = sc.window ∧ s.events = sortEvents sc.events ∧ s.trace = [] ∧
      (sortEvents sc.events).forM s.registry.checkEvent = .ok () := by
  unfold build at h
  split at h
  · cases h
  · rename_i hflaw
    simp only [Logged.result_bind] at h
    obtain ⟨r, hr, h⟩ := bind_eq_ok h
    obtain ⟨_, hcheck, h⟩ := bind_eq_ok h
    obtain ⟨_, -, h⟩ := bind_eq_ok h
    cases h
    exact ⟨hflaw, hr, rfl, rfl, rfl, hcheck⟩

/-- Nothing else stands in the way of building a scenario. -/
theorem Scenario.result_build {sc : Scenario} {r : Registry} (hflaw : sc.flaw? = none)
    (hr : (assemble sc.options sc.window.start 0 sc.hosts).result = .ok r)
    (hcheck : (sortEvents sc.events).forM r.checkEvent = .ok ()) :
    sc.build.result = .ok ⟨sc.window, r, sortEvents sc.events, []⟩ := by
  simp only [build, hflaw, Logged.result_bind, hr, Except.bind, Logged.result_ofExcept, hcheck]
  rfl

end Dwell

import Dwell.Proofs.Simulation.Ending

/-!
# Hosts with their machines

The machines of a host read and write that host alone, so a host with its machines, its crew, goes
its own way: what starting, events and ticks make of it does not depend on the other hosts
(`crew?_initAll`, `applyEvent_crew`, `crew?_tickAll`). What the crews have in common is the wake
time, which is the earliest of theirs (`le_tickAll_wake_iff`). So registries with the same crews,
in whatever order, stay alike (`Alike`).
-/

namespace Dwell

/-- A host and its machines, in order. -/
structure Crew where
  host : Host
  machines : List Machine

/-- The machines that stand at a position, in order. -/
def machinesAt (k : Nat) (stations : List Station) : List Machine :=
  (stations.filter (·.host = k)).map (·.machine)

/-- What was observed at a position, in order. -/
def entriesAt (k : Nat) (seen : List Sighting) : Journal :=
  (seen.filter (·.host = k)).map (·.entry)

namespace Crew

def init (now : Instant) (c : Crew) : Crew :=
  { c with machines := c.machines.map (·.init c.host now) }

/-- Ticks machines of one host in order: the earliest wake time, the crew, and the journal. -/
def tickFrom (now : Instant) : Host → List Machine → Instant × Crew × Journal
  | host, [] => (.never, ⟨host, []⟩, [])
  | host, m :: ms =>
    let e := m.tick host now
    let t := tickFrom now e.host ms
    (min e.answer t.1, ⟨t.2.1.host, e.machine :: t.2.1.machines⟩, e.journal ++ t.2.2)

def tick (now : Instant) (c : Crew) : Instant × Crew × Journal :=
  tickFrom now c.host c.machines

/-- What an event makes of the crew of its host. -/
def receive (e : Event) : Option Crew → Except SimulationFault Crew
  | none => .error (.unknownObject e.host)
  | some c => match c.host.write? e.property e.index e.value with
    | none => .error (.event e.time e.host e.property (.noElement e.index))
    | some host => .ok { c with host }

end Crew

section Positions

variable {k : Nat} {now : Instant}

theorem machinesAt_cons (s : Station) (stations : List Station) : machinesAt k (s :: stations)
    = if s.host = k then s.machine :: machinesAt k stations else machinesAt k stations := by
  unfold machinesAt
  by_cases h : s.host = k <;> simp [h]

theorem machinesAt_map {f : Station → Station} {g : Machine → Machine}
    (hf : ∀ s, (f s).host = s.host) (hg : ∀ s, s.host = k → (f s).machine = g s.machine)
    (stations : List Station) :
    machinesAt k (stations.map f) = (machinesAt k stations).map g := by
  induction stations with
  | nil => rfl
  | cons s stations ih =>
    rw [List.map_cons, machinesAt_cons, machinesAt_cons, hf, ih]
    split
    · rw [hg s ‹_›, List.map_cons]
    · rfl

theorem entriesAt_append (seen more : List Sighting) :
    entriesAt k (seen ++ more) = entriesAt k seen ++ entriesAt k more := by
  simp [entriesAt]

theorem entriesAt_journal (j : Nat) (journal : Journal) :
    entriesAt k (journal.map (Sighting.mk j)) = if j = k then journal else [] := by
  by_cases h : j = k <;> simp [entriesAt, List.filter_map, Function.comp_def, h]

namespace Registry

/-- Ticking all machines ticks those of one host as if there were no others. -/
theorem tickStations_at (now : Instant) : ∀ (stations : List Station) (hosts : List Host)
    {host : Host},
    hosts[k]? = some host →
      (tickStations now hosts stations).2.1[k]?
          = some (Crew.tickFrom now host (machinesAt k stations)).2.1.host ∧
        machinesAt k (tickStations now hosts stations).2.2.1
          = (Crew.tickFrom now host (machinesAt k stations)).2.1.machines ∧
        entriesAt k (tickStations now hosts stations).2.2.2
          = (Crew.tickFrom now host (machinesAt k stations)).2.2
  | [], hosts, host, hk => ⟨hk, rfl, rfl⟩
  | s :: rest, hosts, host, hk => by
    rcases hs : hosts[s.host]? with _ | own
    · have hne : s.host ≠ k := fun h => by simp [h, hk] at hs
      rw [tickStations_cons_of_none hs, machinesAt_cons, if_neg hne]
      simp only [machinesAt_cons, if_neg hne]
      exact tickStations_at now rest hosts hk
    · rw [tickStations_cons hs]
      dsimp only
      rw [machinesAt_cons, machinesAt_cons, entriesAt_append, entriesAt_journal]
      -- The machine is one of this host, or of another, and then leaves this one as it is.
      by_cases h : s.host = k
      · obtain rfl : own = host := Option.some.inj (hs.symm.trans (h ▸ hk))
        have hset : (hosts.set s.host (s.machine.tick own now).host)[k]?
            = some (s.machine.tick own now).host := by
          simp [h, (List.getElem?_eq_some_iff.1 hk).1]
        obtain ⟨h₁, h₂, h₃⟩ := tickStations_at now rest _ hset
        simp only [if_pos h, Crew.tickFrom, h₁, h₂, h₃, true_and]
      · have hset : (hosts.set s.host (s.machine.tick own now).host)[k]? = some host := by
          rw [List.getElem?_set_ne h, hk]
        simp only [if_neg h, List.nil_append]
        exact tickStations_at now rest _ hset

theorem le_tickStations_wake_iff {t : Instant} : ∀ (stations : List Station) (hosts : List Host),
    (∀ s ∈ stations, s.host < hosts.length) → (t ≤ (tickStations now hosts stations).1 ↔
      ∀ k host, hosts[k]? = some host → t ≤ (Crew.tickFrom now host (machinesAt k stations)).1)
  | [], hosts, _ => ⟨fun h _ _ _ => h, fun _ => t.le_never⟩
  | s :: rest, hosts, hfits => by
    obtain ⟨hlt, hrest⟩ := List.forall_mem_cons.1 hfits
    have hs := List.getElem?_eq_getElem hlt
    generalize hosts[s.host] = own at hs
    rw [tickStations_cons hs]
    dsimp only
    rw [le_min_iff, le_tickStations_wake_iff rest _ (by simpa using hrest)]
    constructor
    · rintro ⟨hown, hall⟩ k host hk
      rw [machinesAt_cons]
      split
      · rename_i h
        obtain rfl : own = host := Option.some.inj (hs.symm.trans (h ▸ hk))
        exact le_min hown (hall k _ (by simp [h, (List.getElem?_eq_some_iff.1 hk).1]))
      · rename_i h
        exact hall k host (by rw [List.getElem?_set_ne h, hk])
    · intro hall
      have hfirst := hall s.host own hs
      rw [machinesAt_cons, if_pos rfl] at hfirst
      obtain ⟨hown, hothers⟩ := le_min_iff.1 hfirst
      refine ⟨hown, fun k host hk => ?_⟩
      by_cases h : s.host = k
      · subst h
        rw [List.getElem?_set_self hlt, Option.some.injEq] at hk
        exact hk ▸ hothers
      · rw [List.getElem?_set_ne h] at hk
        have := hall k host hk
        rwa [machinesAt_cons, if_neg h] at this

end Registry

end Positions

namespace Registry

/-- No two hosts have the same name, and every machine stands on a host. -/
structure Crewed (r : Registry) : Prop where
  names : (r.hosts.map (·.name)).Nodup
  fits : r.Fits

/-- The host with a name, and its machines. -/
def crew? (r : Registry) (name : String) : Option Crew := do
  let k ← r.hostAt? name
  let host ← r.hosts[k]?
  return ⟨host, machinesAt k r.stations⟩

/-- What was observed on the host with a name. -/
def journalOf (r : Registry) (seen : List Sighting) (name : String) : Journal :=
  match r.hostAt? name with
  | some k => entriesAt k seen
  | none => []

section Names

variable {r r' : Registry} {k : Nat} {name : String} {host : Host}

theorem names_fixed (r : Registry) : r.fixed.hosts.map (·.name) = r.hosts.map (·.name) := by
  rw [fixed, List.map_map]
  rfl

theorem names_of_fixed (h : r'.fixed = r.fixed) :
    r'.hosts.map (·.name) = r.hosts.map (·.name) :=
  eq_of_fixed (f := fun r => r.hosts.map (·.name)) names_fixed h

theorem crewed_of_fixed (h : r'.fixed = r.fixed) (hr : r.Crewed) : r'.Crewed :=
  ⟨names_of_fixed h ▸ hr.names, fits_of_fixed h hr.fits⟩

theorem hostAt?_of_fixed (h : r'.fixed = r.fixed) (name : String) :
    r'.hostAt? name = r.hostAt? name :=
  eq_of_fixed (f := (·.hostAt? name)) (fun r => r.hostAt?_fixed name) h

theorem journalOf_of_fixed (h : r'.fixed = r.fixed) (seen : List Sighting) (name : String) :
    r'.journalOf seen name = r.journalOf seen name := by
  rw [journalOf, journalOf, hostAt?_of_fixed h]

theorem hostAt?_eq_some_iff (hr : r.Crewed) :
    r.hostAt? name = some k ↔ ∃ host, r.hosts[k]? = some host ∧ host.name = name := by
  rw [hostAt?, List.findIdx?_eq_some_iff_getElem]
  constructor
  · rintro ⟨hlt, hname, -⟩
    exact ⟨_, List.getElem?_eq_getElem hlt, by simpa using hname⟩
  · rintro ⟨host, hk, rfl⟩
    obtain ⟨hlt, rfl⟩ := List.getElem?_eq_some_iff.1 hk
    refine ⟨hlt, by simp, fun j hj => ?_⟩
    have hne := List.pairwise_iff_getElem.1 hr.names j k (by simp; omega) (by simpa) hj
    simpa using hne

theorem crew?_of_hostAt? (hk : r.hostAt? name = some k) (hhost : r.hosts[k]? = some host) :
    r.crew? name = some ⟨host, machinesAt k r.stations⟩ := by
  simp [crew?, hk, hhost]

theorem crew?_eq_none (h : r.hostAt? name = none) : r.crew? name = none := by
  simp [crew?, h]

theorem crew?_cases (r : Registry) (name : String) :
    (r.hostAt? name = none ∧ r.crew? name = none) ∨ ∃ k host, r.hostAt? name = some k ∧
      r.hosts[k]? = some host ∧ r.crew? name = some ⟨host, machinesAt k r.stations⟩ := by
  rcases hk : r.hostAt? name with _ | k
  · exact .inl ⟨rfl, crew?_eq_none hk⟩
  · have hlt := (List.findIdx?_eq_some_iff_getElem.1 hk).1
    have hhost := List.getElem?_eq_getElem hlt
    exact .inr ⟨k, _, rfl, hhost, crew?_of_hostAt? hk hhost⟩

end Names

section Crews

variable {r : Registry}

theorem crew?_initAll (now : Instant) (name : String) :
    (r.initAll now).crew? name = (r.crew? name).map (·.init now) := by
  have hat : (r.initAll now).hostAt? name = r.hostAt? name := rfl
  rcases r.crew?_cases name with ⟨hk, hc⟩ | ⟨k, host, hk, hhost, hc⟩
  · rw [hc, crew?_eq_none (hat.trans hk)]
    rfl
  · rw [hc, crew?_of_hostAt? (hat.trans hk) hhost, Option.map_some, Crew.init]
    refine congrArg (fun ms => some (Crew.mk host ms)) (machinesAt_map (fun s => ?_) ?_ r.stations)
    · split <;> rfl
    · rintro s rfl
      rw [hhost]

theorem crew?_tickAll (now : Instant) (name : String) :
    (r.tickAll now).2.1.crew? name = (r.crew? name).map (fun c => (c.tick now).2.1) := by
  have hat := hostAt?_of_fixed (r.fixed_tickAll now) name
  rcases r.crew?_cases name with ⟨hk, hc⟩ | ⟨k, host, hk, hhost, hc⟩
  · rw [hc, crew?_eq_none (hat.trans hk)]
    rfl
  · obtain ⟨h₁, h₂, -⟩ := tickStations_at now r.stations r.hosts hhost
    rw [hc, crew?_of_hostAt? (hat.trans hk) h₁, Option.map_some]
    exact congrArg some (congrArg _ h₂)

theorem journalOf_tickAll (now : Instant) (name : String) :
    r.journalOf (r.tickAll now).2.2 name
      = ((r.crew? name).map (fun c => (c.tick now).2.2)).getD [] := by
  rcases r.crew?_cases name with ⟨hk, hc⟩ | ⟨k, host, hk, hhost, hc⟩
  · rw [hc, journalOf, hk]
    rfl
  · rw [hc, journalOf, hk]
    exact (tickStations_at now r.stations r.hosts hhost).2.2

theorem le_tickAll_wake_iff (hr : r.Crewed) {now t : Instant} :
    t ≤ (r.tickAll now).1 ↔ ∀ name c, r.crew? name = some c → t ≤ (c.tick now).1 := by
  refine (le_tickStations_wake_iff r.stations r.hosts hr.fits).trans ⟨fun h name c hc => ?_,
    fun h k host hk => ?_⟩
  · rcases r.crew?_cases name with ⟨-, hnone⟩ | ⟨k, host, -, hhost, hsome⟩
    · rw [hnone] at hc
      cases hc
    · rw [hsome, Option.some.injEq] at hc
      exact hc ▸ h k host hhost
  · exact h host.name _ (crew?_of_hostAt? ((hostAt?_eq_some_iff hr).2 ⟨host, hk, rfl⟩) hk)

/-- An event is received by the crew of its host, if that can take it. -/
theorem applyEvent_crew (hr : r.Crewed) (e : Event) :
    (∃ fault, Crew.receive e (r.crew? e.host) = .error fault ∧ r.applyEvent e = .error fault) ∨
      ∃ c r', Crew.receive e (r.crew? e.host) = .ok c ∧ r.applyEvent e = .ok r' ∧
        ∀ name, r'.crew? name = if name = e.host then some c else r.crew? name := by
  rcases r.crew?_cases e.host with ⟨hk, hc⟩ | ⟨k, host, hk, hhost, hc⟩
  · exact .inl ⟨.unknownObject e.host, by rw [hc, Crew.receive], by simp [applyEvent, hk]⟩
  rcases hw : host.write? e.property e.index e.value with _ | host'
  · refine .inl ⟨.event e.time e.host e.property (.noElement e.index), ?_, ?_⟩
    · simp only [hc, Crew.receive, hw]
    · simp only [applyEvent, hk, hhost, Option.bind_some, hw]
  have he : r.applyEvent e = .ok { r with hosts := r.hosts.set k host' } := by
    simp only [applyEvent, hk, hhost, Option.bind_some, hw]
  refine .inr ⟨⟨host', machinesAt k r.stations⟩, _, ?_, he, fun name => ?_⟩
  · simp only [hc, Crew.receive, hw]
  have hat := hostAt?_of_fixed (fixed_applyEvent he)
  have hlt := (List.getElem?_eq_some_iff.1 hhost).1
  split
  · subst name
    exact crew?_of_hostAt? ((hat _).trans hk) (List.getElem?_set_self hlt)
  · rename_i hne
    rcases r.crew?_cases name with ⟨hj, hn⟩ | ⟨j, other, hj, hother, hn⟩
    · rw [hn, crew?_eq_none ((hat _).trans hj)]
    · -- The host of another name stands elsewhere, so the event does not reach it.
      have hjk : k ≠ j := by
        rintro rfl
        obtain ⟨_, h₁, rfl⟩ := (hostAt?_eq_some_iff hr).1 hj
        obtain ⟨_, h₂, h₃⟩ := (hostAt?_eq_some_iff hr).1 hk
        rw [h₁, Option.some.injEq] at h₂
        exact hne (h₂ ▸ h₃)
      rw [hn, crew?_of_hostAt? ((hat _).trans hj) ((List.getElem?_set_ne hjk).trans hother)]

end Crews

/-- Registries with the same crews, whatever their order. -/
structure Alike (r r' : Registry) : Prop where
  crewed : r.Crewed
  crewed' : r'.Crewed
  crews : ∀ name, r'.crew? name = r.crew? name

namespace Alike

variable {r r' : Registry}

theorem initAll (h : r.Alike r') (now : Instant) : (r.initAll now).Alike (r'.initAll now) where
  crewed := crewed_of_fixed (fixed_initAll ..) h.crewed
  crewed' := crewed_of_fixed (fixed_initAll ..) h.crewed'
  crews name := by rw [crew?_initAll, crew?_initAll, h.crews]

theorem tickAll (h : r.Alike r') (now : Instant) :
    (r.tickAll now).2.1.Alike (r'.tickAll now).2.1 where
  crewed := crewed_of_fixed (fixed_tickAll ..) h.crewed
  crewed' := crewed_of_fixed (fixed_tickAll ..) h.crewed'
  crews name := by rw [crew?_tickAll, crew?_tickAll, h.crews]

theorem wake_tickAll (h : r.Alike r') (now : Instant) : (r'.tickAll now).1 = (r.tickAll now).1 := by
  refine eq_of_forall_le_iff fun t => ?_
  rw [le_tickAll_wake_iff h.crewed, le_tickAll_wake_iff h.crewed']
  simp only [h.crews]

theorem journalOf_tickAll (h : r.Alike r') (now : Instant) (name : String) :
    r'.journalOf (r'.tickAll now).2.2 name = r.journalOf (r.tickAll now).2.2 name := by
  rw [Registry.journalOf_tickAll, Registry.journalOf_tickAll, h.crews]

theorem applyEvent (h : r.Alike r') (e : Event) :
    (∃ fault, r.applyEvent e = .error fault ∧ r'.applyEvent e = .error fault) ∨
      ∃ r₁ r₁', r.applyEvent e = .ok r₁ ∧ r'.applyEvent e = .ok r₁' ∧ r₁.Alike r₁' := by
  have hsame : Crew.receive e (r'.crew? e.host) = Crew.receive e (r.crew? e.host) := by
    rw [h.crews]
  rcases applyEvent_crew h.crewed e with ⟨fault, hf, he⟩ | ⟨c, r₁, hc, he, hcrews⟩ <;>
    rcases applyEvent_crew h.crewed' e with ⟨fault', hf', he'⟩ | ⟨c', r₁', hc', he', hcrews'⟩
  · rw [hsame, hf, Except.error.injEq] at hf'
    exact .inl ⟨fault, he, hf' ▸ he'⟩
  · rw [hsame, hf] at hc'
    cases hc'
  · rw [hsame, hc] at hf'
    cases hf'
  · rw [hsame, hc, Except.ok.injEq] at hc'
    subst hc'
    refine .inr ⟨r₁, r₁', he, he', crewed_of_fixed (fixed_applyEvent he) h.crewed,
      crewed_of_fixed (fixed_applyEvent he') h.crewed', fun name => ?_⟩
    rw [hcrews, hcrews', h.crews]

theorem applyEvents : ∀ (es : List Event) {r r' : Registry}, r.Alike r' →
    (r'.applyEvents es).2 = (r.applyEvents es).2 ∧ (r.applyEvents es).1.Alike (r'.applyEvents es).1
  | [], r, r', h => ⟨rfl, h⟩
  | e :: es, r, r', h => by
    rcases h.applyEvent e with ⟨fault, he, he'⟩ | ⟨r₁, r₁', he, he', h₁⟩
    · simp only [Registry.applyEvents, he, he']
      exact ⟨trivial, h⟩
    · obtain ⟨hsame, halike⟩ := applyEvents es h₁
      simp only [Registry.applyEvents, he, he', hsame]
      exact ⟨trivial, halike⟩

end Alike

end Registry

end Dwell

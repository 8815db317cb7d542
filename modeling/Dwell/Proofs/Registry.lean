import Dwell.Proofs.Machine.Tick
import Dwell.Simulation.Running

/-!
# What ticking all machines does

Of a registry, ticks and events leave alone what properties the hosts have, and where each machine
stands, with its program and options (`fixed_tickAll`, `fixed_applyEvents`). Every machine is
ticked once, on the host as those before it leave it (`tickAll_station`); the wake time is at most
what it answers, and later than the tick (`isAhead_tickAll`).
-/

namespace Dwell

/-- A machine's place, and of the machine what ticks leave alone. -/
def Station.fixed (s : Station) : Station :=
  ⟨s.host, { options := s.machine.options, program? := s.machine.program? }⟩

namespace Registry

/-- Of a registry, what ticks and events leave alone. -/
def fixed (r : Registry) : Registry :=
  ⟨r.hosts.map (·.fixed), r.stations.map (·.fixed)⟩

/-- Every machine stands on a host. -/
def Fits (r : Registry) : Prop :=
  ∀ s ∈ r.stations, s.host < r.hosts.length

/-- What depends on no more than ticks and events leave alone stays as it is. -/
theorem eq_of_fixed {α : Sort*} {r r' : Registry} {f : Registry → α}
    (hf : ∀ r, f r.fixed = f r) (h : r'.fixed = r.fixed) : f r' = f r := by
  rw [← hf r', h, hf]

/-- What is so of the stations as far as ticks leave them alone stays so. -/
theorem forall_stations_of_fixed {r r' : Registry} {P : Station → Prop} (h : r'.fixed = r.fixed)
    (hr : ∀ s ∈ r.stations, P s.fixed) : ∀ s ∈ r'.stations, P s.fixed := by
  intro s hs
  have hmem : s.fixed ∈ r.fixed.stations := h ▸ List.mem_map_of_mem hs
  obtain ⟨s₀, hs₀, he⟩ := List.mem_map.1 hmem
  exact he ▸ hr s₀ hs₀

theorem fits_of_fixed {r r' : Registry} (h : r'.fixed = r.fixed) (hr : r.Fits) : r'.Fits :=
  (eq_of_fixed (f := Fits) (fun r => by simp [Fits, fixed, Station.fixed]) h).mpr hr

section TickStations

variable {now : Instant} {hosts : List Host} {host : Host} {s : Station} {rest : List Station}

theorem tickStations_cons (h : hosts[s.host]? = some host) :
    tickStations now hosts (s :: rest) =
      let e := s.machine.tick host now
      let t := tickStations now (hosts.set s.host e.host) rest
      (min e.answer t.1, t.2.1, { s with machine := e.machine } :: t.2.2.1,
        e.journal.map (⟨s.host, ·⟩) ++ t.2.2.2) := by
  simp only [tickStations, h]

theorem tickStations_cons_of_none (h : hosts[s.host]? = none) :
    tickStations now hosts (s :: rest) =
      let t := tickStations now hosts rest
      (t.1, t.2.1, s :: t.2.2.1, t.2.2.2) := by
  simp only [tickStations, h]

theorem fixed_set_host {k : Nat} {host' : Host} (h : hosts[k]? = some host)
    (hf : host'.fixed = host.fixed) :
    (hosts.set k host').map (·.fixed) = hosts.map (·.fixed) := by
  obtain ⟨hlt, rfl⟩ := List.getElem?_eq_some_iff.1 h
  rw [List.map_set, hf]
  refine List.ext_getElem? fun i => ?_
  rw [List.getElem?_set]
  split
  · subst i
    simp [hlt]
  · rfl

/-- The hosts after a machine was ticked have the properties that they had before. -/
theorem fixed_getElem?_set_tick (h : hosts[s.host]? = some host) (now : Instant) (k : Nat) :
    ((hosts.set s.host (s.machine.tick host now).host)[k]?).map (·.fixed)
      = (hosts[k]?).map (·.fixed) := by
  have hset : (hosts.set s.host (s.machine.tick host now).host).map (·.fixed)
      = hosts.map (·.fixed) := fixed_set_host h (s.machine.fixed_tickUntil host now .never)
  rw [← List.getElem?_map, hset, List.getElem?_map]

theorem fixed_tick (s : Station) (host : Host) (now : Instant) :
    Station.fixed { s with machine := (s.machine.tick host now).machine } = s.fixed := by
  simp only [Station.fixed, Machine.tick, Machine.tickUntil_program?, Machine.tickUntil_options]

theorem fixed_tickStations (now : Instant) : ∀ (stations : List Station) (hosts : List Host),
    (tickStations now hosts stations).2.1.map (·.fixed) = hosts.map (·.fixed) ∧
      (tickStations now hosts stations).2.2.1.map (·.fixed) = stations.map (·.fixed)
  | [], hosts => ⟨rfl, rfl⟩
  | s :: rest, hosts => by
    rcases hs : hosts[s.host]? with _ | host
    · obtain ⟨h₁, h₂⟩ := fixed_tickStations now rest hosts
      rw [tickStations_cons_of_none hs]
      exact ⟨h₁, by simp only [List.map_cons, h₂]⟩
    · obtain ⟨h₁, h₂⟩ :=
        fixed_tickStations now rest (hosts.set s.host (s.machine.tick host now).host)
      rw [tickStations_cons hs]
      refine ⟨h₁.trans (fixed_set_host hs (s.machine.fixed_tickUntil host now .never)), ?_⟩
      simp only [List.map_cons, h₂, fixed_tick]

/-- The machine at a position is ticked on a host with the properties of its own, and the wake
time is no later than what it answers. -/
theorem tickStations_station (now : Instant) : ∀ (stations : List Station) (hosts : List Host)
    {i : Nat} {s : Station}, stations[i]? = some s → s.host < hosts.length →
    ∃ host : Host, (hosts[s.host]?).map (·.fixed) = some host.fixed ∧
      (tickStations now hosts stations).2.2.1[i]?
        = some { s with machine := (s.machine.tick host now).machine } ∧
      (tickStations now hosts stations).1 ≤ (s.machine.tick host now).answer
  | [], hosts, i, s, hi, _ => by simp at hi
  | t :: rest, hosts, i, s, hi, hlen => by
    rcases ht : hosts[t.host]? with _ | host
    · cases i with
      | zero =>
        simp only [List.getElem?_cons_zero, Option.some.injEq] at hi
        subst hi
        rw [List.getElem?_eq_none_iff] at ht
        omega
      | succ i =>
        rw [tickStations_cons_of_none ht]
        exact tickStations_station now rest hosts hi hlen
    · rw [tickStations_cons ht]
      cases i with
      | zero =>
        simp only [List.getElem?_cons_zero, Option.some.injEq] at hi
        subst hi
        exact ⟨host, by rw [ht]; rfl, rfl, min_le_left ..⟩
      | succ i =>
        obtain ⟨host', hf, h₁, h₂⟩ := tickStations_station now rest
          (hosts.set t.host (t.machine.tick host now).host) hi (by simpa using hlen)
        rw [fixed_getElem?_set_tick ht] at hf
        exact ⟨host', hf, h₁, le_trans (min_le_right ..) h₂⟩

/-- What is seen is in the journal of a machine's tick, on a host with the properties of its own. -/
theorem mem_tickStations (now : Instant) : ∀ (stations : List Station) (hosts : List Host)
    {g : Sighting}, g ∈ (tickStations now hosts stations).2.2.2 → ∃ s ∈ stations, ∃ host : Host,
      (hosts[s.host]?).map (·.fixed) = some host.fixed ∧ g.host = s.host ∧
        g.entry ∈ (s.machine.tick host now).journal
  | [], hosts, g, hg => by simp [tickStations] at hg
  | s :: rest, hosts, g, hg => by
    rcases hs : hosts[s.host]? with _ | host
    · rw [tickStations_cons_of_none hs] at hg
      obtain ⟨t, ht, h⟩ := mem_tickStations now rest hosts hg
      exact ⟨t, List.mem_cons_of_mem _ ht, h⟩
    rw [tickStations_cons hs] at hg
    rcases List.mem_append.1 hg with hg | hg
    · obtain ⟨entry, hentry, rfl⟩ := List.mem_map.1 hg
      exact ⟨s, List.mem_cons_self, host, by rw [hs]; rfl, rfl, hentry⟩
    · obtain ⟨t, ht, host', hf, h⟩ := mem_tickStations now rest _ hg
      rw [fixed_getElem?_set_tick hs] at hf
      exact ⟨t, List.mem_cons_of_mem _ ht, host', hf, h⟩

theorem isAhead_tickStations (now : Instant) : ∀ (stations : List Station) (hosts : List Host),
    now.IsAhead (tickStations now hosts stations).1
  | [], hosts => .inr rfl
  | s :: rest, hosts => by
    rcases hs : hosts[s.host]? with _ | host
    · rw [tickStations_cons_of_none hs]
      exact isAhead_tickStations now rest hosts
    · rw [tickStations_cons hs]
      exact (s.machine.isAhead_tickUntil host now .never).min (isAhead_tickStations now rest _)

end TickStations

section TickAll

variable (r : Registry) (now : Instant)

theorem fixed_tickAll : (r.tickAll now).2.1.fixed = r.fixed := by
  obtain ⟨h₁, h₂⟩ := fixed_tickStations now r.stations r.hosts
  simp only [tickAll, fixed, h₁, h₂]

variable {r now}

theorem tickAll_station {i : Nat} {s : Station} (hr : r.Fits) (hs : r.stations[i]? = some s)
    (now : Instant) :
    ∃ host : Host, (r.hosts[s.host]?).map (·.fixed) = some host.fixed ∧
      (r.tickAll now).2.1.stations[i]?
        = some { s with machine := (s.machine.tick host now).machine } ∧
      (r.tickAll now).1 ≤ (s.machine.tick host now).answer :=
  tickStations_station now r.stations r.hosts hs (hr s (List.mem_of_getElem? hs))

theorem isAhead_tickAll (r : Registry) (now : Instant) : now.IsAhead (r.tickAll now).1 :=
  isAhead_tickStations now r.stations r.hosts

end TickAll

section InitAll

theorem fixed_initAll (r : Registry) (now : Instant) : (r.initAll now).fixed = r.fixed := by
  simp only [initAll, fixed, List.map_map]
  congr 1
  refine List.map_congr_left fun s _ => ?_
  simp only [Function.comp_apply]
  split <;> rfl

theorem holdUntil_initAll {r : Registry} {now : Instant} (hr : r.Fits) :
    ∀ s ∈ (r.initAll now).stations, s.machine.holdUntil = .never := by
  simp only [initAll, List.mem_map]
  rintro _ ⟨s, hs, rfl⟩
  rw [List.getElem?_eq_getElem (hr s hs)]
  rfl

end InitAll

section Events

variable {r r' : Registry} {e : Event}

theorem applyEvent_cases (h : r.applyEvent e = .ok r') :
    ∃ k host host', r.hostAt? e.host = some k ∧ r.hosts[k]? = some host ∧
      host.write? e.property e.index e.value = some host' ∧
      r' = { r with hosts := r.hosts.set k host' } := by
  unfold applyEvent at h
  split at h
  · cases h
  · rename_i k hk
    split at h
    · cases h
    · rename_i host' hw
      obtain ⟨host, hhost, hw⟩ := Option.bind_eq_some_iff.1 hw
      exact ⟨k, host, host', hk, hhost, hw, (Except.ok.inj h).symm⟩

theorem fixed_applyEvent (h : r.applyEvent e = .ok r') : r'.fixed = r.fixed := by
  obtain ⟨k, host, host', -, hk, hw, rfl⟩ := applyEvent_cases h
  simp only [fixed, fixed_set_host hk (Host.fixed_write? hw)]

theorem stations_applyEvent (h : r.applyEvent e = .ok r') : r'.stations = r.stations := by
  obtain ⟨k, host, host', -, -, -, rfl⟩ := applyEvent_cases h
  rfl

theorem fixed_applyEvents : ∀ (es : List Event) (r : Registry),
    (r.applyEvents es).1.fixed = r.fixed
  | [], r => rfl
  | e :: es, r => by
    simp only [applyEvents]
    split
    · rfl
    · rename_i r' hr'
      exact (fixed_applyEvents es r').trans (fixed_applyEvent hr')

theorem stations_applyEvents : ∀ (es : List Event) (r : Registry),
    (r.applyEvents es).1.stations = r.stations
  | [], r => rfl
  | e :: es, r => by
    simp only [applyEvents]
    split
    · rfl
    · rename_i r' hr'
      exact (stations_applyEvents es r').trans (stations_applyEvent hr')

/-- Events that were all applied are those that were to be applied. -/
theorem applied_applyEvents : ∀ (es : List Event) (r : Registry),
    (r.applyEvents es).2.2 = none → (r.applyEvents es).2.1 = es
  | [], r, _ => rfl
  | e :: es, r, h => by
    simp only [applyEvents] at h ⊢
    split at h
    · cases h
    · rename_i r' hr'
      simp only [applied_applyEvents es r' h]

end Events

end Registry

end Dwell

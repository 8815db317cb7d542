import Dwell.Proofs.Machine.Entering
import Dwell.Proofs.Simulation.Passes

/-!
# What a simulation sees of its machines

When no two machines share a state variable, none writes the variable of another. So each of them
follows its own (`follows_tickStations`): in a tick of all machines the states entered are seen in
the order of the machines, of each at most one, the one that it then shows (`seen_tickStations`).
Events that write the values of states keep it so (`follows_applyEvent`), and with them whole steps
do (`Takes.follows`).
-/

namespace Dwell

/-- The variable of a machine that has one, with its host. -/
def Station.cell? (s : Station) : Option (Nat × String) :=
  s.machine.boundTo?.map (s.host, ·)

/-- The value of an enumeration of the host at a position. -/
def levelAt (hosts : List Host) (k : Nat) (name : String) : Option Int :=
  (hosts[k]?).map (·.level name)

/-- The machine is one of a simulation, and shows its variable's state or is to enter it. -/
def Station.Follows (hosts : List Host) (s : Station) : Prop :=
  ∃ host, hosts[s.host]? = some host ∧ ∀ p, s.machine.program? = some p →
    p.Traced host ∧ p.Tracks (host.level p.variableName) s.machine.value

/-- What was seen to be entered, and on which host. -/
def Sighting.entrance? (s : Sighting) : Option (Nat × View) :=
  s.entry.entrance?.map (s.host, ·)

/-- What is seen to be entered when a machine shows another state after a tick. -/
def Station.entrance? (before after : Station) : Option (Nat × View) :=
  if after.machine.currentName? = before.machine.currentName? then none
  else some (before.host, after.machine.view)

namespace Station

variable {hosts hosts' : List Host} {s : Station} {p : Program}

theorem cell?_eq (hp : s.machine.program? = some p) :
    s.cell? = some (s.host, p.variableName) := by
  simp [cell?, Machine.boundTo?, hp]

theorem cell?_fixed (s : Station) : s.fixed.cell? = s.cell? := rfl

/-- What a machine follows is its own variable. -/
theorem Follows.congr (h : s.Follows hosts)
    (hf : hosts'.map (·.fixed) = hosts.map (·.fixed))
    (hl : ∀ c ∈ s.cell?, levelAt hosts' c.1 c.2 = levelAt hosts c.1 c.2) : s.Follows hosts' := by
  obtain ⟨host, hhost, hp⟩ := h
  have hfix : (hosts'[s.host]?).map (·.fixed) = some host.fixed := by
    rw [← List.getElem?_map, hf, List.getElem?_map, hhost]
    rfl
  obtain ⟨host', hhost', hfix⟩ := Option.map_eq_some_iff.1 hfix
  refine ⟨host', hhost', fun p hprog => ?_⟩
  obtain ⟨ht, hi⟩ := hp p hprog
  have hlevel := hl _ (cell?_eq hprog)
  simp only [levelAt, hhost', hhost, Option.map_some, Option.some.injEq] at hlevel
  exact ⟨Program.traced_of_fixed hfix ht, hlevel ▸ hi⟩

end Station

namespace Registry

variable {hosts : List Host} {host : Host} {s : Station} {now : Instant}

theorem levelAt_set {k j : Nat} {host host' : Host} {name : String} (hk : hosts[k]? = some host)
    (hl : j = k → host'.level name = host.level name) :
    levelAt (hosts.set k host') j name = levelAt hosts j name := by
  obtain ⟨hlt, rfl⟩ := List.getElem?_eq_some_iff.1 hk
  rw [levelAt, levelAt, List.getElem?_set]
  split
  · subst j
    simp [hlt, hl rfl]
  · rfl

/-- A tick of a machine writes its own variable alone. -/
theorem levelAt_tick (h : s.Follows hosts) (hhost : hosts[s.host]? = some host) {k : Nat}
    {name : String} (hne : s.cell? ≠ some (k, name)) :
    levelAt (hosts.set s.host (s.machine.tick host now).host) k name = levelAt hosts k name := by
  refine levelAt_set hhost fun hk => ?_
  obtain ⟨host₀, hhost₀, hp⟩ := h
  obtain rfl : host = host₀ := Option.some.inj (hhost.symm.trans hhost₀)
  rcases hprog : s.machine.program? with _ | p
  · rw [Machine.tick, Machine.tickUntil_of_unbound host now .never hprog]
  · refine Machine.level_tickUntil_of_ne .never hprog (hp p hprog).1 fun hname => hne ?_
    rw [Station.cell?_eq hprog, hk, hname]

/-- After its tick, a machine still follows its variable, and what was seen of it is the state that
it entered, if it entered one. -/
theorem follows_tick (now : Instant) (h : s.Follows hosts) (hhost : hosts[s.host]? = some host) :
    Station.Follows (hosts.set s.host (s.machine.tick host now).host)
        { s with machine := (s.machine.tick host now).machine } ∧
      Machine.Entered s.machine.currentName? (s.machine.tick host now).journal.entrances
        (s.machine.tick host now).machine := by
  obtain ⟨host₀, hhost₀, hp⟩ := h
  obtain rfl : host = host₀ := Option.some.inj (hhost.symm.trans hhost₀)
  have hlt := (List.getElem?_eq_some_iff.1 hhost).1
  have hget : (hosts.set s.host (s.machine.tick host now).host)[s.host]?
      = some (s.machine.tick host now).host := by
    simp [hlt]
  rcases hprog : s.machine.program? with _ | p
  · rw [Machine.tick, Machine.tickUntil_of_unbound host now .never hprog] at hget ⊢
    refine ⟨⟨host, hget, fun p hp' => ?_⟩, .inl ⟨rfl, rfl⟩⟩
    rw [hprog] at hp'
    cases hp'
  · obtain ⟨ht, hi⟩ := hp p hprog
    obtain ⟨hentered, htracks⟩ := Machine.entered_tickUntil now .never hprog ht hi
    refine ⟨⟨_, hget, fun p' hp' => ?_⟩, hentered⟩
    have heq := (Machine.tickUntil_program? s.machine host now .never).symm.trans hp'
    rw [hprog, Option.some.injEq] at heq
    subst heq
    exact ⟨Program.traced_of_fixed (Machine.fixed_tickUntil ..) ht, htracks⟩

theorem nodup_cells_cons {rest : List Station} : ((s :: rest).filterMap (·.cell?)).Nodup ↔
    (∀ c ∈ s.cell?, c ∉ rest.filterMap (·.cell?)) ∧ (rest.filterMap (·.cell?)).Nodup := by
  rcases hc : s.cell? with _ | c
  · simp [hc]
  · rw [List.filterMap_cons_some hc, List.nodup_cons]
    simp

/-- The others follow their variables after a machine was ticked. -/
theorem follows_of_tick (now : Instant) (h : s.Follows hosts) (hhost : hosts[s.host]? = some host)
    {t : Station} (ht : t.Follows hosts) (hne : ∀ c ∈ s.cell?, t.cell? ≠ some c) :
    t.Follows (hosts.set s.host (s.machine.tick host now).host) := by
  refine ht.congr (fixed_set_host hhost (s.machine.fixed_tickUntil host now .never)) ?_
  exact fun c hc => levelAt_tick h hhost fun hs => hne c hs hc

/-- When the first machine was ticked, those after it still follow their variables. -/
theorem follows_rest {rest : List Station} (now : Instant) (h : ∀ t ∈ s :: rest, t.Follows hosts)
    (hn : ((s :: rest).filterMap (·.cell?)).Nodup) : ∃ host, hosts[s.host]? = some host ∧
      ∀ t ∈ rest, t.Follows (hosts.set s.host (s.machine.tick host now).host) := by
  obtain ⟨hs, hrest⟩ := List.forall_mem_cons.1 h
  obtain ⟨host, hhost, -⟩ := id hs
  refine ⟨host, hhost, fun t ht => ?_⟩
  refine follows_of_tick now hs hhost (hrest t ht) fun c hc htc => ?_
  exact (nodup_cells_cons.1 hn).1 c hc (List.mem_filterMap.2 ⟨t, ht, htc⟩)

/-- Machines with variables of their own write no other variable, and each still follows its own. -/
theorem follows_tickStations (now : Instant) : ∀ {stations : List Station} {hosts : List Host},
    (∀ s ∈ stations, s.Follows hosts) → (stations.filterMap (·.cell?)).Nodup →
    (∀ k name, (k, name) ∉ stations.filterMap (·.cell?) →
      levelAt (tickStations now hosts stations).2.1 k name = levelAt hosts k name) ∧
    ∀ s ∈ (tickStations now hosts stations).2.2.1, s.Follows (tickStations now hosts stations).2.1
  | [], hosts, _, _ => ⟨fun _ _ _ => rfl, fun s hs => nomatch hs⟩
  | s :: rest, hosts, h, hn => by
    have hs := h s (by simp)
    obtain ⟨host, hhost, hrest⟩ := follows_rest now h hn
    obtain ⟨hne, hn⟩ := nodup_cells_cons.1 hn
    obtain ⟨hlevels, hall⟩ := follows_tickStations now hrest hn
    rw [tickStations_cons hhost]
    dsimp only
    refine ⟨fun k name hk => ?_, List.forall_mem_cons.2 ⟨?_, hall⟩⟩
    · have hk' : s.cell? ≠ some (k, name) ∧ (k, name) ∉ rest.filterMap (·.cell?) := by
        rcases hc : s.cell? with _ | c
        · rw [List.filterMap_cons_none hc] at hk
          exact ⟨by simp, hk⟩
        · rw [List.filterMap_cons_some hc, List.mem_cons, not_or] at hk
          exact ⟨fun heq => hk.1 (Option.some.inj heq).symm, hk.2⟩
      rw [hlevels k name hk'.2, levelAt_tick hs hhost hk'.1]
    · -- The machines after the first write variables of their own, so not the first one's.
      refine (follows_tick now hs hhost).1.congr (fixed_tickStations now rest _).1
        fun c hc => hlevels c.1 c.2 (hne c ?_)
      rwa [← Station.cell?_fixed, fixed_tick, Station.cell?_fixed] at hc

/-- The states that are seen to be entered are those that machines then show and did not before, in
the order of the machines. -/
theorem seen_tickStations (now : Instant) : ∀ {stations : List Station} {hosts : List Host},
    (∀ s ∈ stations, s.Follows hosts) → (stations.filterMap (·.cell?)).Nodup →
    (tickStations now hosts stations).2.2.2.filterMap (·.entrance?)
        = (stations.zip (tickStations now hosts stations).2.2.1).filterMap
          (fun x => x.1.entrance? x.2) ∧
      ∀ x ∈ stations.zip (tickStations now hosts stations).2.2.1,
        x.2.machine.currentName? ≠ x.1.machine.currentName? → x.2.machine.currentName?.isSome
  | [], hosts, _, _ => ⟨rfl, fun x hx => nomatch hx⟩
  | s :: rest, hosts, h, hn => by
    obtain ⟨host, hhost, hrest⟩ := follows_rest now h hn
    obtain ⟨hseen, hnames⟩ := seen_tickStations now hrest (nodup_cells_cons.1 hn).2
    have hmap : ∀ j : Journal, (j.map (Sighting.mk s.host)).filterMap (·.entrance?)
        = j.entrances.map (s.host, ·) := by
      intro j
      rw [List.filterMap_map, Journal.entrances, List.map_filterMap]
      rfl
    rw [tickStations_cons hhost]
    dsimp only
    rw [List.filterMap_append, hseen, List.zip_cons_cons, hmap, List.forall_mem_cons]
    rcases (follows_tick now (h s (by simp)) hhost).2 with ⟨he, hname⟩ | ⟨he, hsome, hname⟩
    · have hnone : s.entrance? { s with machine := (s.machine.tick host now).machine } = none :=
        if_pos hname
      simp only [he, List.filterMap_cons, hnone, List.map_nil, List.nil_append]
      exact ⟨trivial, fun hne => absurd hname hne, hnames⟩
    · have hentered : s.entrance? { s with machine := (s.machine.tick host now).machine }
          = some (s.host, (s.machine.tick host now).machine.view) := if_neg hname
      simp only [he, List.filterMap_cons, hentered, List.map_cons, List.map_nil]
      exact ⟨rfl, fun _ => hsome, hnames⟩

section Events

variable {r r' : Registry} {e : Event}

/-- What the event writes to a machine's variable is the value of a keyword, and in the range of
states. -/
def Suits (r : Registry) (e : Event) : Prop :=
  ∀ s ∈ r.stations, ∀ p ∈ s.machine.program?, r.hostName s.host = e.host →
    p.variableName = e.property → 0 ≤ Double.truncate e.value ∧
      Double.truncate e.value ≤ Machine.greatestState ∧
      ∃ k ∈ p.keywords, k.value = Double.truncate e.value

instance (r : Registry) : DecidablePred r.Suits := fun e =>
  inferInstanceAs (Decidable (∀ s ∈ r.stations, ∀ p ∈ s.machine.program?,
    r.hostName s.host = e.host → p.variableName = e.property → 0 ≤ Double.truncate e.value ∧
      Double.truncate e.value ≤ Machine.greatestState ∧
      ∃ k ∈ p.keywords, k.value = Double.truncate e.value))

theorem hostName_fixed (r : Registry) (k : Nat) : r.fixed.hostName k = r.hostName k := by
  simp only [hostName, fixed, List.getElem?_map, Option.map_map]
  rfl

theorem hostName_of_fixed (h : r'.fixed = r.fixed) (k : Nat) : r'.hostName k = r.hostName k :=
  eq_of_fixed (f := (·.hostName k)) (fun r => r.hostName_fixed k) h

theorem suits_of_fixed (h : r'.fixed = r.fixed) (hs : r.Suits e) : r'.Suits e := by
  intro s' hs' p hp hhost
  rw [hostName_of_fixed h] at hhost
  obtain ⟨s, hmem, hf⟩ : ∃ s ∈ r.stations, s.fixed = s'.fixed :=
    List.mem_map.1 (show s'.fixed ∈ r.fixed.stations from h ▸ List.mem_map_of_mem hs')
  have hpos : s.host = s'.host := congrArg (·.host) hf
  have hprog : s.machine.program? = s'.machine.program? := congrArg (·.machine.program?) hf
  exact hs s hmem p (hprog.trans hp) (hpos ▸ hhost)

theorem hostName_of_hostAt? {name : String} {k : Nat} (h : r.hostAt? name = some k) :
    r.hostName k = name := by
  obtain ⟨hlt, hname, -⟩ := List.findIdx?_eq_some_iff_getElem.1 h
  simpa [hostName, hlt] using hname

theorem follows_applyEvent (h : r.applyEvent e = .ok r') (he : r.Suits e)
    (hr : ∀ s ∈ r.stations, s.Follows r.hosts) : ∀ s ∈ r'.stations, s.Follows r'.hosts := by
  intro s hs
  rw [stations_applyEvent h] at hs
  obtain ⟨k, host, host', hk, hhost, hw, rfl⟩ := applyEvent_cases h
  obtain ⟨own, hown, hp⟩ := hr s hs
  by_cases hpos : s.host = k
  · obtain rfl : own = host := Option.some.inj (hown.symm.trans (hpos ▸ hhost))
    have hlt := (List.getElem?_eq_some_iff.1 hhost).1
    refine ⟨host', by simp [hpos, hlt], fun p hprog => ?_⟩
    obtain ⟨ht, hi⟩ := hp p hprog
    refine ⟨Program.traced_of_fixed (Host.fixed_write? hw) ht, ?_⟩
    by_cases hname : p.variableName = e.property
    · obtain ⟨hzero, hle, k, hk, hv⟩ := he s hs p hprog (hpos ▸ hostName_of_hostAt? hk) hname
      have hlevel := Host.level_write? (hname ▸ ht.enumeration) hw
      rw [hname, hlevel]
      generalize Double.truncate e.value = level at hzero hle hv
      obtain ⟨n, rfl⟩ := Int.eq_ofNat_of_zero_le hzero
      exact .inr (.inr ⟨n, rfl, ht.isNamed hle ⟨k, hk, hv⟩⟩)
    · rwa [Host.level_write?_of_ne hw hname]
  · refine ⟨own, ?_, hp⟩
    rwa [List.getElem?_set_ne (Ne.symm hpos)]

theorem follows_applyEvents : ∀ {es : List Event} {r : Registry}, (∀ e ∈ es, r.Suits e) →
    (∀ s ∈ r.stations, s.Follows r.hosts) →
    ∀ s ∈ (r.applyEvents es).1.stations, s.Follows (r.applyEvents es).1.hosts
  | [], r, _, hr => hr
  | e :: es, r, he, hr => by
    obtain ⟨he, hes⟩ := List.forall_mem_cons.1 he
    simp only [applyEvents]
    split
    · exact hr
    · rename_i r' hr'
      exact follows_applyEvents (fun e he' => suits_of_fixed (fixed_applyEvent hr') (hes e he'))
        (follows_applyEvent hr' he hr)

end Events

/-- Each machine follows a variable of its own. -/
structure Follows (r : Registry) : Prop where
  stations : ∀ s ∈ r.stations, s.Follows r.hosts
  cells : (r.stations.filterMap (·.cell?)).Nodup

theorem cells_of_fixed {r r' : Registry} (h : r'.fixed = r.fixed) :
    r'.stations.filterMap (·.cell?) = r.stations.filterMap (·.cell?) := by
  refine eq_of_fixed (f := fun r => r.stations.filterMap (·.cell?)) (fun r => ?_) h
  rw [fixed, List.filterMap_map]
  rfl

/-- A step keeps machines following their variables, and what is seen in it are the states that
they show after it and did not before. -/
theorem Takes.follows {r r' : Registry} {st : Step} (h : r.Takes st r') (hr : r.Follows)
    (he : ∀ e ∈ st.applied, r.Suits e) : r'.Follows ∧
      st.seen.filterMap (·.entrance?)
        = (r.stations.zip r'.stations).filterMap (fun x => x.1.entrance? x.2) ∧
      ∀ x ∈ r.stations.zip r'.stations,
        x.2.machine.currentName? ≠ x.1.machine.currentName? → x.2.machine.currentName?.isSome := by
  have hcells := cells_of_fixed h.fixed
  obtain ⟨b, ha, ht⟩ := h
  have hb := follows_applyEvents he hr.stations
  have hst := stations_applyEvents st.applied r
  rw [ha] at hb hst
  dsimp only at hb hst
  have hn : (b.stations.filterMap (·.cell?)).Nodup := hst ▸ hr.cells
  have hticked := (follows_tickStations st.now hb hn).2
  have hseen := seen_tickStations st.now hb hn
  simp only [tickAll, Prod.mk.injEq] at ht
  obtain ⟨-, rfl, hs⟩ := ht
  refine ⟨⟨hticked, by rw [hcells]; exact hr.cells⟩, ?_⟩
  rw [hs] at hseen
  rwa [← hst]

end Registry

end Dwell

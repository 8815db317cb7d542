import Dwell.Proofs.Scenario.Tabular
import Dwell.Proofs.Simulation.Following
import Dwell.Proofs.Simulation.Runs

/-!
# Where first runs start

A scenario's hosts refuse no value, and their keywords are tables. So the machines that are built
on them are watched in every state that has a name (`Machine.Commissioned.traced`), and once they
are started each follows its variable, if it is the only one that has it (`follows_opening`).
-/

namespace Dwell

/-- The enumeration has a table of keywords and takes every value. -/
def Enumeration.IsOpen (e : Enumeration) : Prop :=
  e.refused = [] ∧ (e.keywords.map (·.name)).Nodup

theorem isOpen_declare {h : Host} {name : String} {d : Declaration} (hd : d.Tabular)
    (hh : ∀ other e, h.enumerations.lookup other = some e → e.IsOpen) :
    ∀ other e, (h.declare name d).enumerations.lookup other = some e → e.IsOpen := by
  intro other e he
  cases d with
  | enumeration keywords value =>
    simp only [Host.declare, Host.withEnumeration, List.lookup_cons] at he
    split at he
    · cases he
      refine ⟨rfl, List.pairwise_map.2 ?_⟩
      exact (show keywords.Pairwise (·.name < ·.name) from hd).imp fun h => h.ne
    · exact hh other e he
  | number value => exact hh other e he
  | numbers values =>
    have hfill := congrArg (·.enumerations) (Host.fixed_fill name values.zipIdx h)
    simp only [Host.enumerations_fixed] at hfill
    simp only [Host.declare, Host.withArray, hfill] at he
    exact hh other e he
  | text value => exact hh other e he

theorem isOpen_host {spec : HostSpec} (hs : ∀ p ∈ spec.properties, p.2.Tabular) :
    ∀ name e, spec.host.enumerations.lookup name = some e → e.IsOpen :=
  HostSpec.host_induction (P := fun h => ∀ name e, h.enumerations.lookup name = some e → e.IsOpen)
    (fun name e he => by simp at he) fun _ hh p hp => isOpen_declare (hs p hp) hh

theorem Machine.Commissioned.traced {options : Options} {host host' : Host} {m : Machine}
    {p : Program} (h : m.Commissioned options host.fixed) (hf : host'.fixed = host.fixed)
    (ho : ∀ name e, host.enumerations.lookup name = some e → e.IsOpen)
    (hp : m.program? = some p) : p.Traced host' := by
  have hwf : p.WellFormed host' :=
    Program.wellFormed_of_fixed (show host'.fixed = host.fixed.fixed from hf) (h.wellFormed p hp)
  obtain ⟨e, he, hk⟩ := hwf.keywords
  have henum : host'.enumerations = host.enumerations := congrArg (·.enumerations) hf
  obtain ⟨hrefused, hnames⟩ := ho _ e (henum ▸ he)
  have hnames' : (p.keywords.map (·.name)).Nodup := hk ▸ hnames
  refine ⟨?_, hnames', hwf.states_eq, hwf.targets, h.watches p hp, fun s hs => ?_⟩
  · rw [he, ← hk, ← hrefused]
  · exact h.hook? p hp hnames' s hs.1 (KeywordTable.isSome_name?.2 hs.2)

/-- The machines of a new simulation follow their variables when they are started. -/
theorem follows_opening {sc : Scenario} {s : Simulation} (hb : sc.build.result = .ok s)
    (ht : sc.Tabular) (hn : (s.registry.stations.filterMap (·.cell?)).Nodup) :
    s.opening.Follows := by
  obtain ⟨-, hr, -⟩ := Scenario.build_ok hb
  obtain ⟨hhosts, hall⟩ := assemble_ok hr
  refine ⟨fun st hst => ?_, ?_⟩
  · obtain ⟨st₀, hst₀, rfl⟩ := List.mem_map.1 hst
    obtain ⟨k, spec, hk, hspec, hc⟩ := hall st₀ hst₀
    have hhost : (s.registry.hosts[st₀.host]?).map (·.fixed) = some spec.host.fixed := by
      rw [← List.getElem?_map, hhosts, List.getElem?_map, hk, Nat.zero_add, hspec]
      rfl
    obtain ⟨host, hhost, hf⟩ := Option.map_eq_some_iff.1 hhost
    rw [hhost]
    refine ⟨host, hhost, fun p hp => ⟨?_, ?_⟩⟩
    · have htab := (ht spec (List.mem_of_getElem? hspec)).2
      exact hc.traced hf (isOpen_host htab) hp
    · have hp : st₀.machine.program? = some p := hp
      exact .inl (by simp only [Machine.init, hp])
  · rwa [Simulation.opening, Registry.cells_of_fixed (Registry.fixed_initAll ..)]

end Dwell

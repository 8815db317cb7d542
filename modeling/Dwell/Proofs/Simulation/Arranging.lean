import Dwell.Proofs.Simulation.Crews

/-!
# What is told of each object

The state entries of a step, as far as they are about one object, are told by what was observed on
it (`filter_stateEntries`), and the summaries by its crew (`filter_summaries`). Where the machines
stand in the order of their hosts, both are told object by object (`arranged_stateEntries`,
`arranged_summaries`).
-/

namespace Dwell

section Sorted

variable {α : Type} {f : α → Nat}

theorem eq_filter_append_filter : ∀ {l : List α}, l.Pairwise (f · ≤ f ·) →
    l = l.filter (f · = 0) ++ l.filter (f · ≠ 0)
  | [], _ => rfl
  | a :: l, h => by
    obtain ⟨ha, hl⟩ := List.pairwise_cons.1 h
    by_cases hzero : f a = 0
    · rw [List.filter_cons_of_pos (by simpa), List.filter_cons_of_neg (by simpa), List.cons_append,
        ← eq_filter_append_filter hl]
    · have hnone : (a :: l).filter (f · = 0) = [] := by
        refine List.filter_eq_nil_iff.2 fun b hb => ?_
        rcases List.mem_cons.1 hb with rfl | hb
        · simpa
        · have := ha b hb
          simp
          omega
      have hall : (a :: l).filter (f · ≠ 0) = a :: l := by
        refine List.filter_eq_self.2 fun b hb => ?_
        rcases List.mem_cons.1 hb with rfl | hb
        · simpa
        · have := ha b hb
          simp
          omega
      rw [hnone, hall, List.nil_append]

/-- What is sorted by the positions of names is, name by name, what has the name. -/
theorem eq_flatMap_filter (object : α → String) : ∀ {names : List String} {l : List α}
    {f : α → Nat}, names.Nodup → l.Pairwise (f · ≤ f ·) →
    (∀ a ∈ l, names[f a]? = some (object a)) →
      l = names.flatMap fun name => l.filter (object · = name)
  | [], l, f, _, _, hl => by
    refine List.eq_nil_iff_forall_not_mem.2 fun a ha => ?_
    simpa using hl a ha
  | n :: ns, l, f, hn, hs, hl => by
    obtain ⟨hne, hn⟩ := List.nodup_cons.1 hn
    have hzero : ∀ a ∈ l, (f a = 0 ↔ object a = n) := by
      intro a ha
      have h := hl a ha
      rcases hf : f a with _ | j
      · rw [hf, List.getElem?_cons_zero, Option.some.injEq] at h
        exact ⟨fun _ => h.symm, fun _ => rfl⟩
      · rw [hf, List.getElem?_cons_succ] at h
        exact ⟨fun h' => by simp at h', fun h' => absurd (List.mem_of_getElem? h) (h' ▸ hne)⟩
    have hrest := eq_flatMap_filter object (l := l.filter (f · ≠ 0))
      (f := fun a => f a - 1) hn
      ((hs.filter _).imp fun h => Nat.sub_le_sub_right h 1) fun a ha => by
        obtain ⟨ha, hf⟩ := List.mem_filter.1 ha
        have h := hl a ha
        obtain ⟨j, hj⟩ := Nat.exists_eq_succ_of_ne_zero (of_decide_eq_true hf)
        rw [hj] at h ⊢
        exact h
    rw [List.flatMap_cons]
    conv_lhs => rw [eq_filter_append_filter hs, hrest]
    congr 1
    · exact List.filter_congr fun a ha => by simp [hzero a ha]
    · refine List.flatMap_congr fun name hname => ?_
      rw [List.filter_filter]
      refine List.filter_congr fun a ha => ?_
      by_cases h : object a = name
      · have : ¬ f a = 0 := fun h' => hne ((hzero a ha).1 h' ▸ h ▸ hname)
        simp [h, this]
      · simp [h]

theorem filter_filterMap {β : Type} {g : α → Option β} {q : α → Bool} {q' : β → Bool}
    (h : ∀ a b, g a = some b → q' b = q a) (l : List α) :
    (l.filterMap g).filter q' = (l.filter q).filterMap g := by
  induction l with
  | nil => rfl
  | cons a l ih =>
    cases hg : g a with
    | none => cases hq : q a <;> simp [hg, hq, ih]
    | some b =>
      have hb := h a b hg
      cases hq : q a <;> simp [hg, hq, hb, ih]

end Sorted

/-- The state entry that an entry of an object's journal tells of. -/
def Entry.told? (now : Instant) (object : String) : Entry → Option StateEntry
  | .called ⟨_, .entry, _, v⟩ => some ⟨now, object, v.boundTo?.getD "", v.stateText⟩
  | _ => none

def Machine.summary (object : String) (m : Machine) : Summary :=
  ⟨object, m.boundTo?, m.currentName?, m.value⟩

namespace Registry

variable {r r' : Registry} {now : Instant} {name : String}

theorem entered?_eq_told? (x : Sighting) :
    x.entered? r now = x.entry.told? now (r.hostName x.host) := by
  obtain ⟨k, entry⟩ := x
  rcases entry with _ | _ | ⟨_, phase, _, _⟩ | _ | _
  case called => cases phase <;> rfl
  all_goals rfl

theorem object_of_entered? {x : Sighting} {a : StateEntry} (h : x.entered? r now = some a) :
    a.object = r.hostName x.host := by
  unfold Sighting.entered? at h
  split at h
  · cases h
    rfl
  · cases h

theorem hostName_eq_iff (hr : r.Crewed) {k : Nat} (hk : k < r.hosts.length) :
    r.hostName k = name ↔ r.hostAt? name = some k := by
  rw [hostAt?_eq_some_iff hr]
  simp [hostName, hk]

/-- What has the name of a host stands at its position. -/
theorem filter_hostName {α : Type} {f : α → Nat} {l : List α} (hr : r.Crewed)
    (hl : ∀ a ∈ l, f a < r.hosts.length) (name : String) :
    l.filter (fun a => r.hostName (f a) = name)
      = ((r.hostAt? name).map fun k => l.filter (f · = k)).getD [] := by
  cases hk : r.hostAt? name with
  | none =>
    refine List.filter_eq_nil_iff.2 fun a ha h => ?_
    rw [decide_eq_true_iff, hostName_eq_iff hr (hl a ha), hk] at h
    cases h
  | some k =>
    refine List.filter_congr fun a ha => decide_eq_decide.2 ?_
    rw [hostName_eq_iff hr (hl a ha), hk, Option.some.injEq, eq_comm]

/-- What a step tells of one object is told by its journal. -/
theorem filter_stateEntries {st : Step} (hr : r.Crewed)
    (hst : ∀ x ∈ st.seen, x.host < r.hosts.length) (name : String) :
    (st.stateEntries r).filter (·.object = name)
      = (r.journalOf st.seen name).filterMap (·.told? st.now name) := by
  have hobject : ∀ (x : Sighting) (a : StateEntry), x.entered? r st.now = some a →
      decide (a.object = name) = decide (r.hostName x.host = name) :=
    fun x a h => by rw [object_of_entered? h]
  rw [Step.stateEntries, filter_filterMap hobject, journalOf]
  have hat := filter_hostName hr hst name
  cases hk : r.hostAt? name with
  | none =>
    rw [hk] at hat
    rw [hat]
    rfl
  | some k =>
    rw [hk] at hat
    rw [Option.map_some, Option.getD_some] at hat
    rw [hat]
    simp only [entriesAt, List.filterMap_map]
    refine List.filterMap_congr fun x hx => ?_
    have hx' : x ∈ st.seen.filter fun x => r.hostName x.host = name := hat ▸ hx
    rw [entered?_eq_told?, of_decide_eq_true (List.mem_filter.1 hx').2]
    rfl

/-- What is summed up of one object is that of its crew. -/
theorem filter_summaries (hr : r.Crewed) (name : String) : r.summaries.filter (·.object = name)
    = ((r.crew? name).map fun c => c.machines.map (·.summary name)).getD [] := by
  have hat := filter_hostName hr hr.fits name
  rw [summaries, List.filter_map]
  change (r.stations.filter fun s => r.hostName s.host = name).map _ = _
  rw [hat]
  rcases r.crew?_cases name with ⟨hk, hc⟩ | ⟨k, host, hk, hhost, hc⟩
  · rw [hk, hc]
    rfl
  · rw [hk, hc]
    rw [hk, Option.map_some, Option.getD_some] at hat
    simp only [Option.map_some, Option.getD_some, machinesAt, List.map_map]
    refine List.map_congr_left fun s hs => ?_
    have hs' : s ∈ r.stations.filter fun s => r.hostName s.host = name := hat ▸ hs
    rw [of_decide_eq_true (List.mem_filter.1 hs').2]
    rfl

section Grouped

/-- The machines stand in the order of their hosts. -/
def Grouped (r : Registry) : Prop :=
  r.stations.Pairwise (·.host ≤ ·.host)

theorem grouped_of_fixed (h : r'.fixed = r.fixed) (hr : r.Grouped) : r'.Grouped :=
  (eq_of_fixed (f := Grouped) (fun r => by simp [Grouped, fixed, Station.fixed, List.pairwise_map])
    h).mpr hr

/-- Machines that stand in order are ticked in order. -/
theorem grouped_tickStations (now : Instant) : ∀ (stations : List Station) (hosts : List Host),
    stations.Pairwise (·.host ≤ ·.host) →
      (tickStations now hosts stations).2.2.2.Pairwise (·.host ≤ ·.host) ∧
        ∀ x ∈ (tickStations now hosts stations).2.2.2, ∃ s ∈ stations, s.host = x.host
  | [], hosts, _ => ⟨.nil, by simp [tickStations]⟩
  | s :: rest, hosts, h => by
    obtain ⟨hs, hrest⟩ := List.pairwise_cons.1 h
    rcases hhost : hosts[s.host]? with _ | host
    · obtain ⟨hp, hmem⟩ := grouped_tickStations now rest hosts hrest
      rw [tickStations_cons_of_none hhost]
      exact ⟨hp, fun x hx => (hmem x hx).imp fun _ h => ⟨List.mem_cons_of_mem _ h.1, h.2⟩⟩
    · obtain ⟨hp, hmem⟩ := grouped_tickStations now rest
        (hosts.set s.host (s.machine.tick host now).host) hrest
      rw [tickStations_cons hhost]
      dsimp only
      have hown : ∀ x ∈ (s.machine.tick host now).journal.map (Sighting.mk s.host),
          x.host = s.host := by
        intro x hx
        obtain ⟨_, -, rfl⟩ := List.mem_map.1 hx
        rfl
      refine ⟨List.pairwise_append.2 ⟨?_, hp, fun x hx y hy => ?_⟩, fun x hx => ?_⟩
      · exact List.pairwise_of_forall_mem_list fun x hx y hy => by rw [hown x hx, hown y hy]
      · obtain ⟨t, ht, hty⟩ := hmem y hy
        rw [hown x hx, ← hty]
        exact hs t ht
      · rcases List.mem_append.1 hx with hx | hx
        · exact ⟨s, by simp, (hown x hx).symm⟩
        · exact (hmem x hx).imp fun _ h => ⟨List.mem_cons_of_mem _ h.1, h.2⟩

/-- What a step observes is in the order of the hosts. -/
theorem Takes.grouped {st : Step} (h : r.Takes st r') (hr : r.Grouped) (hfits : r.Fits) :
    st.seen.Pairwise (·.host ≤ ·.host) ∧ ∀ x ∈ st.seen, x.host < r.hosts.length := by
  obtain ⟨b, ha, ht⟩ := h
  have hf := fixed_applyEvents st.applied r
  rw [ha] at hf
  have hlen : b.hosts.length = r.hosts.length := by
    simpa [Registry.fixed] using congrArg (·.hosts.length) hf
  obtain ⟨hp, hmem⟩ := grouped_tickStations st.now b.stations b.hosts (grouped_of_fixed hf hr)
  have hseen : (tickStations st.now b.hosts b.stations).2.2.2 = st.seen :=
    congrArg (·.2.2) ht
  rw [hseen] at hp hmem
  refine ⟨hp, fun x hx => ?_⟩
  obtain ⟨s, hs, hx⟩ := hmem x hx
  rw [← hx, ← hlen]
  exact fits_of_fixed hf hfits s hs

theorem getElem?_names {k : Nat} (hk : k < r.hosts.length) :
    (r.hosts.map (·.name))[k]? = some (r.hostName k) := by
  simp [hostName, hk]

/-- Observations in the order of the hosts tell of one object after the other. -/
theorem arranged_stateEntries {st : Step} (hr : r.Crewed)
    (hs : st.seen.Pairwise (·.host ≤ ·.host)) (hst : ∀ x ∈ st.seen, x.host < r.hosts.length) :
    st.stateEntries r = (r.hosts.map (·.name)).flatMap fun object =>
      (st.stateEntries r).filter (·.object = object) := by
  conv_lhs =>
    rw [Step.stateEntries, eq_flatMap_filter (fun x => r.hostName x.host) hr.names hs
      fun x hx => getElem?_names (hst x hx), List.filterMap_flatMap]
  refine List.flatMap_congr fun object _ => ?_
  rw [Step.stateEntries, filter_filterMap]
  exact fun x a h => by rw [object_of_entered? h]

theorem arranged_summaries (hr : r.Crewed) (hg : r.Grouped) :
    r.summaries = (r.hosts.map (·.name)).flatMap fun object =>
      r.summaries.filter (·.object = object) := by
  conv_lhs =>
    rw [summaries, eq_flatMap_filter (fun s => r.hostName s.host) hr.names hg
      fun s hs => getElem?_names (hr.fits s hs), List.map_flatMap]
  refine List.flatMap_congr fun object _ => ?_
  rw [summaries, List.filter_map]
  rfl

end Grouped

end Registry

end Dwell

import Dwell.Proofs.Simulation.Runs

/-!
# How a run ends

Every step of a run is later than the one before, as long as the clock has not come to its last
instant. So a run finishes, or fails at an event, unless its window reaches to that instant; then a
run that does not fail comes there and stays.
-/

namespace Dwell

namespace Registry

variable {r r' : Registry} {e : Event} {es : List Event}

/-- The event can be applied. -/
def Accepts (r : Registry) (e : Event) : Prop :=
  ∃ r', r.applyEvent e = .ok r'

theorem hostAt?_fixed (name : String) : r.fixed.hostAt? name = r.hostAt? name := by
  simp only [hostAt?, fixed, List.findIdx?_map]
  rfl

theorem accepts_iff : r.Accepts e ↔ ∃ k host, r.hostAt? e.host = some k ∧
    r.hosts[k]? = some host ∧ (host.write? e.property e.index e.value).isSome := by
  constructor
  · rintro ⟨r', h⟩
    obtain ⟨k, host, host', hk, hhost, hw, -⟩ := applyEvent_cases h
    exact ⟨k, host, hk, hhost, Option.isSome_of_eq_some hw⟩
  · rintro ⟨k, host, hk, hhost, hw⟩
    obtain ⟨host', hw⟩ := Option.isSome_iff_exists.1 hw
    exact ⟨{ r with hosts := r.hosts.set k host' }, by simp [applyEvent, hk, hhost, hw]⟩

theorem accepts_fixed : r.fixed.Accepts e ↔ r.Accepts e := by
  rw [accepts_iff, accepts_iff]
  simp only [hostAt?_fixed]
  constructor
  · rintro ⟨k, _, hk, hhost, hw⟩
    rw [fixed, List.getElem?_map, Option.map_eq_some_iff] at hhost
    obtain ⟨host, hhost, rfl⟩ := hhost
    exact ⟨k, host, hk, hhost, Host.write?_isSome ▸ hw⟩
  · rintro ⟨k, host, hk, hhost, hw⟩
    refine ⟨k, host.fixed, hk, ?_, Host.write?_isSome ▸ hw⟩
    simp [fixed, hhost]

theorem accepts_of_fixed (hf : r'.fixed = r.fixed) : r'.Accepts e ↔ r.Accepts e :=
  (eq_of_fixed (f := (·.Accepts e)) (fun _ => propext accepts_fixed) hf).to_iff

/-- Events are all applied when each of them can be, as things stand before the first. -/
theorem applyEvents_eq_none_iff : ∀ {es : List Event} {r : Registry},
    (r.applyEvents es).2.2 = none ↔ ∀ e ∈ es, r.Accepts e
  | [], r => by simp [applyEvents]
  | e :: es, r => by
    simp only [applyEvents, List.forall_mem_cons]
    split
    · rename_i fault he
      simp [Accepts, he]
    · rename_i r' he
      have hf := fixed_applyEvent he
      rw [applyEvents_eq_none_iff]
      simp only [accepts_of_fixed hf]
      exact ⟨fun h => ⟨⟨r', he⟩, h⟩, fun h => h.2⟩

theorem Takes.accepts {st : Step} (h : r.Takes st r') : ∀ e ∈ st.applied, r.Accepts e := by
  obtain ⟨between, ha, -⟩ := h
  exact applyEvents_eq_none_iff.1 (by rw [ha])

end Registry

namespace Simulation

variable {w : Window} {r : Registry} {pending : List Event} {now : Instant} {run : Run}

/-- At its last instant, the clock stands still. -/
theorem next_never (w : Window) (wake : Instant) (hw : 0 ≤ w.maxStep) :
    next w [] .never wake = .never := by
  rw [next, if_neg (Instant.not_lt_never _), capped]
  exact (Instant.le_never _).antisymm (Instant.le_later hw)

namespace Passes

theorem of_endless (h : Passes w r pending now run) (hend : run.ending = .endless)
    (hs : pending.Pairwise (·.time ≤ ·.time)) (hw : 0 < w.maxStep) (hnow : now ≤ w.stop) :
    w.stop = .never ∧ run.times.getLast? = some .never ∧ ∀ e ∈ pending, r.Accepts e := by
  induction h with
  | failed _ | finished _ _ _ => simp at hend
  | @stuck r pending r' st ha ht _ hstuck =>
    have hlast : st.now = .never := by
      by_contra hne
      have hlt : st.now < next w (later st.now pending) st.now st.wake :=
        lt_next hw (Instant.ne_never_iff.1 hne) (lt_time_of_mem_later hs)
      exact absurd hlt (not_lt.2 hstuck)
    refine ⟨(Instant.le_never _).antisymm (hlast ▸ hnow), by simp [Run.times, hlast],
      fun e he => ht.accepts e ?_⟩
    rw [← due_append_later st.now pending] at he
    rcases List.mem_append.1 he with he | he
    · exact ha ▸ he
    · exact absurd (lt_time_of_mem_later hs e he) (hlast ▸ Instant.not_lt_never _)
  | @passed r pending r' now run st ha ht _ hnow' _ _ ih =>
    obtain ⟨hstop, hlast, hall⟩ := ih hend (pairwise_later hs) hnow'
    refine ⟨hstop, ?_, fun e he => ?_⟩
    · rw [Run.times] at hlast ⊢
      rw [List.map_cons, List.getLast?_cons, hlast]
      rfl
    · rw [← due_append_later st.now pending] at he
      rcases List.mem_append.1 he with he | he
      · exact ht.accepts e (ha ▸ he)
      · exact (Registry.accepts_of_fixed ht.fixed).1 (hall e he)

theorem endless_of_accepts (h : Passes w r pending now run) (hstop : w.stop = .never)
    (hall : ∀ e ∈ pending, r.Accepts e) : run.ending = .endless := by
  induction h with
  | @failed r pending now _ _ _ ha =>
    have hnone := Registry.applyEvents_eq_none_iff.2 fun e he =>
      hall e ((List.takeWhile_sublist (·.time ≤ now)).subset he)
    rw [due] at ha
    rw [ha] at hnone
    cases hnone
  | finished _ _ hlast => exact absurd (hstop ▸ hlast) (Instant.not_lt_never _)
  | stuck _ _ _ _ => rfl
  | @passed r pending _ _ _ st _ ht _ _ _ _ ih =>
    exact ih fun e he => (Registry.accepts_of_fixed ht.fixed).2
      (hall e ((List.dropWhile_sublist _).subset he))

end Passes

end Simulation

/-- A run has no end just when its window reaches to the last instant of the clock and every event
can be applied. Up to that instant every step is later than the one before, and from there on it is
the next one again and again. -/
theorem Scenario.Yields.endless_iff {sc : Scenario} {s : Simulation} (h : sc.Yields s) :
    (s.run.ending = .endless ↔
      sc.window.stop = .never ∧ ∀ e ∈ sc.events, s.opening.Accepts e) ∧
    s.run.times.Pairwise (· < ·) ∧
    (s.run.ending = .endless → s.run.times.getLast? = some .never ∧
      ∀ wake, Simulation.next s.window [] .never wake = .never) := by
  obtain ⟨hflaw, hw, he, -⟩ := h.fixed
  obtain ⟨hwindow, hmax, -⟩ := flaw?_eq_none hflaw
  have hp := s.passes_run
  rw [hw, he] at hp
  have hsorted := pairwise_sortEvents sc.events
  refine ⟨⟨fun hend => ?_, fun ⟨hstop, hall⟩ => ?_⟩, List.pairwise_map.2 hp.pairwise_now,
    fun hend => ⟨(hp.of_endless hend hsorted hmax hwindow).2.1, fun wake => ?_⟩⟩
  · obtain ⟨hstop, -, hall⟩ := hp.of_endless hend hsorted hmax hwindow
    exact ⟨hstop, fun e he => hall e ((sortEvents_perm sc.events).mem_iff.2 he)⟩
  · exact hp.endless_of_accepts hstop fun e he =>
      hall e ((sortEvents_perm sc.events).mem_iff.1 he)
  · exact Simulation.next_never s.window wake (hw ▸ hmax.le)

def Ending.isEndless : Ending → Bool
  | .endless => true
  | _ => false

theorem Ending.isEndless_iff {e : Ending} : e.isEndless = true ↔ e = .endless := by
  cases e <;> simp [isEndless]

/-- A scenario of nothing that begins a second before the last instant and has its end there. -/
def lastSecond : Scenario where
  window := ⟨.clamp 0x7FFFFFFFFFFFFFFE, .never, 1⟩

theorem lastSecond_ending : ∃ s, lastSecond.build.result = .ok s ∧ s.run.ending = .endless := by
  have h : lastSecond.buildsTo (·.run.ending.isEndless) = true := by decide +kernel
  obtain ⟨s, hs, he⟩ := Scenario.of_buildsTo h
  exact ⟨s, hs, Ending.isEndless_iff.1 he⟩

theorem lastSecond_endless_iff : ∃ s, lastSecond.build.result = .ok s ∧
    (s.run.ending = .endless ↔
      lastSecond.window.stop = .never ∧ ∀ e ∈ lastSecond.events, s.opening.Accepts e) := by
  have h : lastSecond.buildsTo (fun _ => true) = true := by decide +kernel
  obtain ⟨s, hs, -⟩ := Scenario.of_buildsTo h
  exact ⟨s, hs, (Scenario.Yields.endless_iff (.built hs)).1⟩

end Dwell

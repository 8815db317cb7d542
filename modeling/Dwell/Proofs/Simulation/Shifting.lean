import Dwell.Proofs.Machine.Shifting
import Dwell.Proofs.Simulation.Runs

/-!
# Runs on a clock that is ahead

Where the machines and the events of a registry are so many seconds later, a tick of all machines
and a step of a run do the same so many seconds later (`tickAll_shift`, `Takes.shift`). What a step
finds to be next need not be those seconds later, as the clock may come to its end on one side only;
but then both times lie behind the window (`Keeps`). So a whole run goes through its passes those
seconds later (`Passes.shift`).
-/

namespace Dwell

def Station.shift (s : Station) (k : Int) : Station :=
  { s with machine := s.machine.shift k }

def Sighting.shift (s : Sighting) (k : Int) : Sighting :=
  { s with entry := s.entry.shift k }

def Event.shift (e : Event) (k : Int) : Event :=
  { e with time := e.time.moved k }

def Window.shift (w : Window) (k : Int) : Window :=
  { w with start := w.start.moved k, stop := w.stop.moved k }

def SimulationFault.shift (k : Int) : SimulationFault → SimulationFault
  | .event time object property fault => .event (time.moved k) object property fault
  | fault => fault

def Step.shift (st : Step) (k : Int) : Step :=
  ⟨st.now.shift k, st.applied.map (·.shift k), st.wake.shift k, st.seen.map (·.shift k)⟩

def Ending.shift (k : Int) : Ending → Ending
  | .failed applied fault => .failed (applied.map (·.shift k)) (fault.shift k)
  | ending => ending

namespace Registry

def shift (r : Registry) (k : Int) : Registry :=
  { r with stations := r.stations.map (·.shift k) }

/-- Every machine can be shifted. -/
def Shiftable (r : Registry) (k : Int) (last : Instant) : Prop :=
  ∀ s ∈ r.stations, s.machine.Shiftable k last

end Registry

def Run.shift (run : Run) (k : Int) : Run :=
  ⟨run.steps.map (·.shift k), run.ending.shift k, run.registry.shift k⟩

namespace Registry

variable {r r' : Registry} {k : Int} {now last : Instant} {st : Step}

section Ticks

theorem tickStations_shift (hnow : now.InReach k last) : ∀ (stations : List Station)
    (hosts : List Host), (∀ s ∈ stations, s.machine.Shiftable k last) →
    let t := tickStations now hosts stations
    tickStations (now.shift k) hosts (stations.map (·.shift k))
        = (t.1.shift k, t.2.1, t.2.2.1.map (·.shift k), t.2.2.2.map (·.shift k)) ∧
      t.1.Shiftable k ∧ ∀ s ∈ t.2.2.1, s.machine.Shiftable k last
  | [], hosts, _ => ⟨rfl, Instant.shiftable_never k, by simp [tickStations]⟩
  | s :: rest, hosts, h => by
    rw [List.forall_mem_cons] at h
    rcases hs : hosts[s.host]? with _ | host
    · obtain ⟨he, hwake, hall⟩ := tickStations_shift hnow rest hosts h.2
      rw [List.map_cons, tickStations_cons_of_none hs,
        tickStations_cons_of_none (s := s.shift k) hs, he]
      exact ⟨rfl, hwake, List.forall_mem_cons.2 ⟨h.1, hall⟩⟩
    · obtain ⟨he, hwake, hall⟩ := tickStations_shift hnow rest
        (hosts.set s.host (s.machine.tick host now).host) h.2
      obtain ⟨hmachine, hanswer⟩ := h.1.tick host hnow
      have htick : (s.shift k).machine.tick host (now.shift k)
          = (s.machine.tick host now).shift k := Machine.tick_shift h.1 host hnow
      rw [List.map_cons, tickStations_cons hs, tickStations_cons (s := s.shift k) hs, htick]
      dsimp only [Effect.shift, Station.shift] at he ⊢
      rw [he]
      dsimp only
      rw [Instant.shift_min hanswer hwake]
      refine ⟨?_, hanswer.min hwake, List.forall_mem_cons.2 ⟨hmachine, hall⟩⟩
      rw [List.map_cons, List.map_append, Journal.shift, List.map_map, List.map_map]
      rfl

theorem tickAll_shift (hr : r.Shiftable k last) (hnow : now.InReach k last) :
    (r.shift k).tickAll (now.shift k) = ((r.tickAll now).1.shift k, (r.tickAll now).2.1.shift k,
        (r.tickAll now).2.2.map (·.shift k)) ∧
      (r.tickAll now).1.Shiftable k ∧ (r.tickAll now).2.1.Shiftable k last := by
  obtain ⟨he, hwake, hall⟩ := tickStations_shift hnow r.stations r.hosts hr
  refine ⟨?_, hwake, hall⟩
  unfold tickAll
  dsimp only [Registry.shift]
  rw [he]

end Ticks

section Events

variable {e : Event}

theorem hostAt?_shift (name : String) : (r.shift k).hostAt? name = r.hostAt? name := rfl

theorem applyEvent_shift : (r.shift k).applyEvent (e.shift k)
    = ((r.applyEvent e).map (·.shift k)).mapError (·.shift k) := by
  unfold applyEvent
  rw [hostAt?_shift]
  dsimp only [Registry.shift, Event.shift]
  rcases r.hostAt? e.host with _ | i
  · rfl
  · dsimp only
    cases r.hosts[i]?.bind (·.write? e.property e.index e.value) <;> rfl

theorem applyEvents_shift : ∀ (es : List Event) (r : Registry),
    (r.shift k).applyEvents (es.map (·.shift k)) = ((r.applyEvents es).1.shift k,
      (r.applyEvents es).2.1.map (·.shift k), (r.applyEvents es).2.2.map (·.shift k))
  | [], r => rfl
  | e :: es, r => by
    simp only [List.map_cons, applyEvents, applyEvent_shift]
    rcases r.applyEvent e with fault | r'
    · rfl
    · simp only [Except.map, Except.mapError, applyEvents_shift es r', List.map_cons]

end Events

/-- A step is taken `k` seconds later by machines that are so much later. -/
theorem Takes.shift (h : r.Takes st r') (hr : r.Shiftable k last)
    (hnow : st.now.InReach k last) : (r.shift k).Takes (st.shift k) (r'.shift k) ∧
      st.wake.Shiftable k ∧ r'.Shiftable k last := by
  obtain ⟨between, ha, ht⟩ := h
  have hstations := stations_applyEvents st.applied r
  rw [ha] at hstations
  have hbetween : between.Shiftable k last := by
    rw [Registry.Shiftable, hstations]
    exact hr
  obtain ⟨htick, hwake, hr'⟩ := tickAll_shift hbetween hnow
  rw [ht] at htick hwake hr'
  refine ⟨⟨between.shift k, ?_, htick⟩, hwake, hr'⟩
  change (r.shift k).applyEvents (st.applied.map (·.shift k)) = _
  rw [applyEvents_shift, ha]
  rfl

end Registry

namespace Simulation

variable {w : Window} {r : Registry} {pending : List Event} {now wake : Instant} {run : Run}
  {k : Int}

theorem moved_le_shift_iff {t last : Instant} (hnow : now.InReach k last) :
    t.moved k ≤ now.shift k ↔ t ≤ now := by
  have hle := Instant.le_iff.1 hnow.le
  have hlower := hnow.lower
  have hupper := hnow.upper
  rw [Instant.shift_of_ne_never hnow.ne_never, Instant.le_iff, Instant.le_iff]
  simp only [Instant.moved, Instant.clamp]
  omega

theorem due_shift {last : Instant} (hnow : now.InReach k last) :
    due (now.shift k) (pending.map (·.shift k)) = (due now pending).map (·.shift k) := by
  rw [due, due, List.takeWhile_map]
  congr 2
  funext e
  exact decide_eq_decide.2 (moved_le_shift_iff hnow)

theorem later_shift {last : Instant} (hnow : now.InReach k last) :
    later (now.shift k) (pending.map (·.shift k)) = (later now pending).map (·.shift k) := by
  rw [later, later, List.dropWhile_map]
  congr 2
  funext e
  exact decide_eq_decide.2 (moved_le_shift_iff hnow)

/-- Times of which the second is the first, `k` seconds later, or which both lie behind the end of
the window. -/
def Keeps (k : Int) (stop t t' : Instant) : Prop :=
  t'.seconds = t.seconds + k ∨ stop.seconds < t.seconds ∧ stop.seconds + k < t'.seconds

section Keeps

variable {stop t t' u u' : Instant}

theorem Keeps.min (ht : Keeps k stop t t') (hu : Keeps k stop u u') :
    Keeps k stop (min t u) (min t' u') := by
  have hmin (a b : Instant) : (Min.min a b).seconds = Min.min a.seconds b.seconds := by
    rcases le_total a b with h | h
    · rw [min_eq_left h, min_eq_left (Instant.le_iff.1 h)]
    · rw [min_eq_right h, min_eq_right (Instant.le_iff.1 h)]
  unfold Keeps at *
  rw [hmin, hmin]
  omega

theorem keeps_shift (h : stop.seconds < 0x7FFFFFFFFFFFFFFF)
    (h' : stop.seconds + k < 0x7FFFFFFFFFFFFFFF) (ht : t.Shiftable k) :
    Keeps k stop t (t.shift k) := by
  unfold Keeps
  rw [ht.seconds_shift]
  split <;> omega

theorem keeps_moved (ht : t.Movable k) : Keeps k stop t (t.moved k) :=
  .inl ht.seconds_moved

/-- The clock may come to its end before or after the shift, but not within the window. -/
theorem keeps_later {n : Int} (hnow : now.InReach k stop) (hn : 0 < n) :
    Keeps k stop (now.later n) ((now.shift k).later n) := by
  have hshift := hnow.shiftable.seconds_shift
  rw [if_neg (mt Instant.seconds_eq_iff.1 hnow.ne_never)] at hshift
  have hlow := now.lower
  have := hnow.lower
  have := hnow.lt
  have := hnow.upper
  have hseconds (t : Instant) : (t.later n).seconds
      = if 0x7FFFFFFFFFFFFFFF < t.seconds + n then 0x7FFFFFFFFFFFFFFF else t.seconds + n := by
    have := t.lower
    rw [Instant.later]
    split
    · rfl
    · rw [Instant.seconds_clamp] <;> omega
  unfold Keeps
  rw [hseconds, hseconds, hshift]
  split <;> split <;> omega

theorem keeps_capped (hp : ∀ e ∈ pending, e.time.Movable k) (ht : Keeps k stop t t') :
    Keeps k stop (capped pending t) (capped (pending.map (·.shift k)) t') := by
  cases pending with
  | nil => exact ht
  | cons e es => exact ht.min (keeps_moved (hp e (by simp)))

theorem keeps_next (hw : 0 < w.maxStep) (hp : ∀ e ∈ pending, e.time.Movable k)
    (hwake : wake.Shiftable k) (hnow : now.InReach k w.stop) :
    Keeps k w.stop (next w pending now wake)
      (next (w.shift k) (pending.map (·.shift k)) (now.shift k) (wake.shift k)) := by
  have hcapped := keeps_capped hp (keeps_later hnow hw)
  have hlt := Instant.shift_lt_shift_iff hnow.shiftable hwake
  unfold next
  dsimp only [Window.shift]
  by_cases h : now < wake
  · rw [if_pos h, if_pos (hlt.2 h)]
    exact hcapped.min (keeps_shift hnow.lt hnow.upper hwake)
  · rw [if_neg h, if_neg (mt hlt.1 h)]
    exact hcapped

/-- What keeps the window is behind its end before the shift just when it is after it. -/
theorem Keeps.stop_lt_iff (h : Keeps k w.stop t t') (hnow : now.InReach k w.stop) :
    (w.shift k).stop < t' ↔ w.stop < t := by
  have hle := Instant.le_iff.1 hnow.le
  have hmoved : (w.shift k).stop.seconds = w.stop.seconds + k :=
    Instant.Movable.seconds_moved ⟨by have := hnow.lower; omega, hnow.upper.le⟩
  unfold Keeps at h
  rw [Instant.lt_iff, Instant.lt_iff, hmoved]
  omega

/-- Within the window, what keeps it is in reach. -/
theorem Keeps.inReach (h : Keeps k w.stop t t') (hnow : now.InReach k w.stop) (ht : t ≤ w.stop) :
    t.InReach k w.stop ∧ t' = t.shift k := by
  have hle := Instant.le_iff.1 ht
  have hseconds : t'.seconds = t.seconds + k := by
    unfold Keeps at h
    omega
  have hreach : t.InReach k w.stop :=
    ⟨ht, hnow.lt, hseconds ▸ t'.lower, hnow.upper⟩
  refine ⟨hreach, Instant.ext ?_⟩
  rw [hreach.shiftable.seconds_shift, if_neg (mt Instant.seconds_eq_iff.1 hreach.ne_never),
    hseconds]

end Keeps

section Passes

variable {r' : Registry} {st : Step} (hw : 0 < w.maxStep) (hr : r.Shiftable k w.stop)
  (hp : ∀ e ∈ pending, e.time.Movable k)
include hw hr hp

omit hw hr in
theorem movable_later (now : Instant) : ∀ e ∈ later now pending, e.time.Movable k :=
  fun e he => hp e ((List.dropWhile_sublist _).subset he)

theorem keeps_next_of_takes (ht : r.Takes st r') (hnow : st.now.InReach k w.stop) :
    Keeps k w.stop (next w (later st.now pending) st.now st.wake)
      (next (w.shift k) (later (st.shift k).now (pending.map (·.shift k))) (st.shift k).now
        (st.shift k).wake) := by
  have hkeeps := keeps_next hw (movable_later hp st.now) (ht.shift hr hnow).2.1 hnow
  rwa [← later_shift hnow] at hkeeps

/-- On a clock that is `k` seconds ahead, a run goes through its passes `k` seconds later. -/
theorem Passes.shift (h : Passes w r pending now run) (hnow : now.InReach k w.stop) :
    Passes (w.shift k) (r.shift k) (pending.map (·.shift k)) (now.shift k) (run.shift k) := by
  have happlied {st : Step} {pending : List Event} (he : st.applied = due st.now pending)
      (hnow : st.now.InReach k w.stop) :
      (st.shift k).applied = due (st.shift k).now (pending.map (·.shift k)) := by
    rw [Step.shift, due_shift hnow, he]
  induction h with
  | failed ha =>
    refine .failed ?_
    rw [due_shift hnow, Registry.applyEvents_shift, ha]
    rfl
  | finished he ht hstop =>
    have hkeeps := keeps_next_of_takes hw hr hp ht hnow
    exact .finished (happlied he hnow) (ht.shift hr hnow).1 ((hkeeps.stop_lt_iff hnow).2 hstop)
  | stuck he ht hle hstuck =>
    have hkeeps := keeps_next_of_takes hw hr hp ht hnow
    obtain ⟨hreach, hnext⟩ := hkeeps.inReach hnow hle
    refine .stuck (happlied he hnow) (ht.shift hr hnow).1
      (not_lt.1 (mt (hkeeps.stop_lt_iff hnow).1 (not_lt.2 hle))) ?_
    exact hnext ▸ (Instant.shift_le_shift_iff hreach.shiftable hnow.shiftable).2 hstuck
  | passed he ht hnext hle hlt _ ih =>
    have hkeeps := keeps_next_of_takes hw hr hp ht hnow
    rw [hnext] at hkeeps
    -- The next pass lies in the window, and so both clocks show its time.
    obtain ⟨hreach, hnext'⟩ := hkeeps.inReach hnow hle
    have hrest := ih (ht.shift hr hnow).2.2 (movable_later hp _) hreach
    rw [← later_shift hnow] at hrest
    refine .passed (happlied he hnow) (ht.shift hr hnow).1 hnext' ?_ ?_ hrest
    · rw [← hnext', ← not_lt, hkeeps.stop_lt_iff hnow]
      exact not_lt.2 hle
    · exact (Instant.shift_lt_shift_iff hnow.shiftable hreach.shiftable).2 hlt

end Passes

end Simulation

end Dwell

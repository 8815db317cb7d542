import Dwell.Proofs.Simulation.Passes
import Mathlib.Data.List.Chain

/-!
# When a run steps

The times of a run increase, from one pass to the next by no more than the longest step, and never
past a wake time (`Passes.isChain`); events are applied in the step that comes to their time
(`Passes.now_of_applied`), and of a run that finishes, all up to the end of the window
(`Passes.applied`). So a dwell that ends within the window ends at a step, when the granularity
is one second (`Passes.mem_times_of_holdUntil`).
-/

namespace Dwell.Simulation

variable {w : Window} {r r' : Registry} {pending : List Event} {now wake : Instant} {run : Run}

section Next

theorem next_le_later : next w pending now wake ≤ now.later w.maxStep := by
  have h : capped pending (now.later w.maxStep) ≤ now.later w.maxStep := by
    unfold capped
    split
    · exact le_rfl
    · exact min_le_left ..
  simp only [next]
  split
  · exact le_trans (min_le_left ..) h
  · exact h

theorem next_le_wake (h : now < wake) : next w pending now wake ≤ wake := by
  simp only [next, h, if_true]
  exact min_le_right ..

/-- No wake time that is ahead is left out. -/
theorem next_of_isAhead (h : now.IsAhead wake) :
    next w pending now wake = min (capped pending (now.later w.maxStep)) wake := by
  simp only [next]
  split
  · rfl
  · rename_i hnot
    rw [h.resolve_left hnot, min_eq_left (Instant.le_never _)]

theorem next_le_wake_of_takes {st : Step} (ht : r.Takes st r') (hnow : st.now < .never)
    (w : Window) (pending : List Event) : next w pending st.now st.wake ≤ st.wake :=
  next_le_wake (ht.isAhead_wake.lt hnow)

theorem le_capped_iff (hs : pending.Pairwise (·.time ≤ ·.time)) {s t : Instant} :
    s ≤ capped pending t ↔ s ≤ t ∧ ∀ e ∈ pending, s ≤ e.time := by
  cases pending with
  | nil => simp [capped]
  | cons e es =>
    rw [capped, le_min_iff, List.forall_mem_cons]
    refine and_congr_right fun _ => ⟨fun h => ⟨h, fun a ha => ?_⟩, And.left⟩
    exact h.trans ((List.pairwise_cons.1 hs).1 a ha)

theorem next_le_time (w : Window) (now wake : Instant) (hs : pending.Pairwise (·.time ≤ ·.time)) :
    ∀ e ∈ pending, next w pending now wake ≤ e.time := by
  intro e he
  have h : capped pending (now.later w.maxStep) ≤ e.time := ((le_capped_iff hs).1 le_rfl).2 e he
  simp only [next]
  split
  · exact le_trans (min_le_left ..) h
  · exact h

end Next

section Due

theorem due_append_later (now : Instant) (pending : List Event) :
    due now pending ++ later now pending = pending :=
  List.takeWhile_append_dropWhile

theorem time_of_mem_due : ∀ e ∈ due now pending, e.time ≤ now := by
  intro e he
  simpa using List.all_eq_true.1 List.all_takeWhile e he

theorem pairwise_later (hs : pending.Pairwise (·.time ≤ ·.time)) :
    (later now pending).Pairwise (·.time ≤ ·.time) :=
  hs.sublist (List.dropWhile_sublist _)

theorem lt_time_of_mem_later (hs : pending.Pairwise (·.time ≤ ·.time)) :
    ∀ e ∈ later now pending, now < e.time := by
  intro e he
  induction pending with
  | nil => simp [later] at he
  | cons e' es ih =>
    obtain ⟨hle, hs⟩ := List.pairwise_cons.1 hs
    by_cases h : e'.time ≤ now
    · exact ih hs (by simpa [later, List.dropWhile_cons, h] using he)
    · have hlt := not_le.1 h
      simp only [later, List.dropWhile_cons, h, decide_false, Bool.false_eq_true, if_false] at he
      rcases List.mem_cons.1 he with rfl | he
      · exact hlt
      · exact lt_of_lt_of_le hlt (hle e he)

theorem due_eq_filter (hs : pending.Pairwise (·.time ≤ ·.time)) (now : Instant) :
    due now pending = pending.filter (·.time ≤ now) := by
  have hdue : (due now pending).filter (·.time ≤ now) = due now pending :=
    List.filter_eq_self.2 fun e he => decide_eq_true (time_of_mem_due e he)
  have hlater : (later now pending).filter (·.time ≤ now) = [] :=
    List.filter_eq_nil_iff.2 fun e he => by simpa using lt_time_of_mem_later hs e he
  conv_rhs => rw [← due_append_later now pending]
  rw [List.filter_append, hdue, hlater, List.append_nil]

theorem later_eq_filter (hs : pending.Pairwise (·.time ≤ ·.time)) (now : Instant) :
    later now pending = pending.filter (now < ·.time) := by
  have hdue : (due now pending).filter (now < ·.time) = [] :=
    List.filter_eq_nil_iff.2 fun e he => by simpa using time_of_mem_due e he
  have hlater : (later now pending).filter (now < ·.time) = later now pending :=
    List.filter_eq_self.2 fun e he => decide_eq_true (lt_time_of_mem_later hs e he)
  conv_rhs => rw [← due_append_later now pending]
  rw [List.filter_append, hdue, hlater, List.nil_append]

end Due

namespace Passes

section Times

theorem le_now (h : Passes w r pending now run) : ∀ st ∈ run.steps, now ≤ st.now := by
  induction h with
  | failed _ => simp
  | finished _ _ _ | stuck _ _ _ _ => simp [Instant.le_iff]
  | passed _ _ _ _ hlt _ ih =>
    refine List.forall_mem_cons.2 ⟨le_rfl, fun st hst => ?_⟩
    exact le_trans (le_of_lt hlt) (ih st hst)

theorem head_now (h : Passes w r pending now run) : ∀ st ∈ run.steps.head?, st.now = now := by
  cases h <;> simp

theorem steps_ne_nil (h : Passes w r pending now run) (hf : run.ending = .finished) :
    run.steps ≠ [] := by
  cases h <;> simp at hf ⊢

theorem head?_times (h : Passes w r pending now run) (hf : run.ending = .finished) :
    run.times.head? = some now := by
  cases h <;> simp [Run.times] at hf ⊢

theorem now_le_stop (h : Passes w r pending now run) (hnow : now ≤ w.stop) :
    ∀ st ∈ run.steps, st.now ≤ w.stop := by
  induction h with
  | failed _ => simp
  | finished _ _ _ | stuck _ _ _ _ => simpa using hnow
  | passed _ _ _ hstop _ _ ih => exact List.forall_mem_cons.2 ⟨hnow, ih hstop⟩

/-- What holds of any pass and the next one holds all along the run. -/
theorem isChain {R : Step → Step → Prop} (h : Passes w r pending now run)
    (hR : ∀ {pending st st' r r'}, Registry.Takes r st r' → st.now < st'.now →
      st'.now = next w pending st.now st.wake → R st st') : run.steps.IsChain R := by
  induction h with
  | failed _ | finished _ _ _ | stuck _ _ _ _ => simp
  | passed _ ht hn _ hlt hp ih =>
    refine ih.cons fun st' hst' => ?_
    have hhead := hp.head_now st' hst'
    exact hR ht (hhead ▸ hlt) (hhead.trans hn.symm)

theorem pairwise_now (h : Passes w r pending now run) :
    run.steps.Pairwise (·.now < ·.now) := by
  induction h with
  | failed _ | finished _ _ _ | stuck _ _ _ _ => simp
  | passed _ _ _ _ hlt hp ih =>
    exact List.pairwise_cons.2 ⟨fun st' hst' => lt_of_lt_of_le hlt (hp.le_now st' hst'), ih⟩

/-- After the last step of a run that finishes, what is next lies behind the window. -/
theorem stop_lt_next (h : Passes w r pending now run) (hf : run.ending = .finished) :
    ∀ st ∈ run.steps.getLast?, ∃ r r' pending, Registry.Takes r st r' ∧
      w.stop < next w pending st.now st.wake := by
  induction h with
  | failed _ | stuck _ _ _ _ => simp at hf
  | finished ha ht hstop =>
    simp only [List.getLast?_singleton, Option.mem_some_iff, forall_eq']
    exact ⟨_, _, _, ht, hstop⟩
  | passed _ _ _ _ _ hp ih =>
    have hne := hp.steps_ne_nil hf
    intro st hst
    rw [List.getLast?_cons_of_ne_nil hne] at hst
    exact ih hf st hst

theorem stop_lt_never (h : Passes w r pending now run) (hf : run.ending = .finished) :
    w.stop < .never := by
  induction h with
  | failed _ | stuck _ _ _ _ => cases hf
  | finished _ _ hstop => exact hstop.trans_le (Instant.le_never _)
  | passed _ _ _ _ _ _ ih => exact ih hf

theorem replays (h : Passes w r pending now run) (hf : run.ending = .finished) :
    r.Replays run.steps run.registry := by
  induction h with
  | failed _ | stuck _ _ _ _ => simp at hf
  | finished _ ht _ => exact .step ht .none
  | passed _ ht _ _ _ _ ih => exact .step ht (ih hf)

end Times

section Events

/-- A run that finishes applies the events up to the end of the window. -/
theorem applied (h : Passes w r pending now run) (hf : run.ending = .finished)
    (hs : pending.Pairwise (·.time ≤ ·.time)) (hnow : now ≤ w.stop) :
    run.steps.flatMap (·.applied) = pending.filter (·.time ≤ w.stop) := by
  have hdue : ∀ {now pending}, now ≤ w.stop →
      (due now pending).filter (·.time ≤ w.stop) = due now pending := by
    intro now pending hnow
    refine List.filter_eq_self.2 fun e he => ?_
    exact decide_eq_true (le_trans (time_of_mem_due e he) hnow)
  induction h with
  | failed _ | stuck _ _ _ _ => simp at hf
  | @finished r pending r' st ha _ hstop =>
    have hlater : (later st.now pending).filter (·.time ≤ w.stop) = [] := by
      refine List.filter_eq_nil_iff.2 fun e he => ?_
      have hle := next_le_time w st.now st.wake (pairwise_later hs) e he
      simpa using lt_of_lt_of_le hstop hle
    conv_rhs => rw [← due_append_later st.now pending]
    rw [List.filter_append, hdue hnow, hlater]
    simpa using ha
  | @passed r pending r' now run st ha _ _ hstop _ _ ih =>
    conv_rhs => rw [← due_append_later st.now pending]
    rw [List.filter_append, hdue hnow, List.flatMap_cons, ha, ih hf (pairwise_later hs) hstop]

theorem mem_pending (h : Passes w r pending now run) :
    ∀ st ∈ run.steps, ∀ e ∈ st.applied, e ∈ pending := by
  have hdue : ∀ {now pending}, ∀ e ∈ due now pending, e ∈ pending :=
    fun e he => (List.takeWhile_sublist _).subset he
  induction h with
  | failed _ => simp
  | finished ha _ _ | stuck ha _ _ _ => simpa [ha] using hdue
  | passed ha _ _ _ _ _ ih =>
    refine List.forall_mem_cons.2 ⟨fun e he => hdue e (ha ▸ he), fun st' hst' e he => ?_⟩
    exact (List.dropWhile_sublist _).subset (ih st' hst' e he)

/-- Events are applied at their time, those that are overdue in the first step. -/
theorem now_of_applied (h : Passes w r pending now run) (hs : pending.Pairwise (·.time ≤ ·.time)) :
    ∀ st ∈ run.steps, ∀ e ∈ st.applied, st.now.seconds = max now.seconds e.time.seconds := by
  have hfirst : ∀ {st : Step} {pending}, st.applied = due st.now pending →
      ∀ e ∈ st.applied, st.now.seconds = max st.now.seconds e.time.seconds := by
    intro st pending ha e he
    have hle := time_of_mem_due e (ha ▸ he)
    rw [Instant.le_iff] at hle
    omega
  induction h with
  | failed _ => simp
  | finished ha _ _ | stuck ha _ _ _ => simpa using hfirst ha
  | @passed r pending r' now run st ha _ hn _ hlt hp ih =>
    refine List.forall_mem_cons.2 ⟨hfirst ha, fun st' hst' e he => ?_⟩
    have hnow := ih (pairwise_later hs) st' hst' e he
    have hle := next_le_time w st.now st.wake (pairwise_later hs) e
      (hp.mem_pending st' hst' e he)
    rw [hn] at hle
    rw [Instant.le_iff] at hle
    rw [Instant.lt_iff] at hlt
    omega

end Events

section Dwells

variable {s : Station} {st : Step} {i : Nat} {p : Program}

theorem takes_of_owed (ht : r.Takes st r') (hr : r.Fits) (hs : r.stations[i]? = some s)
    (hp : s.machine.program? = some p) (hnow : st.now < s.machine.holdUntil)
    (hnever : s.machine.holdUntil < .never) :
    ∃ s', r'.stations[i]? = some s' ∧ s'.machine.program? = some p ∧
      s'.machine.holdUntil = s.machine.holdUntil ∧ st.wake ≤ s.machine.holdUntil := by
  obtain ⟨host, hs', hwake⟩ := ht.station hr hs
  have hh : s.machine.isHeld st.now .never = true := Machine.isHeld_iff.2 ⟨hnow, hnever⟩
  rw [Machine.tick, Machine.tickUntil_of_held host st.now .never hp hh] at hs' hwake
  exact ⟨_, hs', hp, rfl, hwake⟩

/-- A dwell that is owed and ends within the window ends at a step. -/
theorem mem_times_of_owed (h : Passes w r pending now run) (hf : run.ending = .finished)
    (hstop : w.stop < .never) (hr : r.Fits) (hs : r.stations[i]? = some s)
    (hp : s.machine.program? = some p) (hnow : now ≤ s.machine.holdUntil)
    (hend : s.machine.holdUntil ≤ w.stop) : s.machine.holdUntil ∈ run.times := by
  induction h generalizing s with
  | failed _ | stuck _ _ _ _ => simp at hf
  | @finished r pending r' st _ ht hlast =>
    rcases hnow.eq_or_lt with heq | hlt
    · simp [Run.times, heq]
    · obtain ⟨-, -, -, -, hwake⟩ := takes_of_owed ht hr hs hp hlt (hend.trans_lt hstop)
      have hnext := next_le_wake_of_takes ht (hlt.trans (hend.trans_lt hstop)) w
        (later st.now pending)
      exact absurd (hlast.trans_le (hnext.trans hwake)) (not_lt.2 hend)
  | @passed r pending r' now run st _ ht hn _ _ _ ih =>
    rcases hnow.eq_or_lt with heq | hlt
    · simp [Run.times, heq]
    · obtain ⟨s', hs', hp', heq, hwake⟩ := takes_of_owed ht hr hs hp hlt (hend.trans_lt hstop)
      have hnext := next_le_wake_of_takes ht (hlt.trans (hend.trans_lt hstop)) w
        (later st.now pending)
      rw [hn] at hnext
      rw [← heq] at hend hwake ⊢
      have hr' := Registry.fits_of_fixed ht.fixed hr
      exact List.mem_cons_of_mem _ (ih hf hr' hs' hp' (hnext.trans hwake) hend)

end Dwells

end Passes

/-- A registry of machines that ask to be ticked at the end of a dwell itself; only a machine with
a program owes one. -/
structure Prompt (r : Registry) : Prop where
  fits : r.Fits
  granularity : ∀ s ∈ r.stations, s.machine.options.granularity ≤ 1
  idle : ∀ s ∈ r.stations, s.machine.program? = none → s.machine.holdUntil = .never

theorem Prompt.takes (h : Prompt r) {st : Step} (ht : r.Takes st r') :
    Prompt r' ∧ ∀ s ∈ r'.stations, st.wake ≤ s.machine.holdUntil := by
  have hall : ∀ s' ∈ r'.stations, st.wake ≤ s'.machine.holdUntil ∧
      (s'.machine.program? = none → s'.machine.holdUntil = .never) := by
    intro s' hs'
    obtain ⟨s, hs, host, rfl, hwake⟩ := ht.station_of_mem h.fits hs'
    dsimp only
    rcases hp : s.machine.program? with _ | p
    · rw [Machine.tick, Machine.tickUntil_of_unbound host st.now .never hp, h.idle s hs hp]
      exact ⟨Instant.le_never _, fun _ => rfl⟩
    · rw [Machine.tick, Machine.tickUntil_answer_of_granularity _ _ _ _ hp
        (h.granularity s hs)] at hwake
      refine ⟨hwake, fun hnone => ?_⟩
      rw [Machine.tick, Machine.tickUntil_program?, hp] at hnone
      cases hnone
  refine ⟨⟨?_, ?_, fun s hs => (hall s hs).2⟩, fun s hs => (hall s hs).1⟩
  · exact Registry.fits_of_fixed ht.fixed h.fits
  · exact @Registry.forall_stations_of_fixed r r' (·.machine.options.granularity ≤ 1) ht.fixed
      h.granularity

/-- Whatever dwells a run that finishes leaves at a step, those that end within the window end at a
step. -/
theorem Passes.mem_times_of_holdUntil (h : Passes w r pending now run)
    (hf : run.ending = .finished) (hstop : w.stop < .never) (hnow : now ≤ w.stop) (hr : Prompt r)
    {before rest : List Step} (hsteps : run.steps = before ++ rest) (hne : before ≠ [])
    (hreplays : r.Replays before r') : ∀ s ∈ r'.stations, s.machine.holdUntil ≤ w.stop →
      s.machine.holdUntil ∈ run.times := by
  induction h generalizing before with
  | failed _ | stuck _ _ _ _ => simp at hf
  | @finished r pending r'' st _ ht hlast =>
    have hlt := hnow.trans_lt hstop
    intro s hs hend
    cases hreplays with
    | none => exact absurd rfl hne
    | step ht' hrest =>
      simp only [List.cons_append, List.cons.injEq] at hsteps
      obtain ⟨rfl, hnil⟩ := hsteps
      obtain ⟨rfl, -⟩ := List.append_eq_nil_iff.1 hnil.symm
      cases hrest
      have hwake := (hr.takes ht').2 s hs
      have hnext := next_le_wake_of_takes ht hlt w (later st.now pending)
      exact absurd (hlast.trans_le (hnext.trans hwake)) (not_lt.2 hend)
  | @passed r pending r'' now run st _ ht hn hnow' _ hp ih =>
    have hlt := hnow.trans_lt hstop
    intro s hs hend
    cases hreplays with
    | none => exact absurd rfl hne
    | @step _ r₁ _ _ before' ht' hrest =>
      simp only [List.cons_append, List.cons.injEq] at hsteps
      obtain ⟨rfl, hsteps⟩ := hsteps
      obtain rfl := ht.unique ht'
      obtain ⟨hprompt, hwakes⟩ := hr.takes ht
      refine List.mem_cons_of_mem _ ?_
      -- A dwell that this step itself leaves is owed from here on; the others are the rest's.
      rcases eq_or_ne before' [] with rfl | hne'
      · cases hrest
        obtain ⟨i, hi⟩ := List.getElem?_of_mem hs
        have hnext := next_le_wake_of_takes ht hlt w (later st.now pending)
        rw [hn] at hnext
        rcases hprog : s.machine.program? with _ | p
        · exact absurd (hprompt.idle s hs hprog) (Instant.ne_never_of_lt (hend.trans_lt hstop))
        · exact hp.mem_times_of_owed hf hstop hprompt.fits hi hprog
            (hnext.trans (hwakes s hs)) hend
      · exact ih hf hnow' hprompt hsteps hne' hrest s hs hend

end Dwell.Simulation

import Dwell.Proofs.Machine.Dependence

/-!
# Machines on a clock that is ahead

A machine that entered its state, and owes a dwell, so many seconds later does the same in a tick
that is so many seconds later, if its hooks write nothing: it reads, fires and observes the same,
and the ends of the dwells it opens come those seconds later (`tick_shift`). Ends are rounded to
multiples of the granularity, so the seconds must be such a multiple; and the clock must show the
ends of the dwells both times (`Machine.Shiftable`).
-/

namespace Dwell

def View.shift (v : View) (k : Int) : View :=
  { v with entryTime := v.entryTime.shift k, holdUntil := v.holdUntil.shift k }

/-- The entry with the times that it tells moved by `k` seconds. -/
def Entry.shift (k : Int) : Entry → Entry
  | .called c => .called { c with view := c.view.shift k }
  | .noted (.transition object origin target now holdUntil) =>
    .noted (.transition object origin target (now.shift k) (holdUntil.shift k))
  | e => e

def Journal.shift (j : Journal) (k : Int) : Journal :=
  j.map (·.shift k)

/-- A run up to `last` can come to the instant, also on a clock that is `k` seconds ahead. -/
structure Instant.InReach (t : Instant) (k : Int) (last : Instant) : Prop where
  le : t ≤ last
  lt : last.seconds < 0x7FFFFFFFFFFFFFFF
  lower : -0x8000000000000000 ≤ t.seconds + k
  upper : last.seconds + k < 0x7FFFFFFFFFFFFFFF

namespace Instant.InReach

variable {t last : Instant} {k : Int}

theorem shiftable (h : t.InReach k last) : t.Shiftable k := fun _ => by
  have := le_iff.1 h.le
  have := h.upper
  exact ⟨h.lower, by omega⟩

theorem ne_never (h : t.InReach k last) : t ≠ never := by
  rw [ne_eq, ← seconds_eq_iff]
  have := le_iff.1 h.le
  have := h.lt
  omega

end Instant.InReach

namespace Machine

open Journal

def shift (m : Machine) (k : Int) : Machine :=
  { m with entryTime := m.entryTime.shift k, holdUntil := m.holdUntil.shift k }

/-- The clock shows the end of every dwell that begins by `last`, rounded up. -/
def HasRoom (m : Machine) (last : Instant) : Prop :=
  ∀ p, m.program? = some p → ∀ x ∈ p.holds, 0 < x → ∀ n, Double.ceil? x = some n →
    last.seconds + n + m.options.granularity < Instant.never.seconds

instance (m : Machine) (last : Instant) : Decidable (m.HasRoom last) :=
  inferInstanceAs (Decidable (∀ p ∈ m.program?, ∀ x ∈ p.holds, 0 < x →
    ∀ n ∈ Double.ceil? x, _))

/-- The machine does the same `k` seconds later, until `last`. -/
structure Shiftable (m : Machine) (k : Int) (last : Instant) : Prop where
  entryTime : m.entryTime.Shiftable k
  holdUntil : m.holdUntil.Shiftable k
  quiet : ∀ p, m.program? = some p → p.IsQuiet
  granularity : 0 < m.options.granularity
  dvd : m.options.granularity ∣ k
  room : m.HasRoom last
  room' : m.HasRoom (last.moved k)

end Machine

/-- An effect whose answer is a time, moved by `k` seconds. -/
def Effect.shift (e : Effect Instant) (k : Int) : Effect Instant :=
  ⟨e.answer.shift k, e.machine.shift k, e.host, Journal.shift e.journal k⟩

namespace Machine

open Journal

variable {m : Machine} {p : Program} {host : Host} {k : Int} {now last : Instant}

theorem shift_append (j j' : Journal) (k : Int) :
    Journal.shift (j ++ j') k = Journal.shift j k ++ Journal.shift j' k :=
  List.map_append

theorem shift_examination (frame : Frame) (origin position : Nat) (c : Candidate) (k : Int) :
    Journal.shift (examination host p frame origin position c) k
      = examination host p frame origin position c := by
  have hreads : Journal.shift ((c.reads host frame).map .read) k
      = (c.reads host frame).map .read := by
    rw [Journal.shift, List.map_map]
    exact List.map_congr_left fun _ _ => rfl
  unfold examination
  dsimp only
  rw [shift_append, shift_append, hreads]
  congr 1
  split
  · split <;> rfl
  · rfl

section Rules

variable (hp : m.program? = some p) (hq : p.IsQuiet)
include hp hq

theorem callHook_shift (s : Nat) (phase : Phase) : (m.shift k).callHook host s phase
    = ((m.callHook host s phase).1, Journal.shift (m.callHook host s phase).2 k) := by
  have hp' : (m.shift k).program? = some p := hp
  unfold callHook
  rw [hp, hp', Option.bind_some]
  rcases hk : p.hook? s with _ | hook
  · rfl
  · simp only [isQuiet_of_hook? hq hk _ _ _]
    rfl

theorem observe_shift : (m.shift k).observe host p
    = ((m.observe host p).1.shift k, (m.observe host p).2.1,
      Journal.shift (m.observe host p).2.2 k) := by
  have hseeing (x : Float) : (m.shift k).seeing x = (m.seeing x).shift k := rfl
  have hvalue : (m.shift k).value = m.value := rfl
  rw [observe_eq, observe_eq]
  dsimp only
  rw [hseeing, hvalue]
  generalize Double.ofInt (host.level p.variableName) = x
  have hstate : ((m.seeing x).shift k).state? = (m.seeing x).state? := rfl
  rw [hstate]
  cases (m.seeing x).state? with
  | none => rfl
  | some s =>
    dsimp only
    rw [callHook_shift (m := m.seeing x) hp hq]

variable (hafter : ∀ s : Nat, (now.shift k).after ((p.holds[s]?).getD 0.0)
  = (now.after ((p.holds[s]?).getD 0.0)).shift k)
include hafter

theorem fire_shift (origin target : Nat) :
    (m.shift k).fire host p origin target (now.shift k)
      = ((m.fire host p origin target now).1.shift k, (m.fire host p origin target now).2.1,
        Journal.shift (m.fire host p origin target now).2.2 k) := by
  unfold fire
  dsimp only
  rw [callHook_shift hp hq, hafter, shift_append]
  rfl

omit hp in
theorem scan_shift (origin : Nat) : ∀ (cs : List Candidate) (m : Machine) (host : Host)
    (position : Nat), m.program? = some p →
    scan p origin (now.shift k) position cs (m.shift k) host
      = ((scan p origin now position cs m host).1.shift k,
        (scan p origin now position cs m host).2.1,
        Journal.shift (scan p origin now position cs m host).2.2 k)
  | [], m, host, position, _ => rfl
  | c :: cs, m, host, position, hp => by
    have hframe : (m.shift k).frame = m.frame := rfl
    have hoptions : (m.shift k).options = m.options := rfl
    simp only [scan, hframe, fire_shift hp hq hafter]
    split
    · have hfired : (m.fire host p origin c.target now).1.options = m.options := rfl
      have hfired' : ((m.fire host p origin c.target now).1.shift k).options = m.options := rfl
      rw [hfired, hfired']
      cases m.options.scan with
      | firstMatch => simp only [shift_append, shift_examination]
      | exhaustive =>
        have hp' : (m.fire host p origin c.target now).1.program? = some p :=
          (program?_arrive m now (some c.target)).trans hp
        simp only [scan_shift origin cs _ _ (position + 1) hp', shift_append, shift_examination]
    · simp only [scan_shift origin cs m host (position + 1) hp, shift_append, shift_examination]

theorem applyRules_shift : (m.shift k).applyRules host p (now.shift k)
    = ((m.applyRules host p now).1.shift k, (m.applyRules host p now).2.1,
      Journal.shift (m.applyRules host p now).2.2 k) := by
  unfold applyRules
  dsimp only
  split
  · exact scan_shift hq hafter _ _ m host 0 hp
  · rfl

end Rules

section Tick

variable (h : m.Shiftable k last)
include h

theorem Shiftable.frame (hnow : now.Shiftable k) :
    (now.shift k).secondsSince (m.shift k).entryTime = now.secondsSince m.entryTime :=
  Instant.secondsSince_shift h.entryTime hnow

theorem Shiftable.isHeld (hnow : now.Shiftable k) :
    (m.shift k).isHeld (now.shift k) .never = m.isHeld now .never := by
  have hlt := Instant.shift_lt_shift_iff hnow h.holdUntil
  have hlt' := Instant.shift_lt_shift_iff h.holdUntil (Instant.shiftable_never k)
  simp only [Machine.isHeld]
  exact congrArg₂ and (decide_eq_decide.2 hlt) (decide_eq_decide.2 hlt')

/-- The seconds of a positive hold, as often as they are added in a run up to `last`, lead to times
that the clock shows. -/
theorem Shiftable.room_of_pos (hp : m.program? = some p) (hnow : now.InReach k last) {s : Nat}
    (hx : 0 < (p.holds[s]?).getD 0.0) {n : Int}
    (hn : Double.ceil? ((p.holds[s]?).getD 0.0) = some n) :
    now.seconds + n + m.options.granularity < Instant.never.seconds ∧
      now.seconds + k + n + m.options.granularity < Instant.never.seconds := by
  have hle := Instant.le_iff.1 hnow.le
  have hmoved : (last.moved k).seconds = last.seconds + k :=
    Instant.Movable.seconds_moved ⟨by have := hnow.lower; omega, hnow.upper.le⟩
  rcases hs : p.holds[s]? with _ | x
  · rw [hs] at hx
    exact absurd hx (by decide +kernel)
  · rw [hs, Option.getD_some] at hx hn
    have hmem := List.mem_of_getElem? hs
    have hroom := h.room p hp x hmem hx n hn
    have hroom' := h.room' p hp x hmem hx n hn
    omega

/-- A dwell that begins in a run up to `last` is shifted with its beginning, and so is its end when
it is rounded. -/
theorem Shiftable.after (hp : m.program? = some p) (hnow : now.InReach k last) (s : Nat) :
    let due := now.after ((p.holds[s]?).getD 0.0)
    (now.shift k).after ((p.holds[s]?).getD 0.0) = due.shift k ∧ due.Shiftable k ∧
      (due.shift k).soften m.options.granularity = (due.soften m.options.granularity).shift k ∧
      (due.soften m.options.granularity).Shiftable k := by
  intro due
  by_cases hx : 0 < (p.holds[s]?).getD 0.0
  · have hroom := fun n => h.room_of_pos hp hnow hx (n := n)
    obtain ⟨hshift, hdue⟩ := Instant.after_shift hnow.shiftable fun n hn => by
      have := hroom n hn
      have := h.granularity
      omega
    refine ⟨hshift, hdue, Instant.soften_shift hdue h.dvd fun hne => ?_⟩
    obtain ⟨n, hn⟩ := (Instant.after_ne_never_iff hx).1 hne
    have := hroom n hn.ceil?
    rw [hn.seconds_after hx]
    omega
  · have hdue : due = .never := if_pos (.inr hx)
    have hdue' : (now.shift k).after ((p.holds[s]?).getD 0.0) = .never := if_pos (.inr hx)
    have hnever := Instant.shiftable_never k
    rw [hdue, hdue']
    exact ⟨rfl, hnever, Instant.soften_shift hnever h.dvd fun hne => absurd rfl hne⟩

theorem Shiftable.shift_refreshed (hnow : now.Shiftable k) :
    (m.shift k).refreshed (now.shift k) = (m.refreshed now).shift k := by
  unfold refreshed
  rw [h.frame hnow]
  rfl

/-- The dwell that is owed after a tick that is not held can be shifted, and rounded as well. -/
theorem Shiftable.due (host : Host) (hp : m.program? = some p) (hh : m.isHeld now .never = false)
    (hnow : now.InReach k last) :
    let due := (m.tick host now).machine.holdUntil
    due.Shiftable k ∧
      (due.shift k).soften m.options.granularity = (due.soften m.options.granularity).shift k ∧
      (due.soften m.options.granularity).Shiftable k := by
  obtain ⟨x, hx⟩ := m.tickUntil_machine host now .never hp hh
  rw [Machine.tick, hx]
  rcases (m.tickUntil host now .never).journal.targets.getLast? with _ | s
  · have hnever := Instant.shiftable_never k
    exact ⟨hnever, Instant.soften_shift hnever h.dvd fun hne => absurd rfl hne⟩
  · exact (h.after hp hnow s).2

/-- What a tick leaves of a machine that can be shifted can be shifted, and so can its answer. -/
theorem Shiftable.tick (host : Host) (hnow : now.InReach k last) :
    (m.tick host now).machine.Shiftable k last ∧ (m.tick host now).answer.Shiftable k := by
  have hprogram : (m.tick host now).machine.program? = m.program? := m.tickUntil_program? ..
  have hoptions : (m.tick host now).machine.options = m.options := m.tickUntil_options ..
  have hkeeps (hentry : (m.tick host now).machine.entryTime.Shiftable k)
      (hhold : (m.tick host now).machine.holdUntil.Shiftable k) :
      (m.tick host now).machine.Shiftable k last := by
    refine ⟨hentry, hhold, hprogram ▸ h.quiet, hoptions ▸ h.granularity, hoptions ▸ h.dvd, ?_, ?_⟩
    · simpa only [HasRoom, hprogram, hoptions] using h.room
    · simpa only [HasRoom, hprogram, hoptions] using h.room'
  rcases hp : m.program? with _ | p
  · have he : m.tick host now = _ := tickUntil_of_unbound host now .never hp
    rw [he]
    exact ⟨h, Instant.shiftable_never k⟩
  rcases hheld : m.isHeld now .never with _ | _
  · obtain ⟨hdue, -, hsoft⟩ := h.due host hp hheld hnow
    refine ⟨hkeeps ?_ hdue, ?_⟩
    · obtain ⟨x, hx⟩ := m.tickUntil_machine host now .never hp hheld
      rw [Machine.tick, hx]
      rcases (m.tickUntil host now .never).journal.targets.getLast? with _ | s
      · exact h.entryTime
      · exact hnow.shiftable
    · have hanswer : (m.tick host now).answer = (m.tick host now).machine.holdUntil.soften
          (m.tick host now).machine.options.granularity := by
        rw [Machine.tick, tickUntil_of_not_held host now .never hp hheld]
      rwa [hanswer, hoptions]
  · have he : m.tick host now = _ := tickUntil_of_held host now .never hp hheld
    rw [he] at hkeeps ⊢
    exact ⟨hkeeps h.entryTime h.holdUntil, h.holdUntil⟩

/-- A tick of a machine that is `k` seconds later does the same as the tick of the machine. -/
theorem tick_shift (host : Host) (hnow : now.InReach k last) :
    (m.shift k).tick host (now.shift k) = (m.tick host now).shift k := by
  unfold Machine.tick
  rcases hp : m.program? with _ | p
  · have hp' : (m.shift k).program? = none := hp
    rw [tickUntil_of_unbound host now _ hp, tickUntil_of_unbound host _ _ hp']
    rfl
  have hp' : (m.shift k).program? = some p := hp
  have hh := h.isHeld hnow.shiftable
  rcases hheld : m.isHeld now .never with _ | _
  · rw [hheld] at hh
    have hq := h.quiet p hp
    have hafter := fun s => (h.after hp hnow s).1
    rw [tickUntil_of_not_held host now _ hp hheld, tickUntil_of_not_held host _ _ hp' hh,
      h.shift_refreshed hnow.shiftable,
      applyRules_shift (m := m.refreshed now) hp hq hafter]
    have hp₁ : ((m.refreshed now).applyRules host p now).1.program? = some p := by
      rw [applyRules_machine, program?_arrive]
      exact hp
    dsimp only
    rw [observe_shift hp₁ hq]
    obtain ⟨-, hsoft, -⟩ := h.due host hp hheld hnow
    have hoptions := m.tickUntil_options host now .never
    rw [Machine.tick, tickUntil_of_not_held host now _ hp hheld] at hsoft
    rw [tickUntil_of_not_held host now _ hp hheld] at hoptions
    dsimp only at hsoft hoptions
    rw [Effect.shift, hoptions, shift_append, ← hsoft]
    dsimp only [Machine.shift]
    rw [hoptions]
  · rw [hheld] at hh
    rw [tickUntil_of_held host now _ hp hheld, tickUntil_of_held host _ _ hp' hh,
      h.frame hnow.shiftable]
    rfl

end Tick

end Machine

end Dwell

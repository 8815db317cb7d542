import Dwell.Proofs.Machine.Debounce
import Dwell.Proofs.Machine.Directive

/-!
# What a reachable machine writes

A machine is reachable when operations lead to it from a new one, whatever is written to its host
in between. Its program has what programming keeps (`Reachable.meets`), so it is well-formed
(`Reachable.wellFormed`). What a tick does to the host is
all in its journal: replaying it on the host that the tick found gives the host that it leaves
(`host_tickUntil`). So apart from what hooks write, a tick writes states that have a name to the
state variable, and nothing where no candidate is satisfied (`Reachable.writes_states`).
-/

namespace Dwell

def Entry.isCall : Entry → Bool
  | .called _ => true
  | _ => false

/-- The host after what an entry says happened to it: a hook reacted, or a transition wrote its
target to the state variable. -/
def Entry.replay (p : Program) (host : Host) : Entry → Host
  | .called c => match p.hook? c.state with
    | some k => { host with readings := k.react c.phase c.view host.readings }
    | none => host
  | .fired _ target => host.command p.variableName target
  | _ => host

namespace Journal

def replay (p : Program) (host : Host) (j : Journal) : Host :=
  j.foldl (Entry.replay p) host

variable (p : Program) (host : Host)

theorem replay_append (j k : Journal) :
    replay p host (j ++ k) = replay p (replay p host j) k :=
  List.foldl_append

theorem replay_of_still {j : Journal} (h : ∀ entry ∈ j, ∀ host, entry.replay p host = host) :
    replay p host j = host := by
  induction j with
  | nil => rfl
  | cons entry j ih =>
    rw [List.forall_mem_cons] at h
    rw [replay, List.foldl_cons, h.1]
    exact ih h.2

end Journal

namespace Machine

open Journal

section Reachable

/-- Operations lead to the machine and its host from a new machine. -/
def Reachable (m : Machine) (host : Host) : Prop :=
  ∃ options host₀ ops, ({ options } : Machine).afterAll host₀ ops = (m, host)

variable {m : Machine} {host : Host}

theorem Reachable.perform (hr : m.Reachable host) (op : Operation) :
    (m.perform host op).machine.Reachable (m.perform host op).host := by
  obtain ⟨options, host₀, ops, he⟩ := hr
  refine ⟨options, host₀, ops ++ [op], ?_⟩
  rw [afterAll_append, he]
  rfl

theorem Reachable.of_fixed {host' : Host} (hf : host'.fixed = host.fixed) (hr : m.Reachable host) :
    m.Reachable host' := by
  have he : host' = { host with readings := host'.readings } :=
    congrArg (fun h : Host => { h with readings := host'.readings }) hf
  rw [he]
  exact hr.perform (.outside fun _ => host'.readings)

section Invariant

variable {P : Host → Program → Prop} (hI : Program.Invariant P)
include hI

/-- No operation takes from a program what programming keeps. -/
theorem meets_perform (h : m.Meets P host) (op : Operation) :
    (m.perform host op).machine.Meets P (m.perform host op).host := by
  cases op with
  | bind property => exact (m.host_bind host property).symm ▸ hI.bind h property
  | addRule spec => exact (m.host_addRule host spec).symm ▸ hI.addRule h spec
  | addHold spec => exact (m.host_addHold host spec).symm ▸ hI.addHold h spec
  | setHook state k => exact (m.host_setHook host state k).symm ▸ hI.setHook h state k
  | configure text now => exact hI.configure now h text
  | reset now => exact hI.reset now h
  | clear => exact fun _ hp => nomatch hp
  | init | setValue | setOptions => exact meets_of_program? (m := m) rfl h
  | tick now horizon =>
    exact hI.meets_of_fixed (m.fixed_tickUntil host now horizon)
      (meets_of_program? (m.tickUntil_program? host now horizon) h)
  | outside write => exact hI.meets_of_fixed (show Host.fixed _ = host.fixed from rfl) h

theorem Reachable.meets (hr : m.Reachable host) : m.Meets P host := by
  obtain ⟨options, host₀, ops, he⟩ := hr
  have hnew : ({ options } : Machine).Meets P host₀ := fun _ hp => nomatch hp
  have hall := (@history_induction (fun m host => m.Meets P host) (fun _ => True)
    (fun _ => True) (fun _ _ op h _ => ⟨trivial, meets_perform hI h op⟩) ops _ _ hnew
    (by simp)).2
  rwa [he] at hall

end Invariant

theorem Reachable.wellFormed (hr : m.Reachable host) : m.WellFormed host :=
  Reachable.meets Program.wellFormed_invariant hr

theorem Reachable.states_le (hr : m.Reachable host) {p : Program} (hp : m.program? = some p) :
    p.states ≤ 257 :=
  (hr.wellFormed p hp).states_eq ▸ statesOf_le p.keywords

end Reachable

section Replay

variable {m : Machine} {p : Program} (hp : m.program? = some p) (host : Host) (now : Instant)
include hp

theorem host_callHook_eq_replay (s : Nat) (phase : Phase) :
    (m.callHook host s phase).1 = replay p host (m.callHook host s phase).2 := by
  unfold callHook
  rw [hp, Option.bind_some]
  rcases hk : p.hook? s with _ | k
  · rfl
  · simp [replay, Entry.replay, hk]

theorem host_fire_eq_replay (origin target : Nat) : (m.fire host p origin target now).2.1
    = replay p host (m.fire host p origin target now).2.2 := by
  unfold fire
  dsimp only
  rw [replay_append, ← host_callHook_eq_replay hp]
  rfl

omit hp in
theorem replay_examination (frame : Frame) (origin position : Nat) (c : Candidate) :
    replay p host (examination host p frame origin position c) = host := by
  obtain ⟨reads, notices, he⟩ := examination_eq host p frame origin position c
  refine replay_of_still p host fun entry hentry h => ?_
  simp only [he, List.mem_append, List.mem_map, List.mem_singleton] at hentry
  rcases hentry with (⟨_, -, rfl⟩ | rfl) | ⟨_, -, rfl⟩ <;> rfl

omit hp in
theorem host_scan_eq_replay (origin : Nat) : ∀ (cs : List Candidate) {m : Machine} (host : Host)
    (position : Nat), m.program? = some p → (scan p origin now position cs m host).2.1
      = replay p host (scan p origin now position cs m host).2.2
  | [], m, host, position, _ => rfl
  | c :: cs, m, host, position, hp => by
    simp only [scan]
    split
    · split
      · rw [replay_append, replay_examination]
        exact host_fire_eq_replay hp host now origin c.target
      · dsimp only
        rw [replay_append, replay_append, replay_examination,
          ← host_fire_eq_replay hp host now origin c.target]
        exact host_scan_eq_replay origin cs _ _
          ((program?_arrive m now (some c.target)).trans hp)
    · rw [replay_append, replay_examination]
      exact host_scan_eq_replay origin cs host (position + 1) hp

theorem host_applyRules_eq_replay : (m.applyRules host p now).2.1
    = replay p host (m.applyRules host p now).2.2 := by
  unfold applyRules
  dsimp only
  split
  · exact host_scan_eq_replay now _ _ host 0 hp
  · rfl

theorem host_observe_eq_replay : (m.observe host p).2.1
    = replay p host (m.observe host p).2.2 := by
  rw [observe_eq]
  dsimp only
  split
  · exact host_callHook_eq_replay (by exact hp) host _ _
  · rfl

/-- The host that a tick leaves is told by its journal. -/
theorem host_tickUntil (horizon : Instant) : (m.tickUntil host now horizon).host
    = replay p host (m.tickUntil host now horizon).journal := by
  rcases hh : m.isHeld now horizon with _ | _
  · rw [tickUntil_of_not_held host now horizon hp hh]
    have hp' : ((m.refreshed now).applyRules host p now).1.program? = some p := by
      rw [applyRules_machine, program?_arrive]
      exact hp
    dsimp only
    rw [replay_append, ← host_applyRules_eq_replay (by exact hp),
      host_observe_eq_replay hp']
  · rw [tickUntil_of_held host now horizon hp hh]
    rfl

end Replay

section Fired

variable {m : Machine} {host : Host} {p : Program} {now : Instant} {o t : Nat}

theorem fired_not_mem_callHook (s : Nat) (phase : Phase) :
    Entry.fired o t ∉ (m.callHook host s phase).2 := by
  unfold callHook
  split <;> simp

theorem fired_mem_fire {origin target : Nat} :
    Entry.fired o t ∈ (m.fire host p origin target now).2.2 ↔ o = origin ∧ t = target := by
  simp [fire, fired_not_mem_callHook]

theorem fired_not_mem_examination (frame : Frame) (origin position : Nat) (c : Candidate) :
    Entry.fired o t ∉ examination host p frame origin position c := by
  obtain ⟨reads, notices, he⟩ := examination_eq host p frame origin position c
  simp [he]

/-- A scan fires transitions out of its origin into targets of its candidates, and the first of
them because a candidate is satisfied at its start. -/
theorem of_fired_mem_scan (origin : Nat) : ∀ (cs : List Candidate) {m : Machine} {host : Host}
    (position : Nat), Entry.fired o t ∈ (scan p origin now position cs m host).2.2 →
      o = origin ∧ (∃ c ∈ cs, c.target = t) ∧ ∃ c ∈ cs, c.judge host m.frame = .satisfied
  | [], m, host, position, h => by simp [scan] at h
  | c :: cs, m, host, position, h => by
    simp only [scan] at h
    split at h
    · rename_i hc
      have hsat : ∃ c' ∈ c :: cs, c'.judge host m.frame = .satisfied := ⟨c, by simp, hc⟩
      split at h
      · rw [List.mem_append, fired_mem_fire] at h
        obtain ⟨rfl, rfl⟩ := h.resolve_left (fired_not_mem_examination _ _ _ _)
        exact ⟨rfl, ⟨c, by simp, rfl⟩, hsat⟩
      · rw [List.mem_append, List.mem_append, fired_mem_fire] at h
        rcases h with h | h
        · obtain ⟨rfl, rfl⟩ := h.resolve_left (fired_not_mem_examination _ _ _ _)
          exact ⟨rfl, ⟨c, by simp, rfl⟩, hsat⟩
        · obtain ⟨rfl, ⟨c', hc', rfl⟩, -⟩ := of_fired_mem_scan origin cs (position + 1) h
          exact ⟨rfl, ⟨c', by simp [hc'], rfl⟩, hsat⟩
    · rw [List.mem_append] at h
      have hrest := h.resolve_left (fired_not_mem_examination _ _ _ _)
      obtain ⟨rfl, ⟨c', hc', rfl⟩, c'', hc'', hs⟩ := of_fired_mem_scan origin cs (position + 1) hrest
      exact ⟨rfl, ⟨c', by simp [hc'], rfl⟩, c'', by simp [hc''], hs⟩

theorem of_fired_mem_tickUntil {horizon : Instant} (hp : m.program? = some p)
    (h : Entry.fired o t ∈ (m.tickUntil host now horizon).journal) :
    p.stateOf? (host.level p.variableName) = some o ∧
      (∃ c ∈ p.rules.candidates o, c.target = t) ∧
      ∃ c ∈ p.rules.candidates o,
        c.judge host ⟨now.secondsSince m.entryTime, m.value⟩ = .satisfied := by
  rcases hh : m.isHeld now horizon with _ | _
  · rw [tickUntil_of_not_held host now horizon hp hh, List.mem_append, observe_eq] at h
    rcases h with h | h
    · unfold applyRules at h
      dsimp only at h
      split at h
      · rename_i s hs
        obtain ⟨rfl, hc, hsat⟩ := of_fired_mem_scan s _ 0 h
        exact ⟨hs, hc, hsat⟩
      · simp at h
    · dsimp only at h
      split at h
      · exact absurd h (fired_not_mem_callHook _ _)
      · simp at h
  · rw [tickUntil_of_held host now horizon hp hh] at h
    simp at h

/-- While a reachable machine is bound, its program has a row of candidates, a hold and a hook for
each of its states, at most 257. What a tick does to the host is all in its journal: what is not a
hook call writes at most the state variable, and a state that has a name, and nothing while no
candidate is satisfied. -/
theorem Reachable.writes_states (hr : m.Reachable host) (hp : m.program? = some p) :
    p.WellFormed host ∧ p.states ≤ 257 ∧ ∀ now horizon,
      (m.tickUntil host now horizon).host
          = replay p host (m.tickUntil host now horizon).journal ∧
      ∀ entry ∈ (m.tickUntil host now horizon).journal, entry.isCall = false →
        (∀ h : Host, entry.replay p h = h ∨ ∃ t : Nat, t < p.states ∧ (p.stateName? t).isSome ∧
          entry.replay p h = h.setLevel p.variableName t) ∧
        ((∀ s, p.stateOf? (host.level p.variableName) = some s → ∀ c ∈ p.rules.candidates s,
            c.judge host ⟨now.secondsSince m.entryTime, m.value⟩ ≠ .satisfied) →
          ∀ h : Host, entry.replay p h = h) := by
  have hw := hr.wellFormed p hp
  refine ⟨hw, hr.states_le hp, fun now horizon =>
    ⟨host_tickUntil hp host now horizon, fun entry hentry hcall => ?_⟩⟩
  cases entry with
  | called c => cases hcall
  | examined | read | noted => exact ⟨fun _ => .inl rfl, fun _ _ => rfl⟩
  | fired origin target =>
    obtain ⟨hs, ⟨c, hc, rfl⟩, c', hc', hsat⟩ := of_fired_mem_tickUntil hp hentry
    refine ⟨fun h => ?_, fun hnone => absurd hsat (hnone origin hs c' hc')⟩
    obtain ⟨hlt, hname⟩ := hw.targets origin c hc
    rcases h.command_cases p.variableName c.target with he | he
    · exact .inl he
    · exact .inr ⟨c.target, hlt, KeywordTable.isSome_name?.2 hname, he⟩

/-- Turns a switch on after a second, and keeps it on for five. -/
def switchOperations : List Operation :=
  [.bind "switch", .addRule "OFF->ON=$timer>=1", .addHold "ON=5", .init (.clamp 0)]

theorem writes_states_switch : ∃ m host p, Reachable m host ∧ m.program? = some p ∧
    (m.tickUntil host (.clamp 2) .never).journal.targets = [1] ∧ p.states ≤ 257 ∧
    (m.tickUntil host (.clamp 2) .never).host
      = replay p host (m.tickUntil host (.clamp 2) .never).journal := by
  let done := Machine.afterAll {} switchHost switchOperations
  have hr : Reachable done.1 done.2 := ⟨{}, switchHost, switchOperations, rfl⟩
  obtain ⟨p, hp⟩ : ∃ p, done.1.program? = some p :=
    Option.isSome_iff_exists.1 (by decide +kernel)
  obtain ⟨-, hle, htick⟩ := hr.writes_states hp
  exact ⟨done.1, done.2, p, hr, hp, by decide +kernel, hle, (htick (.clamp 2) .never).1⟩

end Fired

end Machine

end Dwell

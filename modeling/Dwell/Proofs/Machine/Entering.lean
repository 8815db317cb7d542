import Dwell.Proofs.Double.Whole
import Dwell.Proofs.Machine.Dependence
import Dwell.Simulation.Basic

/-!
# Entering states

The hooks of a simulation change nothing, and there is one on every state that has a name. So what
a tick writes is the state variable alone (`level_tickUntil_of_ne`), and a tick calls an entry hook
just when the machine then shows another state than before, which is the one it entered
(`entered_tickUntil`).
-/

namespace Dwell

/-- What an entry hook saw. -/
def Entry.entrance? : Entry → Option View
  | .called ⟨_, .entry, _, v⟩ => some v
  | _ => none

namespace Journal

def entrances (j : Journal) : List View :=
  j.filterMap (·.entrance?)

theorem entrances_append (j k : Journal) : entrances (j ++ k) = j.entrances ++ k.entrances :=
  List.filterMap_append

end Journal

namespace Program

/-- The state has a name. -/
def IsNamed (p : Program) (s : Nat) : Prop :=
  s < p.states ∧ p.keywords.Names s

/-- A program of a simulation's machine, on its host. -/
structure Traced (host : Host) (p : Program) : Prop where
  enumeration : host.enumerations.lookup p.variableName = some ⟨p.keywords, []⟩
  names : (p.keywords.map (·.name)).Nodup
  states : p.states = Machine.statesOf p.keywords
  targets : ∀ s, ∀ c ∈ p.rules.candidates s, p.IsNamed c.target
  watching : ∀ k, some k ∈ p.hooks → k = .watching
  hook? : ∀ s, p.IsNamed s → p.hook? s = some .watching

/-- The value is that of a level, or the level is that of a state with a name. -/
def Tracks (p : Program) (level : Int) (value : Float) : Prop :=
  value = Double.ofInt level ∨ (Double.ofInt level == value) = true ∨
    ∃ s : Nat, level = s ∧ p.IsNamed s

theorem traced_of_fixed {host host' : Host} {p : Program} (hf : host'.fixed = host.fixed)
    (h : p.Traced host) : p.Traced host' := by
  have he : host'.enumerations = host.enumerations := congrArg (·.enumerations) hf
  exact ⟨he ▸ h.enumeration, h.names, h.states, h.targets, h.watching, h.hook?⟩

theorem Traced.isQuiet {host : Host} {p : Program} (h : p.Traced host) : p.IsQuiet := by
  intro k hk
  rw [h.watching k hk]
  exact fun _ _ _ => rfl

theorem Traced.isNamed {host : Host} {p : Program} (h : p.Traced host) {s : Nat}
    (hs : s ≤ Machine.greatestState) (hn : p.keywords.Names s) : p.IsNamed s := by
  obtain ⟨k, hk, hv⟩ := id hn
  have := Machine.lt_statesOf hk (by omega) (by omega)
  exact ⟨by rw [h.states]; omega, hn⟩

end Program

namespace Machine

open Journal

variable {m : Machine} {host : Host} {p : Program} {now : Instant}

section Levels

theorem host_fire (hp : m.program? = some p) (hq : p.IsQuiet) (origin target : Nat) :
    (m.fire host p origin target now).2.1 = host.command p.variableName target := by
  unfold fire
  dsimp only
  rw [host_callHook_of_isQuiet hq hp]

/-- What a scan writes to the state variable is a target. -/
theorem level_scan (now : Instant) (origin : Nat) : ∀ (cs : List Candidate) {m : Machine}
    {host : Host} (position : Nat), m.program? = some p → p.Traced host →
    (scan p origin now position cs m host).2.1.level p.variableName
        = host.level p.variableName ∨
      ∃ c ∈ cs, (scan p origin now position cs m host).2.1.level p.variableName = c.target
  | [], m, host, position, _, _ => by simp [scan]
  | c :: cs, m, host, position, hp, ht => by
    have hlevel : (host.command p.variableName c.target).level p.variableName = c.target :=
      Host.level_command ht.enumeration rfl
    simp only [scan]
    split
    · split
      · dsimp only
        rw [host_fire hp ht.isQuiet]
        exact .inr ⟨c, by simp, hlevel⟩
      · have hp' : (m.fire host p origin c.target now).1.program? = some p := by
          rw [fire_machine, program?_arrive, hp]
        have h₁ := level_scan now origin cs (position + 1) hp'
          (Program.traced_of_fixed (fixed_fire m host p now origin c.target) ht)
        dsimp only
        rw [host_fire hp ht.isQuiet] at h₁ ⊢
        right
        rcases h₁ with h₁ | ⟨c', hc', h₁⟩
        · exact ⟨c, by simp, h₁.trans hlevel⟩
        · exact ⟨c', by simp [hc'], h₁⟩
    · refine (level_scan now origin cs (position + 1) hp ht).imp_right ?_
      rintro ⟨c', hc', h₁⟩
      exact ⟨c', by simp [hc'], h₁⟩

theorem level_applyRules (now : Instant) (hp : m.program? = some p) (ht : p.Traced host) :
    (m.applyRules host p now).2.1.level p.variableName = host.level p.variableName ∨
      ∃ s : Nat, (m.applyRules host p now).2.1.level p.variableName = s ∧ p.IsNamed s := by
  unfold applyRules
  dsimp only
  split
  · rename_i s _
    refine (level_scan now s (p.rules.candidates s) 0 hp ht).imp_right ?_
    rintro ⟨c, hc, h₁⟩
    exact ⟨c.target, h₁, ht.targets s c hc⟩
  · exact .inl rfl

theorem host_observe (hp : m.program? = some p) (hq : p.IsQuiet) :
    (m.observe host p).2.1 = host := by
  rw [observe_eq]
  dsimp only
  split
  · exact host_callHook_of_isQuiet hq ((m.program?_seeing _).trans hp) _ _ _
  · rfl

end Levels

section States

theorem state?_eq_some_iff (hp : m.program? = some p) {s : Nat} :
    m.state? = some s ↔ Double.toInt? m.value = some (s : Int) ∧ s < p.states := by
  simp only [state?, hp, Option.bind_eq_bind, Option.bind_some, Option.bind_eq_some_iff,
    Program.stateOf?]
  constructor
  · rintro ⟨n, hn, h⟩
    split at h
    · simp only [Option.some.injEq] at h
      rw [hn, Option.some.injEq]
      omega
    · cases h
  · rintro ⟨hn, hs⟩
    exact ⟨s, hn, by simp [hs]⟩

theorem currentName?_eq (hp : m.program? = some p) :
    m.currentName? = m.state?.bind p.stateName? := by
  simp only [currentName?, stateName?, hp]
  rfl

theorem currentName?_congr {m' : Machine} (hp : m'.program? = m.program?)
    (hv : m'.value = m.value) : m'.currentName? = m.currentName? := by
  simp only [currentName?, stateName?, state?, hp, hv]

/-- A value that is not equal to itself is no state's. -/
theorem state?_of_not_beq (hp : m.program? = some p) (h : ¬ (m.value == m.value) = true) :
    m.state? = none := by
  refine Option.eq_none_iff_forall_ne_some.2 fun s hs => h ?_
  have hs' := Double.toInt?_eq_some_iff.1 ((state?_eq_some_iff hp).1 hs).1
  exact (Double.beq_iff hs' hs').2 rfl

theorem currentName?_of_value (hp : m.program? = some p) {s : Nat} (hs : s < p.states)
    (hsize : (s : Int).natAbs < 2 ^ 53) (hv : m.value = Double.ofInt s) :
    m.state? = some s ∧ m.currentName? = p.stateName? s := by
  have hstate : m.state? = some s := by
    rw [state?_eq_some_iff hp, hv, Double.toInt?_ofInt hsize]
    exact ⟨rfl, hs⟩
  exact ⟨hstate, by rw [currentName?_eq hp, hstate, Option.bind_some]⟩

/-- A machine that shows another value than a state's shows another name. -/
theorem currentName?_ne_of_not_beq (hp : m.program? = some p)
    (hn : (p.keywords.map (·.name)).Nodup) {s : Nat} (hsize : (s : Int).natAbs < 2 ^ 53)
    (h : ¬ (Double.ofInt s == m.value) = true) {name : String}
    (hname : p.stateName? s = some name) : m.currentName? ≠ some name := by
  intro heq
  rw [currentName?_eq hp, Option.bind_eq_some_iff] at heq
  obtain ⟨t, ht, hname'⟩ := heq
  have hinj := KeywordTable.name?_inj hn hname hname'
  have hvalue := ((state?_eq_some_iff hp).1 ht).1
  rw [← hinj] at hvalue
  exact h (Double.ofInt_beq hsize hvalue)

end States

section Observe

theorem entrances_callHook (s : Nat) (phase : Phase) : entrances (m.callHook host s phase).2 =
    if phase = .entry ∧ (m.program?.bind (·.hook? s)).isSome then [m.view] else [] := by
  unfold callHook
  split
  · rename_i h
    simp [h, entrances]
  · rename_i k h
    cases phase <;> simp [h, entrances, Entry.entrance?]

/-- What happened to a machine that showed the state `before`: nothing was seen to be entered and
it still does, or a state that has a name, and is another, was seen to be entered. -/
def Entered (before : Option String) (seen : List View) (m : Machine) : Prop :=
  (seen = [] ∧ m.currentName? = before) ∨
    (seen = [m.view] ∧ m.currentName?.isSome ∧ m.currentName? ≠ before)

theorem entered_observe (hp : m.program? = some p) (ht : p.Traced host)
    (hi : p.Tracks (host.level p.variableName) m.value) :
    Entered m.currentName? (entrances (m.observe host p).2.2) (m.observe host p).1 := by
  rw [observe_eq]
  generalize host.level p.variableName = level at hi ⊢
  dsimp only
  by_cases h : (Double.ofInt level == m.value) = true
  · left
    have hm : m.seeing (Double.ofInt level) = m := by rw [seeing, if_pos h]
    rw [hm, if_pos h]
    refine ⟨?_, rfl⟩
    split
    · rw [entrances_callHook]
      rfl
    · rfl
  have hm : m.seeing (Double.ofInt level) = { m with value := Double.ofInt level } := by
    rw [seeing, if_neg h]
  have hprog : (m.seeing (Double.ofInt level)).program? = some p := by rw [hm, hp]
  have hvalue : (m.seeing (Double.ofInt level)).value = Double.ofInt level := by rw [hm]
  rw [if_neg h]
  generalize m.seeing (Double.ofInt level) = m' at hprog hvalue ⊢
  -- The value shows the level though the two are not equal, or equals it, or a state was written.
  rcases hi with hv | hv | ⟨s, rfl, hs⟩
  · left
    rw [hv] at h
    rw [state?_of_not_beq hprog (by rwa [hvalue])]
    exact ⟨rfl, currentName?_congr (hprog.trans hp.symm) (hvalue.trans hv.symm)⟩
  · exact absurd hv h
  · right
    have hsize : (s : Int).natAbs < 2 ^ 53 := by
      have := ht.states ▸ Machine.statesOf_le p.keywords
      have := hs.1
      omega
    obtain ⟨hstate, hcurrent⟩ := currentName?_of_value hprog hs.1 hsize hvalue
    obtain ⟨name, hname⟩ := Option.isSome_iff_exists.1 (KeywordTable.isSome_name?.2 hs.2)
    rw [hstate, hcurrent.trans hname]
    refine ⟨?_, rfl, (currentName?_ne_of_not_beq hp ht.names hsize h hname).symm⟩
    dsimp only
    rw [entrances_callHook, if_pos ⟨rfl, by rw [hprog, Option.bind_some, ht.hook? s hs]; rfl⟩]

end Observe

section Tick

theorem entrances_fire (origin target : Nat) :
    entrances (m.fire host p origin target now).2.2 = [] := by
  unfold fire
  dsimp only
  rw [entrances_append, entrances_callHook]
  rfl

theorem entrances_examination (frame : Frame) (origin position : Nat) (c : Candidate) :
    entrances (examination host p frame origin position c) = [] := by
  obtain ⟨reads, notices, he⟩ := examination_eq host p frame origin position c
  simp [he, entrances, List.filterMap_map, Entry.entrance?]

theorem entrances_scan (now : Instant) (origin : Nat) : ∀ (cs : List Candidate) (m : Machine)
    (host : Host) (position : Nat), entrances (scan p origin now position cs m host).2.2 = []
  | [], m, host, position => rfl
  | c :: cs, m, host, position => by
    simp only [scan]
    split
    · split
      · rw [entrances_append, entrances_examination, entrances_fire]
        rfl
      · dsimp only
        rw [entrances_append, entrances_append, entrances_examination, entrances_fire,
          entrances_scan now origin cs]
        rfl
    · rw [entrances_append, entrances_examination]
      exact entrances_scan now origin cs m host (position + 1)

theorem entrances_applyRules (m : Machine) (host : Host) (p : Program) (now : Instant) :
    entrances (m.applyRules host p now).2.2 = [] := by
  unfold applyRules
  dsimp only
  split
  · exact entrances_scan ..
  · rfl

theorem value_arrive (m : Machine) (p : Program) (now : Instant) (s : Option Nat) :
    (m.arrive p now s).value = m.value := by
  cases s <;> rfl

/-- A tick calls an entry hook just when the machine then shows another state than before. -/
theorem entered_tickUntil (now horizon : Instant) (hp : m.program? = some p) (ht : p.Traced host)
    (hi : p.Tracks (host.level p.variableName) m.value) :
    Entered m.currentName? (m.tickUntil host now horizon).journal.entrances
        (m.tickUntil host now horizon).machine ∧
      p.Tracks ((m.tickUntil host now horizon).host.level p.variableName)
        (m.tickUntil host now horizon).machine.value := by
  rcases hh : m.isHeld now horizon with _ | _
  · rw [tickUntil_of_not_held host now horizon hp hh]
    have hp₀ : (m.refreshed now).program? = some p := hp
    have hm := applyRules_machine (m.refreshed now) host p now
    have he := entrances_applyRules (m.refreshed now) host p now
    have hf := fixed_applyRules (m.refreshed now) host p now
    have hl := level_applyRules now hp₀ ht
    generalize (m.refreshed now).applyRules host p now = applied at hm he hf hl ⊢
    obtain ⟨m', host', seen⟩ := applied
    dsimp only at hm he hf hl ⊢
    have hp' : m'.program? = some p := by rw [hm, program?_arrive, hp₀]
    have hv' : m'.value = m.value := by rw [hm, value_arrive]; rfl
    have ht' := Program.traced_of_fixed hf ht
    have hi' : p.Tracks (host'.level p.variableName) m'.value := by
      rcases hl with hl | hl
      · rwa [hl, hv']
      · exact .inr (.inr hl)
    rw [entrances_append, he, List.nil_append, host_observe hp' ht'.isQuiet]
    refine ⟨?_, ?_⟩
    · have hn : m'.currentName? = m.currentName? :=
        currentName?_congr (hp'.trans hp.symm) hv'
      rw [← hn]
      exact entered_observe hp' ht' hi'
    · rw [observe_machine, seeing]
      dsimp only
      split
      · exact .inr (.inl ‹_›)
      · exact .inl rfl
  · rw [tickUntil_of_held host now horizon hp hh]
    exact ⟨.inl ⟨rfl, rfl⟩, hi⟩

/-- A tick writes no enumeration but the state variable. -/
theorem level_tickUntil_of_ne (horizon : Instant) (hp : m.program? = some p) (ht : p.Traced host)
    {other : String} (hne : other ≠ p.variableName) :
    (m.tickUntil host now horizon).host.level other = host.level other :=
  (agree_tickUntil ht.isQuiet hp host now horizon).level other hne

end Tick

end Machine

end Dwell

import Dwell.Proofs.Machine.Replay
import Dwell.Proofs.Rule.Evaluating

/-!
# What a tick depends on

Tests read numeric properties, and a machine reads its own state variable. So a tick does the same
on hosts that agree on that variable, if the sources that the rules read depend on nothing that the
hosts do not agree on (`Same.tickUntil`). When no hook of the machine writes to the host, a tick
leaves alone all but the state variable (`agree_tickUntil`).
-/

namespace Dwell

/-- No source that the tests of the candidate compare depends on the enumerations with the given
names. -/
def Candidate.Ignores (c : Candidate) (host : Host) (names : Set String) : Prop :=
  ∀ t ∈ c.tests, ∀ side property index, t.side side = .element property index →
    host.Ignores property names

/-- No source that the rules of the program read depends on the enumerations with the given
names. -/
def Program.Ignores (p : Program) (host : Host) (names : Set String) : Prop :=
  ∀ s, ∀ c ∈ p.rules.candidates s, c.Ignores host names

section Tests

variable {names : Set String} {h h' : Host} {c : Candidate} {p : Program}

/-- Hosts that agree give the same answers, as far as these depend on nothing else. -/
theorem Host.Agree.answers (a : h.Agree names h') {reads : List SourceRead}
    (hr : ∀ r ∈ reads, h.Ignores r.property namesᶜ) : h.Answers h' reads where
  isSource := a.isSource
  number _ index hs := a.read? (.of_isSource_eq_false hs) index
  source r hmem := a.read? (hr r hmem) r.index

namespace Candidate

theorem Ignores.of_fixed (hf : h'.fixed = h.fixed) (hc : c.Ignores h names) : c.Ignores h' names :=
  fun t ht side property index he => (hc t ht side property index he).of_fixed hf

theorem Ignores.of_mem_reads (hc : c.Ignores h names) {frame : Frame} {r : SourceRead}
    (hr : r ∈ c.reads h frame) : h.Ignores r.property names := by
  obtain ⟨t, ht, hmem⟩ := List.mem_flatMap.1 (readsOf_subset c.tests hr)
  obtain ⟨side, he⟩ := Comparison.exists_side_of_mem_bothReads hmem
  exact hc t ht side r.property r.index he

theorem of_agree (hc : c.Ignores h namesᶜ) (a : h.Agree names h') (frame : Frame) :
    c.judge h' frame = c.judge h frame ∧ c.reads h' frame = c.reads h frame :=
  judge_of_answers (a.answers fun _ hr => hc.of_mem_reads hr)

end Candidate

theorem Program.Ignores.of_fixed (hf : h'.fixed = h.fixed) (hp : p.Ignores h names) :
    p.Ignores h' names :=
  fun s c hc => (hp s c hc).of_fixed hf

theorem Machine.examination_of_agree (hc : c.Ignores h namesᶜ) (a : h.Agree names h')
    (frame : Frame) (origin position : Nat) :
    examination h' p frame origin position c = examination h p frame origin position c := by
  obtain ⟨hjudge, hreads⟩ := c.of_agree hc a frame
  simp only [examination, hjudge, hreads, a.name]

end Tests

/-- No hook of the program writes to the host. -/
def Program.IsQuiet (p : Program) : Prop :=
  ∀ k, some k ∈ p.hooks → k.isQuiet

namespace Machine

open Journal

/-- The same was done on two hosts, which agree after it. -/
structure Same (names : Set String) (r r' : Machine × Host × Journal) : Prop where
  machine : r'.1 = r.1
  host : r.2.1.Agree names r'.2.1
  journal : r'.2.2 = r.2.2

variable {m : Machine} {p : Program} {names : Set String} {host host' : Host}
  {now horizon : Instant}

section Quiet

variable (hq : p.IsQuiet)
include hq

theorem isQuiet_of_hook? {s : Nat} {k : Hook} (hk : p.hook? s = some k) : k.isQuiet := by
  rw [Program.hook?, Option.join_eq_some_iff] at hk
  exact hq k (List.mem_of_getElem? hk)

theorem host_callHook_of_isQuiet (hp : m.program? = some p) (host : Host) (s : Nat)
    (phase : Phase) : (m.callHook host s phase).1 = host := by
  unfold callHook
  split
  · rfl
  · rename_i k hk
    rw [hp, Option.bind_some] at hk
    rw [isQuiet_of_hook? hq hk]

theorem replay_called (host : Host) (c : HookCall) : (Entry.called c).replay p host = host := by
  simp only [Entry.replay]
  split
  · rename_i k hk
    rw [isQuiet_of_hook? hq hk]
  · rfl

theorem agree_entry_replay (entry : Entry) (host : Host) :
    host.Agree {p.variableName}ᶜ (entry.replay p host) := by
  cases entry with
  | examined | read | noted => exact .refl ..
  | fired origin target => exact host.agree_command p.variableName target
  | called c =>
    rw [replay_called hq]
    exact .refl ..

theorem agree_replay (j : Journal) (host : Host) :
    host.Agree {p.variableName}ᶜ (replay p host j) := by
  induction j generalizing host with
  | nil => exact .refl ..
  | cons entry j ih => exact (agree_entry_replay hq entry host).trans (ih _)

/-- A tick leaves alone all but the state variable. -/
theorem agree_tickUntil (hp : m.program? = some p) (host : Host) (now horizon : Instant) :
    host.Agree {p.variableName}ᶜ (m.tickUntil host now horizon).host := by
  rw [host_tickUntil hp]
  exact agree_replay hq ..

end Quiet

section Same

variable (hp : m.program? = some p) (hq : p.IsQuiet) (a : host.Agree names host')
include hp hq a

theorem Same.callHook (s : Nat) (phase : Phase) :
    Same names (m, m.callHook host s phase) (m, m.callHook host' s phase) := by
  refine ⟨rfl, ?_, ?_⟩
  · dsimp only
    rwa [host_callHook_of_isQuiet hq hp, host_callHook_of_isQuiet hq hp]
  · unfold Machine.callHook
    split <;> rfl

theorem Same.fire (origin target : Nat) (now : Instant) :
    Same names (m.fire host p origin target now) (m.fire host' p origin target now) := by
  obtain ⟨-, hc, hj⟩ := Same.callHook hp hq a origin .exit
  refine ⟨rfl, hc.command p.variableName target, ?_⟩
  simp only [Machine.fire]
  rw [hj, hc.name]

omit hp a in
theorem Same.scan (origin : Nat) (now : Instant) : ∀ (cs : List Candidate) {m : Machine}
    {host host' : Host} (position : Nat), m.program? = some p → host.Agree names host' →
    (∀ c ∈ cs, c.Ignores host namesᶜ) →
    Same names (scan p origin now position cs m host) (scan p origin now position cs m host')
  | [], _, _, _, _, _, a, _ => ⟨rfl, a, rfl⟩
  | c :: cs, m, host, host', position, hp, a, hi => by
    rw [List.forall_mem_cons] at hi
    obtain ⟨hm, hf, hj⟩ := Same.fire hp hq a origin c.target now
    simp only [Machine.scan, (c.of_agree hi.1 a m.frame).1, examination_of_agree hi.1 a]
    split
    · rw [hm, hj]
      split
      · exact ⟨rfl, hf, rfl⟩
      · obtain ⟨hm', hf', hj'⟩ := Same.scan origin now cs (position + 1)
          (m := (m.fire host p origin c.target now).1) hp hf
          fun c' hc' => (hi.2 c' hc').of_fixed (fixed_fire m host p now origin c.target)
        exact ⟨hm', hf', by rw [hj']⟩
    · obtain ⟨hm', hf', hj'⟩ := Same.scan origin now cs (position + 1) hp a hi.2
      exact ⟨hm', hf', by rw [hj']⟩

theorem Same.applyRules (hn : p.variableName ∈ names) (hi : p.Ignores host namesᶜ) (now : Instant) :
    Same names (m.applyRules host p now) (m.applyRules host' p now) := by
  simp only [Machine.applyRules, a.level _ hn, a.name]
  split
  · exact Same.scan hq _ now _ 0 hp a (hi _)
  · exact ⟨rfl, a, rfl⟩

theorem Same.observe (hn : p.variableName ∈ names) :
    Same names (m.observe host p) (m.observe host' p) := by
  rw [observe_eq, observe_eq, a.level _ hn]
  dsimp only
  split
  · obtain ⟨-, hc, hj⟩ := Same.callHook (m := m.seeing _) hp hq a _ _
    exact ⟨rfl, hc, hj⟩
  · exact ⟨rfl, a, rfl⟩

/-- On hosts that agree on the state variable, and on all that sources which the rules read depend
on, a tick does the same. -/
theorem Same.tickUntil (hn : p.variableName ∈ names) (hi : p.Ignores host namesᶜ)
    (now horizon : Instant) :
    (m.tickUntil host' now horizon).answer = (m.tickUntil host now horizon).answer ∧
      (m.tickUntil host' now horizon).machine = (m.tickUntil host now horizon).machine ∧
      (m.tickUntil host now horizon).host.Agree names (m.tickUntil host' now horizon).host ∧
      (m.tickUntil host' now horizon).journal = (m.tickUntil host now horizon).journal := by
  rcases hh : m.isHeld now horizon with _ | _
  · rw [tickUntil_of_not_held host now horizon hp hh, tickUntil_of_not_held host' now horizon hp hh]
    obtain ⟨hm, ha, hj⟩ := Same.applyRules (m := m.refreshed now) hp hq a hn hi now
    have hp' : ((m.refreshed now).applyRules host p now).1.program? = some p := by
      rw [applyRules_machine, program?_arrive]
      exact hp
    obtain ⟨hm', ha', hj'⟩ := Same.observe hp' hq ha hn
    dsimp only
    rw [hm, hm', hj, hj']
    exact ⟨rfl, rfl, ha', rfl⟩
  · rw [tickUntil_of_held host now horizon hp hh, tickUntil_of_held host' now horizon hp hh]
    exact ⟨rfl, rfl, a, rfl⟩

end Same

end Machine

end Dwell

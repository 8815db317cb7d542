import Dwell.Proofs.Machine.Dependence
import Dwell.Proofs.Registry

/-!
# The order of machines

A tick writes the state variable of its machine alone. It depends on no other enumeration, unless a
source that the rules read shows it. So machines with different state variables, none of which a
source shows to another machine, do not disturb one another (`Apart`): ticking them all in a row
does to each what ticking it alone does, and the wake time is the earliest of theirs
(`tickStations_alone`). In which order they are registered then shows in the order of what can be
observed on the way, but not in what is left (`tickAll_of_perm`).
-/

namespace Dwell

/-- The state variable of a station's machine, at the position of its host. -/
def Station.owned (s : Station) (k : Nat) : Set String :=
  {name | s.host = k ∧ s.machine.boundTo? = some name}

/-- No hook of the station's machine writes to the host. -/
def Station.IsQuiet (s : Station) : Prop :=
  ∀ p, s.machine.program? = some p → p.IsQuiet

/-- No source that the rules of the station's machine read depends on the enumerations with the
names given for its host. -/
def Station.Ignores (s : Station) (hosts : List Host) (names : Nat → Set String) : Prop :=
  ∀ host p, hosts[s.host]? = some host → s.machine.program? = some p →
    p.Ignores host (names s.host)

/-- At every position, the hosts agree on the enumerations with the names given for it. -/
structure AgreeAt (names : Nat → Set String) (hosts hosts' : List Host) : Prop where
  length : hosts'.length = hosts.length
  agree : ∀ (k : Nat) (host host' : Host), hosts[k]? = some host → hosts'[k]? = some host' →
    host.Agree (names k) host'

namespace AgreeAt

variable {names names' : Nat → Set String} {hosts hosts' hosts'' : List Host} {k : Nat}
  {host host' : Host}

theorem refl (names : Nat → Set String) (hosts : List Host) : AgreeAt names hosts hosts := by
  refine ⟨rfl, fun k host host' h h' => ?_⟩
  obtain rfl : host = host' := Option.some.inj (h.symm.trans h')
  exact .refl ..

theorem symm (a : AgreeAt names hosts hosts') : AgreeAt names hosts' hosts :=
  ⟨a.length.symm, fun k host host' h h' => (a.agree k host' host h' h).symm⟩

theorem mono (a : AgreeAt names hosts hosts') (hn : ∀ k, names' k ⊆ names k) :
    AgreeAt names' hosts hosts' :=
  ⟨a.length, fun k host host' h h' => (a.agree k host host' h h').mono (hn k)⟩

theorem exists_host (a : AgreeAt names hosts hosts') (h : hosts[k]? = some host) :
    ∃ host', hosts'[k]? = some host' ∧ host.Agree (names k) host' := by
  have hlt : k < hosts'.length := a.length ▸ (List.getElem?_eq_some_iff.1 h).1
  exact ⟨_, List.getElem?_eq_getElem hlt, a.agree k host _ h (List.getElem?_eq_getElem hlt)⟩

theorem eq_none (a : AgreeAt names hosts hosts') (h : hosts[k]? = none) : hosts'[k]? = none := by
  rw [List.getElem?_eq_none_iff] at h ⊢
  rwa [a.length]

theorem trans (a : AgreeAt names hosts hosts') (b : AgreeAt names hosts' hosts'') :
    AgreeAt names hosts hosts'' := by
  refine ⟨b.length.trans a.length, fun k host host'' h h'' => ?_⟩
  obtain ⟨host', h', ha⟩ := a.exists_host h
  exact ha.trans (b.agree k host' host'' h' h'')

theorem set (a : AgreeAt names hosts hosts') (b : host.Agree (names k) host') :
    AgreeAt names (hosts.set k host) (hosts'.set k host') := by
  refine ⟨by simpa using a.length, fun j h h' hh hh' => ?_⟩
  rw [List.getElem?_set] at hh hh'
  by_cases hk : k = j
  · subst hk
    simp only [if_true, a.length] at hh hh'
    split at hh
    · cases hh
      simp only [if_pos ‹_›, Option.some.injEq] at hh'
      exact hh' ▸ b
    · cases hh
  · rw [if_neg hk] at hh hh'
    exact a.agree j h h' hh hh'

end AgreeAt

theorem Station.Ignores.of_agreeAt {s : Station} {hosts hosts' : List Host}
    {names names' : Nat → Set String} (hi : s.Ignores hosts names)
    (a : AgreeAt names' hosts hosts') : s.Ignores hosts' names := by
  intro host' p hh' hp
  obtain ⟨host, hh, ha⟩ := a.symm.exists_host hh'
  exact (hi host p hh hp).of_fixed ha.symm.fixed

namespace Registry

variable {now : Instant} {hosts hosts' : List Host} {s : Station}

/-- What ticking the machine of one station answers, the hosts and the station that it leaves, and
what is observed of it. A station without a host answers that it need not be ticked. -/
def tickAlone (now : Instant) (hosts : List Host) (s : Station) :
    Instant × List Host × Station × List Sighting :=
  match hosts[s.host]? with
  | none => (.never, hosts, s, [])
  | some host =>
    let e := s.machine.tick host now
    (e.answer, hosts.set s.host e.host, { s with machine := e.machine },
      e.journal.map (⟨s.host, ·⟩))

section Alone

theorem tickStations_cons_eq (now : Instant) (hosts : List Host) (s : Station)
    (rest : List Station) :
    (tickStations now hosts (s :: rest)).1 = min (tickAlone now hosts s).1
        (tickStations now (tickAlone now hosts s).2.1 rest).1 ∧
      (tickStations now hosts (s :: rest)).2.1
        = (tickStations now (tickAlone now hosts s).2.1 rest).2.1 ∧
      (tickStations now hosts (s :: rest)).2.2.1 = (tickAlone now hosts s).2.2.1
        :: (tickStations now (tickAlone now hosts s).2.1 rest).2.2.1 ∧
      (tickStations now hosts (s :: rest)).2.2.2 = (tickAlone now hosts s).2.2.2
        ++ (tickStations now (tickAlone now hosts s).2.1 rest).2.2.2 := by
  rcases hs : hosts[s.host]? with _ | host
  · have he : tickAlone now hosts s = (.never, hosts, s, []) := by rw [tickAlone, hs]
    rw [tickStations_cons_of_none hs, he]
    exact ⟨(min_eq_right (Instant.le_never _)).symm, rfl, rfl, rfl⟩
  · rw [tickStations_cons hs, tickAlone, hs]
    exact ⟨rfl, rfl, rfl, rfl⟩

/-- What ticking one machine does depends on its state variable, and on what sources show it. -/
theorem tickAlone_of_agreeAt {names : Nat → Set String} (hq : s.IsQuiet)
    (hn : ∀ k, s.owned k ⊆ names k) (hi : s.Ignores hosts fun k => (names k)ᶜ)
    (a : AgreeAt names hosts hosts') (now : Instant) :
    (tickAlone now hosts' s).1 = (tickAlone now hosts s).1 ∧
      AgreeAt names (tickAlone now hosts s).2.1 (tickAlone now hosts' s).2.1 ∧
      (tickAlone now hosts' s).2.2 = (tickAlone now hosts s).2.2 := by
  rcases hs : hosts[s.host]? with _ | host
  · simp only [tickAlone, hs, a.eq_none hs]
    exact ⟨trivial, a, trivial⟩
  obtain ⟨host', hs', hh⟩ := a.exists_host hs
  simp only [tickAlone, hs, hs']
  rcases hp : s.machine.program? with _ | p
  · simp only [Machine.tick, Machine.tickUntil_of_unbound _ now _ hp]
    exact ⟨trivial, a.set hh, trivial⟩
  · have hv : p.variableName ∈ names s.host := by
      refine hn s.host ⟨rfl, ?_⟩
      rw [Machine.boundTo?, hp]
      rfl
    obtain ⟨hanswer, hmachine, hhost, hjournal⟩ :=
      Machine.Same.tickUntil hp (hq p hp) hh hv (hi host p hs hp) now .never
    simp only [Machine.tick, hanswer, hmachine, hjournal]
    exact ⟨trivial, a.set hhost, trivial⟩

/-- Ticking one machine leaves alone all but its state variable. -/
theorem agreeAt_tickAlone (hq : s.IsQuiet) (now : Instant) (hosts : List Host) :
    AgreeAt (fun k => (s.owned k)ᶜ) hosts (tickAlone now hosts s).2.1 := by
  rcases hs : hosts[s.host]? with _ | host
  · simp only [tickAlone, hs]
    exact .refl ..
  simp only [tickAlone, hs]
  refine ⟨by simp, fun k h h' hh hh' => ?_⟩
  rw [List.getElem?_set] at hh'
  by_cases hk : s.host = k
  · subst hk
    obtain rfl : host = h := Option.some.inj (hs.symm.trans hh)
    simp only [if_true, (List.getElem?_eq_some_iff.1 hs).1, Option.some.injEq] at hh'
    subst hh'
    rcases hp : s.machine.program? with _ | p
    · simp only [Machine.tick, Machine.tickUntil_of_unbound _ now _ hp]
      exact .refl ..
    · refine (Machine.agree_tickUntil (hq p hp) hp host now .never).mono fun name hname => ?_
      rintro rfl
      exact hname ⟨rfl, by rw [Machine.boundTo?, hp]; rfl⟩
  · rw [if_neg hk, hh] at hh'
    cases hh'
    exact .refl ..

end Alone

section Row

/-- The stations' machines have different state variables, and hooks that write nothing. No source
that the rules of one of them read depends on the state variable of another one. -/
structure Apart (hosts : List Host) (stations : List Station) : Prop where
  owned : stations.Pairwise fun s t => ∀ k, Disjoint (s.owned k) (t.owned k)
  quiet : ∀ s ∈ stations, s.IsQuiet
  ignores : stations.Pairwise fun s t => s.Ignores hosts t.owned ∧ t.Ignores hosts s.owned

namespace Apart

variable {stations stations' rest : List Station}

theorem perm (h : Apart hosts stations) (hp : stations'.Perm stations) : Apart hosts stations' where
  owned := (hp.pairwise_iff fun hd k => (hd k).symm).2 h.owned
  quiet s hs := h.quiet s (hp.mem_iff.1 hs)
  ignores := (hp.pairwise_iff fun hi => hi.symm).2 h.ignores

theorem tail {names : Nat → Set String} (h : Apart hosts (s :: rest))
    (a : AgreeAt names hosts hosts') : Apart hosts' rest where
  owned := (List.pairwise_cons.1 h.owned).2
  quiet t ht := h.quiet t (List.mem_cons_of_mem _ ht)
  ignores := (List.pairwise_cons.1 h.ignores).2.imp fun hi =>
    ⟨hi.1.of_agreeAt a, hi.2.of_agreeAt a⟩

end Apart

theorem agreeAt_tickStations (now : Instant) : ∀ (stations : List Station) (hosts : List Host),
    (∀ s ∈ stations, s.IsQuiet) →
    AgreeAt (fun k => {name | ∀ s ∈ stations, name ∉ s.owned k}) hosts
      (tickStations now hosts stations).2.1
  | [], hosts, _ => .refl ..
  | s :: rest, hosts, hq => by
    rw [List.forall_mem_cons] at hq
    rw [(tickStations_cons_eq now hosts s rest).2.1]
    refine ((agreeAt_tickAlone hq.1 now hosts).mono fun k name hname => ?_).trans
      ((agreeAt_tickStations now rest _ hq.2).mono fun k name hname t ht => ?_)
    · exact hname s (by simp)
    · exact hname t (by simp [ht])

/-- The earliest of wake times, which is never when there is none. -/
def earliest (wakes : List Instant) : Instant :=
  wakes.min?.getD .never

theorem earliest_cons (t : Instant) (wakes : List Instant) :
    earliest (t :: wakes) = min t (earliest wakes) := by
  rw [earliest, earliest, List.min?_cons]
  cases wakes.min? with
  | none => exact (min_eq_left (Instant.le_never t)).symm
  | some w => rfl

theorem le_earliest_iff {t : Instant} : ∀ {wakes : List Instant},
    t ≤ earliest wakes ↔ ∀ w ∈ wakes, t ≤ w
  | [] => by simpa [earliest] using t.le_never
  | w :: wakes => by rw [earliest_cons, le_min_iff, le_earliest_iff, List.forall_mem_cons]

theorem earliest_of_perm {wakes wakes' : List Instant} (h : wakes'.Perm wakes) :
    earliest wakes' = earliest wakes :=
  eq_of_forall_le_iff fun t => by simp only [le_earliest_iff, h.mem_iff]

/-- Machines that are apart do, ticked in a row, what each of them does alone. -/
theorem tickStations_alone (now : Instant) : ∀ (stations : List Station) (hosts : List Host),
    Apart hosts stations →
    (tickStations now hosts stations).1
        = earliest (stations.map fun s => (tickAlone now hosts s).1) ∧
      (∀ s ∈ stations, AgreeAt s.owned (tickAlone now hosts s).2.1
        (tickStations now hosts stations).2.1) ∧
      (tickStations now hosts stations).2.2.1
        = stations.map (fun s => (tickAlone now hosts s).2.2.1) ∧
      (tickStations now hosts stations).2.2.2
        = stations.flatMap fun s => (tickAlone now hosts s).2.2.2
  | [], hosts, _ => ⟨rfl, by simp, rfl, rfl⟩
  | s :: rest, hosts, h => by
    have hquiet := List.forall_mem_cons.1 h.quiet
    have hdisjoint := (List.pairwise_cons.1 h.owned).1
    have hignores := (List.pairwise_cons.1 h.ignores).1
    have hframe := agreeAt_tickAlone hquiet.1 now hosts
    obtain ⟨hwakes, hagree, hstations, hseen⟩ := tickStations_alone now rest _ (h.tail hframe)
    -- What the first machine writes makes no difference to the others.
    have hsame (t : Station) (ht : t ∈ rest) := tickAlone_of_agreeAt (hquiet.2 t ht)
      (fun k => (hdisjoint t ht k).symm.subset_compl_right)
      (by simpa only [compl_compl] using (hignores t ht).2) hframe now
    -- Nor do they write what the first machine does.
    have hleft : ∀ t ∈ s :: rest, AgreeAt t.owned (tickAlone now hosts t).2.1
        (tickStations now (tickAlone now hosts s).2.1 rest).2.1 := by
      refine List.forall_mem_cons.2 ⟨?_, fun t ht => ?_⟩
      · exact (agreeAt_tickStations now rest _ hquiet.2).mono fun k name hname t ht =>
          Set.disjoint_left.1 (hdisjoint t ht k) hname
      · exact ((hsame t ht).2.1.mono fun k => (hdisjoint t ht k).symm.subset_compl_right).trans
          (hagree t ht)
    obtain ⟨h₁, h₂, h₃, h₄⟩ := tickStations_cons_eq now hosts s rest
    rw [h₁, h₂, h₃, h₄, hwakes, hstations, hseen, List.map_cons, List.map_cons, List.flatMap_cons,
      earliest_cons]
    refine ⟨?_, hleft, ?_, ?_⟩
    · rw [List.map_congr_left fun t ht => (hsame t ht).1]
    · rw [List.map_congr_left fun t ht => congrArg Prod.fst (hsame t ht).2.2]
    · rw [List.flatMap_congr fun t ht => congrArg Prod.snd (hsame t ht).2.2]

end Row

section TickAll

variable {r r' : Registry}

/-- Where machines have different state variables, no hook writes, and no source shows a machine the
variable of another one, the order in which they are registered shows nowhere in what a tick leaves:
ticking them all does to each what ticking it alone does, the hosts are left with the same
properties and values, and the wake time is the earliest of the machines'. What is observed on the
way is the same for each machine, too, one machine after the other. -/
theorem tickAll_of_perm (ha : Apart r.hosts r.stations) (hhosts : r'.hosts = r.hosts)
    (hp : r'.stations.Perm r.stations) (now : Instant) :
    (r.tickAll now).1 = earliest (r.stations.map fun s => (tickAlone now r.hosts s).1) ∧
      (r'.tickAll now).1 = (r.tickAll now).1 ∧
      (r.tickAll now).2.1.stations = r.stations.map (fun s => (tickAlone now r.hosts s).2.2.1) ∧
      (r'.tickAll now).2.1.stations = r'.stations.map (fun s => (tickAlone now r.hosts s).2.2.1) ∧
      AgreeAt (fun _ => Set.univ) (r.tickAll now).2.1.hosts (r'.tickAll now).2.1.hosts ∧
      (r.tickAll now).2.2 = r.stations.flatMap (fun s => (tickAlone now r.hosts s).2.2.2) ∧
      (r'.tickAll now).2.2.Perm (r.tickAll now).2.2 := by
  have ha' := ha.perm hp
  obtain ⟨hwake, hagree, hstations, hseen⟩ := tickStations_alone now _ _ ha
  obtain ⟨hwake', hagree', hstations', hseen'⟩ := tickStations_alone now _ _ ha'
  have hframe := agreeAt_tickStations now r.stations r.hosts ha.quiet
  have hframe' := agreeAt_tickStations now r'.stations r.hosts ha'.quiet
  simp only [tickAll, hhosts]
  have hwakes : (tickStations now r.hosts r'.stations).1
      = (tickStations now r.hosts r.stations).1 := by
    rw [hwake, hwake', earliest_of_perm (hp.map _)]
  have hsightings : (tickStations now r.hosts r'.stations).2.2.2.Perm
      (tickStations now r.hosts r.stations).2.2.2 := by
    rw [hseen, hseen']
    exact hp.flatMap_right _
  refine ⟨hwake, hwakes, hstations, hstations', ?_, hseen, hsightings⟩
  have hothers := hframe.symm.trans
    (hframe'.mono fun k name hname s hs => hname s (hp.mem_iff.1 hs))
  refine ⟨hothers.length, fun k host host' h h' => ?_⟩
  obtain ⟨hfixed, hnumbers, hlevel⟩ := hothers.agree k host host' h h'
  refine ⟨hfixed, hnumbers, fun name _ => ?_⟩
  -- An enumeration is the state variable of a machine, or no machine writes it.
  by_cases hn : ∃ s ∈ r.stations, name ∈ s.owned k
  · obtain ⟨s, hs, hn⟩ := hn
    have howned := (hagree s hs).symm.trans (hagree' s (hp.mem_iff.2 hs))
    exact (howned.agree k host host' h h').level name hn
  · push Not at hn
    exact hlevel name hn

/-- A room with a lamp, a fan and a window, and a source that shows the value of one of them. -/
def sharedRoom (shown : String) : Host :=
  let switchable (h : Host) (name : String) : Host :=
    h.withEnumeration name ⟨[⟨"OFF", 0⟩, ⟨"ON", 1⟩], []⟩ 0
  (["lamp", "fan", "window"].foldl switchable { name := "room" }).showing "shown" shown

/-- Turns a property on when a test is true, and keeps it on for some seconds. -/
def turningOn (name : String) (test : Comparison) (seconds : Float) : Station where
  host := 0
  machine := {
    holdUntil := .never
    program? := some {
      variableName := name
      keywords := [⟨"OFF", 0⟩, ⟨"ON", 1⟩]
      rules := ⟨[[⟨1, [test]⟩], []]⟩
      holds := [0.0, seconds]
      hooks := [some { label := some "off" }, some { label := some "on" }] } }

theorem ignores_turningOn_sharedRoom {shown : String} {names : Nat → Set String}
    (hn : shown ∉ names 0) (name : String) (test : Comparison) (seconds : Float) :
    (turningOn name test seconds).Ignores [sharedRoom shown] names := by
  rintro _ p ⟨⟩ - s c _ t _ side property index _
  exact Host.ignores_showing rfl hn "shown" property

/-- The lamp goes on after a second, and the fan while the source shows nothing. -/
def sharedRoomStations (lampSeconds fanSeconds : Float) : List Station :=
  [turningOn "lamp" ⟨.timer, .ge, .literal 1.0⟩ lampSeconds,
    turningOn "fan" ⟨.element "shown" 0, .lt, .literal 1.0⟩ fanSeconds]

section SharedRoom

variable (lampSeconds fanSeconds : Float)

theorem owned_sharedRoomStations : (sharedRoomStations lampSeconds fanSeconds).Pairwise
    fun s t => ∀ k, Disjoint (s.owned k) (t.owned k) := by
  simp [sharedRoomStations, turningOn, Station.owned, Machine.boundTo?, Set.disjoint_left]

theorem quiet_sharedRoomStations : ∀ s ∈ sharedRoomStations lampSeconds fanSeconds, s.IsQuiet := by
  simp [sharedRoomStations, turningOn, Station.IsQuiet, Program.IsQuiet, Hook.isQuiet]

theorem apart_sharedRoom :
    Apart [sharedRoom "window"] (sharedRoomStations lampSeconds fanSeconds) where
  owned := owned_sharedRoomStations _ _
  quiet := quiet_sharedRoomStations _ _
  ignores := by
    have howned (name : String) (test : Comparison) (seconds : Float) (hn : "window" ≠ name) :
        "window" ∉ (turningOn name test seconds).owned 0 := by
      simp [turningOn, Station.owned, Machine.boundTo?, hn]
    exact List.pairwise_pair.2
      ⟨ignores_turningOn_sharedRoom (howned _ _ _ (by decide)) _ _ _,
        ignores_turningOn_sharedRoom (howned _ _ _ (by decide)) _ _ _⟩

end SharedRoom

theorem tickAll_of_perm_sharedRoom :
    let r : Registry := ⟨[sharedRoom "window"], sharedRoomStations 5.0 3.0⟩
    let turned : Registry := { r with stations := r.stations.reverse }
    Apart r.hosts r.stations ∧
      (r.tickAll (.clamp 2)).1 = .clamp 5 ∧ (turned.tickAll (.clamp 2)).1 = .clamp 5 ∧
      AgreeAt (fun _ => Set.univ) (r.tickAll (.clamp 2)).2.1.hosts
        (turned.tickAll (.clamp 2)).2.1.hosts := by
  intro r turned
  have ha : Apart r.hosts r.stations := apart_sharedRoom 5.0 3.0
  have hwake : (r.tickAll (.clamp 2)).1 = .clamp 5 := by decide +kernel
  obtain ⟨-, hsame, -, -, hagree, -⟩ :=
    tickAll_of_perm ha (show turned.hosts = _ from rfl) (List.reverse_perm _) (.clamp 2)
  exact ⟨ha, hwake, hsame.trans hwake, hagree⟩

/-- Where the source shows the lamp to the fan, the fan goes on only if it is ticked before the
lamp. And where no machine is shown what another one writes, the hooks are still called in the order
of the machines. -/
theorem order_shows_sharedRoom :
    let lampFirst (shown : String) : Registry := ⟨[sharedRoom shown], sharedRoomStations 0.0 0.0⟩
    let fanFirst (shown : String) : Registry :=
      ⟨[sharedRoom shown], (sharedRoomStations 0.0 0.0).reverse⟩
    let fans (r : Registry) := (r.tickAll (.clamp 2)).2.1.hosts.map (·.level "fan")
    let callers (r : Registry) :=
      (Journal.calls ((r.tickAll (.clamp 2)).2.2.map (·.entry))).map (·.view.boundTo?)
    (∀ shown, ∀ s ∈ sharedRoomStations 0.0 0.0, s.machine.Reachable (sharedRoom shown)) ∧
      ((sharedRoomStations 0.0 0.0).Pairwise fun s t => ∀ k, Disjoint (s.owned k) (t.owned k)) ∧
      (∀ s ∈ sharedRoomStations 0.0 0.0, s.IsQuiet) ∧
      fans (lampFirst "lamp") = [0] ∧ fans (fanFirst "lamp") = [1] ∧
      callers (lampFirst "window") = [some "lamp", some "lamp", some "fan", some "fan"] ∧
      callers (fanFirst "window") = [some "fan", some "fan", some "lamp", some "lamp"] := by
  intro lampFirst fanFirst fans callers
  refine ⟨fun shown => ?_, owned_sharedRoomStations _ _, quiet_sharedRoomStations _ _,
    by decide +kernel, by decide +kernel, by decide +kernel, by decide +kernel⟩
  let operations (name rule : String) : List Operation := [.bind name, .addRule rule,
    .setHook "OFF" { label := some "off" }, .setHook "ON" { label := some "on" }, .init (.clamp 0)]
  exact List.forall_mem_cons.2
    ⟨⟨{}, sharedRoom shown, operations "lamp" "OFF->ON=$timer>=1", rfl⟩,
      List.forall_mem_singleton.2
        ⟨{}, sharedRoom shown, operations "fan" "OFF->ON=shown<1", rfl⟩⟩

end TickAll

end Registry

end Dwell

import Dwell.Host.Basic
import Mathlib.Data.Set.Insert

/-!
# What writes leave alone

A write changes one of a host's values, or it is refused; what properties the host has stays
(`fixed_write?`). So whether a write is taken does not depend on the values (`write?_isSome`), and
a machine that writes its state variable leaves every other enumeration as it was
(`level_command_of_ne`).

Hosts that differ in some enumerations alone agree on the others (`Agree`). What is read of a
numeric property is then the same, if it is an array, or a source whose answers do not depend on
those in which the hosts differ (`Agree.read?`).
-/

namespace Dwell.Host

variable (h : Host) (name other : String) (index : Nat) (value : Float) (level : Int)

/-- The host without its present values. -/
def fixed : Host :=
  { h with readings := {} }

theorem fixed_command : (h.command name level).fixed = h.fixed := by
  unfold command
  split
  · split <;> rfl
  · rfl

theorem command_cases :
    h.command name level = h ∨ h.command name level = h.setLevel name level := by
  unfold command
  split
  · split
    · exact .inl rfl
    · exact .inr rfl
  · exact .inr rfl

theorem property?_fixed : h.fixed.property? name = h.property? name := rfl

theorem enumerations_fixed : h.fixed.enumerations = h.enumerations := rfl

variable {h name other index value level}

theorem property?_of_fixed {h' : Host} (hf : h'.fixed = h.fixed) :
    h'.property? name = h.property? name := by
  rw [← property?_fixed, hf, property?_fixed]

theorem property?_eq_enumeration {e : Enumeration}
    (hp : h.property? name = some (.enumeration e)) : h.enumerations.lookup name = some e := by
  unfold property? at hp
  split at hp
  · rename_i e' he
    rw [he]
    simpa using hp
  · split at hp
    · cases hp
    · split at hp
      · cases hp
      · simp at hp

theorem property?_eq_array {length : Nat} (hp : h.property? name = some (.array length)) :
    h.arrays.lookup name = some length := by
  unfold property? at hp
  split at hp
  · cases hp
  split at hp
  · rename_i hlength
    rw [hlength]
    simpa using hp
  · split at hp
    · cases hp
    · simp at hp

theorem property?_eq_source {s : Source} (hp : h.property? name = some (.source s)) :
    h.sources.lookup name = some s := by
  unfold property? at hp
  split at hp
  · cases hp
  split at hp
  · cases hp
  split at hp
  · rename_i s' hs
    rw [hs]
    simpa using hp
  · simp at hp

theorem property?_ne_source (hs : h.sources = []) (s : Source) :
    h.property? name ≠ some (.source s) := by
  intro hp
  simpa [hs] using property?_eq_source hp

theorem fixed_write? {h' : Host} (hw : h.write? name index value = some h') :
    h'.fixed = h.fixed := by
  unfold write? setLevel? setNumber? at hw
  split at hw <;> obtain ⟨_, -, rfl⟩ := Option.map_eq_some_iff.1 hw <;> rfl

theorem fixed_fill (name : String) : ∀ (values : List (Float × Nat)) (h : Host),
    (values.foldl (fun h v => h.setNumber name v.2 v.1) h).fixed = h.fixed
  | [], _ => rfl
  | v :: values, h => fixed_fill name values (h.setNumber name v.2 v.1)

theorem element?_isSome :
    (h.element? name index).isSome = (h.fixed.element? name index).isSome := by
  have ha : h.fixed.arrays = h.arrays := rfl
  unfold element?
  rw [ha]
  rcases h.arrays.lookup name with _ | n
  · rfl
  · by_cases hlt : index < n
    · simp [hlt]
    · simp [hlt]

theorem write?_isSome :
    (h.write? name index value).isSome = (h.fixed.write? name index value).isSome := by
  unfold write? setLevel? setNumber?
  rw [property?_fixed]
  split
  · rw [Option.isSome_map, Option.isSome_map, enumerations_fixed]
  · rw [Option.isSome_map, Option.isSome_map, element?_isSome]

theorem level_command_of_ne (hne : other ≠ name) : (h.command name level).level other
    = h.level other := by
  unfold command
  split
  · split
    · rfl
    · rw [level_setLevel, if_neg hne]
  · rw [level_setLevel, if_neg hne]

theorem level_command {e : Enumeration} (he : h.enumerations.lookup name = some e)
    (hr : e.refused = []) : (h.command name level).level name = level := by
  simp only [command, he, hr, List.not_mem_nil, if_false, level_setLevel, if_true]

theorem level_command_of_free (hfree : ∀ e, h.enumerations.lookup name = some e → e.refused = []) :
    (h.command name level).level name = level := by
  rcases he : h.enumerations.lookup name with _ | e
  · simp only [command, he, level_setLevel, if_true]
  · exact level_command he (hfree e he)

theorem level_write?_of_ne {h' : Host} (hw : h.write? name index value = some h')
    (hne : other ≠ name) : h'.level other = h.level other := by
  unfold write? setLevel? setNumber? at hw
  split at hw <;> obtain ⟨_, -, rfl⟩ := Option.map_eq_some_iff.1 hw
  · rw [level_setLevel, if_neg hne]
  · rfl

theorem level_write? {h' : Host} {e : Enumeration} (he : h.enumerations.lookup name = some e)
    (hw : h.write? name index value = some h') : h'.level name = Double.truncate value := by
  have hp : h.property? name = some (.enumeration e) := by rw [property?, he]
  simp only [write?, hp, setLevel?, he, Option.map_some, Option.some.injEq] at hw
  rw [← hw, level_setLevel, if_pos rfl]

end Dwell.Host

namespace Dwell

/-- What the source answers does not depend on the enumerations with the given names. -/
def Source.Ignores (s : Source) (names : Set String) : Prop :=
  ∀ (index : Nat) (r r' : Readings), r'.numbers = r.numbers →
    (∀ name ∉ names, r'.levels.get name 0 = r.levels.get name 0) →
    (s.read index).of r' = (s.read index).of r

namespace Host

/-- If the property is a source, its answers do not depend on the enumerations with the given
names. -/
def Ignores (h : Host) (property : String) (names : Set String) : Prop :=
  ∀ s, h.property? property = some (.source s) → s.Ignores names

namespace Ignores

variable {h h' : Host} {property : String} {names : Set String}

theorem of_fixed (hf : h'.fixed = h.fixed) (hi : h.Ignores property names) :
    h'.Ignores property names :=
  fun s hs => hi s ((property?_of_fixed hf).symm.trans hs)

theorem of_isSource_eq_false (hs : h.isSource property = false) : h.Ignores property names := by
  intro s hp
  simp [isSource, hp] at hs

end Ignores

/-- A host with a source that shows the value of an enumeration. -/
def showing (h : Host) (source name : String) : Host :=
  h.withSource source ⟨some 1, fun _ => ⟨fun r => some (Double.ofInt (r.levels.get name 0))⟩⟩

theorem ignores_showing {h : Host} (hs : h.sources = []) {name : String} {names : Set String}
    (hn : name ∉ names) (source property : String) :
    (h.showing source name).Ignores property names := by
  intro s hp index r r' _ hlevels
  have hlookup := property?_eq_source hp
  simp only [showing, withSource, hs, List.lookup_cons, List.lookup_nil] at hlookup
  split at hlookup
  · cases hlookup
    simp only [hlevels name hn]
  · cases hlookup

/-- Hosts with the same properties and the same numbers, on which the enumerations with the given
names have the same values. -/
structure Agree (names : Set String) (h h' : Host) : Prop where
  fixed : h'.fixed = h.fixed
  numbers : h'.readings.numbers = h.readings.numbers
  level : ∀ name ∈ names, h'.level name = h.level name

namespace Agree

variable {names names' : Set String} {h h' h'' : Host}

theorem refl (names : Set String) (h : Host) : h.Agree names h :=
  ⟨rfl, rfl, fun _ _ => rfl⟩

theorem symm (a : h.Agree names h') : h'.Agree names h :=
  ⟨a.fixed.symm, a.numbers.symm, fun s hs => (a.level s hs).symm⟩

theorem trans (a : h.Agree names h') (b : h'.Agree names h'') : h.Agree names h'' :=
  ⟨b.fixed.trans a.fixed, b.numbers.trans a.numbers,
    fun s hs => (b.level s hs).trans (a.level s hs)⟩

theorem mono (a : h.Agree names h') (hn : names' ⊆ names) : h.Agree names' h' :=
  ⟨a.fixed, a.numbers, fun s hs => a.level s (hn hs)⟩

theorem name (a : h.Agree names h') : h'.name = h.name :=
  congrArg (·.name) a.fixed

theorem property? (a : h.Agree names h') (s : String) : h'.property? s = h.property? s :=
  property?_of_fixed a.fixed

theorem element? (a : h.Agree names h') (s : String) (i : Nat) :
    h'.element? s i = h.element? s i := by
  have ha : h'.arrays = h.arrays := congrArg (·.arrays) a.fixed
  simp only [Host.element?, ha, a.numbers]

theorem read? (a : h.Agree names h') {s : String} (hi : h.Ignores s namesᶜ) (i : Nat) :
    h'.read? s i = h.read? s i := by
  simp only [Host.read?, a.property?, a.element?]
  rcases hp : h.property? s with _ | _ | _ | source | _
  case some.source =>
    exact hi source hp i h.readings h'.readings a.numbers fun name hn =>
      a.level name (not_not.1 hn)
  all_goals rfl

theorem isSource (a : h.Agree names h') (s : String) : h'.isSource s = h.isSource s := by
  simp only [Host.isSource, a.property?]

/-- Both hosts take what a machine writes, or both refuse it. -/
theorem command (a : h.Agree names h') (name : String) (level : Int) :
    (h.command name level).Agree names (h'.command name level) := by
  have he : h'.enumerations = h.enumerations := congrArg (·.enumerations) a.fixed
  have hset : (h.setLevel name level).Agree names (h'.setLevel name level) := by
    refine ⟨a.fixed, a.numbers, fun s hs => ?_⟩
    rw [level_setLevel, level_setLevel, a.level s hs]
  unfold Host.command
  rw [he]
  split
  · split
    · exact a
    · exact hset
  · exact hset

end Agree

/-- A machine that writes its state variable leaves all else as it was. -/
theorem agree_command (h : Host) (name : String) (level : Int) :
    h.Agree {name}ᶜ (h.command name level) := by
  refine ⟨h.fixed_command name level, ?_, fun s hs => level_command_of_ne hs⟩
  rcases h.command_cases name level with he | he <;> rw [he]
  rfl

end Host

end Dwell

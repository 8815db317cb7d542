import Dwell.Proofs.Registry.Order
import Dwell.Proofs.Simulation.Failing
import Dwell.Proofs.Simulation.Following

/-!
# The cells that events write

An event writes a cell, which is an enumeration or one element of an array. Hosts are declared with
a value for each of their cells (`Host.IsFilled.declare`), so a write replaces a value where it
stands. Then writes to different cells commute (`Registry.applyEvent_comm`), and events leave the
same registry in every order in which those of each cell come as before
(`Registry.applyEvents_of_cells`).
-/

namespace Dwell

/-- Lists that have the same elements of each kind have the same elements. -/
theorem mem_iff_of_filter {α κ : Type} [DecidableEq κ] {kind : α → κ} {as bs : List α}
    (h : ∀ k, bs.filter (kind · = k) = as.filter (kind · = k)) (a : α) : a ∈ bs ↔ a ∈ as := by
  have ha := congrArg (a ∈ ·) (h (kind a))
  simpa only [List.mem_filter, decide_true, and_true, eq_iff_iff] using ha

namespace Values

variable {κ α : Type}

/-- The keys that have an entry. -/
def keys (vs : Values κ α) : List κ :=
  vs.map (·.1)

variable [BEq κ] [LawfulBEq κ] {j k : κ}

theorem mem_keys_set {v : α} : ∀ {vs : Values κ α}, j ∈ (set k v vs).keys ↔ j = k ∨ j ∈ vs.keys
  | [] => by simp [set, keys]
  | (i, w) :: vs => by
    by_cases h : k = i
    · subst h
      simp [set, keys]
    · have ih : j ∈ keys (set k v vs) ↔ j = k ∨ j ∈ keys vs := mem_keys_set
      simp only [keys] at ih ⊢
      simp only [set, beq_eq_false_iff_ne.2 h, Bool.false_eq_true, if_false, List.map_cons,
        List.mem_cons, ih]
      exact or_left_comm

/-- Values of different keys can be set in any order, if one of them stands there already. -/
theorem set_comm (hne : j ≠ k) (v w : α) : ∀ {vs : Values κ α}, j ∈ vs.keys →
    set j v (set k w vs) = set k w (set j v vs)
  | [], hj => by simp [keys] at hj
  | (i, u) :: vs, hj => by
    by_cases hji : j = i
    · subst hji
      simp [set, hne.symm]
    by_cases hki : k = i
    · subst hki
      simp [set, hne]
    · have hj : j ∈ keys vs := by simpa [keys, hji] using hj
      simp [set, hji, hki, set_comm hne v w hj]

end Values

/-- The element that a write at an index is to. An enumeration has none, and is written whatever the
index. -/
def Property.elementAt? (index : Nat) : Option Property → Option Nat
  | some (.enumeration _) => none
  | _ => some index

namespace Host

variable {h h' h'' : Host} {name other : String} {index index' : Nat} {value value' : Float}

/-- The host has a value for each cell of its own. -/
structure IsFilled (h : Host) : Prop where
  levels : ∀ name e, h.enumerations.lookup name = some e → name ∈ h.readings.levels.keys
  numbers : ∀ name n, h.arrays.lookup name = some n →
    ∀ i < n, (name, i) ∈ h.readings.numbers.keys

namespace IsFilled

theorem setLevel (hf : h.IsFilled) (name : String) (level : Int) :
    (h.setLevel name level).IsFilled :=
  ⟨fun other e he => Values.mem_keys_set.2 (.inr (hf.levels other e he)), hf.numbers⟩

theorem setNumber (hf : h.IsFilled) (name : String) (index : Nat) (value : Float) :
    (h.setNumber name index value).IsFilled :=
  ⟨hf.levels, fun other n hn i hi => Values.mem_keys_set.2 (.inr (hf.numbers other n hn i hi))⟩

theorem command (hf : h.IsFilled) (name : String) (level : Int) :
    (h.command name level).IsFilled := by
  rcases h.command_cases name level with he | he <;> rw [he]
  · exact hf
  · exact hf.setLevel name level

theorem write? (hf : h.IsFilled) (hw : h.write? name index value = some h') : h'.IsFilled := by
  unfold Host.write? setLevel? setNumber? at hw
  split at hw <;> obtain ⟨_, -, rfl⟩ := Option.map_eq_some_iff.1 hw
  · exact hf.setLevel ..
  · exact hf.setNumber ..

theorem withEnumeration (hf : h.IsFilled) (name : String) (e : Enumeration) (level : Int) :
    (h.withEnumeration name e level).IsFilled := by
  refine ⟨fun other e' he => Values.mem_keys_set.2 ?_, hf.numbers⟩
  rw [Host.withEnumeration, List.lookup_cons] at he
  split at he
  · exact .inl (by simpa using ‹(other == name) = true›)
  · exact .inr (hf.levels other e' he)

theorem fill (name : String) : ∀ (values : List (Float × Nat)) {h : Host}, h.IsFilled →
    (values.foldl (fun h v => h.setNumber name v.2 v.1) h).IsFilled
  | [], _, hf => hf
  | v :: values, _, hf => fill name values (hf.setNumber name v.2 v.1)

theorem withArray (hf : h.IsFilled) (name : String) (values : List Float) :
    (h.withArray name values).IsFilled := by
  have hkeys : ∀ (vs : List (Float × Nat)) (h : Host) (k : String × Nat),
      k ∈ h.readings.numbers.keys ∨ (∃ v ∈ vs, k = (name, v.2)) →
      k ∈ (vs.foldl (fun h v => h.setNumber name v.2 v.1) h).readings.numbers.keys := by
    intro vs
    induction vs with
    | nil => simp
    | cons v vs ih =>
      intro h k hk
      refine ih _ k ?_
      rw [List.exists_mem_cons_iff, ← or_assoc, or_comm (a := k ∈ _)] at hk
      exact hk.imp_left Values.mem_keys_set.2
  have harrays : (values.zipIdx.foldl (fun h v => h.setNumber name v.2 v.1) h).arrays = h.arrays :=
    congrArg (·.arrays) (fixed_fill name values.zipIdx h)
  have hfill := IsFilled.fill name values.zipIdx hf
  refine ⟨hfill.levels, fun other n hn i hi => ?_⟩
  rw [Host.withArray, List.lookup_cons] at hn
  split at hn
  · obtain rfl : other = name := by simpa using ‹(other == name) = true›
    cases hn
    exact hkeys _ h _ (.inr ⟨(values[i], i), by simp [List.mem_zipIdx_iff_getElem?, hi], rfl⟩)
  · exact hfill.numbers other n (harrays.symm ▸ hn) i hi

theorem declare (hf : h.IsFilled) (name : String) (d : Declaration) :
    (h.declare name d).IsFilled := by
  cases d with
  | enumeration keywords level => exact hf.withEnumeration name ⟨keywords, []⟩ level
  | number value => exact hf.withArray name [value]
  | numbers values => exact hf.withArray name values
  | text value => exact ⟨hf.levels, hf.numbers⟩

end IsFilled

theorem write?_eq_some_iff : h.write? name index value = some h' ↔
    (∃ e, h.property? name = some (.enumeration e) ∧
      h.setLevel name (Double.truncate value) = h') ∨
    ∃ n, h.property? name = some (.array n) ∧ index < n ∧ h.setNumber name index value = h' := by
  unfold write? property? setLevel? setNumber? element?
  rcases h.enumerations.lookup name with _ | e
  · rcases h.arrays.lookup name with _ | n
    · rcases h.sources.lookup name <;> simp
    · simp
  · simp

theorem write?_comm (hf : h.IsFilled)
    (hne : (name, Property.elementAt? index (h.property? name))
      ≠ (other, Property.elementAt? index' (h.property? other)))
    (hw : h.write? name index value = some h') (hw' : h.write? other index' value' = some h'') :
    ∃ both, h'.write? other index' value' = some both ∧
      h''.write? name index value = some both := by
  rcases write?_eq_some_iff.1 hw with ⟨e, hp, rfl⟩ | ⟨n, hp, hn, rfl⟩
  · rcases write?_eq_some_iff.1 hw' with ⟨e', hp', rfl⟩ | ⟨n', hp', hn', rfl⟩
    · have hnames : name ≠ other := by simpa [hp, hp', Property.elementAt?] using hne
      have hkey := hf.levels name e (property?_eq_enumeration hp)
      refine ⟨_, write?_eq_some_iff.2 (.inl ⟨e', hp', rfl⟩),
        write?_eq_some_iff.2 (.inl ⟨e, hp, ?_⟩)⟩
      simp only [setLevel, Values.set_comm hnames _ _ hkey]
    · exact ⟨_, write?_eq_some_iff.2 (.inr ⟨n', hp', hn', rfl⟩),
        write?_eq_some_iff.2 (.inl ⟨e, hp, rfl⟩)⟩
  · rcases write?_eq_some_iff.1 hw' with ⟨e', hp', rfl⟩ | ⟨n', hp', hn', rfl⟩
    · exact ⟨_, write?_eq_some_iff.2 (.inl ⟨e', hp', rfl⟩),
        write?_eq_some_iff.2 (.inr ⟨n, hp, hn, rfl⟩)⟩
    · have hkeys : (name, index) ≠ (other, index') := by
        simpa [hp, hp', Property.elementAt?] using hne
      have hkey := hf.numbers name n (property?_eq_array hp) index hn
      refine ⟨_, write?_eq_some_iff.2 (.inr ⟨n', hp', hn', rfl⟩),
        write?_eq_some_iff.2 (.inr ⟨n, hp, hn, ?_⟩)⟩
      simp only [setNumber, Values.set_comm hkeys _ _ hkey]

end Host

namespace Registry

variable {r r' r₁ r₂ : Registry} {e e' : Event} {es es' : List Event}

/-- The cell that an event writes: the object, the property and, unless that is an enumeration, the
element. -/
def cell (r : Registry) (e : Event) : String × String × Option Nat :=
  (e.host, e.property,
    Property.elementAt? e.index ((r.host? e.host).bind (·.property? e.property)))

/-- The registry has a value for each cell of its hosts, and no hook that writes to them. -/
structure IsStocked (r : Registry) : Prop where
  filled : ∀ host ∈ r.hosts, host.IsFilled
  quiet : ∀ s ∈ r.stations, s.IsQuiet

section Events

theorem cell_fixed (r : Registry) : r.fixed.cell = r.cell := by
  funext e
  unfold cell
  rw [host?_fixed, Option.bind_map]
  rfl

theorem cell_of_fixed (hf : r'.fixed = r.fixed) : r'.cell = r.cell :=
  eq_of_fixed (fun r => r.cell_fixed) hf

theorem host?_of_hostAt? {name : String} {k : Nat} (h : r.hostAt? name = some k) :
    r.host? name = r.hosts[k]? := by
  obtain ⟨hlt, hname, hfirst⟩ := List.findIdx?_eq_some_iff_getElem.1 h
  rw [List.getElem?_eq_getElem hlt, host?, List.find?_eq_some_iff_getElem]
  exact ⟨hname, k, hlt, rfl, fun j hj => by simpa using hfirst j hj⟩

theorem cell_of_hostAt? {k : Nat} {host : Host} (hk : r.hostAt? e.host = some k)
    (hhost : r.hosts[k]? = some host) : r.cell e
      = (e.host, e.property, Property.elementAt? e.index (host.property? e.property)) := by
  rw [cell, host?_of_hostAt? hk, hhost, Option.bind_some]

theorem applyEvent_of_write? {k : Nat} {host host' : Host} (hk : r.hostAt? e.host = some k)
    (hhost : r.hosts[k]? = some host) (hw : host.write? e.property e.index e.value = some host') :
    r.applyEvent e = .ok { r with hosts := r.hosts.set k host' } := by
  simp [applyEvent, hk, hhost, hw]

theorem IsStocked.applyEvent (hr : r.IsStocked) (h : r.applyEvent e = .ok r') :
    r'.IsStocked := by
  obtain ⟨k, host, host', -, hhost, hw, rfl⟩ := applyEvent_cases h
  refine ⟨fun other hother => ?_, hr.quiet⟩
  rcases List.mem_or_eq_of_mem_set hother with hother | rfl
  · exact hr.filled other hother
  · exact (hr.filled host (List.mem_of_getElem? hhost)).write? hw

/-- Events that write different cells can be applied in any order. -/
theorem applyEvent_comm (hr : r.IsStocked) (hne : r.cell e ≠ r.cell e')
    (h₁ : r.applyEvent e = .ok r₁) (h₂ : r.applyEvent e' = .ok r₂) :
    ∃ both, r₁.applyEvent e' = .ok both ∧ r₂.applyEvent e = .ok both := by
  have hat₁ := hostAt?_of_fixed (fixed_applyEvent h₁) e'.host
  have hat₂ := hostAt?_of_fixed (fixed_applyEvent h₂) e.host
  obtain ⟨k, host, host₁, hk, hhost, hw, rfl⟩ := applyEvent_cases h₁
  obtain ⟨k', host', host₂, hk', hhost', hw', rfl⟩ := applyEvent_cases h₂
  obtain ⟨hlt, -⟩ := List.getElem?_eq_some_iff.1 hhost
  obtain ⟨hlt', -⟩ := List.getElem?_eq_some_iff.1 hhost'
  rw [hk'] at hat₁
  rw [hk] at hat₂
  by_cases heq : k = k'
  · subst heq
    obtain rfl : host = host' := Option.some.inj (hhost.symm.trans hhost')
    have hname : e.host = e'.host := (hostName_of_hostAt? hk).symm.trans (hostName_of_hostAt? hk')
    rw [cell_of_hostAt? hk hhost, cell_of_hostAt? hk' hhost', hname] at hne
    obtain ⟨both, hboth, hboth'⟩ := Host.write?_comm (hr.filled host (List.mem_of_getElem? hhost))
      (fun heq => hne (congrArg _ heq)) hw hw'
    refine ⟨_, applyEvent_of_write? hat₁ (by simp [hlt]) hboth, ?_⟩
    rw [applyEvent_of_write? hat₂ (by simp [hlt]) hboth']
    simp
  · refine ⟨_, applyEvent_of_write? hat₁ (by simp [heq, hhost']) hw', ?_⟩
    rw [applyEvent_of_write? hat₂ (by simp [Ne.symm heq, hhost]) hw]
    simp only [List.set_comm _ _ heq]

theorem applyEvents_cons (h : r.applyEvent e = .ok r') :
    (r.applyEvents (e :: es)).1 = (r'.applyEvents es).1 := by
  simp only [applyEvents, h]

/-- An event can be applied before others that write other cells. -/
theorem applyEvents_append_cons : ∀ {es : List Event} {r : Registry}, r.IsStocked →
    r.Accepts e → (∀ a ∈ es, r.Accepts a ∧ r.cell a ≠ r.cell e) →
    (r.applyEvents (es ++ e :: es')).1 = (r.applyEvents (e :: (es ++ es'))).1
  | [], _, _, _, _ => rfl
  | a :: es, r, hr, he, hes => by
    obtain ⟨⟨⟨r₁, h₁⟩, hne⟩, hes⟩ := List.forall_mem_cons.1 hes
    obtain ⟨r₂, h₂⟩ := id he
    obtain ⟨both, hboth, hboth'⟩ := applyEvent_comm hr hne h₁ h₂
    have hf := fixed_applyEvent h₁
    have ih := applyEvents_append_cons (hr.applyEvent h₁) ⟨both, hboth⟩ fun b (hb : b ∈ es) => by
      rw [accepts_of_fixed hf, cell_of_fixed hf]
      exact hes b hb
    rw [List.cons_append, applyEvents_cons h₁, ih, applyEvents_cons hboth, applyEvents_cons h₂,
      List.cons_append, applyEvents_cons hboth']

/-- The registry that events leave depends on the order of those of each cell alone. -/
theorem applyEvents_of_cells : ∀ {es es' : List Event} {r : Registry}, r.IsStocked →
    (∀ e ∈ es', r.Accepts e) →
    (∀ c, es'.filter (r.cell · = c) = es.filter (r.cell · = c)) →
    (r.applyEvents es').1 = (r.applyEvents es).1
  | [], es', r, _, _, hcells => by
    have hnone : es' = [] := List.eq_nil_iff_forall_not_mem.2 fun e he => by
      simpa using (mem_iff_of_filter hcells e).1 he
    rw [hnone]
  | e :: es, es', r, hr, haccept, hcells => by
    have hfirst := hcells (r.cell e)
    rw [List.filter_cons_of_pos (by simp)] at hfirst
    obtain ⟨before, after, rfl, hbefore, -, hafter⟩ := List.filter_eq_cons_iff.1 hfirst
    have he : r.Accepts e := haccept e (by simp)
    obtain ⟨r', h⟩ := id he
    have hf := fixed_applyEvent h
    rw [applyEvents_append_cons hr he fun a ha =>
      ⟨haccept a (by simp [ha]), by simpa using hbefore a ha⟩, applyEvents_cons h,
      applyEvents_cons h]
    refine applyEvents_of_cells (hr.applyEvent h) (fun a ha => ?_) fun c => ?_
    · rw [accepts_of_fixed hf]
      exact haccept a (by rcases List.mem_append.1 ha with ha | ha <;> simp [ha])
    · rw [cell_of_fixed hf]
      have hc := hcells c
      rw [List.filter_append, List.filter_cons, List.filter_cons] at hc
      rw [List.filter_append]
      by_cases hec : r.cell e = c
      · subst hec
        rw [List.filter_eq_nil_iff.2 hbefore, hafter, List.nil_append]
      · simpa [hec] using hc

end Events

end Registry

end Dwell

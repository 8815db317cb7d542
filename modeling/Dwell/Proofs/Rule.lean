import Dwell.Rule.Grammar

/-!
# What specifications name

A name stands for a state when a keyword has it whose value is below the number of states
(`state?_eq_some`). A rule that can be read has a test, and states for its origin and target
(`rule_ok`); a hold that can be read has a state (`hold_ok`).
-/

namespace Dwell

namespace KeywordTable

/-- Some keyword has the value. -/
def Names (table : KeywordTable) (state : Nat) : Prop :=
  ∃ k ∈ table, k.value = state

variable {table : KeywordTable} {count s : Nat} {name : String}

theorem state?_eq_some (h : table.state? count name = some s) :
    table.value? name = some (s : Int) ∧ s < count := by
  unfold state? at h
  split at h
  · rename_i v hv
    split at h
    · simp only [Option.some.injEq] at h
      rw [hv, Option.some.injEq]
      omega
    · cases h
  · cases h

theorem names_of_value? {v : Int} (h : table.value? name = some v) :
    ∃ k ∈ table, k.name = name ∧ k.value = v := by
  obtain ⟨k, hk, rfl⟩ := Option.map_eq_some_iff.1 h
  exact ⟨k, List.mem_of_find?_eq_some hk, by simpa using List.find?_some hk, rfl⟩

theorem names_of_state? (h : table.state? count name = some s) : table.Names s := by
  obtain ⟨k, hk, -, hv⟩ := names_of_value? (state?_eq_some h).1
  exact ⟨k, hk, hv⟩

theorem isSome_name? : (table.name? (s : Int)).isSome ↔ table.Names s := by
  simp only [name?, Option.isSome_map, List.find?_isSome, beq_iff_eq, Names]

theorem value?_of_mem : ∀ {table : KeywordTable}, (table.map (·.name)).Nodup →
    ∀ k ∈ table, table.value? k.name = some k.value
  | [], _, k, hk => by simp at hk
  | j :: table, hn, k, hk => by
    simp only [List.map_cons, List.nodup_cons] at hn
    obtain ⟨hj, hn⟩ := hn
    rcases List.mem_cons.1 hk with rfl | hk
    · simp [value?]
    · have hne : j.name ≠ k.name := fun h => hj (h ▸ List.mem_map_of_mem hk)
      have ih := value?_of_mem hn k hk
      simpa [value?, hne] using ih

/-- With names that are different, values are known by their names. -/
theorem name?_inj {v w : Int} (hn : (table.map (·.name)).Nodup) (hv : table.name? v = some name)
    (hw : table.name? w = some name) : v = w := by
  obtain ⟨j, hj, rfl⟩ := Option.map_eq_some_iff.1 hv
  obtain ⟨k, hk, hname⟩ := Option.map_eq_some_iff.1 hw
  have hj' : j.value = v := by simpa using List.find?_some hj
  have hk' : k.value = w := by simpa using List.find?_some hk
  have h₁ := value?_of_mem hn j (List.mem_of_find?_eq_some hj)
  have h₂ := value?_of_mem hn k (List.mem_of_find?_eq_some hk)
  rw [hname, h₁, Option.some.injEq, hj', hk'] at h₂
  exact h₂

end KeywordTable

/-- When a sequence of computations gives a result, each of them does. -/
theorem bind_eq_ok {ε α β : Type} {x : Except ε α} {f : α → Except ε β} {b : β}
    (h : (x >>= f) = .ok b) : ∃ a, x = .ok a ∧ f a = .ok b := by
  cases x with
  | error e => cases h
  | ok a => exact ⟨a, rfl, h⟩

namespace Scope

variable {sc : Scope} {spec : String}

theorem state_ok {name : String} {s : Nat} (h : sc.state spec name = .ok s) :
    sc.keywords.state? sc.states name = some s := by
  unfold state at h
  split at h
  · rename_i t ht
    rw [ht, Except.ok.inj h]
  · cases h

theorem tests_ne_nil {text s : List Char} {ts : List Comparison}
    (h : (sc.tests text s).1 = .ok ts) : ts ≠ [] := by
  unfold tests at h
  split at h
  · cases h
  · rename_i hne
    rintro rfl
    exact hne _ (Prod.ext h rfl)

theorem rule_ok {origin : Nat} {c : Candidate} (h : (sc.rule spec).1 = .ok (origin, c)) :
    (∃ name, sc.keywords.state? sc.states name = some origin) ∧
      (∃ name, sc.keywords.state? sc.states name = some c.target) ∧ c.tests ≠ [] := by
  unfold rule at h
  split at h
  · cases h
  · rename_i origin' target s hhead
    dsimp only at h
    rcases ht : (sc.tests spec.toList s).1 with e | ts
    · rw [ht] at h
      cases h
    · rw [ht] at h
      cases h
      unfold ruleHead at hhead
      obtain ⟨⟨o, t, s'⟩, -, hhead⟩ := bind_eq_ok hhead
      obtain ⟨o', ho, hhead⟩ := bind_eq_ok hhead
      obtain ⟨t', htarget, hhead⟩ := bind_eq_ok hhead
      cases hhead
      exact ⟨⟨o, state_ok ho⟩, ⟨t, state_ok htarget⟩, tests_ne_nil ht⟩

theorem hold_ok {s : Nat} {seconds : Float} (h : sc.hold spec = .ok (s, seconds)) :
    ∃ name, sc.keywords.state? sc.states name = some s := by
  unfold hold at h
  obtain ⟨⟨name, number, unit⟩, -, h⟩ := bind_eq_ok h
  obtain ⟨s', hs, h⟩ := bind_eq_ok h
  split at h
  · cases h
    exact ⟨name, state_ok hs⟩
  · cases h

end Scope

end Dwell

import Dwell.Proofs.Rule
import Dwell.Scenario.Loading
import Mathlib.Data.String.Basic

/-!
# The tables and numbers of scenarios

In a scenario that was loaded, the properties of each host and the keywords of each enumeration are
sorted by name, and hold each name once (`tabular_load`). Its whole numbers have 64 bits
(`bounded_load`). Both follow from what the readers of its parts can give.
-/

namespace Dwell

section Place

variable {α : Type} {key : α → String} {a : α}

theorem mem_place : ∀ {as : List α} {b : α}, b ∈ place key a as → b = a ∨ b ∈ as
  | [], b, h => by simpa [place] using h
  | c :: as, b, h => by
    simp only [place] at h
    split at h
    · simpa using h
    · split at h
      · rcases List.mem_cons.1 h with rfl | h
        · exact .inl rfl
        · exact .inr (by simp [h])
      · rcases List.mem_cons.1 h with rfl | h
        · exact .inr (by simp)
        · exact (mem_place h).imp_right (List.mem_cons_of_mem _)

theorem pairwise_place : ∀ {as : List α}, as.Pairwise (key · < key ·) →
    (place key a as).Pairwise (key · < key ·)
  | [], _ => by simp [place]
  | b :: as, h => by
    obtain ⟨hb, has⟩ := List.pairwise_cons.1 h
    simp only [place]
    split
    · rename_i hlt
      refine List.pairwise_cons.2 ⟨fun c hc => ?_, h⟩
      rcases List.mem_cons.1 hc with rfl | hc
      · exact hlt
      · exact hlt.trans (hb c hc)
    · split
      · rename_i heq
        exact List.pairwise_cons.2 ⟨fun c hc => heq ▸ hb c hc, has⟩
      · rename_i hle hne
        refine List.pairwise_cons.2 ⟨fun c hc => ?_, pairwise_place has⟩
        rcases mem_place hc with rfl | hc
        · exact lt_of_le_of_ne (not_lt.1 hle) (Ne.symm hne)
        · exact hb c hc

theorem pairwise_tabulate (as : List α) : (tabulate key as).Pairwise (key · < key ·) := by
  have hfold : ∀ (as table : List α), table.Pairwise (key · < key ·) →
      (as.foldl (fun table a => place key a table) table).Pairwise (key · < key ·) := by
    intro as
    induction as with
    | nil => exact fun _ h => h
    | cons a as ih => exact fun table h => ih _ (pairwise_place h)
  exact hfold as [] .nil

theorem mem_tabulate {as : List α} {b : α} (h : b ∈ tabulate key as) : b ∈ as := by
  have hfold : ∀ (as table : List α),
      b ∈ as.foldl (fun table a => place key a table) table → b ∈ as ∨ b ∈ table := by
    intro as
    induction as with
    | nil => exact fun _ h => .inr h
    | cons a as ih =>
      intro table h
      rcases ih _ h with h | h
      · exact .inl (List.mem_cons_of_mem _ h)
      · rcases mem_place h with rfl | h
        · exact .inl (by simp)
        · exact .inr h
  simpa using hfold as [] h

end Place

/-- A declaration's keywords are a table. -/
def Declaration.Tabular : Declaration → Prop
  | .enumeration keywords _ => keywords.Pairwise (·.name < ·.name)
  | _ => True

/-- The properties of each host are a table, and so are the keywords of each enumeration. -/
def Scenario.Tabular (sc : Scenario) : Prop :=
  ∀ spec ∈ sc.hosts, spec.properties.Pairwise (·.1 < ·.1) ∧
    ∀ p ∈ spec.properties, p.2.Tabular

section Reading

open Yaml (Node Fields)

theorem mem_of_mapM_ok {ε α β : Type} {f : α → Except ε β} : ∀ {as : List α} {bs : List β},
    as.mapM f = .ok bs → ∀ b ∈ bs, ∃ a ∈ as, f a = .ok b
  | [], bs, h, b, hb => by
    cases h
    cases hb
  | a :: as, bs, h, b, hb => by
    rw [List.mapM_cons] at h
    obtain ⟨b', hb', h⟩ := bind_eq_ok h
    obtain ⟨bs', hbs', h⟩ := bind_eq_ok h
    cases h
    rcases List.mem_cons.1 hb with rfl | hb
    · exact ⟨a, by simp, hb'⟩
    · obtain ⟨a', ha', h⟩ := mem_of_mapM_ok hbs' b hb
      exact ⟨a', by simp [ha'], h⟩

theorem read_ok {α : Type} {fs : Fields} {name : String} {read : Node → Except Yaml.Fault α}
    {a : α} (h : fs.read name read = .ok a) : ∃ n, read n = .ok a := by
  unfold Fields.read at h
  split at h
  · exact ⟨_, h⟩
  · cases h

theorem read?_ok {α : Type} {fs : Fields} {name : String} {default : α}
    {read : Node → Except Yaml.Fault α} {a : α} (h : fs.read? name default read = .ok a) :
    a = default ∨ ∃ n, read n = .ok a := by
  unfold Fields.read? at h
  split at h
  · exact .inr ⟨_, h⟩
  · exact .inl (Except.ok.inj h).symm

theorem readKeywords_ok {n : Node} {table : KeywordTable} (h : readKeywords n = .ok table) :
    table.Pairwise (·.name < ·.name) ∧ ∀ k ∈ table, ∃ n : Node, n.settledInt = .ok k.value := by
  unfold readKeywords at h
  obtain ⟨entries, -, h⟩ := bind_eq_ok h
  obtain ⟨keywords, hkeywords, h⟩ := bind_eq_ok h
  cases h
  refine ⟨pairwise_tabulate keywords, fun k hk => ?_⟩
  obtain ⟨e, -, he⟩ := mem_of_mapM_ok hkeywords k (mem_tabulate hk)
  obtain ⟨name, -, he⟩ := bind_eq_ok he
  obtain ⟨value, hvalue, he⟩ := bind_eq_ok he
  cases he
  exact ⟨e.2, hvalue⟩

theorem enumeration_ok {n : Node} {keywords : KeywordTable} {value : Int}
    (h : Declaration.ofNode n = .ok (.enumeration keywords value)) :
    (∃ n, readKeywords n = .ok keywords) ∧ (value = 0 ∨ ∃ n : Node, n.settledInt = .ok value) := by
  unfold Declaration.ofNode at h
  obtain ⟨⟨type, fields⟩, -, h⟩ := bind_eq_ok h
  dsimp only at h
  split at h
  · obtain ⟨fs, -, h⟩ := bind_eq_ok h
    obtain ⟨keywords, hkeywords, h⟩ := bind_eq_ok h
    obtain ⟨value, hvalue, h⟩ := bind_eq_ok h
    cases h
    exact ⟨read_ok hkeywords, read?_ok hvalue⟩
  · obtain ⟨fs, -, h⟩ := bind_eq_ok h
    obtain ⟨value, -, h⟩ := bind_eq_ok h
    cases h
  · obtain ⟨fs, -, h⟩ := bind_eq_ok h
    obtain ⟨values, -, h⟩ := bind_eq_ok h
    cases h
  · obtain ⟨fs, -, h⟩ := bind_eq_ok h
    obtain ⟨value, -, h⟩ := bind_eq_ok h
    cases h
  · cases h

theorem readProperties_ok {n : Node} {properties : List (String × Declaration)}
    (h : readProperties n = .ok properties) :
    properties.Pairwise (·.1 < ·.1) ∧ ∀ p ∈ properties, ∃ n, Declaration.ofNode n = .ok p.2 := by
  unfold readProperties at h
  obtain ⟨entries, -, h⟩ := bind_eq_ok h
  obtain ⟨properties', hp, h⟩ := bind_eq_ok h
  cases h
  refine ⟨pairwise_tabulate properties', fun p hmem => ?_⟩
  obtain ⟨e, -, he⟩ := mem_of_mapM_ok hp p (mem_tabulate hmem)
  obtain ⟨name, -, he⟩ := bind_eq_ok he
  obtain ⟨d, hd, he⟩ := bind_eq_ok he
  cases he
  exact ⟨e.2, hd⟩

theorem hostSpec_ok {n : Node} {spec : HostSpec} (h : HostSpec.ofNode n = .ok spec) :
    spec.properties.Pairwise (·.1 < ·.1) ∧
      ∀ p ∈ spec.properties, ∃ n, Declaration.ofNode n = .ok p.2 := by
  unfold HostSpec.ofNode at h
  obtain ⟨fs, -, h⟩ := bind_eq_ok h
  obtain ⟨name, -, h⟩ := bind_eq_ok h
  obtain ⟨properties, hp, h⟩ := bind_eq_ok h
  obtain ⟨machines, -, h⟩ := bind_eq_ok h
  cases h
  rcases read?_ok hp with rfl | ⟨n, hn⟩
  · exact ⟨.nil, fun p hp => nomatch hp⟩
  · exact readProperties_ok hn

/-- The parts of a scenario are read themselves, or are the default ones. -/
structure Scenario.IsRead (sc : Scenario) : Prop where
  window : sc.window = {} ∨ ∃ n, Window.ofNode n = .ok sc.window
  options : sc.options = {} ∨ ∃ n, Options.ofNode n = .ok sc.options
  hosts : ∀ spec ∈ sc.hosts, ∃ n, HostSpec.ofNode n = .ok spec
  events : ∀ e ∈ sc.events, ∃ n, Event.ofNode n = .ok e

theorem isRead_default : Scenario.IsRead {} where
  window := .inl rfl
  options := .inl rfl
  hosts _ h := nomatch h
  events _ h := nomatch h

theorem isRead_ofNode {n : Node} {sc : Scenario} (h : Scenario.ofNode n = .ok sc) :
    sc.IsRead := by
  unfold Scenario.ofNode at h
  obtain ⟨fs, -, h⟩ := bind_eq_ok h
  obtain ⟨window, hwindow, h⟩ := bind_eq_ok h
  obtain ⟨options, hoptions, h⟩ := bind_eq_ok h
  obtain ⟨hosts, hhosts, h⟩ := bind_eq_ok h
  obtain ⟨events, hevents, h⟩ := bind_eq_ok h
  cases h
  refine ⟨read?_ok hwindow, read?_ok hoptions, fun spec hspec => ?_, fun e he => ?_⟩
  · rcases read?_ok hhosts with rfl | ⟨n, hn⟩
    · cases hspec
    · obtain ⟨ns, -, hn⟩ := bind_eq_ok hn
      exact (mem_of_mapM_ok hn spec hspec).imp fun _ h => h.2
  · rcases read?_ok hevents with rfl | ⟨n, hn⟩
    · cases he
    · obtain ⟨ns, -, hn⟩ := bind_eq_ok hn
      exact (mem_of_mapM_ok hn e he).imp fun _ h => h.2

theorem isRead_ofText {text : String} {sc : Scenario} (h : Scenario.ofText text = .ok sc) :
    sc.IsRead := by
  unfold Scenario.ofText at h
  obtain ⟨document, -, h⟩ := bind_eq_ok h
  split at h
  · exact isRead_ofNode h
  · cases h
    exact isRead_default

/-- What is loaded is what was read, with the settings of the environment. -/
theorem load_ok {files : Files} {env : Environment} {path? : Option String} {loaded : Scenario}
    (h : Scenario.load files env path? = .ok loaded) :
    ∃ sc : Scenario, sc.IsRead ∧ loaded = sc.override env := by
  unfold Scenario.load at h
  dsimp only at h
  split at h
  · obtain ⟨s, hs, h⟩ := bind_eq_ok h
    refine ⟨s, ?_, (Except.ok.inj h).symm⟩
    unfold Scenario.ofFile at hs
    split at hs
    · cases hs
    · rename_i text _
      rcases ht : Scenario.ofText text with e | s'
      · rw [ht] at hs
        cases hs
      · rw [ht] at hs
        cases hs
        exact isRead_ofText ht
  · exact ⟨{}, isRead_default, (Except.ok.inj h).symm⟩

theorem tabular_declaration {n : Node} {d : Declaration} (h : Declaration.ofNode n = .ok d) :
    d.Tabular := by
  cases d with
  | enumeration keywords value =>
    obtain ⟨⟨n, hn⟩, -⟩ := enumeration_ok h
    exact (readKeywords_ok hn).1
  | number | numbers | text => trivial

theorem Scenario.IsRead.tabular {sc : Scenario} (h : sc.IsRead) : sc.Tabular := by
  intro spec hspec
  obtain ⟨n, hn⟩ := h.hosts spec hspec
  obtain ⟨hsorted, hread⟩ := hostSpec_ok hn
  refine ⟨hsorted, fun p hp => ?_⟩
  obtain ⟨n, hn⟩ := hread p hp
  exact tabular_declaration hn

theorem tabular_load {files : Files} {env : Environment} {path? : Option String} {sc : Scenario}
    (h : Scenario.load files env path? = .ok sc) : sc.Tabular := by
  obtain ⟨s, hs, rfl⟩ := load_ok h
  exact hs.tabular

end Reading

section Bounds

open Yaml (Node)
open Text (isSigned)

/-- A declaration's whole numbers have 64 bits. -/
def Declaration.Bounded : Declaration → Prop
  | .enumeration keywords value => (∀ k ∈ keywords, isSigned k.value) ∧ isSigned value
  | _ => True

/-- The whole numbers of a scenario have 64 bits, and its indices have no sign. -/
structure Scenario.Bounded (sc : Scenario) : Prop where
  maxStep : isSigned sc.window.maxStep
  granularity : isSigned sc.options.granularity
  declarations : ∀ spec ∈ sc.hosts, ∀ p ∈ spec.properties, p.2.Bounded
  indices : ∀ e ∈ sc.events, e.index < 2 ^ 64

theorem isSigned_int {n : Node} {i : Int} (h : n.int = .ok i) : isSigned i := by
  unfold Node.int at h
  split at h
  · split at h
    · rename_i hread
      split at h
      · cases h
        exact (Option.filter_eq_some_iff.1 hread).2
      · cases h
    · cases h
  · cases h

theorem isSigned_settledInt {n : Node} {i : Int} (h : n.settledInt = .ok i) : isSigned i := by
  unfold Node.settledInt at h
  obtain ⟨v, -, h⟩ := bind_eq_ok h
  split at h
  · split at h
    · rename_i hsigned
      cases h
      exact hsigned
    · cases h
  · cases h

theorem index_lt {n : Node} {i : Nat} (h : n.index = .ok i) : i < 2 ^ 64 := by
  unfold Node.index at h
  split at h
  · split at h
    · rename_i hread
      split at h
      · cases h
        exact of_decide_eq_true (Option.filter_eq_some_iff.1 hread).2
      · cases h
    · cases h
  · cases h

theorem bounded_window {n : Node} {w : Window} (h : Window.ofNode n = .ok w) :
    isSigned w.maxStep := by
  unfold Window.ofNode at h
  obtain ⟨fs, -, h⟩ := bind_eq_ok h
  obtain ⟨start, -, h⟩ := bind_eq_ok h
  obtain ⟨stop, -, h⟩ := bind_eq_ok h
  obtain ⟨maxStep, hmaxStep, h⟩ := bind_eq_ok h
  cases h
  rcases read?_ok hmaxStep with rfl | ⟨n, hn⟩
  · rfl
  · exact isSigned_int hn

theorem bounded_options {n : Node} {o : Options} (h : Options.ofNode n = .ok o) :
    isSigned o.granularity := by
  unfold Options.ofNode at h
  obtain ⟨fs, -, h⟩ := bind_eq_ok h
  obtain ⟨scan, -, h⟩ := bind_eq_ok h
  obtain ⟨granularity, hgranularity, h⟩ := bind_eq_ok h
  cases h
  rcases read?_ok hgranularity with rfl | ⟨n, hn⟩
  · rfl
  · exact isSigned_int hn

theorem bounded_declaration {n : Node} {d : Declaration} (h : Declaration.ofNode n = .ok d) :
    d.Bounded := by
  cases d with
  | enumeration keywords value =>
    obtain ⟨⟨n, hn⟩, hvalue⟩ := enumeration_ok h
    refine ⟨fun k hk => ?_, ?_⟩
    · obtain ⟨n, hn⟩ := (readKeywords_ok hn).2 k hk
      exact isSigned_settledInt hn
    · rcases hvalue with rfl | ⟨n, hn⟩
      · decide
      · exact isSigned_settledInt hn
  | number | numbers | text => trivial

theorem bounded_event {n : Node} {e : Event} (h : Event.ofNode n = .ok e) : e.index < 2 ^ 64 := by
  unfold Event.ofNode at h
  obtain ⟨fs, -, h⟩ := bind_eq_ok h
  obtain ⟨time, -, h⟩ := bind_eq_ok h
  obtain ⟨host, -, h⟩ := bind_eq_ok h
  obtain ⟨property, -, h⟩ := bind_eq_ok h
  obtain ⟨index, hindex, h⟩ := bind_eq_ok h
  obtain ⟨value, -, h⟩ := bind_eq_ok h
  cases h
  rcases read?_ok hindex with rfl | ⟨n, hn⟩
  · exact Nat.two_pow_pos 64
  · exact index_lt hn

theorem Scenario.IsRead.bounded {sc : Scenario} (h : sc.IsRead) : sc.Bounded where
  maxStep := by
    rcases h.window with hw | ⟨n, hn⟩
    · rw [hw]
      decide
    · exact bounded_window hn
  granularity := by
    rcases h.options with ho | ⟨n, hn⟩
    · rw [ho]
      decide
    · exact bounded_options hn
  declarations spec hspec p hp := by
    obtain ⟨n, hn⟩ := h.hosts spec hspec
    obtain ⟨n, hn⟩ := (hostSpec_ok hn).2 p hp
    exact bounded_declaration hn
  indices e he := by
    obtain ⟨n, hn⟩ := h.events e he
    exact bounded_event hn

theorem isSigned_getD_integer? {env : Environment} {name : String} {i : Int} (hi : isSigned i) :
    isSigned ((env.integer? name).getD i) := by
  cases hread : env.integer? name with
  | none => exact hi
  | some j =>
    obtain ⟨word, -, hj⟩ := Option.bind_eq_some_iff.1 hread
    exact Text.isSigned_of_integer? hj

theorem bounded_load {files : Files} {env : Environment} {path? : Option String} {sc : Scenario}
    (h : Scenario.load files env path? = .ok sc) : sc.Bounded := by
  obtain ⟨s, hs, rfl⟩ := load_ok h
  exact ⟨isSigned_getD_integer? hs.bounded.maxStep, isSigned_getD_integer? hs.bounded.granularity,
    hs.bounded.declarations, hs.bounded.indices⟩

end Bounds

end Dwell

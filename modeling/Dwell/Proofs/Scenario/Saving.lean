import Dwell.Proofs.Scenario.Tabular
import Dwell.Proofs.Yaml.Record
import Dwell.Proofs.Yaml.Scalar

/-!
# Saved scenarios are loaded again

The document that a scenario is saved as is read as the scenario it was, with doubles that are the
same numbers (`Scenario.loads_saved`): every reader is given what the writer of its part wrote,
from the sections down to the keywords. The tables of the scenario must be sorted and its whole
numbers have 64 bits, which is so in every scenario that was loaded (`tabular_load`,
`bounded_load`).
-/

namespace Dwell

open Yaml (Node)
open Text (isSigned)

/-- The same declaration, with doubles that are the same. -/
inductive Declaration.Same : Declaration → Declaration → Prop
  | enumeration (keywords : KeywordTable) (value : Int) :
    Same (.enumeration keywords value) (.enumeration keywords value)
  | number {x y : Float} (h : Double.Same x y) : Same (.number x) (.number y)
  | numbers {xs ys : List Float} (h : List.Forall₂ Double.Same xs ys) :
    Same (.numbers xs) (.numbers ys)
  | text (s : String) : Same (.text s) (.text s)

/-- The same host, with properties that are declared alike. -/
structure HostSpec.Same (a b : HostSpec) : Prop where
  name : b.name = a.name
  properties :
    List.Forall₂ (fun p q => q.1 = p.1 ∧ p.2.Same q.2) a.properties b.properties
  machines : b.machines = a.machines

structure Event.Same (a b : Event) : Prop where
  time : b.time = a.time
  host : b.host = a.host
  property : b.property = a.property
  index : b.index = a.index
  value : Double.Same a.value b.value

/-- The same scenario, with doubles that are the same. -/
structure Scenario.Same (a b : Scenario) : Prop where
  window : b.window = a.window
  options : b.options = a.options
  hosts : List.Forall₂ HostSpec.Same a.hosts b.hosts
  events : List.Forall₂ Event.Same a.events b.events

section Sections

theorem Instant.ofNode_toNode (t : Instant) : Instant.ofNode t.toNode = .ok t := by
  have ht : isSigned t.seconds = true := by
    simp only [isSigned, Bool.and_eq_true, decide_eq_true_eq]
    exact ⟨t.lower, t.upper⟩
  have hclamp : Instant.clamp t.seconds = t := Instant.ext (Instant.seconds_clamp t.lower t.upper)
  rw [Instant.ofNode, Instant.toNode, int_intNode ht]
  exact congrArg Except.ok hclamp

theorem Window.ofNode_toNode {w : Window} (h : isSigned w.maxStep = true) :
    Window.ofNode w.toNode = .ok w := by
  have hfs : w.toNode.fields ["start", "stop", "max_step"] = .ok [("start", w.start.toNode),
      ("stop", w.stop.toNode), ("max_step", intNode w.maxStep)] :=
    fields_recordNode rfl (by decide)
  rw [Window.ofNode, hfs]
  change (do
    return Window.mk (← Instant.ofNode w.start.toNode) (← Instant.ofNode w.stop.toNode)
      (← (intNode w.maxStep).int)) = _
  rw [Instant.ofNode_toNode, Instant.ofNode_toNode, int_intNode h]
  rfl

theorem Scan.ofNode_toNode (s : Scan) : Scan.ofNode (.ofText s.name) = .ok s := by
  cases s <;> rfl

theorem Options.ofNode_toNode {o : Options} (h : isSigned o.granularity = true) :
    Options.ofNode o.toNode = .ok o := by
  have hfs : o.toNode.fields ["scan", "granularity"] = .ok [("scan", .ofText o.scan.name),
      ("granularity", intNode o.granularity)] :=
    fields_recordNode rfl (by decide)
  rw [Options.ofNode, hfs]
  change (do
    return Options.mk (← Scan.ofNode (.ofText o.scan.name)) (← (intNode o.granularity).int)) = _
  rw [Scan.ofNode_toNode, int_intNode h]
  rfl

end Sections

section Objects

theorem readKeywords_keywordsNode {table : KeywordTable} (htable : table.Pairwise (·.name < ·.name))
    (hvalues : ∀ k ∈ table, isSigned k.value = true) :
    readKeywords (keywordsNode table) = .ok table := by
  have hentries : (keywordsNode table).settledEntries =
      .ok (table.map fun k => (.ofText k.name, intNode k.value)) := by
    rw [keywordsNode, recordNode, List.map_map]
    rfl
  have hkeywords : (table.map fun k => (Node.ofText k.name, intNode k.value)).mapM
      (fun e => do return Keyword.mk (← e.1.settledText) (← e.2.settledInt)) = .ok table :=
    mapM_map_eq fun k hk => by
      rw [settledText_ofText, settledInt_intNode (hvalues k hk)]
      rfl
  rw [readKeywords, hentries, ok_bind, hkeywords, ok_bind, tabulate_of_pairwise htable]
  rfl

theorem settle_intNode {n : Int} (hn : isSigned n = true) (room : Nat) :
    (intNode n).settle room = .ok () := by
  have hvalue := value_intNode hn
  unfold intNode at hvalue ⊢
  rw [Node.settle, hvalue]
  rfl

theorem settle_doubleNode {x y : Float} (h : WrittenAs x y) (room : Nat) :
    (doubleNode x).settle room = .ok () := by
  have hvalue := h.value
  unfold doubleNode at hvalue ⊢
  rw [Node.settle, hvalue]
  rfl

namespace Declaration

theorem room_pos : 0 < room := by decide

theorem ofNode_toNode_enumeration {keywords : KeywordTable} {value : Int}
    (ht : keywords.Pairwise (·.name < ·.name)) (hvalues : ∀ k ∈ keywords, isSigned k.value = true)
    (hvalue : isSigned value = true) :
    ofNode (enumeration keywords value).toNode = .ok (enumeration keywords value) := by
  have hkeywords : (keywordsNode keywords).settle (room - 1) = .ok () :=
    settle_recordNode (by decide) fun f hf => by
      obtain ⟨k, hk, rfl⟩ := List.mem_map.1 hf
      exact settle_intNode (hvalues k hk) _
  obtain ⟨fields, htagged, hfields⟩ : ∃ fields,
      (enumeration keywords value).toNode.tagged "type" room = .ok ("enumeration", fields) ∧
        fields ["keywords", "value"] =
          .ok [("keywords", keywordsNode keywords), ("value", intNode value)] :=
    tagged_recordNode "enumeration" room_pos (by simp [hkeywords, settle_intNode hvalue]) rfl
      (by decide)
  rw [ofNode, htagged, ok_bind]
  change (fields ["keywords", "value"] >>= _) = _
  rw [hfields, ok_bind]
  change (do
    return enumeration (← readKeywords (keywordsNode keywords))
      (← (intNode value).settledInt)) = _
  rw [readKeywords_keywordsNode ht hvalues, settledInt_intNode hvalue]
  rfl

theorem ofNode_toNode_number {x y : Float} (h : WrittenAs x y) :
    ofNode (number x).toNode = .ok (number y) := by
  obtain ⟨fields, htagged, hfields⟩ : ∃ fields,
      (number x).toNode.tagged "type" room = .ok ("double", fields) ∧
        fields ["value"] = .ok [("value", doubleNode x)] :=
    tagged_recordNode "double" room_pos (by simp [settle_doubleNode h]) rfl (by decide)
  rw [ofNode, htagged, ok_bind]
  change (fields ["value"] >>= _) = _
  rw [hfields, ok_bind]
  change (do return number (← (doubleNode x).settledFloat)) = _
  rw [h.settledFloat]
  rfl

theorem ofNode_toNode_numbers {xs ys : List Float}
    (h : (xs.map doubleNode).mapM Node.settledFloat = .ok ys) :
    ofNode (numbers xs).toNode = .ok (numbers ys) := by
  have hxs : (Node.seq (xs.map doubleNode)).settle (room - 1) = .ok () :=
    settle_seq (by decide) fun n hn => by
      obtain ⟨x, -, rfl⟩ := List.mem_map.1 hn
      obtain ⟨y, -, hy⟩ := exists_writtenAs x
      exact settle_doubleNode hy _
  obtain ⟨fields, htagged, hfields⟩ : ∃ fields,
      (numbers xs).toNode.tagged "type" room = .ok ("double_array", fields) ∧
        fields ["values"] = .ok [("values", .seq (xs.map doubleNode))] :=
    tagged_recordNode "double_array" room_pos (by simp [hxs]) rfl (by decide)
  rw [ofNode, htagged, ok_bind]
  change (fields ["values"] >>= _) = _
  rw [hfields, ok_bind]
  change (do return numbers (← (xs.map doubleNode).mapM Node.settledFloat)) = _
  rw [h]
  rfl

theorem ofNode_toNode_text (s : String) : ofNode (text s).toNode = .ok (text s) := by
  obtain ⟨fields, htagged, hfields⟩ : ∃ fields,
      (text s).toNode.tagged "type" room = .ok ("text", fields) ∧
        fields ["value"] = .ok [("value", .ofText s)] :=
    tagged_recordNode "text" room_pos (by simp [settle_ofText]) rfl (by decide)
  rw [ofNode, htagged, ok_bind]
  change (fields ["value"] >>= _) = _
  rw [hfields]
  rfl

theorem ofNode_toNode {d : Declaration} (ht : d.Tabular) (hb : d.Bounded) :
    ∃ d', ofNode d.toNode = .ok d' ∧ d.Same d' := by
  cases d with
  | enumeration keywords value =>
    exact ⟨_, ofNode_toNode_enumeration ht hb.1 hb.2, .enumeration keywords value⟩
  | number x =>
    obtain ⟨y, hsame, hy⟩ := exists_writtenAs x
    exact ⟨_, ofNode_toNode_number hy, .number hsame⟩
  | numbers xs =>
    obtain ⟨ys, hys, hsame⟩ := mapM_map (f := doubleNode) (g := Node.settledFloat)
      fun x (_ : x ∈ xs) => (exists_writtenAs x).imp fun y hy => ⟨hy.2.settledFloat, hy.1⟩
    exact ⟨_, ofNode_toNode_numbers hys, .numbers hsame⟩
  | text s => exact ⟨_, ofNode_toNode_text s, .text s⟩

end Declaration

theorem readProperties_toNode {properties : List (String × Declaration)}
    (hsorted : properties.Pairwise (·.1 < ·.1)) (ht : ∀ p ∈ properties, p.2.Tabular)
    (hb : ∀ p ∈ properties, p.2.Bounded) :
    ∃ properties', readProperties (recordNode (properties.map fun p => (p.1, p.2.toNode)))
        = .ok properties' ∧
      List.Forall₂ (fun p p' => p'.1 = p.1 ∧ p.2.Same p'.2) properties properties' := by
  have hentries : (recordNode (properties.map fun p => (p.1, p.2.toNode))).entries =
      .ok (properties.map fun p => (.ofText p.1, p.2.toNode)) := by
    rw [recordNode, List.map_map]
    rfl
  obtain ⟨properties', hread, hsame⟩ : ∃ properties', (properties.map fun p =>
      (Node.ofText p.1, p.2.toNode)).mapM (fun e => do
        return (← e.1.text, ← Declaration.ofNode e.2)) = .ok properties' ∧
      List.Forall₂ (fun p p' => p'.1 = p.1 ∧ p.2.Same p'.2) properties properties' :=
    mapM_map fun p hp => by
      obtain ⟨d, hd, hsame⟩ := Declaration.ofNode_toNode (ht p hp) (hb p hp)
      refine ⟨(p.1, d), ?_, rfl, hsame⟩
      rw [text_ofText, hd]
      rfl
  have hsorted' : properties'.Pairwise (·.1 < ·.1) := by
    have hnames : properties'.map Prod.fst = properties.map Prod.fst := by
      rw [← List.forall₂_eq_eq_eq, List.forall₂_map_left_iff, List.forall₂_map_right_iff]
      exact hsame.flip.imp fun _ _ h => h.1
    rw [← List.pairwise_map (f := Prod.fst) (R := (· < ·))] at hsorted ⊢
    rwa [hnames]
  refine ⟨properties', ?_, hsame⟩
  rw [readProperties, hentries, ok_bind, hread, ok_bind, tabulate_of_pairwise hsorted']
  rfl

theorem HostSpec.ofNode_toNode {spec : HostSpec}
    (hsorted : spec.properties.Pairwise (·.1 < ·.1)) (ht : ∀ p ∈ spec.properties, p.2.Tabular)
    (hb : ∀ p ∈ spec.properties, p.2.Bounded) :
    ∃ spec', HostSpec.ofNode spec.toNode = .ok spec' ∧ spec.Same spec' := by
  obtain ⟨properties, hread, hsame⟩ := readProperties_toNode hsorted ht hb
  have hmachines : (spec.machines.map Node.ofText).mapM Node.text = .ok spec.machines :=
    mapM_map_eq fun s _ => text_ofText s
  have hfs : spec.toNode.fields ["name", "properties", "machines"] = .ok
      [("name", .ofText spec.name),
        ("properties", recordNode (spec.properties.map fun p => (p.1, p.2.toNode))),
        ("machines", .seq (spec.machines.map .ofText))] :=
    fields_recordNode rfl (by decide)
  refine ⟨⟨spec.name, properties, spec.machines⟩, ?_, rfl, hsame, rfl⟩
  rw [ofNode, hfs, ok_bind]
  change (do
    return HostSpec.mk spec.name
      (← readProperties (recordNode (spec.properties.map
        fun p : String × Declaration => (p.1, p.2.toNode))))
      (← (spec.machines.map Node.ofText).mapM Node.text)) = _
  rw [hread, hmachines]
  rfl

theorem Event.ofNode_toNode {e : Event} (h : e.index < 2 ^ 64) :
    ∃ e', Event.ofNode e.toNode = .ok e' ∧ e.Same e' := by
  obtain ⟨y, hsame, hy⟩ := exists_writtenAs e.value
  have hfs : e.toNode.fields ["at", "object", "property", "index", "value"] = .ok
      [("at", e.time.toNode), ("object", .ofText e.host), ("property", .ofText e.property),
        ("index", intNode e.index), ("value", doubleNode e.value)] :=
    fields_recordNode rfl (by decide)
  refine ⟨{ e with value := y }, ?_, rfl, rfl, rfl, rfl, hsame⟩
  rw [ofNode, hfs, ok_bind]
  change (do
    return Event.mk (← Instant.ofNode e.time.toNode) e.host e.property
      (← (intNode e.index).index) (← (doubleNode e.value).float)) = _
  rw [Instant.ofNode_toNode, index_intNode h, hy.float]
  rfl

/-- A saved scenario is read as the scenario it was. -/
theorem Scenario.loads_saved {sc : Scenario} (ht : sc.Tabular) (hb : sc.Bounded) :
    ∃ sc', Scenario.ofNode sc.toNode = .ok sc' ∧ sc.Same sc' := by
  obtain ⟨hosts, hhosts, hsame⟩ : ∃ hosts, (sc.hosts.map HostSpec.toNode).mapM HostSpec.ofNode
      = .ok hosts ∧ List.Forall₂ HostSpec.Same sc.hosts hosts :=
    mapM_map fun spec hspec =>
      HostSpec.ofNode_toNode (ht spec hspec).1 (ht spec hspec).2 (hb.declarations spec hspec)
  obtain ⟨events, hevents, hsame'⟩ : ∃ events, (sc.events.map Event.toNode).mapM Event.ofNode
      = .ok events ∧ List.Forall₂ Event.Same sc.events events :=
    mapM_map fun e he => Event.ofNode_toNode (hb.indices e he)
  have hfs : sc.toNode.fields ["clock", "engine", "objects", "events"] = .ok
      [("clock", sc.window.toNode), ("engine", sc.options.toNode),
        ("objects", .seq (sc.hosts.map HostSpec.toNode)),
        ("events", .seq (sc.events.map Event.toNode))] :=
    fields_recordNode rfl (by decide)
  refine ⟨⟨sc.window, sc.options, hosts, events⟩, ?_, rfl, rfl, hsame, hsame'⟩
  rw [ofNode, hfs, ok_bind]
  change (do
    return Scenario.mk (← Window.ofNode sc.window.toNode) (← Options.ofNode sc.options.toNode)
      (← (sc.hosts.map HostSpec.toNode).mapM HostSpec.ofNode)
      (← (sc.events.map Event.toNode).mapM Event.ofNode)) = _
  rw [Window.ofNode_toNode hb.maxStep, Options.ofNode_toNode hb.granularity, hhosts, hevents]
  rfl

/-- A scenario with a property of each kind, doubles that are no numbers among them, and a text
that looks like one. -/
def weather : Scenario where
  window := ⟨.clamp (-60), .clamp 7200, 1800⟩
  options := ⟨.exhaustive, 5⟩
  hosts := [{
    name := "roof"
    properties := [("gusts", .numbers [0.1, Double.nan, 1e300]),
      ("limit", .number (Double.infinity true)),
      ("mode", .enumeration [⟨"OFF", 0⟩, ⟨"ON", -1⟩] (-1)), ("note", .text "1.50")]
    machines := ["state:mode;rule:OFF->ON=$timer>=5"] }]
  events := [{ time := .clamp 30, host := "roof", property := "gusts", index := 1, value := -2.5 }]

theorem Scenario.loads_saved_weather : weather.Tabular ∧ weather.Bounded ∧
    ∃ sc', Scenario.ofNode weather.toNode = .ok sc' ∧ weather.Same sc' := by
  have ht : weather.Tabular := by
    simp only [Scenario.Tabular, weather, Declaration.Tabular, List.forall_mem_singleton,
      List.forall_mem_cons]
    decide
  have hb : weather.Bounded := by
    refine ⟨by decide, by decide, ?_, by simp [weather]⟩
    simp only [weather, Declaration.Bounded, List.forall_mem_singleton, List.forall_mem_cons]
    decide
  exact ⟨ht, hb, Scenario.loads_saved ht hb⟩

end Objects

end Dwell

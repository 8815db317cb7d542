import Dwell.Proofs.Scenario.Tabular
import Dwell.Proofs.Text.Digits
import Dwell.Scenario.Writing

/-!
# The layers of a setting

A setting is what its environment variable says, if that is set to a text that denotes a value of
the setting; below that lies what the file gives, and below that the default (`IsSetting`). So it is
for the window of time and the granularity. The scan policy has those layers unless its variable is
set to a word that denotes no policy: the default covers what the file gives then
(`Scenario.load_layered`, `Scenario.default_over_file`).
-/

namespace Dwell

open Yaml (Node Fields)

section File

variable {α β : Type} {n : Node}

/-- The field of a record with some field names, if it is given. -/
def Yaml.Node.field? (n : Node) (names : List String) (name : String) : Option Node :=
  match n.fields names with
  | .ok fs => fs.lookup name
  | .error _ => none

/-- What is given for a value is read as it, and where nothing is given it is the default. -/
def Stated (n? : Option Node) (read : Reader α) (default a : α) : Prop :=
  match n? with
  | some n => read n = .ok a
  | none => a = default

theorem stated_read? {names : List String} {fs : Fields} {name : String} {default a : α}
    {read : Reader α} (hfs : n.fields names = .ok fs) (h : fs.read? name default read = .ok a) :
    Stated (n.field? names name) read default a := by
  have hn : n.field? names name = fs.lookup name := by
    unfold Yaml.Node.field?
    rw [hfs]
  rw [hn]
  unfold Fields.read? at h
  cases hm : fs.lookup name with
  | some m =>
    rw [hm] at h
    exact h
  | none =>
    rw [hm] at h
    exact (Except.ok.inj h).symm

/-- A part of what is stated is stated by a part of what is given. -/
theorem Stated.part {n? : Option Node} {read : Reader α} {default a : α}
    {part? : Node → Option Node} {readPart : Reader β} (f : α → β)
    (h : Stated n? read default a)
    (hpart : ∀ n a, read n = .ok a → Stated (part? n) readPart (f default) (f a)) :
    Stated (n? >>= part?) readPart (f default) (f a) := by
  cases n? with
  | some n => exact hpart n a h
  | none => exact congrArg f h

theorem Stated.unique {n? : Option Node} {read : Reader α} {default a b : α}
    (ha : Stated n? read default a) (hb : Stated n? read default b) : a = b := by
  cases n? with
  | some n => exact Except.ok.inj (ha.symm.trans hb)
  | none => exact ha.trans hb.symm

/-- The settings of a scenario by section and name. -/
def sectionNames : List String := ["clock", "engine", "objects", "events"]

def windowNames : List String := ["start", "stop", "max_step"]

def optionNames : List String := ["scan", "granularity"]

/-- What a document gives for a setting of a section. -/
def given? (doc? : Option Node) (part : String) (names : List String) (name : String) :
    Option Node :=
  (doc? >>= (·.field? sectionNames part)) >>= (·.field? names name)

theorem stated_window {w : Window} (h : Window.ofNode n = .ok w) :
    let default : Window := {}
    Stated (n.field? windowNames "start") Instant.ofNode default.start w.start ∧
      Stated (n.field? windowNames "stop") Instant.ofNode default.stop w.stop ∧
      Stated (n.field? windowNames "max_step") Node.int default.maxStep w.maxStep := by
  unfold Window.ofNode at h
  obtain ⟨fs, hfs, h⟩ := bind_eq_ok h
  obtain ⟨start, hstart, h⟩ := bind_eq_ok h
  obtain ⟨stop, hstop, h⟩ := bind_eq_ok h
  obtain ⟨maxStep, hmaxStep, h⟩ := bind_eq_ok h
  cases h
  exact ⟨stated_read? hfs hstart, stated_read? hfs hstop, stated_read? hfs hmaxStep⟩

theorem stated_options {o : Options} (h : Options.ofNode n = .ok o) :
    let default : Options := {}
    Stated (n.field? optionNames "scan") Scan.ofNode default.scan o.scan ∧
      Stated (n.field? optionNames "granularity") Node.int default.granularity o.granularity := by
  unfold Options.ofNode at h
  obtain ⟨fs, hfs, h⟩ := bind_eq_ok h
  obtain ⟨scan, hscan, h⟩ := bind_eq_ok h
  obtain ⟨granularity, hgranularity, h⟩ := bind_eq_ok h
  cases h
  exact ⟨stated_read? hfs hscan, stated_read? hfs hgranularity⟩

theorem stated_scenario {text : String} {sc : Scenario} (h : Scenario.ofText text = .ok sc) :
    ∃ doc?, Yaml.Document.ofText text = .ok doc? ∧
      Stated (doc? >>= (·.field? sectionNames "clock")) Window.ofNode {} sc.window ∧
      Stated (doc? >>= (·.field? sectionNames "engine")) Options.ofNode {} sc.options := by
  unfold Scenario.ofText at h
  obtain ⟨doc?, hdoc, h⟩ := bind_eq_ok h
  refine ⟨doc?, hdoc, ?_⟩
  cases doc? with
  | none =>
    cases h
    exact ⟨rfl, rfl⟩
  | some n =>
    change Scenario.ofNode n = .ok sc at h
    unfold Scenario.ofNode at h
    obtain ⟨fs, hfs, h⟩ := bind_eq_ok h
    obtain ⟨window, hwindow, h⟩ := bind_eq_ok h
    obtain ⟨options, hoptions, h⟩ := bind_eq_ok h
    obtain ⟨hosts, -, h⟩ := bind_eq_ok h
    obtain ⟨events, -, h⟩ := bind_eq_ok h
    cases h
    exact ⟨stated_read? hfs hwindow, stated_read? hfs hoptions⟩

end File

section Environment

variable {α : Type}

/-- The value of a setting in its three layers: what its variable is set to denotes it, or else it
is stated by the file or by default. -/
def IsSetting (word? : Option String) (Denotes : String → α → Prop) (n? : Option Node)
    (read : Reader α) (default a : α) : Prop :=
  (∃ word, word? = some word ∧ Denotes word a) ∨
    (∀ word, word? = some word → ∀ b, ¬ Denotes word b) ∧ Stated n? read default a

/-- A text that writes an instant in seconds. -/
def WritesInstant (word : String) (t : Instant) : Prop :=
  Text.WritesInteger word.toList t.seconds

/-- A text that writes a whole number of 64 bits. -/
def WritesSigned (word : String) (n : Int) : Prop :=
  Text.WritesInteger word.toList n ∧ Text.isSigned n = true

/-- A word that is the name of a scan policy, in any case of letters. -/
def NamesScan (word : String) (scan : Scan) : Prop :=
  word.toList.map Char.toLower = scan.name.toList

instance (word : String) (scan : Scan) : Decidable (NamesScan word scan) :=
  inferInstanceAs (Decidable (_ = _))

variable {Denotes : String → α → Prop} {n? : Option Node} {read : Reader α} {default a : α}

/-- What a variable gives if it can be read covers what lies below. -/
theorem isSetting_getD {word? : Option String} {read? : String → Option α}
    (hread : ∀ word b, read? word = some b ↔ Denotes word b) (h : Stated n? read default a) :
    IsSetting word? Denotes n? read default ((word? >>= read?).getD a) := by
  cases word? with
  | none => exact .inr ⟨fun _ h => (nomatch h), h⟩
  | some word =>
    rcases hb : read? word with _ | b
    · refine .inr ⟨fun word' hword b hdenotes => ?_, ?_⟩
      · cases hword
        rw [← hread, hb] at hdenotes
        cases hdenotes
      · change Stated n? read default ((read? word).getD a)
        rw [hb]
        exact h
    · refine .inl ⟨word, rfl, ?_⟩
      change Denotes word ((read? word).getD a)
      rw [hb]
      exact (hread word b).1 hb

theorem integer?_iff_writesSigned (word : String) (n : Int) :
    Text.integer? word.toList = some n ↔ WritesSigned word n :=
  Text.integer?_eq_some_iff

theorem clamp_integer?_iff_writesInstant (word : String) (t : Instant) :
    (Text.integer? word.toList).map Instant.clamp = some t ↔ WritesInstant word t := by
  rw [Option.map_eq_some_iff]
  constructor
  · rintro ⟨n, hn, rfl⟩
    obtain ⟨hwrites, hsigned⟩ := Text.integer?_eq_some_iff.1 hn
    simp only [Text.isSigned, Bool.and_eq_true, decide_eq_true_eq] at hsigned
    rwa [WritesInstant, Instant.seconds_clamp hsigned.1 hsigned.2]
  · intro h
    have hsigned : Text.isSigned t.seconds = true := by simp [Text.isSigned, t.lower, t.upper]
    exact ⟨t.seconds, Text.integer?_eq_some_iff.2 ⟨h, hsigned⟩,
      Instant.ext (Instant.seconds_clamp t.lower t.upper)⟩

theorem integer?_map {β : Type} (env : Environment) (name : String) (f : Int → β) :
    (env.integer? name).map f
      = env.lookup name >>= fun word => (Text.integer? word.toList).map f := by
  unfold Environment.integer?
  cases env.lookup name <;> rfl

/-- A word that names a scan policy stands for it. -/
theorem scanOfWord_of_names {word : String} {scan : Scan} (h : NamesScan word scan) :
    Environment.scanOfWord word = scan := by
  unfold Environment.scanOfWord
  rw [h]
  cases scan <;> decide

/-- A word that names no scan policy stands for the default one. -/
theorem scanOfWord_of_not_names {word : String} (h : ∀ scan, ¬ NamesScan word scan) :
    Environment.scanOfWord word = .firstMatch :=
  if_neg (h .exhaustive)

/-- The variable of the scan policy is set to a word that names no policy. -/
def Environment.MisnamesScan (env : Environment) : Prop :=
  ∃ word, env.lookup "RULEFSM_SCAN" = some word ∧ ∀ scan, ¬ NamesScan word scan

theorem scan_getD (env : Environment) {scan : Scan}
    (h : Stated n? Scan.ofNode .firstMatch scan) :
    (env.MisnamesScan → env.scan?.getD scan = .firstMatch) ∧
      (IsSetting (env.lookup "RULEFSM_SCAN") NamesScan n? Scan.ofNode .firstMatch
          (env.scan?.getD scan) ↔
        (env.MisnamesScan → Stated n? Scan.ofNode .firstMatch .firstMatch)) := by
  unfold Environment.MisnamesScan Environment.scan?
  rcases env.lookup "RULEFSM_SCAN" with _ | word
  · refine ⟨fun ⟨word, hword, _⟩ => (nomatch hword), fun _ ⟨word, hword, _⟩ => (nomatch hword),
      fun _ => .inr ⟨fun _ hword => (nomatch hword), h⟩⟩
  by_cases hnamed : ∃ scan, NamesScan word scan
  · obtain ⟨scan', hnames⟩ := hnamed
    have hword : Environment.scanOfWord word = scan' := scanOfWord_of_names hnames
    have hnot : ¬ ∃ w, some word = some w ∧ ∀ scan, ¬ NamesScan w scan := by
      rintro ⟨w, hw, hno⟩
      cases hw
      exact hno scan' hnames
    refine ⟨fun hmis => absurd hmis hnot, fun _ hmis => absurd hmis hnot, fun _ => .inl ?_⟩
    rw [show ((some word).map Environment.scanOfWord).getD scan = _ from hword]
    exact ⟨word, rfl, hnames⟩
  · have hno : ∀ scan, ¬ NamesScan word scan := fun scan hscan => hnamed ⟨scan, hscan⟩
    have hword : Environment.scanOfWord word = .firstMatch := scanOfWord_of_not_names hno
    rw [show ((some word).map Environment.scanOfWord).getD scan = _ from hword]
    refine ⟨fun _ => rfl, fun hsetting _ => ?_, fun hbelow => .inr ⟨?_, hbelow ⟨word, rfl, hno⟩⟩⟩
    · rcases hsetting with ⟨w, hw, hnames⟩ | ⟨-, hstated⟩
      · cases hw
        exact absurd hnames (hno _)
      · exact hstated
    · intro w hw scan hnames
      cases hw
      exact hno scan hnames

end Environment

section Loading

variable (files : Files) (env : Environment) {path? : Option String} {path text : String}
  {sc : Scenario}

theorem Scenario.load_eq_ok (hpath : (path? <|> env.path?) = some path)
    (hfile : files path = some text) (hsc : Scenario.ofText text = .ok sc) :
    Scenario.load files env path? = .ok (sc.override env) := by
  unfold Scenario.load
  dsimp only
  rw [hpath]
  dsimp only [Scenario.ofFile]
  rw [hfile]
  dsimp only
  rw [hsc]
  rfl

/-- Over a file that can be read, every setting is in its layers, but for the scan policy under a
word that names none: then it is the first match, which is in the layers only if the file says
nothing else. -/
theorem Scenario.load_layered (hpath : (path? <|> env.path?) = some path)
    (hfile : files path = some text) (hsc : Scenario.ofText text = .ok sc) :
    ∃ doc? loaded, Yaml.Document.ofText text = .ok doc? ∧
      Scenario.load files env path? = .ok loaded ∧
      IsSetting (env.lookup "RULEFSM_START") WritesInstant
        (given? doc? "clock" windowNames "start") Instant.ofNode .zero loaded.window.start ∧
      IsSetting (env.lookup "RULEFSM_STOP") WritesInstant
        (given? doc? "clock" windowNames "stop") Instant.ofNode (.clamp 86400)
        loaded.window.stop ∧
      IsSetting (env.lookup "RULEFSM_STEP") WritesSigned
        (given? doc? "clock" windowNames "max_step") Node.int 3600 loaded.window.maxStep ∧
      IsSetting (env.lookup "RULEFSM_GRANULARITY") WritesSigned
        (given? doc? "engine" optionNames "granularity") Node.int 1
        loaded.options.granularity ∧
      (env.MisnamesScan → loaded.options.scan = .firstMatch) ∧
      (IsSetting (env.lookup "RULEFSM_SCAN") NamesScan
          (given? doc? "engine" optionNames "scan") Scan.ofNode .firstMatch loaded.options.scan ↔
        (env.MisnamesScan → Stated (given? doc? "engine" optionNames "scan") Scan.ofNode
          .firstMatch .firstMatch)) ∧
      loaded.hosts = sc.hosts ∧ loaded.events = sc.events := by
  obtain ⟨doc?, hdoc, hwindow, hoptions⟩ := stated_scenario hsc
  have hstart := hwindow.part Window.start fun n w h => (stated_window h).1
  have hstop := hwindow.part Window.stop fun n w h => (stated_window h).2.1
  have hmaxStep := hwindow.part Window.maxStep fun n w h => (stated_window h).2.2
  have hscan := hoptions.part Options.scan fun n o h => (stated_options h).1
  have hgranularity := hoptions.part Options.granularity fun n o h =>
    (stated_options h).2
  obtain ⟨hmisnamed, hiff⟩ := scan_getD env hscan
  refine ⟨doc?, sc.override env, hdoc, Scenario.load_eq_ok files env hpath hfile hsc, ?_, ?_, ?_,
    ?_, hmisnamed, hiff, rfl, rfl⟩
  · rw [show (sc.override env).window.start = _ from
      congrArg (·.getD sc.window.start) (integer?_map env "RULEFSM_START" Instant.clamp)]
    exact isSetting_getD clamp_integer?_iff_writesInstant hstart
  · rw [show (sc.override env).window.stop = _ from
      congrArg (·.getD sc.window.stop) (integer?_map env "RULEFSM_STOP" Instant.clamp)]
    exact isSetting_getD clamp_integer?_iff_writesInstant hstop
  · exact isSetting_getD integer?_iff_writesSigned hmaxStep
  · exact isSetting_getD integer?_iff_writesSigned hgranularity

/-- A file that gives the exhaustive scan and nothing else. -/
def thoroughText : String := "engine:\n  scan: exhaustive\n"

def thoroughFiles : Files := fun path => if path = "thorough.yaml" then some thoroughText else none

theorem exists_thorough :
    ∃ sc, Scenario.ofText thoroughText = .ok sc ∧ sc.options.scan = .exhaustive := by
  have h : (Scenario.ofText thoroughText).toOption.map (·.options.scan) = some .exhaustive := by
    decide +kernel
  rcases hsc : Scenario.ofText thoroughText with e | sc
  · rw [hsc] at h
    cases h
  · rw [hsc] at h
    exact ⟨sc, rfl, Option.some.inj h⟩

/-- A step from the environment, over the file with the exhaustive scan. -/
theorem Scenario.load_layered_thorough :
    let env : Environment := [("RULEFSM_STEP", "+60")]
    ∃ doc? loaded, Yaml.Document.ofText thoroughText = .ok doc? ∧
      Scenario.load thoroughFiles env (some "thorough.yaml") = .ok loaded ∧
      loaded.window.maxStep = 60 ∧
      Stated (given? doc? "engine" optionNames "scan") Scan.ofNode .firstMatch
        loaded.options.scan := by
  intro env
  obtain ⟨sc, hsc, -⟩ := exists_thorough
  have hpath : (some "thorough.yaml" <|> env.path?) = some "thorough.yaml" := rfl
  obtain ⟨doc?, loaded, hdoc, hload, -, -, hstep, -, -, hscan, -⟩ :=
    Scenario.load_layered thoroughFiles env hpath rfl hsc
  have hsixty : Text.integer? "+60".toList = some 60 := by decide
  refine ⟨doc?, loaded, hdoc, hload, ?_, ?_⟩
  · rcases hstep with ⟨word, hword, hwrites⟩ | ⟨hnone, -⟩
    · cases hword
      have hread := (integer?_iff_writesSigned _ _).2 hwrites
      exact Option.some.inj (hread.symm.trans hsixty)
    · exact absurd ((integer?_iff_writesSigned _ _).1 hsixty) (hnone "+60" rfl 60)
  · have hnames : ¬ env.MisnamesScan := by
      rintro ⟨word, hword, -⟩
      cases hword
    rcases hscan.2 fun h => absurd h hnames with ⟨word, hword, -⟩ | ⟨-, hstated⟩
    · cases hword
    · exact hstated

/-- Under a word that names no scan policy the default covers the exhaustive scan of the file. -/
theorem Scenario.default_over_file :
    let env : Environment := [("RULEFSM_SCAN", "thorough")]
    ∃ doc? sc loaded, Yaml.Document.ofText thoroughText = .ok doc? ∧
      Scenario.ofText thoroughText = .ok sc ∧
      Scenario.load thoroughFiles env (some "thorough.yaml") = .ok loaded ∧
      sc.options.scan = .exhaustive ∧ loaded.options.scan = .firstMatch ∧
      ¬ IsSetting (env.lookup "RULEFSM_SCAN") NamesScan
        (given? doc? "engine" optionNames "scan") Scan.ofNode .firstMatch
        loaded.options.scan := by
  intro env
  obtain ⟨sc, hsc, hexhaustive⟩ := exists_thorough
  obtain ⟨doc?, hdoc, -, hoptions⟩ := stated_scenario hsc
  have hstated := hoptions.part Options.scan fun n o h => (stated_options h).1
  have hmisnames : env.MisnamesScan :=
    ⟨"thorough", rfl, fun scan => by cases scan <;> decide⟩
  obtain ⟨hfirst, hiff⟩ := scan_getD env hstated
  have hpath : (some "thorough.yaml" <|> env.path?) = some "thorough.yaml" := rfl
  refine ⟨doc?, sc, sc.override env, hdoc, hsc,
    Scenario.load_eq_ok thoroughFiles env hpath rfl hsc, hexhaustive, hfirst hmisnames,
    fun hsetting => ?_⟩
  have hsame := hstated.unique (hiff.1 hsetting hmisnames)
  rw [hexhaustive] at hsame
  cases hsame

end Loading

end Dwell

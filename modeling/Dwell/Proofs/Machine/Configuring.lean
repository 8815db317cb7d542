import Dwell.Proofs.Machine.Debounce
import Dwell.Proofs.Machine.Programming
import Dwell.Proofs.Text

/-!
# Configuring is one directive after the other

Operations are put after one another as long as they succeed (`Effect.andThen`). Texts of directives
that are joined by a semicolon are carried out like that, and so is each text: an operation that
fails leaves the machine and its host as it found them, so what a text leaves is what the directives
before the failing one have done (`configure_sequential`).

The fault of an unknown directive quotes the whole text it stands in, and so differs between a text
and one that it is a part of. It is compared without the quotation.
-/

namespace Dwell

open Text

namespace Effect

/-- What an operation leaves behind when its journal goes on from an earlier one. -/
def behind (journal : Journal) (e : Effect (Except Fault Unit)) : Effect (Except Fault Unit) :=
  { e with journal := journal ++ e.journal }

/-- An operation, and then a second one on what it left, if it succeeded. -/
def andThen (e : Effect (Except Fault Unit))
    (f : Machine → Host → Effect (Except Fault Unit)) : Effect (Except Fault Unit) :=
  match e.answer with
  | .ok () => (f e.machine e.host).behind e.journal
  | .error _ => e

variable {e : Effect (Except Fault Unit)} {f g : Machine → Host → Effect (Except Fault Unit)}

theorem andThen_of_ok (h : e.answer = .ok ()) :
    e.andThen f = (f e.machine e.host).behind e.journal := by
  simp only [andThen, h]

theorem andThen_of_error {fault : Fault} (h : e.answer = .error fault) : e.andThen f = e := by
  simp only [andThen, h]

theorem andThen_ok (e : Effect (Except Fault Unit)) :
    (e.andThen fun m host => ⟨.ok (), m, host, []⟩) = e := by
  rcases h : e.answer with fault | ⟨⟨⟩⟩
  · exact andThen_of_error h
  · rw [andThen_of_ok h, behind, List.append_nil, ← h]

theorem andThen_behind (journal : Journal) :
    (e.behind journal).andThen f = (e.andThen f).behind journal := by
  rcases h : e.answer with fault | ⟨⟨⟩⟩
  · rw [andThen_of_error h]
    exact andThen_of_error h
  · rw [andThen_of_ok h, andThen_of_ok (e := e.behind journal) h]
    simp only [behind, List.append_assoc]

theorem andThen_assoc : (e.andThen f).andThen g = e.andThen fun m host => (f m host).andThen g := by
  rcases h : e.answer with fault | ⟨⟨⟩⟩
  · rw [andThen_of_error h, andThen_of_error h, andThen_of_error h]
  · rw [andThen_of_ok h, andThen_of_ok h, andThen_behind]

end Effect

/-- A cause without the text that an unknown directive stands in. -/
def Cause.unquoted : Cause → Cause
  | .unknownDirective _ directive => .unknownDirective "" directive
  | cause => cause

def Fault.unquoted (f : Fault) : Fault :=
  { f with cause := f.cause.unquoted }

def Notice.unquoted : Notice → Notice
  | .directiveFailed directive fault => .directiveFailed directive fault.unquoted
  | n => n

def Entry.unquoted : Entry → Entry
  | .noted n => .noted n.unquoted
  | entry => entry

/-- What an operation leaves behind, without the texts that unknown directives stand in. -/
def Effect.unquoted (e : Effect (Except Fault Unit)) : Effect (Except Fault Unit) where
  answer := e.answer.mapError Fault.unquoted
  machine := e.machine
  host := e.host
  journal := e.journal.map Entry.unquoted

theorem Effect.unquoted_andThen {e : Effect (Except Fault Unit)}
    {f : Machine → Host → Effect (Except Fault Unit)} :
    (e.andThen f).unquoted = e.unquoted.andThen fun m host => (f m host).unquoted := by
  rcases h : e.answer with fault | ⟨⟨⟩⟩
  · have hu : e.unquoted.answer = .error fault.unquoted := by simp [unquoted, h, Except.mapError]
    rw [andThen_of_error h, andThen_of_error hu]
  · have hu : e.unquoted.answer = .ok () := by simp [unquoted, h, Except.mapError]
    rw [andThen_of_ok h, andThen_of_ok hu]
    simp only [unquoted, behind, List.map_append]

namespace Directive

/-- A text that is a plain value and no list of directives: behind blanks, it starts with a
digit. -/
def isValue (text : List Char) : Bool :=
  (dropBlank text).head?.any (·.isDigit)

theorem textsOf_of_blanks {s : List Char} (h : Blanks s) : textsOf s = [] := by
  have hs : ';' ∉ s := fun hc => absurd (h _ hc) (by decide)
  rw [textsOf, pieces_of_not_mem hs, List.map_singleton, trim_eq_nil_iff.2 h]
  rfl

theorem textsOf_append (a b : List Char) :
    textsOf (a ++ ';' :: b) = textsOf a ++ textsOf b := by
  simp only [textsOf, pieces_append, List.map_append, List.filter_append]

theorem isValue_append (b : List Char) : ∀ {a : List Char}, isValue a = false →
    isValue (a ++ ';' :: b) = false
  | [], _ => rfl
  | c :: a, h => by
    by_cases hc : isBlank c = true
    · have hdrop (s : List Char) : dropBlank (c :: s) = dropBlank s := by simp [dropBlank, hc]
      simp only [isValue, List.cons_append, hdrop] at h ⊢
      exact isValue_append b h
    · have hdrop (s : List Char) : dropBlank (c :: s) = c :: s := by simp [dropBlank, hc]
      simp only [isValue, List.cons_append, hdrop] at h ⊢
      exact h

end Directive

namespace Machine

open Directive

variable {m : Machine} {host : Host} {now : Instant} {whole : String}

/-- Carries out the directive that a text stands for, and notes it if it fails. -/
def applyText (m : Machine) (host : Host) (now : Instant) (whole : String) (s : List Char) :
    Effect (Except Fault Unit) :=
  let e := m.apply host now whole (.ofText s)
  { e with journal := e.journal ++ match e.answer with
      | .ok () => []
      | .error fault => [.noted (.directiveFailed (.ofList s) fault)] }

theorem applyAll_cons (s : List Char) (rest : List (List Char)) :
    m.applyAll host now whole (s :: rest) =
      (m.applyText host now whole s).andThen (·.applyAll · now whole rest) := by
  rcases h : (m.applyText host now whole s).answer with fault | ⟨⟨⟩⟩
  · rw [Effect.andThen_of_error h]
    have h : (m.apply host now whole (.ofText s)).answer = .error fault := h
    simp only [applyAll, applyText, h]
  · rw [Effect.andThen_of_ok h]
    have h : (m.apply host now whole (.ofText s)).answer = .ok () := h
    simp only [applyAll, applyText, h, Effect.behind, List.append_nil]

theorem applyAll_append : ∀ (before after : List (List Char)) {m : Machine} {host : Host},
    m.applyAll host now whole (before ++ after) =
      (m.applyAll host now whole before).andThen (·.applyAll · now whole after)
  | [], _, _, _ => rfl
  | s :: before, after, m, host => by
    rw [List.cons_append, applyAll_cons, applyAll_cons, Effect.andThen_assoc]
    simp only [applyAll_append before after]

theorem unquoted_applyText (whole whole' : String) (s : List Char) :
    (m.applyText host now whole s).unquoted = (m.applyText host now whole' s).unquoted := by
  unfold applyText
  cases ofText s <;> rfl

theorem unquoted_applyAll (whole whole' : String) : ∀ (texts : List (List Char)) {m : Machine}
    {host : Host},
    (m.applyAll host now whole texts).unquoted = (m.applyAll host now whole' texts).unquoted
  | [], _, _ => rfl
  | s :: rest, m, host => by
    simp only [applyAll_cons, Effect.unquoted_andThen, unquoted_applyText whole whole',
      unquoted_applyAll whole whole' rest]

theorem configure_of_not_isValue {text : String} (h : isValue text.toList = false) :
    m.configure host text now = m.applyAll host now text (textsOf text.toList) := by
  unfold configure
  split
  · rename_i hs
    rw [textsOf_of_blanks (dropBlank_eq_nil_iff.1 hs)]
    rfl
  · rename_i c _ hs
    have hc : c.isDigit = false := by simpa [isValue, hs] using h
    simp only [hc, Bool.false_eq_true, if_false]

/-- A directive that fails leaves the machine and its host as they are. -/
theorem apply_error {d : Directive} {fault : Fault}
    (h : (m.apply host now whole d).answer = .error fault) :
    (m.apply host now whole d).machine = m ∧ (m.apply host now whole d).host = host := by
  have hrefused {e : Effect (Except Fault Unit)} (he : m.Refused host e) :
      e.machine = m ∧ e.host = host := by
    obtain ⟨_, _, rfl⟩ := he
    exact ⟨rfl, rfl⟩
  cases d with
  | value text =>
    simp only [apply, assign] at h ⊢
    split at h
    · cases h
    · exact ⟨rfl, rfl⟩
  | state property =>
    rcases m.bind_cases host property with hr | ⟨_, _, -, -, he⟩
    · exact hrefused hr
    · simp [apply, he] at h
  | rule spec =>
    rcases m.addRule_cases host spec with hr | ⟨_, _, _, _, -, -, he⟩
    · exact hrefused hr
    · simp [apply, he] at h
  | hold spec =>
    rcases m.addHold_cases host spec with hr | ⟨_, _, _, -, -, he⟩
    · exact hrefused hr
    · simp [apply, he] at h
  | reset | clear => cases h
  | external spec | unknown name => exact ⟨rfl, rfl⟩

/-- The directive `s` fails behind others that succeeded. The operation ends there, and with the
machine and the host that those have left. -/
structure FailsAt (m : Machine) (host : Host) (now : Instant) (whole : String)
    (before : List (List Char)) (s : List Char) (fault : Fault)
    (e : Effect (Except Fault Unit)) : Prop where
  done : (m.applyAll host now whole before).answer = .ok ()
  failed : ((m.applyAll host now whole before).machine.apply
    (m.applyAll host now whole before).host now whole (.ofText s)).answer = .error fault
  last : e = m.applyAll host now whole (before ++ [s])
  machine : e.machine = (m.applyAll host now whole before).machine
  host : e.host = (m.applyAll host now whole before).host

theorem applyAll_error {fault : Fault} : ∀ (texts : List (List Char)) {m : Machine} {host : Host},
    (m.applyAll host now whole texts).answer = .error fault →
    ∃ before s after, texts = before ++ s :: after ∧
      m.FailsAt host now whole before s fault (m.applyAll host now whole texts)
  | [], _, _, h => nomatch h
  | s :: rest, m, host, h => by
    rcases hs : (m.applyText host now whole s).answer with fault' | ⟨⟨⟩⟩
    · have he (after : List (List Char)) :=
        (applyAll_cons s after).trans (Effect.andThen_of_error hs)
      rw [he] at h ⊢
      obtain rfl : fault' = fault := Except.error.inj (hs.symm.trans h)
      obtain ⟨hm, hh⟩ := apply_error hs
      exact ⟨[], s, rest, rfl, rfl, hs, (he []).symm, hm, hh⟩
    · have he (after : List (List Char)) :=
        (applyAll_cons s after).trans (Effect.andThen_of_ok hs)
      rw [he] at h ⊢
      obtain ⟨before, t, after, rfl, hdone, hfailed, hlast, hm, hh⟩ := applyAll_error rest h
      refine ⟨s :: before, t, after, rfl, ?_⟩
      constructor <;> simp only [List.cons_append, he]
      · exact hdone
      · exact hfailed
      · rw [hlast]
      · exact hm
      · exact hh

/-- A text of one directive carries that out. Two texts of directives, joined by a semicolon, are
carried out one after the other, the second if the first succeeded. A text that fails does so at one
of its directives, and leaves the machine and its host as the directives before that one do. -/
theorem configure_sequential (m : Machine) (host : Host) (now : Instant) :
    (∀ (text : String) (s : List Char), isValue text.toList = false → textsOf text.toList = [s] →
      m.configure host text now = m.applyText host now text s) ∧
    (∀ a b : String, isValue a.toList = false → isValue b.toList = false →
      (m.configure host (a ++ ";" ++ b) now).unquoted =
        ((m.configure host a now).andThen (·.configure · b now)).unquoted) ∧
    ∀ (text : String) (fault : Fault), isValue text.toList = false →
      (m.configure host text now).answer = .error fault →
      ∃ before s after, textsOf text.toList = before ++ s :: after ∧
        m.FailsAt host now text before s fault (m.configure host text now) := by
  refine ⟨?_, ?_, ?_⟩
  · intro text s hvalue hs
    rw [configure_of_not_isValue hvalue, hs, applyAll_cons]
    exact Effect.andThen_ok _
  · intro a b ha hb
    have hab : (a ++ ";" ++ b).toList = a.toList ++ ';' :: b.toList := by simp
    have hvalue : isValue (a ++ ";" ++ b).toList = false := hab ▸ isValue_append b.toList ha
    rw [configure_of_not_isValue hvalue, hab, textsOf_append, applyAll_append,
      configure_of_not_isValue ha, Effect.unquoted_andThen, Effect.unquoted_andThen,
      unquoted_applyAll _ a]
    congr 1
    funext m host
    rw [configure_of_not_isValue hb, unquoted_applyAll _ b]
  · intro text fault hvalue h
    rw [configure_of_not_isValue hvalue] at h ⊢
    exact applyAll_error _ h

/-- A switch is programmed by two texts. Another text fails where it holds a state that it has
unbound. -/
theorem configure_sequential_switch :
    let programmed := ({} : Machine).configure switchHost "state:switch" (.clamp 3)
    let whole := "state:switch; clear; hold:ON=5; state:switch"
    let failed := ({} : Machine).configure switchHost whole (.clamp 3)
    isValue "state:switch".toList = false ∧
      programmed = ({} : Machine).applyText switchHost (.clamp 3) "state:switch"
        "state:switch".toList ∧
      isValue "hold:ON=5; colour:blue".toList = false ∧
      (({} : Machine).configure switchHost ("state:switch" ++ ";" ++ "hold:ON=5; colour:blue")
        (.clamp 3)).unquoted =
        (programmed.andThen (·.configure · "hold:ON=5; colour:blue" (.clamp 3))).unquoted ∧
      isValue whole.toList = false ∧ failed.answer = .error ⟨"room", .notBound⟩ ∧
      ∃ before s after, textsOf whole.toList = before ++ s :: after ∧
        ({} : Machine).FailsAt switchHost (.clamp 3) whole before s ⟨"room", .notBound⟩ failed := by
  intro programmed whole failed
  obtain ⟨hone, hjoin, hfail⟩ := configure_sequential {} switchHost (.clamp 3)
  have hf : failed.answer = .error ⟨"room", .notBound⟩ := by decide +kernel
  have hw : isValue whole.toList = false := by decide +kernel
  exact ⟨rfl, hone _ _ rfl (by decide), rfl, hjoin _ _ rfl rfl, hw, hf, hfail whole _ hw hf⟩

end Machine

end Dwell

import Dwell.Proofs.Machine.Configuring
import Dwell.Proofs.Machine.Replay
import Dwell.Proofs.Rule.Form

/-!
# Configuring a machine with its own text

A finite double is written in digits with at most a point among them, behind a minus sign if it has
one (`Double.text_of_parts`). Configuring takes a text for a value when it starts with a digit, so a
machine takes back the text that it renders, unless it has a sign: then the text is an unknown
directive (`Machine.configure_value`, `Machine.configure_minus`).
-/

namespace Dwell

open Text

/-- A row of digits and other characters of numbers, the first of them a digit. -/
def IsDecimal (s : List Char) : Prop :=
  (∃ c ∈ s.head?, c.isDigit = true) ∧ ∀ c ∈ s, isOperandChar c = true

namespace Double

variable {digits : List Char} {d : Decimal} {x : Float} {negative : Bool} {m : Nat} {q : Int}

theorem isOperandChar_of_isDigit {c : Char} (h : c.isDigit = true) : isOperandChar c = true := by
  simp [isOperandChar, Char.isAlphanum, h]

theorem isDecimal_append {s t : List Char} (hs : s ≠ []) (hdigits : ∀ c ∈ s, c.isDigit = true)
    (ht : ∀ c ∈ t, isOperandChar c = true) : IsDecimal (s ++ t) := by
  obtain ⟨c, s, rfl⟩ := List.exists_cons_of_ne_nil hs
  refine ⟨⟨c, rfl, hdigits c List.mem_cons_self⟩, fun c' hc' => ?_⟩
  rcases List.mem_append.1 hc' with hc' | hc'
  · exact isOperandChar_of_isDigit (hdigits c' hc')
  · exact ht c' hc'

theorem isDecimal_writeOut (hne : digits ≠ []) (hdigits : ∀ c ∈ digits, c.isDigit = true)
    (point : Int) : IsDecimal (writeOut .plain digits point) := by
  have hoperand : ∀ c ∈ digits, isOperandChar c = true := fun c hc =>
    isOperandChar_of_isDigit (hdigits c hc)
  have hzeros (n : Nat) : ∀ c ∈ List.replicate n '0', isOperandChar c = true := fun c hc => by
    rw [List.eq_of_mem_replicate hc]
    decide
  unfold writeOut
  split
  · rw [show "0.".toList = ['0'] ++ ['.'] from rfl, List.append_assoc, List.append_assoc]
    refine isDecimal_append (by simp) (by simp) fun c hc => ?_
    simp only [List.mem_append, List.mem_singleton] at hc
    rcases hc with rfl | hc | hc
    · decide
    · exact hzeros _ c hc
    · exact hoperand c hc
  split
  · rw [List.append_assoc]
    refine isDecimal_append hne hdigits fun c hc => ?_
    exact hzeros _ c (by simpa [Layout.plain] using hc)
  · rename_i hpoint hlength
    refine isDecimal_append ?_ (fun c hc => hdigits c (List.mem_of_mem_take hc)) fun c hc => ?_
    · rw [ne_eq, List.take_eq_nil_iff, not_or]
      exact ⟨by omega, hne⟩
    · rcases List.mem_cons.1 hc with rfl | hc
      · decide
      · exact hoperand c (List.mem_of_mem_drop hc)

theorem isDecimal_decimal (d : Decimal) : IsDecimal (Layout.plain.decimal d) := by
  have hne : Nat.toDigits 10 d.digits ≠ [] := Nat.toDigits_ne_nil
  have hdigits : ∀ c ∈ Nat.toDigits 10 d.digits, c.isDigit = true := fun c hc =>
    Nat.isDigit_of_mem_toDigits (by decide) (by decide) hc
  rw [Layout.decimal, if_pos (.inr rfl)]
  exact isDecimal_writeOut hne hdigits _

/-- A finite double is written in digits, behind its sign. -/
theorem text_of_parts (h : parts x = .finite negative m q) : ∃ s, IsDecimal s ∧
    (text x).toList = (if negative then ['-'] else []) ++ s := by
  refine ⟨_, isDecimal_decimal (shortest .larger m q), ?_⟩
  rw [text, Layout.write, h]
  exact String.toList_ofList

end Double

theorem IsDecimal.isBlank {s : List Char} (h : IsDecimal s) : ∀ c ∈ s, isBlank c = false :=
  fun c hc => isBlank_of_isOperandChar (h.2 c hc)

namespace Machine

open Directive

variable {m : Machine} {host : Host} {now : Instant} {text : String} {s : List Char}

/-- A text of digits is taken for a value. -/
theorem configure_value (h : IsDecimal text.toList) :
    m.configure host text now = m.assign host text.toList := by
  have hdrop := dropBlank_eq_self h.isBlank
  have htrim := trim_eq_self h.isBlank
  obtain ⟨⟨c, hc, hdigit⟩, -⟩ := h
  obtain ⟨s, hs⟩ : ∃ s, text.toList = c :: s := List.head?_eq_some_iff.1 hc
  rw [configure, hdrop, htrim, hs]
  simp [hdigit]

/-- No directive has a name that starts with a minus sign. -/
theorem ofText_minus (h : ∀ c ∈ s, isOperandChar c = true) :
    Directive.ofText ('-' :: s) = .unknown (.ofList ('-' :: s)) := by
  have hcut : cut ':' ('-' :: s) = none := by
    refine cut_of_not_mem fun hc => ?_
    rcases List.mem_cons.1 hc with hc | hc
    · cases hc
    · exact absurd (h _ hc) (by decide)
  have hname (name : String) (hn : name.toList.head? ≠ some '-') :
      String.ofList ('-' :: s) ≠ name := fun he => hn (by simp [← he])
  rw [ofText, hcut]
  dsimp only
  repeat rw [if_neg (hname _ (by decide))]

/-- A text of digits behind a minus sign is an unknown directive. -/
theorem configure_minus (h : IsDecimal s) (htext : text.toList = '-' :: s) :
    let fault : Fault := ⟨host.name, .unknownDirective text text⟩
    m.configure host text now =
      ⟨.error fault, m, host, [.noted (.directiveFailed text fault)]⟩ := by
  have hblank : ∀ c ∈ '-' :: s, isBlank c = false :=
    List.forall_mem_cons.2 ⟨by decide, h.isBlank⟩
  have hsep : ';' ∉ '-' :: s := by
    intro hc
    rcases List.mem_cons.1 hc with hc | hc
    · cases hc
    · exact absurd (h.2 _ hc) (by decide)
  have htexts : textsOf text.toList = ['-' :: s] := by
    rw [htext, textsOf, pieces_of_not_mem hsep, List.map_singleton, trim_eq_self hblank]
    rfl
  have hlist : String.ofList ('-' :: s) = text := by rw [← htext, String.ofList_toList]
  have hvalue : isValue text.toList = false := by
    rw [htext, isValue, dropBlank_eq_self hblank]
    rfl
  rw [configure_of_not_isValue hvalue, htexts]
  simp only [applyAll, ofText_minus h.2, apply, refuse, hlist, List.map_nil, List.nil_append]

/-- A machine with a finite value takes back the text that it renders, as long as that has no minus
sign; otherwise it refuses the text. Neither changes anything. -/
theorem configure_render (m : Machine) (host : Host) (now : Instant) (n : Nat) (q : Int) :
    (Double.parts m.value = .finite false n q →
      Double.read? m.render.toList = some m.value →
      m.configure host m.render now = ⟨.ok (), m, host, []⟩) ∧
    (Double.parts m.value = .finite true n q →
      let fault : Fault := ⟨host.name, .unknownDirective m.render m.render⟩
      m.configure host m.render now =
        ⟨.error fault, m, host, [.noted (.directiveFailed m.render fault)]⟩) := by
  constructor
  · intro hparts hread
    obtain ⟨s, hs, htext⟩ := Double.text_of_parts hparts
    rw [← render] at htext
    rw [configure_value (by rw [htext]; exact hs), assign, hread]
  · intro hparts
    obtain ⟨s, hs, htext⟩ := Double.text_of_parts hparts
    exact configure_minus hs htext

/-- The values 1.5 and -5. -/
theorem configure_render_room :
    let room : Host := { name := "room" }
    let fault : Fault := ⟨"room", .unknownDirective "-5" "-5"⟩
    (Machine.configure { value := 1.5 } room "1.5" .zero
        = ⟨.ok (), { value := 1.5 }, room, []⟩) ∧
      Machine.configure { value := -5.0 } room "-5" .zero
        = ⟨.error fault, { value := -5.0 }, room, [.noted (.directiveFailed "-5" fault)]⟩ := by
  intro room fault
  have hpositive : ({ value := 1.5 } : Machine).render = "1.5" := by decide +kernel
  have hnegative : ({ value := -5.0 } : Machine).render = "-5" := by decide +kernel
  have h := (configure_render { value := 1.5 } room .zero (3 * 2 ^ 51) (-52)).1 (by decide +kernel)
    (by decide +kernel)
  have h' := (configure_render { value := -5.0 } room .zero (5 * 2 ^ 50) (-50)).2
    (by decide +kernel)
  rw [hpositive] at h
  rw [hnegative] at h'
  exact ⟨h, h'⟩

/-- A machine that was set to -5 renders a text that denotes its value, and refuses it. -/
theorem refuses_render_minus :
    let room : Host := { name := "room" }
    let m : Machine := { value := -5.0 }
    m.Reachable room ∧ Double.parts m.value = .finite true (5 * 2 ^ 50) (-50) ∧
      Double.read? m.render.toList = some m.value ∧
      (m.configure room m.render .zero).answer ≠ .ok () := by
  intro room m
  have hrender : m.render = "-5" := by decide +kernel
  have hdigits : IsDecimal ['5'] := ⟨⟨'5', rfl, rfl⟩, by simp [isOperandChar]⟩
  refine ⟨⟨{}, room, [.setValue (-5.0)], rfl⟩, by decide +kernel, by decide +kernel, ?_⟩
  rw [hrender, configure_minus hdigits rfl]
  simp

end Machine

end Dwell

import Dwell.Proofs.Rule.Duration

/-!
# Where the fault of a specification lies

A fault quotes the text it was found in: all of a specification if its head or its duration is
wrong or it has no test, and otherwise the first of its tests that cannot be read. A name that the
fault carries stands in the text that it quotes (`Cause.Quotes`), so what a fault says can be found
in what was specified (`Scope.located`).
-/

namespace Dwell

open Text

section Infixes

variable {sep : Char} {s p : List Char}

theorem isInfix_trim (s : List Char) : trim s <:+: s := by
  have hsuffix (t : List Char) : dropBlank t <:+ t := List.dropWhile_suffix _
  have hprefix : trim s <+: dropBlank s := by
    rw [trim, ← List.reverse_suffix, List.reverse_reverse]
    exact hsuffix _
  exact hprefix.isInfix.trans (hsuffix s).isInfix

theorem infix_intercalate : ∀ {ps : List (List Char)}, p ∈ ps → p <:+: [sep].intercalate ps
  | [q], h => by simp_all [List.intercalate]
  | q :: r :: ps, h => by
    have hjoin : [sep].intercalate (q :: r :: ps) = q ++ sep :: [sep].intercalate (r :: ps) := by
      simp [List.intercalate]
    rw [hjoin]
    rcases List.mem_cons.1 h with rfl | h
    · exact List.infix_append_left
    · exact List.infix_append_of_infix_right (List.infix_cons (infix_intercalate h))

theorem infix_of_mem_pieces (h : p ∈ pieces sep s) : p <:+: s := by
  have hsub : p <:+: [sep].intercalate (pieces sep s) := infix_intercalate h
  rwa [intercalate_pieces] at hsub

end Infixes

/-- The cause quotes the text, and a name that it carries is a piece of the text. -/
inductive Cause.Quotes (text : List Char) : Cause → Prop
  | form (fault : FormFault) : Quotes text (.form (.ofList text) fault)
  | unknownState {state} :
    state.toList <:+: text → Quotes text (.unknownState (.ofList text) state)
  | unboundOperand {name} (fault : OperandFault) :
    name.toList <:+: text → Quotes text (.unboundOperand (.ofList text) name fault)

namespace Scope

/-- The rule starts with its origin and its target; `s` is what stands behind the equals sign. -/
inductive WritesHead (sc : Scope) (s : List Char) : List Char → Prop
  | intro {w₁ w₂ w₃ w₄ o t origin target} :
    Blanks w₁ → Blanks w₂ → Blanks w₃ → Blanks w₄ →
    sc.NamesState o origin → sc.NamesState t target →
    WritesHead sc s (w₁ ++ o ++ w₂ ++ "->".toList ++ w₃ ++ t ++ w₄ ++ "=".toList ++ s)

/-- A place of the rule that a cause may blame. -/
inductive BlamedInRule (sc : Scope) (spec : List Char) (cause : Cause) : Prop
  /-- The head is not written as it should be, or names no states. -/
  | head : (∀ s, ¬ sc.WritesHead s spec) → cause.Quotes spec → BlamedInRule sc spec cause
  /-- No test is written. -/
  | noTests {s} :
    sc.WritesHead s spec → (∀ piece ∈ pieces ',' s, Blanks piece) →
    cause = .form (.ofList spec) .noTests → BlamedInRule sc spec cause
  /-- The first piece that is neither blank nor a test. -/
  | test {s before piece after} :
    sc.WritesHead s spec → pieces ',' s = before ++ piece :: after →
    (∀ p ∈ before, Blanks p ∨ ∃ t, sc.WritesTest (trim p) t) →
    ¬ Blanks piece → (∀ t, ¬ sc.WritesTest (trim piece) t) →
    trim piece <:+: spec → cause.Quotes (trim piece) → BlamedInRule sc spec cause

/-- The hold is written as the name of a state, an equals sign and a number; `rest` is what stands
behind the number. -/
inductive WritesAmount (rest : List Char) : List Char → Prop
  | intro {w₁ w₂ w₃ n number x} :
    Blanks w₁ → Blanks w₂ → Blanks w₃ → Word isNameChar n → Word isDurationChar number →
    Ends isDurationChar rest → Double.read? number = some x → x.isFinite = true → 0 ≤ x →
    WritesAmount rest (w₁ ++ n ++ w₂ ++ "=".toList ++ (w₃ ++ (number ++ rest)))

/-- What a cause may blame in a hold: the hold as a whole, or its unit. -/
inductive BlamedInHold (spec : List Char) (cause : Cause) : Prop
  | whole : cause.Quotes spec → BlamedInHold spec cause
  | unit {rest} :
    WritesAmount rest spec → ¬ Blanks rest → trim rest <:+: spec →
    cause = .unconvertible (.ofList spec) (.ofList (trim rest)) → BlamedInHold spec cause
  /-- Where no unit is written, it is seconds. -/
  | seconds {rest} :
    WritesAmount rest spec → Blanks rest → cause = .unconvertible (.ofList spec) "s" →
    BlamedInHold spec cause

variable {sc : Scope} {text token left right s spec : List Char} {f : Fault}

/-- The fault names the host, and its cause quotes the text. -/
def Shows (sc : Scope) (text : List Char) (f : Fault) : Prop :=
  f.object = sc.host.name ∧ f.cause.Quotes text

section Errors

theorem shows_placed {α : Type} {r : Except FormFault α} (h : sc.placed text r = .error f) :
    sc.Shows text f := by
  cases r with
  | ok x => cases h
  | error e =>
    cases h
    exact ⟨rfl, .form e⟩

theorem shows_state {name : String} (h : sc.state (.ofList text) name = .error f)
    (hname : name.toList <:+: text) : sc.Shows text f := by
  unfold state at h
  split at h
  · cases h
  · cases h
    exact ⟨rfl, .unknownState hname⟩

theorem shows_index {keyword : String} (h : sc.index (.ofList text) keyword = .error f)
    (hkeyword : keyword.toList <:+: text) : sc.Shows text f := by
  unfold index at h
  split at h
  · split at h
    · cases h
    · cases h
      exact ⟨rfl, .unknownState hkeyword⟩
  · cases h
    exact ⟨rfl, .unknownState hkeyword⟩

theorem shows_element {name property : String} {i : Nat}
    (h : sc.element (.ofList text) name property i = .error f)
    (hname : name.toList <:+: text) (hproperty : property.toList <:+: text) :
    sc.Shows text f := by
  unfold element at h
  dsimp only at h
  split at h
  · cases h
    exact ⟨rfl, .unboundOperand _ hproperty⟩
  · split at h
    · cases h
    · cases h
      exact ⟨rfl, .unboundOperand _ hname⟩
  · split at h
    · split at h
      · cases h
      · cases h
        exact ⟨rfl, .unboundOperand _ hname⟩
    · cases h
  · cases h
    exact ⟨rfl, .unboundOperand _ hproperty⟩

theorem shows_operand (h : sc.operand (.ofList text) token = .error f) (ht : token <:+: text) :
    sc.Shows text f := by
  have hpiece {part : List Char} (hpart : part <:+: token) :
      (String.ofList part).toList <:+: text := by
    rw [String.toList_ofList]
    exact hpart.trans ht
  unfold operand at h
  split at h
  · cases h
    exact ⟨rfl, .form _⟩
  split at h
  · cases h
  split at h
  · cases h
  split at h
  · cases h
    exact ⟨rfl, .unboundOperand _ (hpiece List.infix_rfl)⟩
  split at h
  · split at h
    · cases h
    · cases h
      exact ⟨rfl, .form _⟩
  split at h
  · exact shows_element h (hpiece List.infix_rfl) (hpiece List.infix_rfl)
  · rename_i property keyword hcut
    obtain ⟨hs, -⟩ := cut_eq_some_iff.1 hcut
    have hproperty : property <:+: property ++ '#' :: keyword := List.infix_append_left
    have hkeyword : keyword <:+: property ++ '#' :: keyword :=
      List.infix_append_of_infix_right (List.infix_cons List.infix_rfl)
    rw [← hs] at hproperty hkeyword
    rcases hi : sc.index (.ofList text) (.ofList keyword) with e | i
    · rw [hi] at h
      cases h
      exact shows_index hi (hpiece hkeyword)
    · rw [hi] at h
      exact shows_element h (hpiece List.infix_rfl) (hpiece hproperty)

theorem shows_comparison (h : sc.comparison text = .error f) : sc.Shows text f := by
  unfold comparison at h
  rcases hsplit : sc.placed text (splitTest text) with e | ⟨left, c, right⟩
  · rw [hsplit] at h
    cases h
    exact shows_placed hsplit
  obtain ⟨w₁, w₂, w₃, htext, -, -, -⟩ := of_splitTest (placed_eq_ok_iff.1 hsplit)
  rw [hsplit] at h
  change (sc.operand (.ofList text) left >>= _) = _ at h
  have hleft : left <:+: text := ⟨[], _, by rw [htext]; simp; rfl⟩
  have hright : right <:+: text := ⟨left ++ w₁ ++ c.symbol.toList ++ w₂, w₃, htext.symm⟩
  rcases hl : sc.operand (.ofList text) left with e | a
  · rw [hl] at h
    cases h
    exact shows_operand hl hleft
  rw [hl] at h
  change (sc.operand (.ofList text) right >>= _) = _ at h
  rcases hr : sc.operand (.ofList text) right with e | b
  · rw [hr] at h
    cases h
    exact shows_operand hr hright
  · rw [hr] at h
    cases h

end Errors

section Rules

/-- The pieces before the first that is no test are blank or tests. -/
theorem comparisons_error : ∀ {ps : List (List Char)}, (sc.comparisons ps).1 = .error f →
    ∃ before piece after, ps = before ++ piece :: after ∧
      (∀ p ∈ before, Blanks p ∨ ∃ t, sc.WritesTest (trim p) t) ∧ ¬ Blanks piece ∧
      sc.comparison (trim piece) = .error f
  | [], h => by cases h
  | piece :: ps, h => by
    unfold comparisons at h
    dsimp only at h
    split at h
    · rename_i hblank
      obtain ⟨before, p, after, rfl, hbefore, hp⟩ := comparisons_error h
      exact ⟨piece :: before, p, after, rfl,
        List.forall_mem_cons.2 ⟨.inl (trim_eq_nil_iff.1 hblank), hbefore⟩, hp⟩
    rename_i hne
    split at h
    · rename_i e he
      cases h
      exact ⟨[], piece, ps, rfl, by simp, mt trim_eq_nil_iff.2 hne, he⟩
    · rename_i t ht
      rcases hps : (sc.comparisons ps).1 with e | ts
      · simp only [hps] at h
        cases h
        obtain ⟨before, p, after, rfl, hbefore, hp⟩ := comparisons_error hps
        exact ⟨piece :: before, p, after, rfl,
          List.forall_mem_cons.2 ⟨.inr ⟨t, comparison_eq_ok_iff.1 ht⟩, hbefore⟩, hp⟩
      · simp only [hps] at h
        cases h

theorem writesHead_iff : sc.WritesHead s spec ↔
    ∃ origin target, sc.ruleHead spec = .ok (origin, target, s) := by
  simp only [ruleHead_eq_ok_iff]
  constructor
  · rintro @⟨w₁, w₂, w₃, w₄, o, t, origin, target, hw₁, hw₂, hw₃, hw₄, ho, ht⟩
    exact ⟨origin, target, w₁, o, w₂, w₃, t, w₄, rfl, ⟨hw₁, hw₂, hw₃, hw₄⟩, ho, ht⟩
  · rintro ⟨origin, target, w₁, o, w₂, w₃, t, w₄, rfl, ⟨hw₁, hw₂, hw₃, hw₄⟩, ho, ht⟩
    exact .intro hw₁ hw₂ hw₃ hw₄ ho ht

theorem WritesHead.suffix (h : sc.WritesHead s spec) : s <:+ spec := by
  cases h
  exact List.suffix_append ..

theorem shows_ruleHead (h : sc.ruleHead spec = .error f) : sc.Shows spec f := by
  unfold ruleHead at h
  rcases hsplit : sc.placed spec (splitRule spec) with e | ⟨origin, target, s⟩
  · rw [hsplit] at h
    cases h
    exact shows_placed hsplit
  obtain ⟨w₁, o, w₂, w₃, t, w₄, hspec, -, -, -, rfl, rfl⟩ :=
    splitRule_eq_ok_iff.1 (placed_eq_ok_iff.1 hsplit)
  have ho : o <:+: spec :=
    ⟨w₁, w₂ ++ "->".toList ++ w₃ ++ t ++ w₄ ++ "=".toList ++ s, by simp [hspec]⟩
  have ht : t <:+: spec :=
    ⟨w₁ ++ o ++ w₂ ++ "->".toList ++ w₃, w₄ ++ "=".toList ++ s, by simp [hspec]⟩
  rw [hsplit] at h
  change (sc.state (.ofList spec) (.ofList o) >>= _) = _ at h
  rcases hos : sc.state (.ofList spec) (.ofList o) with e | origin
  · rw [hos] at h
    cases h
    exact shows_state hos (by rwa [String.toList_ofList])
  rw [hos] at h
  change (sc.state (.ofList spec) (.ofList t) >>= _) = _ at h
  rcases hts : sc.state (.ofList spec) (.ofList t) with e | target
  · rw [hts] at h
    cases h
    exact shows_state hts (by rwa [String.toList_ofList])
  · rw [hts] at h
    cases h

/-- The tests of a rule cannot be read when one of them cannot be read or there is none. -/
theorem tests_error (h : (sc.tests spec s).1 = .error f) :
    (sc.comparisons (pieces ',' s)).1 = .error f ∨
      (∀ piece ∈ pieces ',' s, Blanks piece) ∧ f = sc.fault (.form (.ofList spec) .noTests) := by
  unfold tests at h
  split at h
  · rename_i hnone
    cases h
    have hread := (comparisons_eq_ok_iff _).1 (congrArg Prod.fst hnone)
    refine .inr ⟨fun piece hpiece => ?_, rfl⟩
    by_contra hne
    exact (forall₂_ne_nil_iff hread).2 ⟨piece, hpiece, hne⟩ rfl
  · exact .inl h

theorem blamed_of_rule {spec : String} (h : (sc.rule spec).1 = .error f) :
    f.object = sc.host.name ∧ sc.BlamedInRule spec.toList f.cause := by
  unfold rule at h
  split at h
  · rename_i hhead
    cases h
    obtain ⟨hobject, hquotes⟩ := shows_ruleHead hhead
    refine ⟨hobject, .head (fun s hs => ?_) hquotes⟩
    obtain ⟨origin, target, hs⟩ := writesHead_iff.1 hs
    rw [hhead] at hs
    cases hs
  rename_i origin target s hhead
  have hwrites : sc.WritesHead s spec.toList := writesHead_iff.2 ⟨origin, target, hhead⟩
  rcases ht : (sc.tests spec.toList s).1 with e | ts
  · simp only [ht] at h
    cases h
    rcases tests_error ht with hc | ⟨hblank, rfl⟩
    · obtain ⟨before, piece, after, hpieces, hbefore, hpiece, he⟩ := comparisons_error hc
      obtain ⟨hobject, hquotes⟩ := shows_comparison he
      have hmem : piece ∈ pieces ',' s := by simp [hpieces]
      have hsub : trim piece <:+: spec.toList :=
        (isInfix_trim piece).trans ((infix_of_mem_pieces hmem).trans hwrites.suffix.isInfix)
      refine ⟨hobject, .test hwrites hpieces hbefore hpiece (fun t hw => ?_) hsub hquotes⟩
      rw [comparison_eq_ok_iff.2 hw] at he
      cases he
    · exact ⟨rfl, .noTests hwrites hblank rfl⟩
  · simp only [ht] at h
    cases h

end Rules

section Holds

theorem blamed_of_hold {spec : String} (h : sc.hold spec = .error f) :
    f.object = sc.host.name ∧ BlamedInHold spec.toList f.cause := by
  unfold hold at h
  rcases hsplit : sc.placed spec.toList (splitHold spec.toList) with e | ⟨name, x, unit⟩
  · rw [hsplit] at h
    cases h
    obtain ⟨hobject, hquotes⟩ := shows_placed hsplit
    exact ⟨hobject, .whole hquotes⟩
  obtain ⟨w₁, n, w₂, s, hspec, ⟨hw₁, hw₂⟩, hn, rfl, hd⟩ :=
    splitHold_eq_ok_iff.1 (placed_eq_ok_iff.1 hsplit)
  obtain ⟨w₃, number, rest, rfl, hw₃, hnumber, hrest, hx, ⟨hfin, hnonneg⟩, rfl⟩ :=
    splitDuration_eq_ok_iff.1 hd
  rw [hsplit] at h
  change (sc.state spec (.ofList n) >>= _) = _ at h
  rcases hs : sc.state spec (.ofList n) with e | index
  · rw [hs] at h
    cases h
    have hname : n <:+: spec.toList :=
      ⟨w₁, w₂ ++ "=".toList ++ (w₃ ++ (number ++ rest)), by simp [hspec]⟩
    rw [← String.ofList_toList (s := spec)] at hs
    obtain ⟨hobject, hquotes⟩ := shows_state hs (by rwa [String.toList_ofList])
    exact ⟨hobject, .whole hquotes⟩
  rw [hs] at h
  dsimp only [bind, Except.bind] at h
  split at h
  · cases h
  cases h
  have hwrites : WritesAmount rest spec.toList :=
    hspec ▸ .intro hw₁ hw₂ hw₃ hn hnumber hrest hx hfin hnonneg
  by_cases hblank : Blanks rest
  · refine ⟨rfl, .seconds hwrites hblank ?_⟩
    rw [fault, writtenUnit, if_pos (trim_eq_nil_iff.2 hblank), String.ofList_toList]
  · have hsub : rest <:+: spec.toList :=
      ⟨w₁ ++ n ++ w₂ ++ "=".toList ++ w₃ ++ number, [], by simp [hspec]⟩
    refine ⟨rfl, .unit hwrites hblank ((isInfix_trim rest).trans hsub) ?_⟩
    rw [fault, writtenUnit, if_neg (mt trim_eq_nil_iff.1 hblank), String.ofList_toList]

end Holds

/-- A fault names the host. If a rule could not be read, the fault blames its head, its lack of
tests or the first of its tests that cannot be read; if a hold could not be read, all of it or its
unit. It quotes what it blames, and the names it carries stand there. -/
theorem located {spec : String} :
    ((sc.rule spec).1 = .error f →
      f.object = sc.host.name ∧ sc.BlamedInRule spec.toList f.cause) ∧
    (sc.hold spec = .error f → f.object = sc.host.name ∧ BlamedInHold spec.toList f.cause) :=
  ⟨blamed_of_rule, blamed_of_hold⟩

/-- A heater that can be on or off and has no numbers. -/
def heater : Scope :=
  ⟨{ name := "heater" }, [⟨"OFF", 0⟩, ⟨"ON", 1⟩], 2⟩

/-- The second of three tests names a property that the heater does not have; and it does not know
what a light year is. -/
theorem located_heater :
    let rule := "OFF->ON=$timer>$state, $timer>speed ,$state"
    let hold := "ON=5 lightyears"
    let cause₁ := Cause.unboundOperand "$timer>speed" "speed" .noProperty
    let cause₂ := Cause.unconvertible hold "lightyears"
    ((heater.rule rule).1 = .error ⟨"heater", cause₁⟩ ∧
      heater.BlamedInRule rule.toList cause₁) ∧
    heater.hold hold = .error ⟨"heater", cause₂⟩ ∧ BlamedInHold hold.toList cause₂ := by
  intro rule hold cause₁ cause₂
  have h₁ : (heater.rule rule).1 = .error ⟨"heater", cause₁⟩ := by
    have h : ((heater.rule rule).1.map fun _ => ()) = .error ⟨"heater", cause₁⟩ := by
      decide +kernel
    rcases hr : (heater.rule rule).1 with e | c <;> rw [hr] at h <;> cases h
    rfl
  have h₂ : heater.hold hold = .error ⟨"heater", cause₂⟩ := by decide +kernel
  exact ⟨⟨h₁, (located.1 h₁).2⟩, h₂, (located.2 h₂).2⟩

end Scope

end Dwell

import Dwell.Proofs.Double.Numeral
import Dwell.Proofs.Rule.Form

/-!
# The form of holds

A hold is written as the name of a state, an equals sign, a number and a unit of time, which may be
left out (`Scope.hold_eq_ok_iff`). The number takes all the characters that numbers are made of, and
`e` is one of them. So a unit that starts with an `e` must have a blank before it: any other may
follow the number at once, and then the hold is read as it is with a blank there
(`Scope.hold_of_fixedPoint`).
-/

namespace Dwell

open Text

section Characters

variable {c : Char}

theorem isBlank_of_isDurationChar (h : isDurationChar c = true) : isBlank c = false := by
  simp only [isDurationChar, Bool.or_eq_true, decide_eq_true_eq] at h
  rcases h with h | h
  · obtain ⟨h₁, h₂⟩ := isDigit_iff.1 h
    exact isBlank_of_printable (by omega) (by omega)
  · simp only [List.mem_cons, List.not_mem_nil, or_false] at h
    rcases h with rfl | rfl | rfl | rfl | rfl <;> decide

theorem isBlank_of_isAlpha (h : c.isAlpha = true) : isBlank c = false := by
  rw [isAlpha_iff] at h
  exact isBlank_of_printable (by omega) (by omega)

/-- Of the letters, only those that mark an exponent may be in a number. -/
theorem isDurationChar_of_isAlpha (h : c.isAlpha = true) :
    isDurationChar c = isExponentMark c := by
  have hdigit : c.isDigit = false := by
    by_contra hd
    simp [isAlpha_of_isDigit (by simpa using hd)] at h
  have hmark : c ≠ '.' ∧ c ≠ '+' ∧ c ≠ '-' := by
    refine ⟨?_, ?_, ?_⟩ <;> rintro rfl <;> exact absurd h (by decide)
  simp only [isDurationChar, hdigit, Bool.false_or, isExponentMark, List.mem_cons,
    hmark.1, hmark.2.1, hmark.2.2, false_or, List.not_mem_nil, or_false]
  by_cases h₁ : c = 'e' <;> by_cases h₂ : c = 'E' <;> simp [h₁, h₂]

end Characters

section Durations

variable {s number rest : List Char} {x : Float} {unit : String} {f : FormFault}

/-- The unit that is written behind a number: seconds if nothing is written. -/
def writtenUnit (rest : List Char) : String :=
  if trim rest = [] then "s" else .ofList (trim rest)

theorem splitDuration_append {w : List Char} (hw : Blanks w) (hn : Word isDurationChar number)
    (hrest : Ends isDurationChar rest) :
    splitDuration (w ++ (number ++ rest)) = match Double.read? number with
      | some x =>
        if x.isFinite ∧ 0 ≤ x then .ok (x, writtenUnit rest)
        else .error (.invalidDuration (.ofList number))
      | none => .error (.invalidDuration (.ofList number)) := by
  have hspan : (dropBlank (w ++ (number ++ rest))).span isDurationChar = (number, rest) := by
    rw [dropBlank_append hw (ends_word (fun _ => isBlank_of_isDurationChar) hn)]
    exact span_eq_iff.2 ⟨rfl, hn.2, hrest⟩
  unfold splitDuration
  rw [hspan]
  rfl

theorem splitDuration_eq_ok_iff : splitDuration s = .ok (x, unit) ↔
    ∃ w number rest, s = w ++ (number ++ rest) ∧ Blanks w ∧ Word isDurationChar number ∧
      Ends isDurationChar rest ∧ Double.read? number = some x ∧ (x.isFinite = true ∧ 0 ≤ x) ∧
      unit = writtenUnit rest := by
  constructor
  · intro h
    rcases hspan : (dropBlank s).span isDurationChar with ⟨number, rest⟩
    obtain ⟨hs, hn, hrest⟩ := span_eq_iff.1 hspan
    obtain ⟨w, rfl, hw, -⟩ := dropBlank_eq_iff.1 hs
    simp only [splitDuration, hspan] at h
    split at h
    · rename_i y hy
      split at h
      · rename_i hfin
        cases h
        refine ⟨w, number, rest, rfl, hw, ⟨?_, hn⟩, hrest, hy, hfin, rfl⟩
        rintro rfl
        cases hy
      · cases h
    · cases h
  · rintro ⟨w, number, rest, rfl, hw, hn, hrest, hx, hfin, rfl⟩
    rw [splitDuration_append hw hn hrest, hx]
    simp only [if_pos hfin]

theorem trim_append {a b : List Char} (ha : Blanks a) (hb : Blanks b) (hs : Word (! isBlank ·) s) :
    trim (a ++ (s ++ b)) = s := by
  have hends : ∀ {t r : List Char}, Word (! isBlank ·) t → Ends isBlank (t ++ r) := fun ht =>
    ends_word (fun c hc => by simpa using hc) ht
  have hreverse : Word (! isBlank ·) s.reverse := by simpa [Word] using hs
  have hb' : Blanks b.reverse := by simpa [Blanks] using hb
  have hlast : dropBlank (b.reverse ++ s.reverse) = s.reverse :=
    dropBlank_append hb' (by simpa using hends (r := []) hreverse)
  rw [trim, dropBlank_append ha (hends hs), List.reverse_append, hlast, List.reverse_reverse]

end Durations

section Holds

variable {w₁ w₂ n s spec : List Char} {x : Float} {name unit : String} {index : Nat}

theorem splitHold_append (hw₁ : Blanks w₁) (hw₂ : Blanks w₂) (hn : Word isNameChar n) :
    splitHold (w₁ ++ n ++ w₂ ++ "=".toList ++ s)
      = (splitDuration s).map fun d => (.ofList n, d) := by
  have hname : splitName (w₁ ++ n ++ w₂ ++ "=".toList ++ s) .missingState
      = .ok (.ofList n, w₂ ++ ("=".toList ++ s)) :=
    splitName_eq_ok_iff.2 ⟨w₁, n, by simp, hw₁, hn,
      ends_blanks (fun _ => isBlank_of_isNameChar) hw₂ (ends_cons.2 (by decide)), rfl⟩
  have hmark : skipMark "=" (w₂ ++ ("=".toList ++ s)) = .ok s :=
    (skipMark_eq_ok_iff (by decide)).2 ⟨w₂, by simp, hw₂⟩
  unfold splitHold
  rw [hname]
  change (skipMark "=" (w₂ ++ ("=".toList ++ s)) >>= _) = _
  rw [hmark]
  change (splitDuration s >>= _) = _
  cases splitDuration s <;> rfl

theorem splitHold_eq_ok_iff : splitHold spec = .ok (name, x, unit) ↔
    ∃ w₁ n w₂ s, spec = w₁ ++ n ++ w₂ ++ "=".toList ++ s ∧ (Blanks w₁ ∧ Blanks w₂) ∧
      Word isNameChar n ∧ name = .ofList n ∧ splitDuration s = .ok (x, unit) := by
  constructor
  · intro h
    unfold splitHold at h
    obtain ⟨⟨_, s₁⟩, hname, h⟩ := bind_eq_ok h
    obtain ⟨s, hmark, h⟩ := bind_eq_ok h
    obtain ⟨⟨_, _⟩, hd, h⟩ := bind_eq_ok h
    cases h
    obtain ⟨w₁, n, rfl, hw₁, hn, -, rfl⟩ := splitName_eq_ok_iff.1 hname
    obtain ⟨w₂, rfl, hw₂⟩ := (skipMark_eq_ok_iff (by decide)).1 hmark
    exact ⟨w₁, n, w₂, s, by simp, ⟨hw₁, hw₂⟩, hn, rfl, hd⟩
  · rintro ⟨w₁, n, w₂, s, rfl, ⟨hw₁, hw₂⟩, hn, rfl, hd⟩
    rw [splitHold_append hw₁ hw₂ hn, hd]
    rfl

namespace Scope

variable {sc : Scope} {seconds : Float}

theorem hold_append (hw₁ : Blanks w₁) (hw₂ : Blanks w₂) (hn : sc.NamesState n index) :
    let spec := String.ofList (w₁ ++ n ++ w₂ ++ "=".toList ++ s)
    sc.hold spec = match splitDuration s with
      | .error f => .error (sc.fault (.form spec f))
      | .ok (x, unit) => match sc.host.units.convert x unit "s" with
        | some seconds => .ok (index, seconds)
        | none => .error (sc.fault (.unconvertible spec unit)) := by
  intro spec
  have hstate : sc.state spec (.ofList n) = .ok index :=
    state_eq_ok_iff.2 ⟨hn.value?, hn.lt⟩
  have hsplit := splitHold_append (s := s) hw₁ hw₂ hn.word
  unfold hold
  rw [String.toList_ofList, hsplit]
  rcases splitDuration s with f | ⟨x, unit⟩
  · rfl
  · change (sc.state spec (.ofList n) >>= _) = _
    rw [hstate]
    dsimp only [bind, Except.bind]
    cases sc.host.units.convert x unit "s" <;> rfl

/-- The holds that can be read: the name of a state, an equals sign, a finite number that is not
negative, and a unit that the host can convert to seconds. -/
theorem hold_eq_ok_iff {spec : String} : sc.hold spec = .ok (index, seconds) ↔
    ∃ w₁ n w₂ s x unit, spec.toList = w₁ ++ n ++ w₂ ++ "=".toList ++ s ∧
      (Blanks w₁ ∧ Blanks w₂) ∧ sc.NamesState n index ∧ splitDuration s = .ok (x, unit) ∧
      sc.host.units.convert x unit "s" = some seconds := by
  constructor
  · intro h
    unfold hold at h
    obtain ⟨⟨name, x, unit⟩, hsplit, h⟩ := bind_eq_ok h
    obtain ⟨s', hstate, h⟩ := bind_eq_ok h
    split at h
    · rename_i hconv
      cases h
      obtain ⟨w₁, n, w₂, s, hspec, hw, hn, rfl, hd⟩ :=
        splitHold_eq_ok_iff.1 (placed_eq_ok_iff.1 hsplit)
      obtain ⟨hvalue, hlt⟩ := state_eq_ok_iff.1 hstate
      exact ⟨w₁, n, w₂, s, x, unit, hspec, hw, ⟨hn, hvalue, hlt⟩, hd, hconv⟩
    · cases h
  · rintro ⟨w₁, n, w₂, s, x, unit, hspec, ⟨hw₁, hw₂⟩, hn, hd, hconv⟩
    rw [← String.ofList_toList (s := spec), hspec, hold_append hw₁ hw₂ hn, hd]
    simp only [hconv]

end Scope

end Holds

section Spellings

variable {n u w rest : List Char} {x : Float}

theorem isDurationChar_of_fixedPoint (hn : Double.IsFixedPoint n) :
    ∀ c ∈ n, isDurationChar c = true := fun c hc => by
  rcases hn.of_mem hc with h | rfl
  · simp [isDurationChar, h]
  · decide

theorem ends_isDurationChar_blanks (hw : Blanks w) (hr : Ends isDurationChar rest) :
    Ends isDurationChar (w ++ rest) :=
  ends_blanks (fun _ => isBlank_of_isDurationChar) hw hr

/-- Behind a number without an exponent, a unit starts where no mark of an exponent stands. -/
theorem splitDuration_fixedPoint (hw : Blanks w) (hn : Double.IsFixedPoint n)
    (hx : Double.read? n = some x) (hfin : x.isFinite = true) (hr : Ends isDurationChar rest) :
    splitDuration (w ++ (n ++ rest)) = .ok (x, writtenUnit rest) := by
  rw [splitDuration_append hw ⟨Double.ne_nil_of_read? hx, isDurationChar_of_fixedPoint hn⟩ hr, hx]
  simp only [if_pos (And.intro hfin (Double.nonneg_of_read? hn hx hfin))]

theorem splitDuration_marks (hw : Blanks w) (hn : Double.IsFixedPoint n) (hne : n ≠ [])
    {e : List Char} (he : Word isExponentMark e) (hr : Ends isDurationChar rest) :
    splitDuration (w ++ (n ++ e ++ rest)) = .error (.invalidDuration (.ofList (n ++ e))) := by
  have hmarks : ∀ c ∈ e, isDurationChar c = true := fun c hc => by
    have hc : c = 'e' ∨ c = 'E' := by simpa [isExponentMark] using he.2 c hc
    rcases hc with rfl | rfl <;> decide
  have hword : Word isDurationChar (n ++ e) :=
    ⟨by simp [hne], fun c hc => (List.mem_append.1 hc).elim (isDurationChar_of_fixedPoint hn c)
      (hmarks c)⟩
  rw [splitDuration_append hw hword hr, Double.read?_append_marks hn hne he]

theorem writtenUnit_append (hu : Word Char.isAlpha u) {a b : List Char} (ha : Blanks a)
    (hb : Blanks b) : writtenUnit (a ++ (u ++ b)) = .ofList u := by
  have htrim := trim_append ha hb
    ⟨hu.1, fun c hc => by simpa using isBlank_of_isAlpha (hu.2 c hc)⟩
  rw [writtenUnit, htrim, if_neg hu.1]

/-- What is left of a unit behind the marks of an exponent that it starts with is in no number. -/
theorem ends_dropWhile_marks (hu : ∀ c ∈ u, c.isAlpha = true) {b : List Char} (hb : Blanks b) :
    Ends isDurationChar (u.dropWhile isExponentMark ++ b) := by
  rcases h : u.dropWhile isExponentMark with _ | ⟨c, s⟩
  · have hnil : Ends isDurationChar [] := by simp [Ends]
    simpa using ends_isDurationChar_blanks hb hnil
  · have hc : c ∈ u := (List.dropWhile_sublist _).mem (h ▸ List.mem_cons_self)
    have hmark := List.head?_dropWhile_not isExponentMark u
    rw [h] at hmark
    exact ends_cons.2 ((isDurationChar_of_isAlpha (hu c hc)).trans (by simpa using hmark))

/-- With blanks between its number and its unit a hold is read as it is written. Without them it is
read in the same way if the unit starts with no mark of an exponent; otherwise the marks are taken
for a part of the number, which then is none. -/
theorem Scope.hold_of_fixedPoint {sc : Scope} {w₁ w₂ w₃ w₄ name : List Char} {index : Nat}
    {seconds : Float} (hw : Blanks w₁ ∧ Blanks w₂ ∧ Blanks w₃ ∧ Blanks w₄)
    (hname : sc.NamesState name index) (hn : Double.IsFixedPoint n)
    (hx : Double.read? n = some x) (hfin : x.isFinite = true) (hu : Word Char.isAlpha u)
    (hconv : sc.host.units.convert x (.ofList u) "s" = some seconds) :
    let spelling (between : List Char) := String.ofList
      (w₁ ++ name ++ w₂ ++ "=".toList ++ (w₃ ++ (n ++ (between ++ (u ++ w₄)))))
    let marks := u.takeWhile isExponentMark
    (∀ between, Word isBlank between → sc.hold (spelling between) = .ok (index, seconds)) ∧
      sc.hold (spelling []) = if marks = [] then .ok (index, seconds) else
        .error (sc.fault (.form (spelling []) (.invalidDuration (.ofList (n ++ marks))))) := by
  obtain ⟨hw₁, hw₂, hw₃, hw₄⟩ := hw
  intro spelling marks
  have hread {between : List Char} (hb : Blanks between)
      (hends : Ends isDurationChar (between ++ (u ++ w₄))) :
      sc.hold (spelling between) = .ok (index, seconds) := by
    have hd := splitDuration_fixedPoint hw₃ hn hx hfin hends
    rw [writtenUnit_append hu hb hw₄] at hd
    simp only [spelling, hold_append hw₁ hw₂ hname, hd, hconv]
  have hsplit : u = marks ++ u.dropWhile isExponentMark :=
    List.takeWhile_append_dropWhile.symm
  have hrest := ends_dropWhile_marks hu.2 hw₄
  refine ⟨fun between hb => hread hb.2 ?_, ?_⟩
  · refine ends_word (fun c hc => ?_) hb
    by_contra h
    simp [isBlank_of_isDurationChar (by simpa using h)] at hc
  · by_cases hmarks : marks = []
    · rw [if_pos hmarks]
      rw [hmarks, List.nil_append] at hsplit
      exact hread (by simp [Blanks]) (by rwa [List.nil_append, hsplit])
    · rw [if_neg hmarks]
      have hd := splitDuration_marks hw₃ hn (Double.ne_nil_of_read? hx)
        ⟨hmarks, fun c hc => List.mem_takeWhile_imp hc⟩ hrest
      have htext : n ++ ([] ++ (u ++ w₄)) = n ++ marks ++ (u.dropWhile isExponentMark ++ w₄) := by
        conv_lhs => rw [hsplit]
        simp
      simp only [spelling, htext, hold_append hw₁ hw₂ hname, hd]

/-- A host whose durations may also be given in eons. -/
def eonHost : Host where
  name := "heater"
  units := .ofScales fun unit =>
    if unit = "s" then some 1.0 else if unit = "eon" then some 3.15576e16 else none

def eonScope : Scope :=
  ⟨eonHost, [⟨"OFF", 0⟩, ⟨"ON", 1⟩], 2⟩

/-- One eon, with a blank before its unit. -/
theorem Scope.hold_of_fixedPoint_eon : eonScope.hold "ON=1 eon" = .ok (1, 3.15576e16) := by
  have hword : Word isNameChar "ON".toList := by decide
  have hname : eonScope.NamesState "ON".toList 1 := ⟨hword, by decide, by decide⟩
  have hn : Word Char.isDigit "1".toList := by decide
  have hu : Word Char.isAlpha "eon".toList := by decide
  have hconv : eonScope.host.units.convert 1.0 (.ofList "eon".toList) "s" = some 3.15576e16 := by
    decide +kernel
  have hw : Blanks [] := by simp [Blanks]
  have hx : Double.read? "1".toList = some 1.0 := by decide +kernel
  exact (hold_of_fixedPoint ⟨hw, hw, hw, hw⟩ hname (.whole hn.2) hx (by decide +kernel) hu
    hconv).1 [' '] (by decide)

/-- The eon's first letter is taken for the mark of an exponent if no blank stands before it. -/
theorem Scope.hold_eon_without_blank :
    eonScope.NamesState "ON".toList 1 ∧ Double.IsFixedPoint "1".toList ∧
      Double.read? "1".toList = some 1.0 ∧ Word Char.isAlpha "eon".toList ∧
      eonScope.host.units.convert 1.0 "eon" "s" = some 3.15576e16 ∧
      eonScope.hold "ON=1 eon" = .ok (1, 3.15576e16) ∧
      eonScope.hold "ON=1eon" =
        .error ⟨"heater", .form "ON=1eon" (.invalidDuration "1e")⟩ :=
  have hn : Word Char.isDigit "1".toList := by decide
  ⟨⟨by decide, by decide, by decide⟩, .whole hn.2, by decide +kernel, by decide,
    by decide +kernel, by decide +kernel, by decide +kernel⟩

end Spellings

end Dwell

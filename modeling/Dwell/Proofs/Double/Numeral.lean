import Dwell.Proofs.Double.Sign
import Dwell.Proofs.Text.Digits

/-!
# How numerals are read

The digits of a numeral end at its point, at its exponent or where it ends, and the number is that
of all its digits, scaled by its exponent and by the digits behind the point (`readDigits?_whole`,
`readDigits?_point`). A text that starts with a digit or a point is no word and has no sign
(`read?_cons`), and one that ends with the mark of an exponent is no numeral
(`read?_append_marks`).
-/

namespace Dwell

open Text

section Characters

variable {c : Char} {s : List Char}

theorem isDigit_iff : c.isDigit = true ↔ 48 ≤ c.toNat ∧ c.toNat ≤ 57 := by
  simp only [Char.isDigit, Bool.and_eq_true, decide_eq_true_eq, ge_iff_le, UInt32.le_iff_toNat_le,
    Char.toNat_val]
  exact Iff.rfl

theorem isAlpha_iff : c.isAlpha = true ↔
    65 ≤ c.toNat ∧ c.toNat ≤ 90 ∨ 97 ≤ c.toNat ∧ c.toNat ≤ 122 := by
  change (decide (c.val ≥ 65 ∧ c.val ≤ 90) || (decide (c.val ≥ 97) && decide (c.val ≤ 122)))
    = true ↔ _
  simp only [Bool.or_eq_true, Bool.and_eq_true, decide_eq_true_eq, ge_iff_le,
    UInt32.le_iff_toNat_le, UInt32.reduceToNat, Char.toNat_val]

theorem isAlpha_of_isDigit (h : c.isDigit = true) : c.isAlpha = false := by
  by_contra ha
  rw [Bool.not_eq_false, isAlpha_iff] at ha
  have := isDigit_iff.1 h
  omega

theorem ne_sign_of_isDigit (h : c.isDigit = true) : c ≠ '-' ∧ c ≠ '+' := by
  constructor <;> rintro rfl <;> cases h

theorem head_of_digit (h : s.head?.any Char.isDigit = true) : ∃ c s', s = c :: s' ∧ c.isDigit :=
  match s, h with
  | c :: s', h => ⟨c, s', rfl, h⟩

theorem head?_any_of_word (h : Word Char.isDigit s) : s.head?.any Char.isDigit = true := by
  obtain ⟨c, s, rfl⟩ := List.exists_cons_of_ne_nil h.1
  exact h.2 c List.mem_cons_self

/-- The letters that mark the exponent of a number. -/
def isExponentMark (c : Char) : Bool :=
  c == 'e' || c == 'E'

end Characters

namespace Double

section Digits

variable {c : Char} {s t : List Char}

theorem digitsValue_append (s t : List Char) :
    digitsValue (s ++ t) = 10 ^ t.length * digitsValue s + digitsValue t := by
  have happend : digitsValue (s ++ t) = Nat.ofDigitChars 10 t (digitsValue s) :=
    Nat.ofDigitChars_append 0
  rw [happend, Nat.ofDigitChars_eq_ofDigitChars_zero]
  rfl

theorem digitsValue_cons (c : Char) (s : List Char) :
    digitsValue (c :: s) = 10 ^ s.length * (c.toNat - '0'.toNat) + digitsValue s := by
  have hone : digitsValue [c] = c.toNat - '0'.toNat := by
    change 10 * 0 + _ = _
    rw [Nat.mul_zero, Nat.zero_add]
  rw [← List.singleton_append, digitsValue_append, hone]

theorem digitsValue_zeros (n : Nat) : digitsValue (List.replicate n '0') = 0 :=
  Nat.ofDigitChars_replicate_zero

theorem digitsValue_zeros_append (n : Nat) (s : List Char) :
    digitsValue (List.replicate n '0' ++ s) = digitsValue s := by
  rw [digitsValue_append, digitsValue_zeros, Nat.mul_zero, Nat.zero_add]

theorem digitsValue_append_zeros (s : List Char) (n : Nat) :
    digitsValue (s ++ List.replicate n '0') = 10 ^ n * digitsValue s := by
  rw [digitsValue_append, digitsValue_zeros, List.length_replicate, Nat.add_zero]

theorem isDigit_of_mem_zeros {n : Nat} (h : c ∈ List.replicate n '0') : c.isDigit = true := by
  rw [List.eq_of_mem_replicate h]
  decide

/-- Zeros in front do not count. -/
theorem digitsValue_dropWhile (s : List Char) :
    digitsValue (s.dropWhile (· == '0')) = digitsValue s := by
  induction s with
  | nil => rfl
  | cons c s ih =>
    rw [List.dropWhile_cons]
    split
    · rename_i hc
      rw [ih, digitsValue_cons, beq_iff_eq.1 hc, Nat.sub_self, Nat.mul_zero, Nat.zero_add]
    · rfl

theorem digitsValue_lt (h : ∀ c ∈ s, c.isDigit = true) : digitsValue s < 10 ^ s.length := by
  induction s with
  | nil => decide
  | cons c s ih =>
    have hc := isDigit_iff.1 (h c List.mem_cons_self)
    have hs := ih fun c hc => h c (List.mem_cons_of_mem _ hc)
    have hdigit : c.toNat - '0'.toNat ≤ 9 := by
      change c.toNat - 48 ≤ 9
      omega
    have := Nat.mul_le_mul_left (10 ^ s.length) hdigit
    rw [digitsValue_cons, List.length_cons, pow_succ]
    omega

/-- Digits that do not start with a zero make a number of so many digits. -/
theorem le_digitsValue (hc : c.isDigit = true) (h : c ≠ '0') (s : List Char) :
    10 ^ s.length ≤ digitsValue (c :: s) := by
  have hdigit : 1 ≤ c.toNat - '0'.toNat := by
    have hc := isDigit_iff.1 hc
    have hzero : c.toNat ≠ 48 := fun heq => h (Char.toNat_inj.1 heq)
    change 1 ≤ c.toNat - 48
    omega
  rw [digitsValue_cons]
  exact (Nat.le_mul_of_pos_right _ hdigit).trans (Nat.le_add_right _ _)

end Digits

section Reading

/-- Digits, with at most one point before, among or after them. -/
inductive IsFixedPoint : List Char → Prop
  | whole {a} : (∀ c ∈ a, c.isDigit = true) → IsFixedPoint a
  | point {a b} : (∀ c ∈ a, c.isDigit = true) → (∀ c ∈ b, c.isDigit = true) →
    IsFixedPoint (a ++ '.' :: b)

theorem IsFixedPoint.of_mem {n : List Char} (h : IsFixedPoint n) {c : Char} (hc : c ∈ n) :
    c.isDigit = true ∨ c = '.' := by
  cases h with
  | whole ha => exact .inl (ha c hc)
  | point ha hb =>
    rcases List.mem_append.1 hc with hc | hc
    · exact .inl (ha c hc)
    · rcases List.mem_cons.1 hc with rfl | hc
      · exact .inr rfl
      · exact .inl (hb c hc)

theorem ne_nil_of_read? {n : List Char} {x : Float} (hx : read? n = some x) : n ≠ [] := by
  rintro rfl
  cases hx

/-- A text that starts with a digit or a point is no word. -/
theorem readUnsigned?_cons {c : Char} {s : List Char} (hc : c.isDigit = true ∨ c = '.') :
    readUnsigned? (c :: s) = readDigits? (c :: s) := by
  have halpha : c.isAlpha = false := by
    rcases hc with hc | rfl
    · exact isAlpha_of_isDigit hc
    · rfl
  have hword (d : Char) (w : List Char) (hd : d.isAlpha = true) :
      String.ofList ((c :: s).map Char.toLower) ≠ .ofList (d :: w) := by
    intro h
    have hhead := (List.cons.inj (String.ofList_injective h)).1
    rw [← Char.isAlpha_toLower_eq_isAlpha, hhead, hd] at halpha
    cases halpha
  have hinf := hword 'i' ['n', 'f'] rfl
  have hinfinity := hword 'i' ['n', 'f', 'i', 'n', 'i', 't', 'y'] rfl
  have hnan := hword 'n' ['a', 'n'] rfl
  unfold readUnsigned?
  dsimp only
  rw [if_neg (by rintro (h | h); exacts [hinf h, hinfinity h]), if_neg hnan]

theorem splitSign_cons {c : Char} {s : List Char} (hc : c.isDigit = true ∨ c = '.') :
    splitSign (c :: s) = (false, c :: s) := by
  unfold splitSign
  split <;> rename_i h
  · obtain ⟨rfl, -⟩ := List.cons.inj h
    exact absurd hc (by decide)
  · obtain ⟨rfl, -⟩ := List.cons.inj h
    exact absurd hc (by decide)
  · rfl

/-- A text that starts with a digit or a point is no word and has no sign. -/
theorem read?_cons {c : Char} {s : List Char} (hc : c.isDigit = true ∨ c = '.') :
    read? (c :: s) = readDigits? (c :: s) := by
  unfold read?
  rw [splitSign_cons hc]
  dsimp only
  rw [readUnsigned?_cons hc]
  simp

/-- The double that a row of digits is read as with a power of ten. -/
def ofDigits (s : List Char) (e : Int) : Float :=
  ofDecimal (digitsValue (s.dropWhile (· == '0'))) (s.dropWhile (· == '0')).length e

section Parts

variable {whole fraction rest : List Char}

theorem readDigits?_whole (hw : Word Char.isDigit whole) (hrest : Ends Char.isDigit rest)
    (hpoint : '.' ∉ rest.head?) :
    readDigits? (whole ++ rest) = (readExponent? rest).map (ofDigits whole) := by
  have hsplit : splitDigits (whole ++ rest) = (whole, rest) := span_eq_iff.2 ⟨rfl, hw.2, hrest⟩
  unfold readDigits?
  rw [hsplit]
  dsimp only
  split
  · exact absurd rfl hpoint
  · rw [if_neg (fun h => hw.1 h.1), List.append_nil]
    simp only [List.length_nil, Nat.cast_zero, sub_zero]
    rfl

theorem readDigits?_point (hw : Word Char.isDigit whole)
    (hf : ∀ c ∈ fraction, c.isDigit = true) (hrest : Ends Char.isDigit rest) :
    readDigits? (whole ++ '.' :: (fraction ++ rest)) =
      (readExponent? rest).map fun e => ofDigits (whole ++ fraction) (e - fraction.length) := by
  have hsplit : splitDigits (whole ++ '.' :: (fraction ++ rest))
      = (whole, '.' :: (fraction ++ rest)) := span_eq_iff.2 ⟨rfl, hw.2, ends_cons.2 rfl⟩
  have hsplit' : splitDigits (fraction ++ rest) = (fraction, rest) :=
    span_eq_iff.2 ⟨rfl, hf, hrest⟩
  unfold readDigits?
  simp only [hsplit, hsplit']
  rw [if_neg (fun h => hw.1 h.1)]
  rfl

end Parts

/-- An exponent needs digits. -/
theorem readExponent?_marks {e : List Char} (he : Word isExponentMark e) :
    readExponent? e = none := by
  obtain ⟨c, s, rfl⟩ := List.exists_cons_of_ne_nil he.1
  have hc : c = 'e' ∨ c = 'E' := by simpa [isExponentMark] using he.2 c List.mem_cons_self
  rw [readExponent?, if_pos hc]
  rcases s with _ | ⟨d, s⟩
  · rfl
  · have hd : d = 'e' ∨ d = 'E' := by simpa [isExponentMark] using he.2 d (by simp)
    rcases hd with rfl | rfl <;> simp [splitSign]

theorem readDigits?_append {n e : List Char} (hn : IsFixedPoint n) (he : Word isExponentMark e) :
    readDigits? (n ++ e) = none := by
  have hnone := readExponent?_marks he
  obtain ⟨c, s, rfl⟩ := List.exists_cons_of_ne_nil he.1
  have hc : c.isDigit = false ∧ c ≠ '.' := by
    have : c = 'e' ∨ c = 'E' := by simpa [isExponentMark] using he.2 c List.mem_cons_self
    rcases this with rfl | rfl <;> decide
  have hends : Ends Char.isDigit (c :: s) := ends_cons.2 hc.1
  cases hn with
  | whole ha =>
    have h : splitDigits (n ++ c :: s) = (n, c :: s) := span_eq_iff.2 ⟨rfl, ha, hends⟩
    unfold readDigits?
    rw [h]
    dsimp only
    split
    · rename_i heq
      exact absurd (List.cons.inj heq).1 hc.2
    · simp [hnone]
  | @point a b ha hb =>
    have h : splitDigits (a ++ '.' :: b ++ c :: s) = (a, '.' :: (b ++ c :: s)) :=
      span_eq_iff.2 ⟨by simp, ha, ends_cons.2 rfl⟩
    have h' : splitDigits (b ++ c :: s) = (b, c :: s) := span_eq_iff.2 ⟨rfl, hb, hends⟩
    unfold readDigits?
    rw [h]
    simp [h', hnone]

theorem read?_append_marks {n e : List Char} (hn : IsFixedPoint n) (hne : n ≠ [])
    (he : Word isExponentMark e) : read? (n ++ e) = none := by
  have hnone := readDigits?_append hn he
  obtain ⟨c, n, rfl⟩ := List.exists_cons_of_ne_nil hne
  rw [List.cons_append, read?_cons (hn.of_mem List.mem_cons_self)]
  exact hnone

/-- A numeral without a sign denotes no negative number. -/
theorem nonneg_of_read? {n : List Char} {x : Float} (hn : IsFixedPoint n) (hx : read? n = some x)
    (hfin : x.isFinite = true) : 0 ≤ x := by
  refine nonneg_of_isPlus (isPlus_read? (fun h => ?_) hx) hfin
  have := hn.of_mem (List.mem_of_mem_head? h)
  exact absurd this (by decide)

end Reading

end Double

end Dwell

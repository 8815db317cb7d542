import Dwell.Proofs.Double.Stored
import Dwell.Scenario.Writing
import Dwell.Yaml.Reading

/-!
# Scalars that are read back

A whole number is written as digits that are read as that number, whether the reader asks for a
number or goes by what the scalar denotes (`int_intNode`, `settledInt_intNode`). A finite double is
written in digits with a point or an exponent (`IsFraction`), so no reader takes it for a whole
number or a text, and what it is read as is the number it was; the infinities and what is not a
number have names of their own (`exists_writtenAs`).
-/

namespace Dwell

open Yaml Text
open Double (Layout IsFraction parts)

section Numeral

variable {s : List Char} {t : String}

/-- Whether a text starts with a digit, behind its sign if it has one. -/
def startsNumber (s : List Char) : Bool :=
  (dropSign s).head?.any Char.isDigit

/-- A number without a sign, behind a minus sign if it is negative. -/
def signed (negative : Bool) (s : List Char) : List Char :=
  (if negative then ['-'] else []) ++ s

theorem dropSign_signed (h : s.head?.any Char.isDigit = true) (negative : Bool) :
    dropSign (signed negative s) = s := by
  cases negative with
  | true => rfl
  | false =>
    obtain ⟨c, s, rfl, hc⟩ := head_of_digit h
    obtain ⟨hminus, hplus⟩ := ne_sign_of_isDigit hc
    change dropSign (c :: s) = c :: s
    unfold dropSign
    split
    · rename_i heq
      exact absurd (List.cons.inj heq).1 hminus
    · rename_i heq
      exact absurd (List.cons.inj heq).1 hplus
    · rfl

theorem readInt?_signed (h : s.head?.any Char.isDigit = true) (negative : Bool) :
    readInt? (signed negative s) =
      (readNatural? s).map fun n : Nat => if negative then -(n : Int) else n := by
  cases negative with
  | true => exact map_lift _ fun n => -n
  | false =>
    obtain ⟨c, s, rfl, hc⟩ := head_of_digit h
    obtain ⟨hminus, hplus⟩ := ne_sign_of_isDigit hc
    change readInt? (c :: s) = _
    unfold readInt?
    split
    · rename_i heq
      exact absurd (List.cons.inj heq).1 hminus
    · rename_i heq
      exact absurd (List.cons.inj heq).1 hplus
    · exact map_lift _ fun n => n

theorem not_mem_of_startsNumber {words : List String} (h : startsNumber t.toList = true)
    (hwords : ∀ w ∈ words, startsNumber w.toList = false) : t ∉ words := fun hmem => by
  rw [hwords t hmem] at h
  cases h

/-- What starts like a number is a number or a text. -/
theorem ofPlain_of_startsNumber (h : startsNumber t.toList = true) :
    Value.ofPlain t = match readWide? t with
      | some n => .int n
      | none =>
        if isPadded t.toList then .text t
        else match readFloat? t.toList with
          | some x => .float x
          | none => .text t := by
  have hne : t ∉ [""] := not_mem_of_startsNumber h (by decide)
  have hnull : isNull t = false :=
    decide_eq_false (not_mem_of_startsNumber h (by decide))
  have hbool : readBool? t = none := by
    unfold readBool?
    rw [if_neg (not_mem_of_startsNumber h (by decide)),
      if_neg (not_mem_of_startsNumber h (by decide))]
  unfold Value.ofPlain
  rw [if_neg (by simpa [hnull] using hne)]
  generalize readBool? t = bool? at hbool ⊢
  subst hbool
  rfl

end Numeral

section Whole

variable {n : Int} {k : Nat}

/-- Digits and nothing else are read in decimal. -/
theorem readNatural?_of_decimal {s : List Char} (h : ∀ c ∈ s, c ∉ ['x', 'o', 'b']) :
    readNatural? s = if isPadded s then none else natural? 10 s := by
  unfold readNatural?
  split
  · exact absurd (h 'x' (by simp)) (by decide)
  · exact absurd (h 'o' (by simp)) (by decide)
  · exact absurd (h 'b' (by simp)) (by decide)
  · rfl

theorem isPadded_toDigits (k : Nat) (negative : Bool) :
    isPadded (signed negative (Nat.toDigits 10 k)) = false := by
  have hhead := head?_any_of_word (word_toDigits k)
  unfold isPadded
  rw [dropSign_signed hhead]
  rcases Nat.eq_zero_or_pos k with rfl | hk
  · rw [toDigits_zero]
    decide
  · simp [head?_toDigits hk]

theorem readNatural?_toDigits (k : Nat) : readNatural? (Nat.toDigits 10 k) = some k := by
  have hletters : ∀ c ∈ Nat.toDigits 10 k, c ∉ ['x', 'o', 'b'] := fun c hc hmem => by
    have hdigit := (word_toDigits k).2 c hc
    simp only [List.mem_cons, List.not_mem_nil, or_false] at hmem
    rcases hmem with rfl | rfl | rfl <;> cases hdigit
  have hpadded : isPadded (Nat.toDigits 10 k) = false := isPadded_toDigits k false
  rw [readNatural?_of_decimal hletters, hpadded, natural?_toDigits]
  rfl

theorem toList_toString_signed (n : Int) :
    (toString n).toList = signed (decide (n < 0)) (Nat.toDigits 10 n.natAbs) := by
  rw [toList_toString, signed]
  split
  · rw [decide_eq_false (by omega), show n.toNat = n.natAbs by omega]
    rfl
  · rw [decide_eq_true (by omega), show (-n).toNat = n.natAbs by omega]
    rfl

theorem startsNumber_toString (n : Int) : startsNumber (toString n).toList = true := by
  have hhead := head?_any_of_word (word_toDigits n.natAbs)
  rw [toList_toString_signed, startsNumber, dropSign_signed hhead]
  exact hhead

theorem readInt?_toString (n : Int) : readInt? (toString n).toList = some n := by
  rw [toList_toString_signed, readInt?_signed (head?_any_of_word (word_toDigits _)),
    readNatural?_toDigits, Option.map_some, Option.some.injEq]
  split
  · rename_i h
    have := of_decide_eq_true h
    omega
  · rename_i h
    have := mt decide_eq_true h
    omega

theorem int_intNode (hn : isSigned n = true) : (intNode n).int = .ok n := by
  unfold intNode Node.int
  dsimp only
  rw [readInt?_toString, Option.filter_some, if_pos hn]
  rfl

theorem index_intNode (hk : k < 2 ^ 64) : (intNode k).index = .ok k := by
  have hunsigned : readUnsigned? (toString (k : Int)).toList = some k := by
    have hhead : (toString (k : Int)).toList.head? ≠ some '-' := by
      obtain ⟨c, s, hs, hc⟩ := head_of_digit (head?_any_of_word (word_toDigits k))
      rw [toList_toString_signed, decide_eq_false (by omega), Int.natAbs_natCast]
      change (Nat.toDigits 10 k).head? ≠ _
      rw [hs]
      exact fun h => (ne_sign_of_isDigit hc).1 (Option.some.inj h)
    rw [readUnsigned?, if_neg hhead, readInt?_toString]
    rfl
  unfold intNode Node.index
  dsimp only
  rw [hunsigned, Option.filter_some, if_pos (by simpa using hk)]
  rfl

theorem isSigned_iff : isSigned n = true ↔ -2 ^ 63 ≤ n ∧ n < 2 ^ 63 := by
  rw [isSigned, Bool.and_eq_true, decide_eq_true_eq, decide_eq_true_eq]
  omega

theorem fits_of_isSigned (hn : isSigned n = true) : fits 64 n = true ∧ fits 128 n = true := by
  have hn := isSigned_iff.1 hn
  simp only [fits, Bool.and_eq_true, decide_eq_true_eq]
  norm_num
  omega

theorem value_intNode (hn : isSigned n = true) : (intNode n).value = .ok (.int n) := by
  obtain ⟨h64, h128⟩ := fits_of_isSigned hn
  have hwide : readWide? (toString n) = some n := by
    rw [readWide?, readInt?_toString, Option.filter_some, if_pos h128]
  have hscalar : Value.ofScalar (toString n) .plain none = .ok (.int n) := by
    rw [Value.ofScalar, if_pos rfl, ofPlain_of_startsNumber (startsNumber_toString n), hwide]
  rw [intNode, Node.value, if_neg (by decide), hscalar]
  change (if fits 64 n then Except.ok (Value.int n) else _) = _
  rw [if_pos h64]

theorem settledInt_intNode (hn : isSigned n = true) : (intNode n).settledInt = .ok n := by
  rw [Node.settledInt, value_intNode hn]
  change (if isSigned n then Except.ok n else _) = _
  rw [if_pos hn]

end Whole

section Fraction

variable {s : List Char} {t : String} {negative : Bool}

/-- A text with a point or an exponent is no whole number. -/
theorem Double.IsFraction.readNatural?_eq_none (h : IsFraction s) : readNatural? s = none := by
  have hletters : ∀ c ∈ s, c ∉ ['x', 'o', 'b'] := fun c hc hmem => by
    have hchar := h.chars c hc
    simp only [List.mem_cons, List.not_mem_nil, or_false] at hmem hchar
    rcases hmem with rfl | rfl | rfl <;> revert hchar <;> decide
  obtain ⟨c, hc, hmark⟩ := h.marked
  rw [readNatural?_of_decimal hletters, natural?_eq_none hc hmark, ite_self]

theorem Double.IsFraction.isPadded_eq_false (h : IsFraction s) :
    isPadded (signed negative s) = false := by
  obtain ⟨c, hc, hmark⟩ := h.marked
  have hall : s.all Char.isDigit = false := List.all_eq_false.2 ⟨c, hc, by simp [hmark]⟩
  rw [isPadded, dropSign_signed h.starts, hall, Bool.and_false]

theorem Double.IsFraction.startsNumber (h : IsFraction s) : startsNumber (signed negative s) = true := by
  rw [Dwell.startsNumber, dropSign_signed h.starts]
  exact h.starts

/-- A numeral that is not the name of an infinity denotes a double if that is finite. -/
theorem readFloat?_of_startsNumber (h : startsNumber t.toList = true) :
    readFloat? t.toList = (Double.read? t.toList).filter (·.isFinite) := by
  unfold readFloat?
  simp only [String.ofList_toList]
  rw [if_neg (not_mem_of_startsNumber h (by decide)),
    if_neg (not_mem_of_startsNumber h (by decide)),
    if_neg (not_mem_of_startsNumber h (by decide))]

end Fraction

section Double

variable {x y : Float}

/-- Doubles that are the same number, or both none. -/
def Double.Same (x y : Float) : Prop :=
  (x == y) = true ∨ x.isNaN = true ∧ y.isNaN = true

/-- What a double is written as is read as another, by any reader of doubles. -/
structure WrittenAs (x y : Float) : Prop where
  read : readFloat? (Layout.stored.write x).toList = some y
  plain : Value.ofPlain (Layout.stored.write x) = .float y

theorem WrittenAs.float (h : WrittenAs x y) : (doubleNode x).float = .ok y := by
  rw [doubleNode, Node.float]
  simp only [h.read]
  rfl

theorem WrittenAs.value (h : WrittenAs x y) : (doubleNode x).value = .ok (.float y) := by
  have hscalar : Value.ofScalar (Layout.stored.write x) .plain none = .ok (.float y) := by
    rw [Value.ofScalar, if_pos rfl, h.plain]
  rw [doubleNode, Node.value, if_neg (by decide), hscalar]
  rfl

theorem WrittenAs.settledFloat (h : WrittenAs x y) : (doubleNode x).settledFloat = .ok y := by
  rw [Node.settledFloat, h.value]
  rfl

/-- A numeral that is a fraction is read as the double that it denotes. -/
theorem writtenAs_of_read? {s : List Char} {negative : Bool} (hs : IsFraction s)
    (hwrite : (Layout.stored.write x).toList = signed negative s)
    (hread : Double.read? (Layout.stored.write x).toList = some y) (hy : y.isFinite = true) :
    WrittenAs x y := by
  have hstarts : startsNumber (Layout.stored.write x).toList = true := hwrite ▸ hs.startsNumber
  have hfloat : readFloat? (Layout.stored.write x).toList = some y := by
    rw [readFloat?_of_startsNumber hstarts, hread, Option.filter_some, if_pos hy]
  have hwide : readWide? (Layout.stored.write x) = none := by
    rw [readWide?, hwrite, readInt?_signed hs.starts, hs.readNatural?_eq_none]
    rfl
  have hpadded : isPadded (Layout.stored.write x).toList = false :=
    hwrite ▸ hs.isPadded_eq_false
  refine ⟨hfloat, ?_⟩
  rw [ofPlain_of_startsNumber hstarts, hwide, hpadded, hfloat]
  rfl

theorem writtenAs_nan (hx : parts x = .nan) : WrittenAs x Double.nan := by
  have hwrite : Layout.stored.write x = ".nan" := by rw [Layout.write, hx]; rfl
  constructor <;> rw [hwrite] <;> rfl

theorem writtenAs_infinity {negative : Bool} (hx : parts x = .infinite negative) :
    WrittenAs x (Double.infinity negative) := by
  have hwrite : Layout.stored.write x = if negative then "-.inf" else ".inf" := by
    rw [Layout.write, hx]
    rfl
  cases negative <;> constructor <;> rw [hwrite] <;> rfl

/-- Every double is written as something that is read as the same double. -/
theorem exists_writtenAs (x : Float) : ∃ y, Double.Same x y ∧ WrittenAs x y := by
  cases hx : parts x with
  | nan =>
    have hnan : parts Double.nan = .nan := by decide +kernel
    exact ⟨Double.nan, .inr ⟨Double.isNaN_iff.2 hx, Double.isNaN_iff.2 hnan⟩, writtenAs_nan hx⟩
  | infinite negative =>
    have hinf : parts (Double.infinity negative) = .infinite negative := by
      cases negative <;> decide +kernel
    exact ⟨Double.infinity negative, .inl (Double.beq_of_infinite hx hinf),
      writtenAs_infinity hx⟩
  | finite negative m q =>
    obtain ⟨a, ha⟩ : ∃ a, Double.value? x = some a := by
      rw [Double.value?, hx]
      exact ⟨_, rfl⟩
    obtain ⟨s, y, hs, hwrite, hread, hvalue⟩ := Double.exists_read?_write hx
    have hy : Double.value? y = some a := hvalue.trans ha
    exact ⟨y, .inl ((Double.beq_iff ha hy).2 rfl),
      writtenAs_of_read? hs hwrite hread (Double.isFinite_iff.2 ⟨a, hy⟩)⟩

end Double

end Dwell

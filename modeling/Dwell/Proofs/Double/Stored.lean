import Dwell.Double.Layout
import Dwell.Proofs.Double.Decimal
import Dwell.Proofs.Double.Numeral
import Dwell.Proofs.Double.Shortest

/-!
# Doubles that are stored and read back

A finite double is stored as its shortest decimal, written out or with an exponent, and is read as
the number it was (`exists_read?_write`): however the decimal is written, it is the digits and the
power of ten that are read (`readsAs_decimal`), and the double nearest to them is the one that was
written.
-/

namespace Dwell.Double

open Text

section Digits

variable {s : List Char} {m : Nat} {q e : Int}

/-- Digits and a power of ten are read as the double that they are nearest to. -/
theorem parts_ofDigits (hs : ∀ c ∈ s, c.isDigit = true) (h : Rounds m q (digitsValue s * 10 ^ e))
    (hn : Normal m q) (hm : 0 < m) : parts (ofDigits s e) = .finite false m q := by
  have hpos : digitsValue s ≠ 0 := fun hzero => by
    have hlt := h.pow_lt hn hm
    rw [hzero, Nat.cast_zero, zero_mul] at hlt
    exact absurd hlt (not_lt.2 (by positivity))
  unfold ofDigits
  rw [← digitsValue_dropWhile] at h hpos
  have hdigits : ∀ c ∈ s.dropWhile (· == '0'), c.isDigit = true := fun c hc =>
    hs c (List.dropWhile_suffix _ |>.subset hc)
  have hhead := List.head?_dropWhile_not (· == '0') s
  generalize s.dropWhile (· == '0') = ds at *
  cases ds with
  | nil => exact absurd rfl hpos
  | cons c ds =>
    have hc : c ≠ '0' := by simpa using hhead
    exact parts_ofDecimal h hn hm (le_digitsValue (hdigits c List.mem_cons_self) hc ds)
      (digitsValue_lt hdigits)

theorem value?_ofDigits_zero (h : digitsValue s = 0) : value? (ofDigits s e) = some 0 := by
  have hzero : value? 0.0 = some 0 := by
    have hp : parts 0.0 = .finite false 0 (-1074) := by decide +kernel
    rw [value?, hp]
    simp [Parts.value?, size_zero]
  rw [ofDigits, digitsValue_dropWhile, h, ofDecimal, if_pos rfl]
  exact hzero

end Digits

section Written

variable {t s : List Char} {v : ℚ}

/-- Digits with a point or an exponent among them, the first of them a digit. -/
structure IsFraction (s : List Char) : Prop where
  starts : s.head?.any Char.isDigit = true
  chars : ∀ c ∈ s, c.isDigit = true ∨ c ∈ ['.', 'e', '-']
  marked : ∃ c ∈ s, c.isDigit = false

/-- A fraction of which digits and a power of ten are read that make a number. -/
structure ReadsAs (t : List Char) (v : ℚ) : Prop extends IsFraction t where
  read : ∃ s e, (∀ c ∈ s, c.isDigit = true) ∧ digitsValue s * 10 ^ e = v ∧
    readDigits? t = some (ofDigits s e)

theorem isFraction_append (hs : Word Char.isDigit s)
    (ht : ∀ c ∈ t, c.isDigit = true ∨ c ∈ ['.', 'e', '-']) (hmark : ∃ c ∈ t, c.isDigit = false) :
    IsFraction (s ++ t) where
  starts := by
    obtain ⟨c, s, rfl⟩ := List.exists_cons_of_ne_nil hs.1
    exact hs.2 c List.mem_cons_self
  chars c hc := (List.mem_append.1 hc).elim (fun hc => .inl (hs.2 c hc)) (ht c)
  marked := hmark.imp fun _ hc => ⟨List.mem_append_right s hc.1, hc.2⟩

theorem readsAs_point {whole fraction rest : List Char} {e : Int} (hw : Word Char.isDigit whole)
    (hf : ∀ c ∈ fraction, c.isDigit = true) (hrest : Ends Char.isDigit rest)
    (hchars : ∀ c ∈ rest, c.isDigit = true ∨ c ∈ ['.', 'e', '-'])
    (he : readExponent? rest = some e)
    (hv : digitsValue (whole ++ fraction) * 10 ^ (e - fraction.length) = v) :
    ReadsAs (whole ++ '.' :: (fraction ++ rest)) v where
  toIsFraction := by
    refine isFraction_append hw (fun c hc => ?_) ⟨'.', List.mem_cons_self, rfl⟩
    rcases List.mem_cons.1 hc with rfl | hc
    · exact .inr List.mem_cons_self
    · exact (List.mem_append.1 hc).elim (fun hc => .inl (hf c hc)) (hchars c)
  read := by
    refine ⟨_, _, fun c hc => (List.mem_append.1 hc).elim (hw.2 c) (hf c), hv, ?_⟩
    rw [readDigits?_point hw hf hrest, he]
    rfl

/-- Written out, a decimal keeps its digits, and its point tells the power of ten. -/
theorem readsAs_writeOut (hs : Word Char.isDigit s) (point : Int) :
    ReadsAs (writeOut .stored s point) (digitsValue s * 10 ^ (point - s.length)) := by
  have hends : Ends Char.isDigit [] := fun _ h => nomatch h
  have hchars : ∀ c ∈ ([] : List Char), c.isDigit = true ∨ c ∈ ['.', 'e', '-'] :=
    fun _ h => nomatch h
  unfold writeOut
  split
  · -- The number is below one: zeros stand before its digits, on both sides of the point.
    rename_i hpoint
    have htext : "0.".toList ++ List.replicate (-point).toNat '0' ++ s
        = ['0'] ++ '.' :: ((List.replicate (-point).toNat '0' ++ s) ++ []) := by
      rw [List.append_nil]
      exact List.append_assoc ..
    rw [htext]
    refine readsAs_point (by decide) (fun c hc => ?_) hends hchars rfl ?_
    · exact (List.mem_append.1 hc).elim isDigit_of_mem_zeros (hs.2 c)
    · rw [show ['0'] = List.replicate 1 '0' from rfl, digitsValue_zeros_append,
        digitsValue_zeros_append, List.length_append, List.length_replicate]
      congr 2
      omega
  split
  · -- The number is whole: zeros stand behind its digits, on both sides of the point.
    rename_i hpoint hlength
    obtain ⟨k, hk⟩ : ∃ k : Nat, point = s.length + k := ⟨point.toNat - s.length, by omega⟩
    have htext : s ++ List.replicate (point.toNat - s.length) '0' ++
        (if Layout.stored.point then ".0".toList else [])
        = (s ++ List.replicate k '0') ++ '.' :: (List.replicate 1 '0' ++ []) := by
      rw [show point.toNat - s.length = k by omega]
      rfl
    rw [htext]
    refine readsAs_point ⟨by simp [hs.1], fun c hc => ?_⟩ (fun _ => isDigit_of_mem_zeros) hends
      hchars rfl ?_
    · exact (List.mem_append.1 hc).elim (hs.2 c) isDigit_of_mem_zeros
    · rw [digitsValue_append_zeros, digitsValue_append_zeros, hk, add_sub_cancel_left,
        zpow_natCast, List.length_replicate]
      push_cast
      rw [zpow_neg_one]
      field_simp
  · -- The point stands among the digits.
    rename_i hpoint hlength
    rw [← List.append_nil (s.drop point.toNat)]
    refine readsAs_point ⟨?_, fun c hc => hs.2 c (List.mem_of_mem_take hc)⟩
      (fun c hc => hs.2 c (List.mem_of_mem_drop hc)) hends hchars rfl ?_
    · rw [ne_eq, List.take_eq_nil_iff, not_or]
      exact ⟨by omega, hs.1⟩
    · rw [List.take_append_drop, List.length_drop]
      congr 2
      omega

/-- What stands behind the digits of a double that is stored with an exponent. -/
def storedExponent (e : Int) : List Char :=
  'e' :: ((if e < 0 then ['-'] else []) ++ Nat.toDigits 10 e.natAbs)

theorem writeScientific_stored (s : List Char) (e : Int) : writeScientific .stored s e
    = s.take 1 ++ ((if s.length ≤ 1 then [] else '.' :: s.drop 1) ++ storedExponent e) := by
  have hpad : padZeros Layout.stored.exponentWidth (Nat.toDigits 10 e.natAbs)
      = Nat.toDigits 10 e.natAbs := by
    have hlength : 1 ≤ (Nat.toDigits 10 e.natAbs).length :=
      List.length_pos_iff.2 Nat.toDigits_ne_nil
    rw [padZeros, show Layout.stored.exponentWidth = 1 from rfl, Nat.sub_eq_zero_of_le hlength]
    rfl
  rw [writeScientific, hpad, storedExponent]
  simp only [List.append_assoc]
  rfl

theorem chars_storedExponent (e : Int) :
    ∀ c ∈ storedExponent e, c.isDigit = true ∨ c ∈ ['.', 'e', '-'] := fun c hc => by
  simp only [storedExponent, List.mem_cons, List.mem_append] at hc
  rcases hc with rfl | hc | hc
  · exact .inr (by simp)
  · split at hc
    · exact .inr (by simp [List.mem_singleton.1 hc])
    · cases hc
  · exact .inl ((word_toDigits _).2 c hc)

/-- The exponent of a stored double is read as it was. -/
theorem readExponent?_stored (e : Int) : readExponent? (storedExponent e) = some e := by
  have hdigits := word_toDigits e.natAbs
  have hvalue := digitsValue_toDigits e.natAbs
  unfold storedExponent
  generalize Nat.toDigits 10 e.natAbs = s at *
  have hsign : splitSign ((if e < 0 then ['-'] else []) ++ s) = (decide (e < 0), s) := by
    split
    · rename_i h
      rw [decide_eq_true h]
      rfl
    · rename_i h
      obtain ⟨c, s, rfl⟩ := List.exists_cons_of_ne_nil hdigits.1
      rw [decide_eq_false h, List.nil_append,
        splitSign_cons (.inl (hdigits.2 c List.mem_cons_self))]
  rw [readExponent?, if_pos (.inl rfl), hsign]
  dsimp only
  rw [if_pos ⟨hdigits.1, List.all_eq_true.2 hdigits.2⟩, hvalue, Option.some.injEq]
  split
  · rename_i h
    have := of_decide_eq_true h
    omega
  · rename_i h
    have := mt decide_eq_true h
    omega

theorem readsAs_writeScientific (hs : Word Char.isDigit s) (e : Int) :
    ReadsAs (writeScientific .stored s e) (digitsValue s * 10 ^ (e + 1 - s.length)) := by
  obtain ⟨c, ds, rfl⟩ := List.exists_cons_of_ne_nil hs.1
  have hexponent := readExponent?_stored e
  have hchars := chars_storedExponent e
  have hends : Ends Char.isDigit (storedExponent e) := ends_cons.2 rfl
  have hfirst : Word Char.isDigit [c] :=
    ⟨by simp, fun d hd => hs.2 d (List.mem_singleton.1 hd ▸ List.mem_cons_self)⟩
  rw [writeScientific_stored, List.take_succ_cons, List.take_zero, List.drop_succ_cons,
    List.drop_zero]
  rcases ds with _ | ⟨d, ds⟩
  · rw [if_pos (by simp), List.nil_append]
    refine ⟨isFraction_append hfirst hchars ⟨'e', List.mem_cons_self, rfl⟩, [c], e, hfirst.2,
      ?_, ?_⟩
    · rw [List.length_singleton]
      congr 2
      omega
    · rw [readDigits?_whole hfirst hends (by simp [storedExponent]), hexponent]
      rfl
  · rw [if_neg (by simp)]
    refine readsAs_point hfirst (fun a ha => hs.2 a (List.mem_cons_of_mem _ ha)) hends hchars
      hexponent ?_
    rw [List.singleton_append, List.length_cons (a := c)]
    congr 2
    push_cast
    omega

theorem readsAs_decimal (d : Decimal) : ReadsAs (Layout.stored.decimal d) d.value := by
  have hdigits := word_toDigits d.digits
  have hvalue := digitsValue_toDigits d.digits
  unfold Layout.decimal Decimal.value
  generalize Nat.toDigits 10 d.digits = s at *
  dsimp only
  split
  · have := readsAs_writeOut hdigits (d.exponent + s.length - 1 + 1)
    rwa [hvalue, show d.exponent + s.length - 1 + 1 - s.length = d.exponent by omega] at this
  · have := readsAs_writeScientific hdigits (d.exponent + s.length - 1)
    rwa [hvalue, show d.exponent + s.length - 1 + 1 - s.length = d.exponent by omega] at this

end Written

section Doubles

variable {x : Float} {negative : Bool} {m : Nat} {q : Int}

/-- The decimal that is stored for a double without its sign is read as that. -/
theorem exists_readDigits?_stored (hn : Normal m q) : ∃ z,
    readDigits? (Layout.stored.decimal (shortest .even m q)) = some z ∧
      value? z = some (size m q) := by
  obtain ⟨s, e, hs, hv, hread⟩ := (readsAs_decimal (shortest .even m q)).read
  refine ⟨_, hread, ?_⟩
  rcases Nat.eq_zero_or_pos m with rfl | hm
  · rw [shortest, if_pos rfl, Decimal.value, Nat.cast_zero, zero_mul, mul_eq_zero,
      Nat.cast_eq_zero] at hv
    rw [size_zero]
    exact value?_ofDigits_zero (hv.resolve_right (by positivity))
  · have hrounds := rounds_shortest hn hm .even
    rw [← hv] at hrounds
    rw [value?, parts_ofDigits hs hrounds hn hm]
    rfl

/-- A finite double is stored as a fraction, behind its sign, that is read as the number that the
double is. -/
theorem exists_read?_write (hx : parts x = .finite negative m q) : ∃ s y, IsFraction s ∧
    (Layout.stored.write x).toList = (if negative then ['-'] else []) ++ s ∧
      read? (Layout.stored.write x).toList = some y ∧ value? y = value? x := by
  obtain ⟨z, hz, hvalue⟩ := exists_readDigits?_stored (normal_of_parts hx)
  have hfraction := (readsAs_decimal (shortest .even m q)).toIsFraction
  have htext : (Layout.stored.write x).toList =
      (if negative then ['-'] else []) ++ Layout.stored.decimal (shortest .even m q) := by
    rw [Layout.write, hx]
    exact String.toList_ofList
  have hx' : value? x = some (if negative then -size m q else size m q) := by
    rw [value?, hx]
    rfl
  rw [htext]
  generalize Layout.stored.decimal (shortest .even m q) = s at *
  obtain ⟨c, s, rfl, hdigit⟩ := head_of_digit hfraction.starts
  cases negative with
  | false =>
    refine ⟨_, z, hfraction, rfl, ?_, hvalue.trans hx'.symm⟩
    exact (read?_cons (.inl hdigit)).trans hz
  | true =>
    refine ⟨_, -z, hfraction, rfl, ?_, (value?_neg hvalue).trans hx'.symm⟩
    change (readUnsigned? (c :: s)).map (fun x => -x) = _
    rw [readUnsigned?_cons (.inl hdigit), hz]
    rfl

end Doubles

end Dwell.Double

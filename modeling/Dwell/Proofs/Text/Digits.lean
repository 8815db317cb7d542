import Dwell.Double.Numeral
import Dwell.Proofs.Text
import Dwell.Text.Digits
import Mathlib.Order.Basic

/-!
# Whole numbers as rows of digits

A text denotes a whole number of 64 bits just when it writes it, in decimal digits behind at most
one sign (`integer?_eq_some_iff`). The digits in which a number is shown denote it
(`natural?_toDigits`), and they do not start with a zero unless the number is zero
(`head?_toDigits`).
-/

namespace Dwell.Text

open Double (digitsValue)

variable {s : List Char} {n : Nat}

theorem digitValue?_ten (c : Char) :
    digitValue? 10 c = if c.isDigit then some (c.toNat - '0'.toNat) else none := by
  unfold digitValue?
  dsimp only
  split
  · rename_i h
    rw [Char.isDigit, Bool.and_eq_true, decide_eq_true_eq, decide_eq_true_eq] at h
    have hle : c.toNat ≤ 57 := h.2
    rw [if_pos]
    change c.toNat - 48 < 10
    omega
  · split
    · rw [if_neg (by omega)]
    · split
      · rw [if_neg (by omega)]
      · rw [if_neg (by omega)]

/-- Reading goes on from the value of the digits before, and stops at what is no digit. -/
theorem foldl_digitValue? : ∀ (s : List Char) (k : Nat),
    s.foldl (fun n c => do return 10 * (← n) + (← digitValue? 10 c)) (some k)
      = if s.all Char.isDigit then
          some (s.foldl (fun n c => 10 * n + (c.toNat - '0'.toNat)) k)
        else none
  | [], k => rfl
  | c :: s, k => by
    have hnone : s.foldl (fun n c => do return 10 * (← n) + (← digitValue? 10 c))
        (none : Option Nat) = none := by
      induction s with
      | nil => rfl
      | cons d s ih => exact ih
    rw [List.foldl_cons, List.foldl_cons, List.all_cons, digitValue?_ten]
    by_cases h : c.isDigit
    · simp only [h, if_true, Bool.true_and]
      exact foldl_digitValue? s _
    · simp only [h, Bool.false_eq_true, if_false, Bool.false_and]
      exact hnone

theorem natural?_eq_some_iff :
    natural? 10 s = some n ↔ Word Char.isDigit s ∧ digitsValue s = n := by
  unfold natural? Word
  by_cases hs : s = []
  · simp [hs]
  · rw [if_neg hs, foldl_digitValue?, ← List.all_eq_true]
    by_cases hall : s.all Char.isDigit = true
    · rw [if_pos hall, Option.some.injEq]
      exact ⟨fun h => ⟨⟨hs, hall⟩, h⟩, fun h => h.2⟩
    · rw [if_neg hall]
      constructor
      · exact fun h => nomatch h
      · exact fun h => absurd h.1.2 hall

theorem natural?_of_word (h : Word Char.isDigit s) : natural? 10 s = some (digitsValue s) :=
  natural?_eq_some_iff.2 ⟨h, rfl⟩

theorem natural?_eq_none {c : Char} (hc : c ∈ s) (h : c.isDigit = false) :
    natural? 10 s = none := by
  refine Option.eq_none_iff_forall_not_mem.2 fun n hn => ?_
  simp [(natural?_eq_some_iff.1 hn).1.2 c hc] at h

/-- Decimal digits behind at most one sign, and the number that they write. -/
inductive WritesInteger : List Char → Int → Prop
  | plain {s : List Char} (h : Word Char.isDigit s) : WritesInteger s (digitsValue s)
  | plus {s : List Char} (h : Word Char.isDigit s) : WritesInteger ('+' :: s) (digitsValue s)
  | minus {s : List Char} (h : Word Char.isDigit s) :
    WritesInteger ('-' :: s) (-(digitsValue s : Int))

/-- A natural number that is read is taken for a whole number before anything is done with it. -/
theorem map_lift (o : Option Nat) (f : Int → Int) :
    Option.map f (do return ((← o) : Int)) = Option.map (fun n : Nat => f n) o := by
  cases o <;> rfl

theorem map_natural?_eq_some_iff {f : Int → Int} {k : Int} :
    Option.map f (do return ((← natural? 10 s) : Int)) = some k ↔
      Word Char.isDigit s ∧ f (digitsValue s) = k := by
  rw [map_lift, Option.map_eq_some_iff]
  constructor
  · rintro ⟨n, hn, hk⟩
    obtain ⟨hs, rfl⟩ := natural?_eq_some_iff.1 hn
    exact ⟨hs, hk⟩
  · rintro ⟨hs, hk⟩
    exact ⟨_, natural?_of_word hs, hk⟩

/-- A text denotes just the whole number of 64 bits that it writes. -/
theorem integer?_eq_some_iff {k : Int} :
    integer? s = some k ↔ WritesInteger s k ∧ isSigned k = true := by
  unfold integer?
  dsimp only
  rw [Option.filter_eq_some_iff]
  refine and_congr_left fun _ => ?_
  split
  · rw [map_natural?_eq_some_iff]
    constructor
    · rintro ⟨h, rfl⟩
      exact .minus h
    · intro h
      cases h with
      | plain h => exact absurd (h.2 '-' List.mem_cons_self) (by decide)
      | minus h => exact ⟨h, rfl⟩
  · rw [map_natural?_eq_some_iff]
    constructor
    · rintro ⟨h, rfl⟩
      exact .plus h
    · intro h
      cases h with
      | plain h => exact absurd (h.2 '+' List.mem_cons_self) (by decide)
      | plus h => exact ⟨h, rfl⟩
  · rename_i hminus hplus
    rw [map_natural?_eq_some_iff]
    constructor
    · rintro ⟨h, rfl⟩
      exact .plain h
    · intro h
      cases h with
      | plain h => exact ⟨h, rfl⟩
      | plus h => exact absurd rfl (hplus _)
      | minus h => exact absurd rfl (hminus _)

section Shown

theorem word_toDigits (n : Nat) : Word Char.isDigit (Nat.toDigits 10 n) :=
  ⟨Nat.toDigits_ne_nil, fun _ hc => Nat.isDigit_of_mem_toDigits (by decide) (by decide) hc⟩

theorem digitsValue_toDigits (n : Nat) : digitsValue (Nat.toDigits 10 n) = n :=
  Nat.ofDigitChars_toDigits (by decide) (by decide)

theorem natural?_toDigits (n : Nat) : natural? 10 (Nat.toDigits 10 n) = some n :=
  natural?_eq_some_iff.2 ⟨word_toDigits n, digitsValue_toDigits n⟩

theorem toDigits_zero : Nat.toDigits 10 0 = ['0'] := rfl

/-- The digits of a number that is not zero do not start with a zero. -/
theorem head?_toDigits (hn : 0 < n) : (Nat.toDigits 10 n).head? ≠ some '0' := by
  induction n using Nat.strongRecOn with
  | ind n ih =>
    rcases lt_or_ge n 10 with h | h
    · have hdigit : ∀ d < 10, 0 < d → Nat.digitChar d ≠ '0' := by decide
      rw [Nat.toDigits_of_lt_base h]
      simpa using hdigit n h hn
    · obtain ⟨c, ds, hds⟩ : ∃ c ds, Nat.toDigits 10 (n / 10) = c :: ds :=
        List.exists_cons_of_ne_nil Nat.toDigits_ne_nil
      have hhead := ih (n / 10) (by omega) (by omega)
      rw [hds] at hhead
      rw [Nat.toDigits_of_base_le (by decide) h, hds]
      exact hhead

theorem toList_toString (k : Int) : (toString k).toList =
    if 0 ≤ k then Nat.toDigits 10 k.toNat else '-' :: Nat.toDigits 10 (-k).toNat := by
  rw [Int.toString_eq_repr, Int.repr_eq_if]
  split
  · rw [Nat.repr_eq_ofList_toDigits, String.toList_ofList]
  · rw [Nat.repr_eq_ofList_toDigits, String.toList_append]
    exact congrArg (['-'] ++ ·) String.toList_ofList

end Shown

end Dwell.Text

import Dwell.Proofs.Rule
import Dwell.Proofs.Text
import Mathlib.Data.List.Basic
import Mathlib.Data.List.Forall2

/-!
# The form of rules

A rule is written as two names of states, an arrow between them and an equals sign behind, and then
pieces between commas; blank pieces do not count, and each of the others is a test, written as two
tokens and a comparator between them. Blanks may stand around each part.

No two neighbouring parts are made of the same characters, so taking the longest row of them each
time finds the parts that were written. The rules that can be read are those of this form, and they
are read as they were written (`rule_eq_ok_iff`).
-/

namespace Dwell

open Text

section Characters

variable {c : Char}

theorem isBlank_of_printable (h₁ : 0x21 ≤ c.toNat) (h₂ : c.toNat ≤ 0x7E) : isBlank c = false := by
  simp only [isBlank, blankRanges, List.any_cons, List.any_nil, Bool.or_false, Bool.or_eq_false_iff,
    Bool.and_eq_false_iff, decide_eq_false_iff_not]
  omega

theorem printable_of_isAlphanum (h : c.isAlphanum = true) :
    0x21 ≤ c.toNat ∧ c.toNat ≤ 0x7E := by
  change (decide (c.val ≥ 65 ∧ c.val ≤ 90) || (decide (c.val ≥ 97) && decide (c.val ≤ 122))
    || (decide (c.val ≥ 48) && decide (c.val ≤ 57))) = true at h
  simp only [Bool.or_eq_true, Bool.and_eq_true, decide_eq_true_eq, ge_iff_le,
    UInt32.le_iff_toNat_le, UInt32.reduceToNat, Char.toNat_val] at h
  omega

theorem isBlank_of_isOperandChar (h : isOperandChar c = true) : isBlank c = false := by
  simp only [isOperandChar, Bool.or_eq_true, decide_eq_true_eq] at h
  rcases h with h | h
  · exact isBlank_of_printable (printable_of_isAlphanum h).1 (printable_of_isAlphanum h).2
  · simp only [List.mem_cons, List.not_mem_nil, or_false] at h
    rcases h with rfl | rfl | rfl | rfl | rfl | rfl <;> decide

theorem isBlank_of_isNameChar (h : isNameChar c = true) : isBlank c = false := by
  simp only [isNameChar, Bool.or_eq_true, beq_iff_eq] at h
  rcases h with h | rfl
  · exact isBlank_of_printable (printable_of_isAlphanum h).1 (printable_of_isAlphanum h).2
  · decide

theorem of_isComparatorChar (h : isComparatorChar c = true) :
    isBlank c = false ∧ isOperandChar c = false := by
  simp only [isComparatorChar, decide_eq_true_eq, List.mem_cons, List.not_mem_nil, or_false] at h
  rcases h with rfl | rfl | rfl | rfl <;> decide

theorem isComparatorChar_of_isOperandChar (h : isOperandChar c = true) :
    isComparatorChar c = false := by
  by_contra hc
  simp [of_isComparatorChar (by simpa using hc)] at h

/-- What follows blanks, or nothing, is not of a kind without blanks. -/
theorem ends_blanks {kind : Char → Bool} (hkind : ∀ c, kind c = true → isBlank c = false)
    {w s : List Char} (hw : Blanks w) (hs : Ends kind s) : Ends kind (w ++ s) := by
  refine ends_append hw (fun c hc => ?_) hs
  by_contra h
  simp [hkind c (by simpa using h)] at hc

theorem ends_word {kind other : Char → Bool} (h : ∀ c, other c = true → kind c = false)
    {a s : List Char} (ha : Word other a) : Ends kind (a ++ s) := by
  obtain ⟨c, a, rfl⟩ := List.exists_cons_of_ne_nil ha.1
  exact ends_cons.2 (h c (ha.2 c List.mem_cons_self))

end Characters

theorem bind_eq_ok_iff {ε α β : Type} {x : Except ε α} {f : α → Except ε β} {b : β} :
    (x >>= f) = .ok b ↔ ∃ a, x = .ok a ∧ f a = .ok b :=
  ⟨bind_eq_ok, fun ⟨_, hx, hf⟩ => hx ▸ hf⟩

theorem map_eq_ok_iff {ε α β : Type} {r : Except ε α} {f : α → β} {b : β} :
    r.map f = .ok b ↔ ∃ a, r = .ok a ∧ f a = b := by
  cases r <;> simp [Except.map]

theorem Comparator.ofSymbol?_eq_some_iff {s : String} {c : Comparator} :
    ofSymbol? s = some c ↔ s = c.symbol := by
  refine ⟨fun h => ?_, fun h => h ▸ ofSymbol?_symbol c⟩
  have hs := List.find?_some h
  exact (beq_iff_eq.1 hs).symm

theorem Comparator.word_symbol (c : Comparator) : Word isComparatorChar c.symbol.toList := by
  cases c <;> decide

section Heads

variable {s rest spec : List Char} {name origin target : String}

theorem splitName_eq_ok_iff {missing : FormFault} : splitName s missing = .ok (name, rest) ↔
    ∃ w n, s = w ++ n ++ rest ∧ Blanks w ∧ Word isNameChar n ∧ Ends isNameChar rest ∧
      name = .ofList n := by
  unfold splitName
  constructor
  · intro h
    split at h
    · cases h
    · rename_i n r hne hspan
      cases h
      obtain ⟨hs, hn, hends⟩ := span_eq_iff.1 hspan
      obtain ⟨w, rfl, hw, -⟩ := dropBlank_eq_iff.1 hs
      exact ⟨w, n, (List.append_assoc ..).symm, hw, ⟨hne, hn⟩, hends, rfl⟩
  · rintro ⟨w, n, rfl, hw, hn, hends, rfl⟩
    rw [List.append_assoc, dropBlank_append hw (ends_word (fun _ => isBlank_of_isNameChar) hn),
      span_eq_iff.2 ⟨rfl, hn.2, hends⟩]
    split
    · rename_i h
      exact absurd (congrArg Prod.fst h) hn.1
    · rename_i h
      cases h
      rfl

theorem skipMark_eq_ok_iff {mark : String} (hm : Word (! isBlank ·) mark.toList) :
    skipMark mark s = .ok rest ↔ ∃ w, s = w ++ mark.toList ++ rest ∧ Blanks w := by
  have hends : Ends isBlank (mark.toList ++ rest) := ends_word (fun c hc => by simpa using hc) hm
  have hskip : skipMark mark s = .ok rest ↔ dropBlank s = mark.toList ++ rest := by
    unfold skipMark
    split
    · rename_i r hr
      rw [List.isPrefixOf?_eq_some_iff_append_eq] at hr
      rw [← hr, List.append_cancel_left_eq, Except.ok.injEq]
    · rename_i hr
      refine ⟨nofun, fun h => ?_⟩
      rw [List.isPrefixOf?_eq_some_iff_append_eq.2 h.symm] at hr
      cases hr
  rw [hskip, dropBlank_eq_iff]
  simp [hends]

theorem splitRule_eq_ok_iff : splitRule spec = .ok (origin, target, s) ↔
    ∃ w₁ o w₂ w₃ t w₄, spec = w₁ ++ o ++ w₂ ++ "->".toList ++ w₃ ++ t ++ w₄ ++ "=".toList ++ s ∧
      (Blanks w₁ ∧ Blanks w₂ ∧ Blanks w₃ ∧ Blanks w₄) ∧ Word isNameChar o ∧ Word isNameChar t ∧
      origin = .ofList o ∧ target = .ofList t := by
  have harrow : Word (! isBlank ·) "->".toList := by decide
  have hequals : Word (! isBlank ·) "=".toList := by decide
  simp only [splitRule, bind_eq_ok_iff, Prod.exists, splitName_eq_ok_iff,
    skipMark_eq_ok_iff harrow, skipMark_eq_ok_iff hequals]
  constructor
  · rintro ⟨_, _, ⟨w₁, o, rfl, hw₁, ho, -, rfl⟩, _, ⟨w₂, rfl, hw₂⟩, _, _,
      ⟨w₃, t, rfl, hw₃, ht, -, rfl⟩, _, ⟨w₄, rfl, hw₄⟩, h⟩
    cases h
    exact ⟨w₁, o, w₂, w₃, t, w₄, by simp, ⟨hw₁, hw₂, hw₃, hw₄⟩, ho, ht, rfl, rfl⟩
  · rintro ⟨w₁, o, w₂, w₃, t, w₄, rfl, ⟨hw₁, hw₂, hw₃, hw₄⟩, ho, ht, rfl, rfl⟩
    have hends (mark : String) {w r} (hw : Blanks w) (hm : Ends isNameChar (mark.toList ++ r)) :
        Ends isNameChar (w ++ (mark.toList ++ r)) :=
      ends_blanks (fun _ => isBlank_of_isNameChar) hw hm
    refine ⟨_, w₂ ++ ("->".toList ++ (w₃ ++ t ++ w₄ ++ "=".toList ++ s)),
      ⟨w₁, o, by simp, hw₁, ho, hends "->" hw₂ (ends_cons.2 (by decide)), rfl⟩,
      w₃ ++ t ++ w₄ ++ "=".toList ++ s, ⟨w₂, by simp, hw₂⟩, _, w₄ ++ ("=".toList ++ s),
      ⟨w₃, t, by simp, hw₃, ht, hends "=" hw₄ (ends_cons.2 (by decide)), rfl⟩,
      s, ⟨w₄, by simp, hw₄⟩, rfl⟩

end Heads

section Tests

variable {test left right : List Char} {c : Comparator}

/-- Spanning a word, and dropping the blanks behind it, stops where another word starts. -/
theorem span_word {kind : Char → Bool} {a w s : List Char}
    (hkind : ∀ c, kind c = true → isBlank c = false) (ha : Word kind a) (hw : Blanks w)
    (hs : Ends kind s) (hblank : Ends isBlank s) :
    (a ++ (w ++ s)).span kind = (a, w ++ s) ∧ dropBlank (w ++ s) = s :=
  ⟨span_eq_iff.2 ⟨rfl, ha.2, ends_blanks hkind hw hs⟩, dropBlank_append hw hblank⟩

theorem splitTest_append {w₁ w₂ w₃ : List Char} (hw₁ : Blanks w₁) (hw₂ : Blanks w₂)
    (hw₃ : Blanks w₃) (hl : Word isOperandChar left) (hr : Word isOperandChar right) :
    splitTest (left ++ (w₁ ++ (c.symbol.toList ++ (w₂ ++ (right ++ (w₃ ++ []))))))
      = .ok (left, c, right) := by
  have hc := c.word_symbol
  obtain ⟨h₁, hd₁⟩ := span_word (fun _ => isBlank_of_isOperandChar) hl hw₁
    (s := c.symbol.toList ++ (w₂ ++ (right ++ (w₃ ++ []))))
    (ends_word (fun _ h => (of_isComparatorChar h).2) hc)
    (ends_word (fun _ h => (of_isComparatorChar h).1) hc)
  obtain ⟨h₂, hd₂⟩ := span_word (fun _ h => (of_isComparatorChar h).1) hc hw₂
    (s := right ++ (w₃ ++ [])) (ends_word (fun _ => isComparatorChar_of_isOperandChar) hr)
    (ends_word (fun _ => isBlank_of_isOperandChar) hr)
  obtain ⟨h₃, hd₃⟩ := span_word (fun _ => isBlank_of_isOperandChar) hr hw₃ (s := [])
    (by simp [Ends]) (by simp [Ends])
  have hop : Comparator.ofSymbol? (.ofList c.symbol.toList) = some c := by
    rw [String.ofList_toList, Comparator.ofSymbol?_symbol]
  simp only [splitTest, h₁, hd₁, h₂, hd₂, h₃, hd₃, hop, hl.1, hr.1]
  rfl

theorem of_splitTest (h : splitTest test = .ok (left, c, right)) :
    ∃ w₁ w₂ w₃, test = left ++ w₁ ++ c.symbol.toList ++ w₂ ++ right ++ w₃ ∧
      (Blanks w₁ ∧ Blanks w₂ ∧ Blanks w₃) ∧ Word isOperandChar left ∧
      Word isOperandChar right := by
  rcases h₁ : test.span isOperandChar with ⟨l, s₁⟩
  rcases h₂ : (dropBlank s₁).span isComparatorChar with ⟨symbol, s₂⟩
  rcases h₃ : (dropBlank s₂).span isOperandChar with ⟨r, s₃⟩
  simp only [splitTest, h₁, h₂, h₃] at h
  split at h
  · split at h <;> cases h
  rename_i hne
  split at h
  · cases h
  rename_i hrest
  split at h
  · rename_i op hop
    cases h
    obtain ⟨rfl, hl, -⟩ := span_eq_iff.1 h₁
    obtain ⟨hs₁, -, -⟩ := span_eq_iff.1 h₂
    obtain ⟨hs₂, hr, -⟩ := span_eq_iff.1 h₃
    obtain ⟨w₁, rfl, hw₁, -⟩ := dropBlank_eq_iff.1 hs₁
    obtain ⟨w₂, rfl, hw₂, -⟩ := dropBlank_eq_iff.1 hs₂
    obtain ⟨w₃, rfl, hw₃, -⟩ := dropBlank_eq_iff.1 (not_not.1 hrest)
    obtain rfl : symbol = c.symbol.toList := by
      rw [← Comparator.ofSymbol?_eq_some_iff.1 hop, String.toList_ofList]
    rw [not_or] at hne
    exact ⟨w₁, w₂, w₃, by simp, ⟨hw₁, hw₂, hw₃⟩, ⟨hne.1, hl⟩, ⟨hne.2, hr⟩⟩
  · cases h

theorem splitTest_eq_ok_iff : splitTest test = .ok (left, c, right) ↔
    ∃ w₁ w₂ w₃, test = left ++ w₁ ++ c.symbol.toList ++ w₂ ++ right ++ w₃ ∧
      (Blanks w₁ ∧ Blanks w₂ ∧ Blanks w₃) ∧ Word isOperandChar left ∧
      Word isOperandChar right := by
  refine ⟨of_splitTest, ?_⟩
  rintro ⟨w₁, w₂, w₃, rfl, ⟨hw₁, hw₂, hw₃⟩, hl, hr⟩
  simpa using splitTest_append (c := c) hw₁ hw₂ hw₃ hl hr

end Tests

namespace Scope

variable {sc : Scope}

/-- A numeric property has an element, as far as the number of its elements is known. -/
inductive HasElement (sc : Scope) (property : String) (index : Nat) : Prop
  | array {length} :
    sc.host.property? property = some (.array length) → index < length →
    HasElement sc property index
  | source {s} :
    sc.host.property? property = some (.source s) → (∀ length ∈ s.elements, index < length) →
    HasElement sc property index

/-- What tokens stand for. -/
inductive Denotes (sc : Scope) : List Char → Operand → Prop
  | timer : Denotes sc "$timer".toList .timer
  | state : Denotes sc "$state".toList .state
  | literal {c s x} :
    c.isAlpha = false → c ≠ '$' → Double.read? (c :: s) = some x →
    Denotes sc (c :: s) (.literal x)
  | scalar {c s} :
    c.isAlpha = true → '#' ∉ c :: s → sc.HasElement (.ofList (c :: s)) 0 →
    Denotes sc (c :: s) (.element (.ofList (c :: s)) 0)
  | element {c s keyword} {index : Nat} :
    c.isAlpha = true → '#' ∉ c :: s → sc.keywords.value? (.ofList keyword) = some (index : Int) →
    sc.HasElement (.ofList (c :: s)) index →
    Denotes sc (c :: s ++ '#' :: keyword) (.element (.ofList (c :: s)) index)

/-- The test is written as two tokens and a comparator between them. -/
inductive WritesTest (sc : Scope) : List Char → Comparison → Prop
  | intro {left right w₁ w₂ a b} (comparator : Comparator) :
    Word isOperandChar left → Word isOperandChar right → Blanks w₁ → Blanks w₂ →
    sc.Denotes left a → sc.Denotes right b →
    WritesTest sc (left ++ w₁ ++ comparator.symbol.toList ++ w₂ ++ right) ⟨a, comparator, b⟩

/-- A name of a state: the first keyword that has the name is below the number of states. -/
structure NamesState (sc : Scope) (name : List Char) (s : Nat) : Prop where
  word : Word isNameChar name
  value? : sc.keywords.value? (.ofList name) = some (s : Int)
  lt : s < sc.states

/-- The rule is written as its origin and target and then its tests, in pieces between commas, of
which one is not blank. -/
inductive WritesRule (sc : Scope) : List Char → Nat → Candidate → Prop
  | intro {w₁ w₂ w₃ w₄ o t pieces origin c} :
    Blanks w₁ → Blanks w₂ → Blanks w₃ → Blanks w₄ →
    sc.NamesState o origin → sc.NamesState t c.target →
    (∀ piece ∈ pieces, ',' ∉ piece) → (∃ piece ∈ pieces, ¬ Blanks piece) →
    List.Forall₂ sc.WritesTest ((pieces.map trim).filter (· ≠ [])) c.tests →
    WritesRule sc (w₁ ++ o ++ w₂ ++ "->".toList ++ w₃ ++ t ++ w₄ ++ "=".toList
      ++ [','].intercalate pieces) origin c

theorem element_eq_ok_iff {test token property : String} {index : Nat} {o : Operand} :
    sc.element test token property index = .ok o ↔
      sc.HasElement property index ∧ o = .element property index := by
  constructor
  · intro h
    unfold element at h
    split at h
    · cases h
    · rename_i hp
      split at h
      · cases h
        exact ⟨.array hp ‹_›, rfl⟩
      · cases h
    · rename_i s hp
      split at h
      · rename_i length hlength
        split at h
        · cases h
          exact ⟨.source hp (by simpa [hlength]), rfl⟩
        · cases h
      · rename_i hlength
        cases h
        exact ⟨.source hp (by simp [hlength]), rfl⟩
    · cases h
  · rintro ⟨hp | hp, rfl⟩ <;> rename_i hlt
    · simp only [element, hp, if_pos hlt]
    · rename_i s
      simp only [element, hp]
      rcases hs : s.elements with _ | length
      · rfl
      · simp only [if_pos (hlt length hs)]

theorem index_eq_ok_iff {test keyword : String} {i : Nat} :
    sc.index test keyword = .ok i ↔ sc.keywords.value? keyword = some (i : Int) := by
  unfold index
  split
  · rename_i v hv
    rw [hv, Option.some.injEq]
    split
    · rw [Except.ok.injEq]
      omega
    · simp only [reduceCtorEq, false_iff]
      omega
  · rename_i hv
    simp [hv]

/-- A token that does not start with a dollar sign is a number, or names a property. -/
theorem operand_cons {test : String} {c : Char} {s : List Char} (hc : c ≠ '$') :
    sc.operand test (c :: s) =
      if ¬ c.isAlpha then
        match Double.read? (c :: s) with
        | some x => .ok (.literal x)
        | none => .error (sc.fault (.form test (.invalidNumber (.ofList (c :: s)))))
      else match cut '#' (c :: s) with
        | none => sc.element test (.ofList (c :: s)) (.ofList (c :: s)) 0
        | some (property, keyword) => (sc.index test (.ofList keyword)).bind fun i =>
          sc.element test (.ofList (c :: s)) (.ofList property) i := by
  have htimer : c :: s ≠ "$timer".toList := fun h => hc (List.cons.inj h).1
  have hstate : c :: s ≠ "$state".toList := fun h => hc (List.cons.inj h).1
  unfold operand
  dsimp only
  rw [if_neg htimer, if_neg hstate, if_neg hc]
  rfl

theorem ne_dollar_of_isAlpha {c : Char} (h : c.isAlpha = true) : c ≠ '$' := by
  rintro rfl
  exact absurd h (by decide)

theorem operand_of_denotes {test : String} {token : List Char} {o : Operand}
    (h : sc.Denotes token o) : sc.operand test token = .ok o := by
  cases h with
  | timer => rfl
  | state => rfl
  | literal halpha hdollar hx => rw [operand_cons hdollar, if_pos (by simp [halpha]), hx]
  | scalar halpha hnone he =>
    rw [operand_cons (ne_dollar_of_isAlpha halpha), if_neg (by simp [halpha]),
      cut_of_not_mem hnone]
    exact element_eq_ok_iff.2 ⟨he, rfl⟩
  | @element c s keyword index halpha hnone hi he =>
    have hcut := cut_append_sep (b := keyword) hnone
    rw [List.cons_append] at hcut ⊢
    rw [operand_cons (ne_dollar_of_isAlpha halpha), if_neg (by simp [halpha]), hcut]
    exact bind_eq_ok_iff.2 ⟨index, index_eq_ok_iff.2 hi, element_eq_ok_iff.2 ⟨he, rfl⟩⟩

theorem denotes_of_operand {test : String} {token : List Char} {o : Operand}
    (h : sc.operand test token = .ok o) : sc.Denotes token o := by
  unfold operand at h
  split at h
  · cases h
  rename_i c s
  split at h
  · rename_i ht
    cases h
    exact ht ▸ .timer
  split at h
  · rename_i ht
    cases h
    exact ht ▸ .state
  split at h
  · cases h
  rename_i hdollar
  split at h
  · rename_i halpha
    split at h
    · rename_i x hx
      cases h
      exact .literal (by simpa using halpha) hdollar hx
    · cases h
  rename_i halpha
  have halpha : c.isAlpha = true := by simpa using halpha
  split at h
  · rename_i hcut
    obtain ⟨he, rfl⟩ := element_eq_ok_iff.1 h
    exact .scalar halpha (cut_eq_none_iff.1 hcut) he
  · rename_i property keyword hcut
    obtain ⟨i, hi, h⟩ := bind_eq_ok h
    obtain ⟨he, rfl⟩ := element_eq_ok_iff.1 h
    obtain ⟨hs, hnone⟩ := cut_eq_some_iff.1 hcut
    -- A property's name is not empty, since its token starts with a letter.
    rcases property with _ | ⟨d, name⟩
    · obtain ⟨rfl, -⟩ := List.cons.inj hs
      exact absurd halpha (by decide)
    · obtain ⟨rfl, -⟩ := List.cons.inj hs
      exact hs ▸ .element halpha hnone (index_eq_ok_iff.1 hi) he

theorem operand_eq_ok_iff {test : String} {token : List Char} {o : Operand} :
    sc.operand test token = .ok o ↔ sc.Denotes token o :=
  ⟨denotes_of_operand, operand_of_denotes⟩

theorem placed_eq_ok_iff {α : Type} {text : List Char} {r : Except FormFault α} {x : α} :
    sc.placed text r = .ok x ↔ r = .ok x := by
  cases r <;> simp [placed, Except.mapError]

theorem state_eq_ok_iff {spec name : String} {s : Nat} :
    sc.state spec name = .ok s ↔ sc.keywords.value? name = some (s : Int) ∧ s < sc.states := by
  constructor
  · exact fun h => KeywordTable.state?_eq_some (state_ok h)
  · rintro ⟨hv, hlt⟩
    simp only [state, KeywordTable.state?, hv]
    rw [if_pos (by omega)]
    rfl

theorem comparison_eq_ok_iff {piece : List Char} {t : Comparison} :
    sc.comparison (trim piece) = .ok t ↔ sc.WritesTest (trim piece) t := by
  simp only [comparison, bind_eq_ok_iff, placed_eq_ok_iff, Prod.exists, splitTest_eq_ok_iff,
    operand_eq_ok_iff]
  constructor
  · rintro ⟨left, c, right, ⟨w₁, w₂, w₃, hpiece, ⟨hw₁, hw₂, hw₃⟩, hl, hr⟩, a, ha, b, hb, h⟩
    cases h
    obtain rfl := eq_nil_of_trim_eq hpiece hw₃
    rw [hpiece, List.append_nil]
    exact .intro c hl hr hw₁ hw₂ ha hb
  · generalize trim piece = test
    rintro ⟨c, hl, hr, hw₁, hw₂, ha, hb⟩
    exact ⟨_, c, _, ⟨_, _, [], by simp, ⟨hw₁, hw₂, by simp [Blanks]⟩, hl, hr⟩, _, ha, _, hb, rfl⟩

theorem comparisons_eq_ok_iff : ∀ (pieces : List (List Char)) {ts : List Comparison},
    (sc.comparisons pieces).1 = .ok ts ↔
      List.Forall₂ sc.WritesTest ((pieces.map trim).filter (· ≠ [])) ts
  | [], ts => by
    simp [comparisons, eq_comm]
  | piece :: pieces, ts => by
    simp only [comparisons, List.map_cons]
    split
    · rename_i hblank
      rw [List.filter_cons_of_neg (by simpa using hblank)]
      exact comparisons_eq_ok_iff pieces
    · rename_i hne
      rw [List.filter_cons_of_pos (by simpa using hne)]
      split
      · rename_i hc
        refine ⟨nofun, fun h => ?_⟩
        obtain ⟨t, ts, ht, -, -⟩ := List.forall₂_cons_left_iff.1 h
        rw [comparison_eq_ok_iff.2 ht] at hc
        cases hc
      · rename_i t hc
        simp only [map_eq_ok_iff, comparisons_eq_ok_iff pieces, List.forall₂_cons_left_iff,
          ← comparison_eq_ok_iff, hc, Except.ok.injEq]
        constructor
        · rintro ⟨us, hus, rfl⟩
          exact ⟨t, us, rfl, hus, rfl⟩
        · rintro ⟨_, us, rfl, hus, rfl⟩
          exact ⟨us, hus, rfl⟩

theorem tests_eq_ok_iff {spec s : List Char} {ts : List Comparison} :
    (sc.tests spec s).1 = .ok ts ↔ (sc.comparisons (pieces ',' s)).1 = .ok ts ∧ ts ≠ [] := by
  unfold tests
  split
  · rename_i h
    rw [h]
    exact ⟨nofun, fun ⟨h, hne⟩ => absurd (Except.ok.inj h).symm hne⟩
  · rename_i hne
    refine ⟨fun h => ⟨h, ?_⟩, And.left⟩
    rintro rfl
    exact hne _ (Prod.ext h rfl)

/-- A piece that is not blank is read, so there is a test if and only if there is such a piece. -/
theorem forall₂_ne_nil_iff {ps : List (List Char)} {ts : List Comparison}
    (h : List.Forall₂ sc.WritesTest ((ps.map trim).filter (· ≠ [])) ts) :
    ts ≠ [] ↔ ∃ piece ∈ ps, ¬ Blanks piece := by
  rw [← List.length_pos_iff, ← h.length_eq, List.length_pos_iff_exists_mem]
  simp [Blanks, trim_eq_nil_iff]

theorem ruleHead_eq_ok_iff {spec s : List Char} {origin target : Nat} :
    sc.ruleHead spec = .ok (origin, target, s) ↔
      ∃ w₁ o w₂ w₃ t w₄, spec = w₁ ++ o ++ w₂ ++ "->".toList ++ w₃ ++ t ++ w₄ ++ "=".toList ++ s ∧
        (Blanks w₁ ∧ Blanks w₂ ∧ Blanks w₃ ∧ Blanks w₄) ∧
        sc.NamesState o origin ∧ sc.NamesState t target := by
  simp only [ruleHead, bind_eq_ok_iff, Prod.exists, placed_eq_ok_iff, splitRule_eq_ok_iff,
    state_eq_ok_iff]
  constructor
  · rintro ⟨_, _, _, ⟨w₁, o, w₂, w₃, t, w₄, hspec, hw, ho, ht, rfl, rfl⟩, _, hos, _, hts, h⟩
    cases h
    exact ⟨w₁, o, w₂, w₃, t, w₄, hspec, hw, ⟨ho, hos.1, hos.2⟩, ⟨ht, hts.1, hts.2⟩⟩
  · rintro ⟨w₁, o, w₂, w₃, t, w₄, hspec, hw, ho, ht⟩
    exact ⟨_, _, s, ⟨w₁, o, w₂, w₃, t, w₄, hspec, hw, ho.word, ht.word, rfl, rfl⟩,
      origin, ⟨ho.value?, ho.lt⟩, target, ⟨ht.value?, ht.lt⟩, rfl⟩

theorem rule_eq_ok_iff_ruleHead {spec : String} {origin : Nat} {c : Candidate} :
    (sc.rule spec).1 = .ok (origin, c) ↔
      ∃ s, sc.ruleHead spec.toList = .ok (origin, c.target, s) ∧
        (sc.tests spec.toList s).1 = .ok c.tests := by
  unfold rule
  split
  · rename_i h
    simp [h]
  · rename_i o t s h
    simp only [map_eq_ok_iff, h, Except.ok.injEq, Prod.mk.injEq]
    constructor
    · rintro ⟨ts, hts, rfl, rfl⟩
      exact ⟨s, ⟨rfl, rfl, rfl⟩, hts⟩
    · rintro ⟨_, ⟨rfl, rfl, rfl⟩, hts⟩
      exact ⟨c.tests, hts, rfl, rfl⟩

/-- The rules that can be read are those that are written in their form, and what they are read as
is what was written: an origin, a target and a test for each piece that is not blank. -/
theorem rule_eq_ok_iff {spec : String} {origin : Nat} {c : Candidate} :
    (sc.rule spec).1 = .ok (origin, c) ↔ sc.WritesRule spec.toList origin c := by
  rw [rule_eq_ok_iff_ruleHead]
  simp only [ruleHead_eq_ok_iff, tests_eq_ok_iff, comparisons_eq_ok_iff]
  generalize spec.toList = text
  constructor
  · rintro ⟨s, ⟨w₁, o, w₂, w₃, t, w₄, rfl, ⟨hw₁, hw₂, hw₃, hw₄⟩, ho, ht⟩, htests, hne⟩
    obtain ⟨hs, -, hcomma⟩ := pieces_eq_iff.1 (rfl : pieces ',' s = _)
    rw [hs]
    exact .intro hw₁ hw₂ hw₃ hw₄ ho ht hcomma ((forall₂_ne_nil_iff htests).1 hne) htests
  · rintro @⟨w₁, w₂, w₃, w₄, o, t, ps, _, _, hw₁, hw₂, hw₃, hw₄, ho, ht, hcomma, hpiece, htests⟩
    have hps : ps ≠ [] := by
      rintro rfl
      obtain ⟨piece, h, -⟩ := hpiece
      cases h
    have hpieces : pieces ',' ([','].intercalate ps) = ps := pieces_eq_iff.2 ⟨rfl, hps, hcomma⟩
    refine ⟨[','].intercalate ps, ⟨w₁, o, w₂, w₃, t, w₄, rfl, ⟨hw₁, hw₂, hw₃, hw₄⟩, ho, ht⟩, ?_⟩
    rw [hpieces]
    exact ⟨htests, (forall₂_ne_nil_iff htests).2 hpiece⟩

end Scope

end Dwell

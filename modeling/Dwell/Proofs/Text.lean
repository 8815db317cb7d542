import Dwell.Text.Blank
import Dwell.Text.Pieces
import Mathlib.Data.List.TakeDrop
import Mathlib.Data.List.TakeWhile

/-!
# Taking texts apart

What a scan takes off a text is the longest row of characters of a kind: what is left does not
start with another (`span_eq_iff`, `dropBlank_eq_iff`). Cutting a text at a separator undoes joining
parts that do not contain it (`pieces_eq_iff`, `cut_eq_some_iff`), and the pieces of two texts with
a separator between them are those of one and of the other (`pieces_append`).
-/

namespace Dwell.Text

/-- Blanks alone, or nothing. -/
def Blanks (s : List Char) : Prop :=
  ∀ c ∈ s, isBlank c = true

/-- One or more characters of a kind. -/
def Word (kind : Char → Bool) (s : List Char) : Prop :=
  s ≠ [] ∧ ∀ c ∈ s, kind c = true

/-- The text does not start with a character of a kind. -/
def Ends (kind : Char → Bool) (s : List Char) : Prop :=
  ∀ c ∈ s.head?, kind c = false

instance (kind : Char → Bool) (s : List Char) : Decidable (Word kind s) :=
  decidable_of_iff (s ≠ [] ∧ s.all kind = true) (and_congr_right' List.all_eq_true)

variable {kind : Char → Bool} {sep : Char} {s t a b w : List Char}

section Scan

theorem ends_cons {c : Char} : Ends kind (c :: s) ↔ kind c = false := by
  simp [Ends]

theorem ends_append {other : Char → Bool} (ha : ∀ c ∈ a, other c = true)
    (hother : ∀ c, other c = true → kind c = false) (hb : Ends kind b) : Ends kind (a ++ b) := by
  cases a with
  | nil => exact hb
  | cons c a => exact ends_cons.2 (hother c (ha c List.mem_cons_self))

theorem span_eq_iff : s.span kind = (a, b) ↔
    s = a ++ b ∧ (∀ c ∈ a, kind c = true) ∧ Ends kind b := by
  rw [List.span_eq_takeWhile_dropWhile, Prod.mk.injEq]
  constructor
  · rintro ⟨rfl, rfl⟩
    refine ⟨List.takeWhile_append_dropWhile.symm, fun c hc => List.mem_takeWhile_imp hc,
      fun c hc => ?_⟩
    have := List.head?_dropWhile_not kind s
    rw [Option.mem_def.1 hc] at this
    simpa using this
  · rintro ⟨rfl, ha, hb⟩
    rw [List.takeWhile_append_of_pos ha, List.dropWhile_append_of_pos ha]
    cases b with
    | nil => simp
    | cons c b => simp [ends_cons.1 hb]

theorem dropBlank_eq_iff : dropBlank s = t ↔ ∃ w, s = w ++ t ∧ Blanks w ∧ Ends isBlank t := by
  have h : dropBlank s = t ↔ (s.span isBlank).2 = t := by
    rw [List.span_eq_takeWhile_dropWhile, dropBlank]
  rw [h]
  constructor
  · exact fun ht => ⟨(s.span isBlank).1, span_eq_iff.1 (Prod.ext rfl ht)⟩
  · rintro ⟨w, hw⟩
    rw [span_eq_iff.2 hw]

theorem dropBlank_append (hw : Blanks w) (ht : Ends isBlank t) : dropBlank (w ++ t) = t :=
  dropBlank_eq_iff.2 ⟨w, rfl, hw, ht⟩

theorem ends_dropBlank (s : List Char) : Ends isBlank (dropBlank s) := by
  obtain ⟨-, -, -, h⟩ := dropBlank_eq_iff.1 (rfl : dropBlank s = dropBlank s)
  exact h

theorem ends_trim (s : List Char) : Ends isBlank (trim s).reverse := by
  rw [trim, List.reverse_reverse]
  exact ends_dropBlank _

/-- What was trimmed does not end in blanks. -/
theorem eq_nil_of_trim_eq (h : trim s = t ++ w) (hw : Blanks w) : w = [] := by
  have hends := ends_trim s
  rw [h, List.reverse_append] at hends
  by_contra hne
  obtain ⟨c, v, hv⟩ := List.exists_cons_of_ne_nil (mt List.reverse_eq_nil_iff.1 hne)
  rw [hv, List.cons_append, ends_cons] at hends
  have hc : c ∈ w := List.mem_reverse.1 (hv ▸ List.mem_cons_self)
  simp [hw c hc] at hends

theorem dropBlank_eq_self (h : ∀ c ∈ s, isBlank c = false) : dropBlank s = s :=
  dropBlank_eq_iff.2 ⟨[], rfl, by simp [Blanks], fun c hc => h c (List.mem_of_mem_head? hc)⟩

theorem trim_eq_self (h : ∀ c ∈ s, isBlank c = false) : trim s = s := by
  have hreverse : ∀ c ∈ s.reverse, isBlank c = false := by simpa using h
  rw [trim, dropBlank_eq_self h, dropBlank_eq_self hreverse, List.reverse_reverse]

end Scan

section Pieces

theorem pieces_cons_sep : pieces sep (sep :: s) = [] :: pieces sep s := by
  simp [pieces]

theorem pieces_append_of_not_mem (ha : sep ∉ a) : ∃ p ps, pieces sep s = p :: ps ∧
    pieces sep (a ++ s) = (a ++ p) :: ps := by
  induction a with
  | nil =>
    obtain ⟨p, ps, hp⟩ := List.exists_cons_of_ne_nil (pieces_ne_nil sep s)
    exact ⟨p, ps, hp, hp⟩
  | cons c a ih =>
    rw [List.mem_cons, not_or] at ha
    obtain ⟨p, ps, hp, hap⟩ := ih ha.2
    refine ⟨p, ps, hp, ?_⟩
    simp [pieces, Ne.symm ha.1, hap]

theorem pieces_of_not_mem (ha : sep ∉ a) : pieces sep a = [a] := by
  obtain ⟨p, ps, hp, hap⟩ := pieces_append_of_not_mem (s := []) ha
  obtain ⟨rfl, rfl⟩ := List.cons.inj hp
  simpa using hap

theorem pieces_append_sep (ha : sep ∉ a) : pieces sep (a ++ sep :: s) = a :: pieces sep s := by
  obtain ⟨p, ps, hp, hap⟩ := pieces_append_of_not_mem (s := sep :: s) ha
  rw [pieces_cons_sep] at hp
  obtain ⟨rfl, rfl⟩ := List.cons.inj hp
  simpa using hap

theorem not_mem_of_mem_pieces : ∀ {s p : List Char}, p ∈ pieces sep s → sep ∉ p
  | [], p, h => by simp_all [pieces]
  | c :: s, p, h => by
    simp only [pieces] at h
    split at h
    · rcases List.mem_cons.1 h with rfl | h
      · simp
      · exact not_mem_of_mem_pieces h
    · rename_i hc
      obtain ⟨q, qs, hq⟩ := List.exists_cons_of_ne_nil (pieces_ne_nil sep s)
      rw [hq] at h
      have hall : ∀ r ∈ q :: qs, sep ∉ r := fun r hr => not_mem_of_mem_pieces (hq ▸ hr)
      rcases List.mem_cons.1 h with rfl | h
      · simp [Ne.symm hc, hall q]
      · exact hall p (List.mem_cons_of_mem _ h)

theorem pieces_eq_iff {ps : List (List Char)} : pieces sep s = ps ↔
    s = [sep].intercalate ps ∧ ps ≠ [] ∧ ∀ p ∈ ps, sep ∉ p := by
  constructor
  · rintro rfl
    exact ⟨(intercalate_pieces sep s).symm, pieces_ne_nil sep s, fun p => not_mem_of_mem_pieces⟩
  · rintro ⟨rfl, hne, hps⟩
    induction ps with
    | nil => exact absurd rfl hne
    | cons p ps ih =>
      rw [List.forall_mem_cons] at hps
      cases ps with
      | nil => simpa [List.intercalate] using pieces_of_not_mem hps.1
      | cons q qs =>
        have htail := ih (by simp) hps.2
        have hjoin : [sep].intercalate (p :: q :: qs)
            = p ++ sep :: [sep].intercalate (q :: qs) := by
          simp [List.intercalate]
        rw [hjoin, pieces_append_sep hps.1, htail]

theorem pieces_append (a b : List Char) :
    pieces sep (a ++ sep :: b) = pieces sep a ++ pieces sep b := by
  induction a with
  | nil => simp [pieces]
  | cons c a ih =>
    simp only [List.cons_append, pieces, ih]
    split
    · rfl
    · obtain ⟨p, ps, hp⟩ := List.exists_cons_of_ne_nil (pieces_ne_nil sep a)
      simp [hp]

end Pieces

section Cut

theorem cut_of_not_mem (hs : sep ∉ s) : cut sep s = none := by
  have h : s.dropWhile (· != sep) = [] := by
    refine List.dropWhile_eq_nil_iff.2 fun c hc => ?_
    simpa using fun he : c = sep => hs (he ▸ hc)
  rw [cut, h]

theorem cut_append_sep (ha : sep ∉ a) : cut sep (a ++ sep :: b) = some (a, b) := by
  have hkind : ∀ c ∈ a, (c != sep) = true := fun c hc => by
    simpa using fun he : c = sep => ha (he ▸ hc)
  rw [cut, List.takeWhile_append_of_pos hkind, List.dropWhile_append_of_pos hkind]
  simp

theorem cut_eq_none_iff : cut sep s = none ↔ sep ∉ s := by
  refine ⟨fun h hs => ?_, cut_of_not_mem⟩
  obtain ⟨a, b, rfl, ha⟩ := List.eq_append_cons_of_mem hs
  rw [cut_append_sep ha] at h
  cases h

theorem cut_eq_some_iff : cut sep s = some (a, b) ↔ s = a ++ sep :: b ∧ sep ∉ a := by
  refine ⟨fun h => ?_, fun ⟨hs, ha⟩ => hs ▸ cut_append_sep ha⟩
  have hs : sep ∈ s := by
    by_contra hs
    rw [cut_of_not_mem hs] at h
    cases h
  obtain ⟨a', b', rfl, ha'⟩ := List.eq_append_cons_of_mem hs
  rw [cut_append_sep ha'] at h
  cases h
  exact ⟨rfl, ha'⟩

end Cut

end Dwell.Text

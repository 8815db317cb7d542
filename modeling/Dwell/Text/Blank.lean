/-!
# Blank characters

The white space that specifications may contain anywhere between their parts, and its removal at
the ends of a text. A blank is any character with the Unicode property `White_Space`.
-/

namespace Dwell.Text

/-- The code points of Unicode's `White_Space`, as closed ranges. -/
def blankRanges : List (Nat × Nat) :=
  [(0x09, 0x0D), (0x20, 0x20), (0x85, 0x85), (0xA0, 0xA0), (0x1680, 0x1680), (0x2000, 0x200A),
    (0x2028, 0x2029), (0x202F, 0x202F), (0x205F, 0x205F), (0x3000, 0x3000)]

def isBlank (c : Char) : Bool :=
  blankRanges.any fun r => r.1 ≤ c.toNat && c.toNat ≤ r.2

/-- A text without the blanks it starts with. -/
def dropBlank (s : List Char) : List Char :=
  s.dropWhile isBlank

/-- A text without the blanks at either end. -/
def trim (s : List Char) : List Char :=
  (dropBlank (dropBlank s).reverse).reverse

theorem dropBlank_eq_nil_iff {s : List Char} : dropBlank s = [] ↔ ∀ c ∈ s, isBlank c := by
  induction s with
  | nil => simp [dropBlank]
  | cons c cs ih => by_cases h : isBlank c <;> simp_all [dropBlank]

theorem head_dropBlank {s : List Char} {c : Char} {cs : List Char} (h : dropBlank s = c :: cs) :
    isBlank c = false := by
  induction s with
  | nil => simp [dropBlank] at h
  | cons d ds ih =>
    by_cases hd : isBlank d
    · exact ih (by simpa [dropBlank, hd] using h)
    · have hcd : d = c := by
        have h' : (d :: ds) = c :: cs := by simpa [dropBlank, hd] using h
        exact (List.cons.inj h').1
      exact hcd ▸ by simpa using hd

theorem trim_eq_nil_iff {s : List Char} : trim s = [] ↔ ∀ c ∈ s, isBlank c := by
  rw [trim, List.reverse_eq_nil_iff, dropBlank_eq_nil_iff, ← dropBlank_eq_nil_iff (s := s)]
  constructor
  · intro h
    rcases hs : dropBlank s with _ | ⟨c, cs⟩
    · rfl
    · have := h c (by simp [hs])
      simp [head_dropBlank hs] at this
  · intro h
    simp [h]

end Dwell.Text

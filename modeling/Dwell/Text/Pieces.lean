/-!
# Cutting a text at a character

A text is cut at every occurrence of a separator (`pieces`) or at the first one only (`cut`).
Joining the pieces again gives the text, so nothing is lost.
-/

namespace Dwell.Text

/-- The parts between the separators; one more than there are separators. -/
def pieces (sep : Char) : List Char → List (List Char)
  | [] => [[]]
  | c :: cs =>
    if c = sep then [] :: pieces sep cs
    else match pieces sep cs with
      | [] => [[c]]
      | p :: ps => (c :: p) :: ps

/-- What stands before and after the first separator, if there is one. -/
def cut (sep : Char) (s : List Char) : Option (List Char × List Char) :=
  match s.dropWhile (· != sep) with
  | [] => none
  | _ :: rest => some (s.takeWhile (· != sep), rest)

theorem pieces_ne_nil (sep : Char) (s : List Char) : pieces sep s ≠ [] := by
  cases s with
  | nil => simp [pieces]
  | cons c cs =>
    simp only [pieces]
    split
    · simp
    · split <;> simp

theorem intercalate_pieces (sep : Char) (s : List Char) :
    [sep].intercalate (pieces sep s) = s := by
  induction s with
  | nil => rfl
  | cons c cs ih =>
    simp only [pieces]
    obtain ⟨p, ps, hp⟩ := List.exists_cons_of_ne_nil (pieces_ne_nil sep cs)
    rw [hp] at ih ⊢
    split
    · subst c
      simp only [List.intercalate, List.intersperse] at ih ⊢
      simp [ih]
    · cases ps <;> simp_all [List.intercalate, List.intersperse]

end Dwell.Text

import Dwell.Host.Basic
import Dwell.Instant
import Dwell.Machine.Basic

/-!
# Scenarios

What a simulation is made of: a window of time, the options of all machines, hosts with their
machines, and events that change properties from outside at given times. Tables are sorted by name
and hold each name once.
-/

namespace Dwell

/-- The simulated time, in seconds. -/
structure Window where
  start : Instant := .zero
  stop : Instant := .clamp 86400
  /-- The longest time between two steps. -/
  maxStep : Int := 3600
  deriving DecidableEq, Repr

/-- A property of a host and the value it starts with. -/
inductive Declaration where
  | enumeration (keywords : KeywordTable) (value : Int)
  | number (value : Float)
  | numbers (values : List Float)
  | text (value : String)

structure HostSpec where
  name : String
  properties : List (String × Declaration) := []
  /-- The configuration texts of the machines. -/
  machines : List String := []

/-- A value that is written to a property from outside at some time. -/
structure Event where
  time : Instant
  host : String
  property : String
  /-- The element to write, if the property is an array. -/
  index : Nat := 0
  value : Float

structure Scenario where
  window : Window := {}
  options : Options := {}
  hosts : List HostSpec := []
  events : List Event := []

/-- Puts an element into a list that is sorted by key, in place of the one with its key. -/
def place {α : Type} (key : α → String) (a : α) : List α → List α
  | [] => [a]
  | b :: bs =>
    if key a < key b then a :: b :: bs
    else if key a = key b then a :: bs
    else b :: place key a bs

/-- The elements sorted by key; of those with the same key, the last. -/
def tabulate {α : Type} (key : α → String) (as : List α) : List α :=
  as.foldl (fun table a => place key a table) []

theorem place_of_forall_lt {α : Type} {key : α → String} {a : α} {as : List α}
    (h : ∀ b ∈ as, key b < key a) : place key a as = as ++ [a] := by
  induction as with
  | nil => rfl
  | cons b bs ih =>
    have hb := h b (by simp)
    have hlt : ¬ key a < key b := fun h' => String.lt_irrefl _ (String.lt_trans hb h')
    have hne : key a ≠ key b := fun h' => String.lt_irrefl _ (h' ▸ hb)
    rw [place, if_neg hlt, if_neg hne, ih fun c hc => h c (by simp [hc]), List.cons_append]

theorem foldl_place {α : Type} {key : α → String} (as table : List α)
    (h : (table ++ as).Pairwise (key · < key ·)) :
    as.foldl (fun table a => place key a table) table = table ++ as := by
  induction as generalizing table with
  | nil => simp
  | cons a as ih =>
    have ha : ∀ b ∈ table, key b < key a := fun b hb =>
      (List.pairwise_append.1 h).2.2 b hb a (by simp)
    rw [List.foldl_cons, place_of_forall_lt ha, ih _ (by simpa using h)]
    simp

/-- A sorted list in which no key repeats is its own table. -/
theorem tabulate_of_pairwise {α : Type} {key : α → String} {as : List α}
    (h : as.Pairwise (key · < key ·)) : tabulate key as = as := by
  simpa [tabulate] using foldl_place as [] h

end Dwell

import Dwell.Rule.Graph
import Mathlib.Data.List.Basic

/-!
# How tests are evaluated

A test comes out as the values of its two sides say, and a row of tests as its first test that is
not true (`judgeFrom_eq_stopped_iff`). What is read on the way are both sides of each test before
that one, and then its left side, and its right side if the left one could be read
(`readsOf_append_cons`). Nothing else is needed: where what was read is answered in the same way,
the tests come out the same, whatever the other sources answer (`judge_of_answers`).
-/

namespace Dwell

variable {host host' : Host} {frame : Frame}

theorem Operand.eq_element_of_mem_reads {o : Operand} {r : SourceRead} (h : r ∈ o.reads host) :
    o = .element r.property r.index := by
  cases o with
  | literal | timer | state => simp [reads] at h
  | element property index =>
    rw [reads] at h
    split at h
    · obtain rfl := List.mem_singleton.1 h
      rfl
    · simp at h

namespace Comparison

variable {t : Comparison}

/-- How a test comes out where its sides have some values, or one of them none. -/
inductive ComesOut (t : Comparison) (host : Host) (frame : Frame) : Outcome → Prop
  | isTrue {a b} :
    t.left.value? host frame = some a → t.right.value? host frame = some b →
    t.comparator.holds a b = true → ComesOut t host frame .isTrue
  | isFalse {a b} :
    t.left.value? host frame = some a → t.right.value? host frame = some b →
    t.comparator.holds a b = false → ComesOut t host frame .isFalse
  | left : t.left.value? host frame = none → ComesOut t host frame (.unread .left)
  | right {a} :
    t.left.value? host frame = some a → t.right.value? host frame = none →
    ComesOut t host frame (.unread .right)

theorem exists_comesOut (t : Comparison) (host : Host) (frame : Frame) :
    ∃ o, t.ComesOut host frame o := by
  rcases hleft : t.left.value? host frame with _ | a
  · exact ⟨_, .left hleft⟩
  rcases hright : t.right.value? host frame with _ | b
  · exact ⟨_, .right hleft hright⟩
  rcases h : t.comparator.holds a b with _ | _
  · exact ⟨_, .isFalse hleft hright h⟩
  · exact ⟨_, .isTrue hleft hright h⟩

theorem ComesOut.outcome_eq {o : Outcome} (h : t.ComesOut host frame o) :
    t.outcome host frame = o := by
  cases h with
  | isTrue hleft hright h | isFalse hleft hright h => simp [outcome, hleft, hright, h]
  | left hleft => simp [outcome, hleft]
  | right hleft hright => simp [outcome, hleft, hright]

theorem outcome_eq_iff {o : Outcome} : t.outcome host frame = o ↔ t.ComesOut host frame o := by
  refine ⟨?_, ComesOut.outcome_eq⟩
  rintro rfl
  obtain ⟨o, ho⟩ := t.exists_comesOut host frame
  rwa [ho.outcome_eq]

theorem outcome_eq_isTrue_iff : t.outcome host frame = .isTrue ↔
    ∃ a b, t.left.value? host frame = some a ∧ t.right.value? host frame = some b ∧
      t.comparator.holds a b = true := by
  rw [outcome_eq_iff]
  constructor
  · rintro ⟨hleft, hright, h⟩
    exact ⟨_, _, hleft, hright, h⟩
  · rintro ⟨a, b, hleft, hright, h⟩
    exact .isTrue hleft hright h

/-- The sources that reading both sides asks, those of the left one first. -/
def bothReads (t : Comparison) (host : Host) : List SourceRead :=
  t.left.reads host ++ t.right.reads host

theorem reads_eq : t.reads host frame = t.left.reads host ++
    if t.outcome host frame = .unread .left then [] else t.right.reads host := by
  rcases hleft : t.left.value? host frame with _ | a
  · rw [reads, hleft, if_pos (ComesOut.left hleft).outcome_eq]
    rfl
  · have hne : t.outcome host frame ≠ .unread .left := by
      intro h
      cases outcome_eq_iff.1 h with
      | left hnone => cases hleft.symm.trans hnone
    rw [reads, hleft, if_neg hne]
    rfl

theorem reads_subset (t : Comparison) : t.reads host frame ⊆ t.bothReads host := by
  rw [reads_eq, bothReads]
  split
  · simp
  · exact List.Subset.refl _

theorem exists_side_of_mem_bothReads {r : SourceRead} (h : r ∈ t.bothReads host) :
    ∃ side, t.side side = .element r.property r.index := by
  rw [bothReads, List.mem_append] at h
  rcases h with h | h
  · exact ⟨.left, Operand.eq_element_of_mem_reads h⟩
  · exact ⟨.right, Operand.eq_element_of_mem_reads h⟩

theorem reads_of_isTrue (h : t.outcome host frame = .isTrue) :
    t.reads host frame = t.bothReads host := by
  rw [reads_eq, h]
  rfl

end Comparison

namespace Candidate

section Judging

variable {t : Comparison} {before after ts : List Comparison} {position i : Nat} {o : Outcome}

theorem judgeFrom_cons_of_isTrue (h : t.outcome host frame = .isTrue) :
    judgeFrom host frame position (t :: ts) = judgeFrom host frame (position + 1) ts := by
  simp only [judgeFrom, h]

theorem judgeFrom_cons (h : t.outcome host frame ≠ .isTrue) :
    judgeFrom host frame position (t :: ts) = .stopped position (t.outcome host frame) := by
  cases ho : t.outcome host frame with
  | isTrue => exact absurd ho h
  | isFalse | unread side => simp only [judgeFrom, ho]

theorem judgeFrom_eq_satisfied_iff :
    judgeFrom host frame position ts = .satisfied ↔ ∀ t ∈ ts, t.outcome host frame = .isTrue := by
  induction ts generalizing position with
  | nil => simp [judgeFrom]
  | cons t ts ih =>
    rw [List.forall_mem_cons]
    by_cases h : t.outcome host frame = .isTrue
    · rw [judgeFrom_cons_of_isTrue h, ih, and_iff_right h]
    · rw [judgeFrom_cons h]
      simp [h]

theorem judgeFrom_append_cons (hbefore : ∀ t' ∈ before, t'.outcome host frame = .isTrue)
    (ht : t.outcome host frame ≠ .isTrue) : judgeFrom host frame position (before ++ t :: after)
      = .stopped (position + before.length) (t.outcome host frame) := by
  induction before generalizing position with
  | nil => exact judgeFrom_cons ht
  | cons t' before ih =>
    rw [List.forall_mem_cons] at hbefore
    rw [List.cons_append, judgeFrom_cons_of_isTrue hbefore.1, ih hbefore.2, List.length_cons,
      Nat.add_right_comm, Nat.add_assoc]

/-- Tests stop at the first one that is not true. -/
theorem judgeFrom_eq_stopped_iff : judgeFrom host frame position ts = .stopped i o ↔
    ∃ before t after, ts = before ++ t :: after ∧ i = position + before.length ∧
      (∀ t' ∈ before, t'.outcome host frame = .isTrue) ∧
      t.outcome host frame = o ∧ o ≠ .isTrue := by
  constructor
  · intro h
    induction ts generalizing position with
    | nil => cases h
    | cons t ts ih =>
      by_cases ht : t.outcome host frame = .isTrue
      · rw [judgeFrom_cons_of_isTrue ht] at h
        obtain ⟨before, t', after, rfl, rfl, hbefore, ho⟩ := ih h
        refine ⟨t :: before, t', after, rfl, ?_, List.forall_mem_cons.2 ⟨ht, hbefore⟩, ho⟩
        rw [List.length_cons, Nat.add_right_comm, Nat.add_assoc]
      · rw [judgeFrom_cons ht] at h
        cases h
        exact ⟨[], t, ts, rfl, rfl, by simp, rfl, ht⟩
  · rintro ⟨before, t, after, rfl, rfl, hbefore, rfl, ht⟩
    exact judgeFrom_append_cons hbefore ht

end Judging

section Reads

variable {t : Comparison} {before after ts : List Comparison}

theorem readsOf_of_isTrue (h : ∀ t ∈ ts, t.outcome host frame = .isTrue) :
    readsOf host frame ts = ts.flatMap (·.bothReads host) := by
  induction ts with
  | nil => rfl
  | cons t ts ih =>
    rw [List.forall_mem_cons] at h
    rw [readsOf, if_pos h.1, ih h.2, Comparison.reads_of_isTrue h.1, List.flatMap_cons]

theorem readsOf_subset : ∀ ts : List Comparison,
    readsOf host frame ts ⊆ ts.flatMap (·.bothReads host)
  | [] => List.Subset.refl _
  | t :: ts => by
    rw [readsOf, List.flatMap_cons]
    have hts : (if t.outcome host frame = .isTrue then readsOf host frame ts else [])
        ⊆ ts.flatMap (·.bothReads host) := by
      split
      · exact readsOf_subset ts
      · exact List.nil_subset _
    exact List.append_subset.2
      ⟨List.Subset.trans t.reads_subset (List.subset_append_left ..),
        List.Subset.trans hts (List.subset_append_right ..)⟩

theorem readsOf_append_cons (hbefore : ∀ t' ∈ before, t'.outcome host frame = .isTrue)
    (ht : t.outcome host frame ≠ .isTrue) : readsOf host frame (before ++ t :: after)
      = before.flatMap (·.bothReads host) ++ t.reads host frame := by
  induction before with
  | nil => simp only [List.nil_append, readsOf, if_neg ht, List.append_nil, List.flatMap_nil]
  | cons t' before ih =>
    rw [List.forall_mem_cons] at hbefore
    rw [List.cons_append, readsOf, if_pos hbefore.1, ih hbefore.2,
      Comparison.reads_of_isTrue hbefore.1, List.flatMap_cons, List.append_assoc]

end Reads

end Candidate

section Answers

/-- Another host has the same sources and gives the same numbers, but of its sources it only need
give the same answers to some reads. -/
structure Host.Answers (host host' : Host) (reads : List SourceRead) : Prop where
  isSource : ∀ name, host'.isSource name = host.isSource name
  number : ∀ name index, host.isSource name = false →
    host'.read? name index = host.read? name index
  source : ∀ r ∈ reads, host'.read? r.property r.index = host.read? r.property r.index

theorem Host.Answers.mono {some all : List SourceRead} (h : host.Answers host' all)
    (hsub : some ⊆ all) : host.Answers host' some :=
  ⟨h.isSource, h.number, fun r hr => h.source r (hsub hr)⟩

theorem Operand.of_answers (frame : Frame) {o : Operand}
    (h : host.Answers host' (o.reads host)) :
    o.value? host' frame = o.value? host frame ∧ o.reads host' = o.reads host := by
  cases o with
  | literal | timer | state => exact ⟨rfl, rfl⟩
  | element property index =>
    refine ⟨?_, by simp only [reads, h.isSource]⟩
    rcases hs : host.isSource property with _ | _
    · exact h.number property index hs
    · exact h.source ⟨property, index⟩ (by simp [reads, hs])

theorem Comparison.of_answers {t : Comparison} (h : host.Answers host' (t.reads host frame)) :
    t.outcome host' frame = t.outcome host frame ∧ t.reads host' frame = t.reads host frame := by
  obtain ⟨hleft, hleft'⟩ :=
    Operand.of_answers frame (h.mono (List.subset_append_left ..))
  simp only [outcome, reads, hleft, hleft']
  rcases ha : t.left.value? host frame with _ | a
  · exact ⟨rfl, rfl⟩
  · have hsub : t.right.reads host ⊆ t.reads host frame := by
      rw [reads, ha]
      exact List.subset_append_right ..
    obtain ⟨hright, hright'⟩ := Operand.of_answers frame (h.mono hsub)
    simp only [hright, hright']
    exact ⟨trivial, trivial⟩

namespace Candidate

theorem judgeFrom_of_answers : ∀ (ts : List Comparison) (position : Nat),
    host.Answers host' (readsOf host frame ts) →
    judgeFrom host' frame position ts = judgeFrom host frame position ts ∧
      readsOf host' frame ts = readsOf host frame ts
  | [], _, _ => ⟨rfl, rfl⟩
  | t :: ts, position, h => by
    obtain ⟨ho, hr⟩ := Comparison.of_answers (h.mono (List.subset_append_left ..))
    by_cases ht : t.outcome host frame = .isTrue
    · have hsub : readsOf host frame ts ⊆ readsOf host frame (t :: ts) := by
        rw [readsOf, if_pos ht]
        exact List.subset_append_right ..
      obtain ⟨hj, hr'⟩ := judgeFrom_of_answers ts (position + 1) (h.mono hsub)
      rw [judgeFrom_cons_of_isTrue ht, judgeFrom_cons_of_isTrue (ho.trans ht), hj]
      exact ⟨rfl, by simp only [readsOf, ho, hr, hr']⟩
    · rw [judgeFrom_cons ht, judgeFrom_cons (ho ▸ ht), ho]
      exact ⟨rfl, by simp only [readsOf, ho, hr, if_neg ht]⟩

/-- How a candidate is judged, and what is read for it, depends on the answers to these reads
alone. -/
theorem judge_of_answers {c : Candidate} (h : host.Answers host' (c.reads host frame)) :
    c.judge host' frame = c.judge host frame ∧ c.reads host' frame = c.reads host frame :=
  judgeFrom_of_answers c.tests 0 h

/-- The tests of a candidate are evaluated from left to right up to the first that is not true, and
no more is read than this takes. -/
structure ShortCircuits (c : Candidate) (host : Host) (frame : Frame) : Prop where
  satisfied_iff :
    c.judge host frame = .satisfied ↔ ∀ t ∈ c.tests, t.ComesOut host frame .isTrue
  stopped_iff : ∀ i o, c.judge host frame = .stopped i o ↔ ∃ before t after,
    c.tests = before ++ t :: after ∧ i = before.length ∧
      (∀ t' ∈ before, t'.ComesOut host frame .isTrue) ∧ t.ComesOut host frame o ∧ o ≠ .isTrue
  reads_of_satisfied : c.judge host frame = .satisfied →
    c.reads host frame = c.tests.flatMap (·.bothReads host)
  /-- Of the test that stopped the others, the right side is read if the left one could be. -/
  reads_of_stopped : ∀ i o before t after, c.judge host frame = .stopped i o →
    c.tests = before ++ t :: after → i = before.length →
    c.reads host frame = before.flatMap (·.bothReads host) ++
      (t.left.reads host ++ if o = .unread .left then [] else t.right.reads host)
  /-- What else the sources would answer makes no difference. -/
  of_answers : ∀ host', host.Answers host' (c.reads host frame) →
    c.judge host' frame = c.judge host frame ∧ c.reads host' frame = c.reads host frame

theorem shortCircuits (c : Candidate) (host : Host) (frame : Frame) :
    c.ShortCircuits host frame where
  satisfied_iff := by simp only [judge, judgeFrom_eq_satisfied_iff, Comparison.outcome_eq_iff]
  stopped_iff i o := by
    simp only [judge, judgeFrom_eq_stopped_iff, Comparison.outcome_eq_iff, Nat.zero_add]
  reads_of_satisfied h := readsOf_of_isTrue (judgeFrom_eq_satisfied_iff.1 h)
  reads_of_stopped i o before t after h hc hi := by
    obtain ⟨before', t', after', hc', hi', hbefore, rfl, ht⟩ := judgeFrom_eq_stopped_iff.1 h
    obtain ⟨rfl, htail⟩ :=
      List.append_inj (hc.symm.trans hc') (by rw [← hi, hi', Nat.zero_add])
    obtain ⟨rfl, -⟩ := List.cons.inj htail
    rw [reads, hc, readsOf_append_cons hbefore ht, Comparison.reads_eq]
  of_answers _ h := judge_of_answers h

end Candidate

end Answers

end Dwell

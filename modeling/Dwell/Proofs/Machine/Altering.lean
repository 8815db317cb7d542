import Dwell.Proofs.Machine.Replay
import Dwell.Proofs.Rule.Form

/-!
# What programming alters

A programming operation is refused, and then nothing shows that it was tried; or it is accepted,
and then it altered one place of the program (`Alters`). A rule, a hold and a hook each replace one
entry of a list that has an entry for every state (`Replaced`). In a reachable machine the lists are
as long as the number of states that names are checked against, so that what is accepted has its
place in them (`Reachable.alters_or_refuses`).
-/

namespace Dwell

open Text

section Lists

variable {α : Type}

/-- One entry of a list was replaced: the entry at `i` is now `a`, and the others are as they
were. -/
structure Replaced (l : List α) (i : Nat) (a : α) (l' : List α) : Prop where
  lt : i < l.length
  length_eq : l'.length = l.length
  here : l'[i]? = some a
  elsewhere : ∀ j ≠ i, l'[j]? = l[j]?

theorem replaced_modify {l : List α} {i : Nat} (f : α → α) (h : i < l.length) :
    Replaced l i (f l[i]) (l.modify i f) where
  lt := h
  length_eq := List.length_modify ..
  here := by simp [h]
  elsewhere j hj := by simp [hj.symm]

theorem replaced_set {l : List α} {i : Nat} (a : α) (h : i < l.length) :
    Replaced l i a (l.set i a) where
  lt := h
  length_eq := List.length_set ..
  here := by simp [h]
  elsewhere j hj := List.getElem?_set_ne hj.symm

/-- An element more in one row is an element more in all rows together. -/
theorem length_flatten_modify (a : α) : ∀ (rows : List (List α)) {i : Nat}, i < rows.length →
    (rows.modify i (· ++ [a])).flatten.length = rows.flatten.length + 1
  | row :: rows, 0, _ => by
    simp only [List.modify_zero_cons, List.flatten_cons, List.length_append, List.length_singleton]
    omega
  | row :: rows, i + 1, h => by
    have ih := length_flatten_modify a rows (Nat.lt_of_succ_lt_succ h)
    simp only [List.modify_succ_cons, List.flatten_cons, List.length_append, ih]
    omega

end Lists

namespace RuleGraph

variable {g : RuleGraph} {origin : Nat} (c : Candidate) (h : origin < g.states)
include h

theorem replaced_push :
    Replaced g.byOrigin origin (g.candidates origin ++ [c]) (g.push origin c).byOrigin := by
  have hrow : g.candidates origin = g.byOrigin[origin] := by
    rw [candidates, List.getElem?_eq_getElem h, Option.getD_some]
  rw [hrow]
  exact replaced_modify (· ++ [c]) h

theorem size_push : (g.push origin c).size = g.size + 1 :=
  length_flatten_modify c g.byOrigin h

end RuleGraph

namespace Scope

variable {sc : Scope} {spec : String} {s : Nat}

/-- The specification starts with a name of the state, and then the mark. -/
def Heads (sc : Scope) (spec mark : String) (s : Nat) : Prop :=
  ∃ w name w' rest, spec.toList = w ++ name ++ w' ++ mark.toList ++ rest ∧ Blanks w ∧ Blanks w' ∧
    sc.NamesState name s

theorem heads_of_rule {c : Candidate} (h : (sc.rule spec).1 = .ok (s, c)) :
    sc.Heads spec "->" s := by
  obtain ⟨_, hhead, -⟩ := rule_eq_ok_iff_ruleHead.1 h
  obtain ⟨w₁, o, w₂, w₃, t, w₄, hspec, ⟨hw₁, hw₂, -, -⟩, ho, -⟩ := ruleHead_eq_ok_iff.1 hhead
  exact ⟨w₁, o, w₂, _, by simpa using hspec, hw₁, hw₂, ho⟩

theorem heads_of_hold {seconds : Float} (h : sc.hold spec = .ok (s, seconds)) :
    sc.Heads spec "=" s := by
  unfold hold at h
  obtain ⟨⟨name, number, unit⟩, hsplit, hnamed⟩ := bind_eq_ok h
  obtain ⟨s', hs, hseconds⟩ := bind_eq_ok hnamed
  have hequals : Word (! isBlank ·) "=".toList := by decide
  simp only [placed_eq_ok_iff, splitHold, bind_eq_ok_iff, Prod.exists, splitName_eq_ok_iff,
    skipMark_eq_ok_iff hequals] at hsplit
  obtain ⟨_, _, ⟨w, n, hspec, hw, hn, -, rfl⟩, rest, ⟨w', rfl, hw'⟩, _, _, -, hsplit⟩ := hsplit
  cases hsplit
  split at hseconds
  · cases hseconds
    obtain ⟨hv, hlt⟩ := state_eq_ok_iff.1 hs
    exact ⟨w, n, w', rest, by simpa using hspec, hw, hw', hn, hv, hlt⟩
  · cases hseconds

end Scope

/-- The operation is one of those that change a program and say whether they did. -/
def Operation.isProgramming : Operation → Prop
  | .bind _ | .addRule _ | .addHold _ | .setHook _ _ => True
  | _ => False

namespace Machine

/-- What a programming operation that is accepted makes of a machine. A binding replaces the whole
program; a rule is appended to the candidates of the state that it names, a hold and a hook take
the place of the one that the state had. -/
inductive Alters (m : Machine) (host : Host) : Operation → Machine → Prop
  | bind {property e} :
    host.property? property = some (.enumeration e) → 2 ≤ statesOf e.keywords →
    Alters m host (.bind property)
      { m with program? := some (.blank property e.keywords (statesOf e.keywords)) }
  | addRule {spec p origin c rules} :
    m.program? = some p → (p.scope host).Heads spec "->" origin →
    ((p.scope host).rule spec).1 = .ok (origin, c) →
    Replaced p.rules.byOrigin origin (p.rules.candidates origin ++ [c]) rules.byOrigin →
    totalRules { m with program? := some { p with rules } } = m.totalRules + 1 →
    Alters m host (.addRule spec) { m with program? := some { p with rules } }
  | addHold {spec p state seconds holds} :
    m.program? = some p → (p.scope host).Heads spec "=" state →
    (p.scope host).hold spec = .ok (state, seconds) →
    Replaced p.holds state seconds holds →
    Alters m host (.addHold spec) { m with program? := some { p with holds } }
  | setHook {name k p hooks} {state : Nat} :
    m.program? = some p → p.keywords.value? name = some ↑state → state < p.states →
    Replaced p.hooks state (some k) hooks →
    Alters m host (.setHook name k) { m with program? := some { p with hooks } }

/-- An operation that was accepted, and altered the machine alone. -/
def Accepted (m : Machine) (host : Host) (op : Operation) (e : Effect (Except Fault Unit)) : Prop :=
  ∃ (m' : Machine) (journal : Journal), e = ⟨.ok (), m', host, journal⟩ ∧ m.Alters host op m'

variable {m : Machine} {host : Host}

theorem refused_or_accepted_bind (property : String) :
    m.Refused host (m.bind host property) ∨
      m.Accepted host (.bind property) (m.bind host property) :=
  (m.bind_cases host property).imp_right fun ⟨_, _, hp, htwo, he⟩ => ⟨_, _, he, .bind hp htwo⟩

theorem refused_or_accepted_addRule (spec : String) :
    m.Refused host (m.addRule host spec) ∨
      m.Accepted host (.addRule spec) (m.addRule host spec) := by
  refine (m.addRule_cases host spec).imp_right ?_
  rintro ⟨p, origin, c, _, hp, hr, he⟩
  obtain ⟨⟨name, hs⟩, -, -⟩ := Scope.rule_ok hr
  have hlt : origin < p.rules.states := (KeywordTable.state?_eq_some hs).2
  refine ⟨_, _, he, .addRule hp (Scope.heads_of_rule hr) hr (RuleGraph.replaced_push c hlt) ?_⟩
  simpa [totalRules, hp] using RuleGraph.size_push c hlt

theorem refused_or_accepted_addHold (hw : m.WellFormed host) (spec : String) :
    m.Refused host (m.addHold host spec) ∨
      m.Accepted host (.addHold spec) (m.addHold host spec) := by
  refine (m.addHold_cases host spec).imp_right ?_
  rintro ⟨p, state, seconds, hp, hr, he⟩
  obtain ⟨name, hs⟩ := Scope.hold_ok hr
  -- Names are checked against the number of states, and there is a hold for each of these.
  have hlt : state < p.holds.length :=
    (KeywordTable.state?_eq_some hs).2.trans_eq (hw p hp).holds.symm
  exact ⟨_, _, he, .addHold hp (Scope.heads_of_hold hr) hr (replaced_set seconds hlt)⟩

theorem refused_or_accepted_setHook (hw : m.WellFormed host) (name : String) (k : Hook) :
    m.Refused host (m.setHook host name k) ∨
      m.Accepted host (.setHook name k) (m.setHook host name k) := by
  refine (m.setHook_cases host name k).imp_right ?_
  rintro ⟨p, state, hp, hs, he⟩
  obtain ⟨hv, hlt⟩ := KeywordTable.state?_eq_some hs
  have hhook : state < p.hooks.length := hlt.trans_eq (hw p hp).hooks.symm
  exact ⟨_, _, he, .setHook hp hv hlt (replaced_set (some k) hhook)⟩

theorem refused_or_accepted (hw : m.WellFormed host) {op : Operation} (hop : op.isProgramming) :
    ∃ e, m.perform host op = e.map .programmed ∧ (m.Refused host e ∨ m.Accepted host op e) := by
  cases op with
  | bind property => exact ⟨_, rfl, refused_or_accepted_bind property⟩
  | addRule spec => exact ⟨_, rfl, refused_or_accepted_addRule spec⟩
  | addHold spec => exact ⟨_, rfl, refused_or_accepted_addHold hw spec⟩
  | setHook name k => exact ⟨_, rfl, refused_or_accepted_setHook hw name k⟩
  | configure | init | reset | clear | setValue | setOptions | tick | outside => exact hop.elim

/-- A programming operation writes nothing to the host. When it is refused, the machine is as it
was, and whatever is done next goes as if the operation had not been tried; when it is accepted, it
altered the machine in its one place and nowhere else. -/
theorem Reachable.alters_or_refuses (hr : m.Reachable host) (op : Operation)
    (hop : op.isProgramming) :
    (m.perform host op).host = host ∧
    ((∃ fault, (m.perform host op).answer = .programmed (.error fault)) ∧
        (m.perform host op).machine = m ∧
        (∀ ops, (m.perform host op).history ops = m.history host ops ∧
          (m.perform host op).afterAll ops = m.afterAll host ops) ∨
      (m.perform host op).answer = .programmed (.ok ()) ∧
        m.Alters host op (m.perform host op).machine) := by
  obtain ⟨e, he, ⟨fault, _, rfl⟩ | ⟨m', _, rfl, ha⟩⟩ := refused_or_accepted hr.wellFormed hop
  · rw [he]
    exact ⟨rfl, .inl ⟨⟨fault, rfl⟩, rfl, fun _ => ⟨rfl, rfl⟩⟩⟩
  · rw [he]
    exact ⟨rfl, .inr ⟨rfl, ha⟩⟩

/-- A bound switch refuses a rule whose third test names no operand, and accepts one whose tests all
do. -/
theorem alters_or_refuses_switch :
    let bound := ({} : Machine).afterAll switchHost [.bind "switch"]
    let bad := "OFF->ON=$timer>=1,$state==0,$timer>=level"
    let good := "ON->OFF=$timer>=1,$state==1"
    bound.1.Reachable bound.2 ∧ (bound.1.perform bound.2 (.addRule bad)).machine = bound.1 ∧
      bound.1.Alters bound.2 (.addRule good) (bound.1.perform bound.2 (.addRule good)).machine := by
  intro bound bad good
  have hr : bound.1.Reachable bound.2 := ⟨{}, switchHost, [.bind "switch"], rfl⟩
  have hbad : (bound.1.addRule bound.2 bad).answer.toBool = false := by decide +kernel
  have hgood : (bound.1.addRule bound.2 good).answer.toBool = true := by decide +kernel
  obtain ⟨-, ⟨-, hsame, -⟩ | ⟨hok, -⟩⟩ := hr.alters_or_refuses (.addRule bad) trivial
  · obtain ⟨-, ⟨⟨_, herror⟩, -⟩ | ⟨-, ha⟩⟩ := hr.alters_or_refuses (.addRule good) trivial
    · rw [Answer.programmed.inj herror] at hgood
      cases hgood
    · exact ⟨hr, hsame, ha⟩
  · rw [Answer.programmed.inj hok] at hbad
    cases hbad

end Machine

end Dwell

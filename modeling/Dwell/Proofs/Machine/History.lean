import Dwell.Machine.Directive
import Dwell.Proofs.Machine.Tick

/-!
# Histories of a machine

What a machine and its host go through is a list of operations; a history says of each what it
found and what it left. What every operation of a history preserves holds after all of them
(`history_induction`).
-/

namespace Dwell

/-- What can happen to a machine and its host. -/
inductive Operation where
  | bind (property : String)
  | addRule (spec : String)
  | addHold (spec : String)
  | setHook (state : String) (hook : Hook)
  | configure (text : String) (now : Instant)
  | init (now : Instant)
  | reset (now : Instant)
  | clear
  | setValue (x : Float)
  | setOptions (options : Options)
  | tick (now horizon : Instant)
  /-- Values of the host's properties are written from outside. -/
  | outside (write : Readings → Readings)

/-- The machine is ticked, or its host is written from outside. -/
def Operation.isRunning : Operation → Prop
  | .tick _ _ | .outside _ => True
  | _ => False

inductive Answer where
  | done
  | programmed (result : Except Fault Unit)
  | wake (time : Instant)

/-- An effect with its answer seen through a function. -/
def Effect.map {α β : Type} (f : α → β) (e : Effect α) : Effect β :=
  ⟨f e.answer, e.machine, e.host, e.journal⟩

/-- An operation, the machine and host that it found, and its effect. -/
structure Deed where
  operation : Operation
  machine : Machine
  host : Host
  effect : Effect Answer

namespace Machine

def perform (m : Machine) (host : Host) : Operation → Effect Answer
  | .bind property => (m.bind host property).map .programmed
  | .addRule spec => (m.addRule host spec).map .programmed
  | .addHold spec => (m.addHold host spec).map .programmed
  | .setHook state hook => (m.setHook host state hook).map .programmed
  | .configure text now => (m.configure host text now).map .programmed
  | .init now => ⟨.done, m.init host now, host, []⟩
  | .reset now => (m.reset host now).map fun _ => .done
  | .clear => ⟨.done, m.clear, host, []⟩
  | .setValue x => ⟨.done, { m with value := x }, host, []⟩
  | .setOptions options => ⟨.done, { m with options }, host, []⟩
  | .tick now horizon => (m.tickUntil host now horizon).map .wake
  | .outside write => ⟨.done, m, { host with readings := write host.readings }, []⟩

/-- What operations in a row find and leave. -/
def history : Machine → Host → List Operation → List Deed
  | _, _, [] => []
  | m, host, op :: ops =>
    let e := m.perform host op
    ⟨op, m, host, e⟩ :: history e.machine e.host ops

/-- The machine and host that operations in a row leave. -/
def afterAll : Machine → Host → List Operation → Machine × Host
  | m, host, [] => (m, host)
  | m, host, op :: ops =>
    let e := m.perform host op
    afterAll e.machine e.host ops

theorem afterAll_append : ∀ (ops ops' : List Operation) (m : Machine) (host : Host),
    m.afterAll host (ops ++ ops')
      = (m.afterAll host ops).1.afterAll (m.afterAll host ops).2 ops'
  | [], _, _, _ => rfl
  | _ :: ops, ops', _, _ => afterAll_append ops ops' _ _

theorem operation_mem_of_mem_history : ∀ {ops : List Operation} {m : Machine} {host : Host}
    {d : Deed}, d ∈ m.history host ops → d.operation ∈ ops
  | [], _, _, _, hd => nomatch hd
  | op :: ops, _, _, _, hd => by
    rcases List.mem_cons.1 hd with rfl | hd
    · exact List.mem_cons_self
    · exact List.mem_cons_of_mem _ (operation_mem_of_mem_history hd)

theorem effect_of_mem_history : ∀ {ops : List Operation} {m : Machine} {host : Host} {d : Deed},
    d ∈ m.history host ops → d.effect = d.machine.perform d.host d.operation
  | [], _, _, _, hd => nomatch hd
  | _ :: _, _, _, _, hd => by
    rcases List.mem_cons.1 hd with rfl | hd
    · rfl
    · exact effect_of_mem_history hd

/-- When every operation under an assumption keeps an invariant, it holds after all of them, and
so does, of each, what it guarantees. -/
theorem history_induction {I : Machine → Host → Prop} {assumed guaranteed : Deed → Prop}
    (step : ∀ m host op, I m host → assumed ⟨op, m, host, m.perform host op⟩ →
      guaranteed ⟨op, m, host, m.perform host op⟩ ∧
        I (m.perform host op).machine (m.perform host op).host) :
    ∀ (ops : List Operation) (m : Machine) (host : Host), I m host →
      (∀ d ∈ m.history host ops, assumed d) →
      (∀ d ∈ m.history host ops, guaranteed d) ∧
        I (m.afterAll host ops).1 (m.afterAll host ops).2
  | [], m, host, hI, _ => ⟨by simp [history], hI⟩
  | op :: ops, m, host, hI, ha => by
    simp only [history, List.forall_mem_cons] at ha ⊢
    obtain ⟨hg, hI'⟩ := step m host op hI ha.1
    obtain ⟨hgs, hend⟩ := history_induction step ops _ _ hI' ha.2
    exact ⟨⟨hg, hgs⟩, hend⟩

end Machine

namespace Effect

variable {α : Type} (e : Effect α) (ops : List Operation)

/-- What operations find and leave after an effect. -/
def history : List Deed :=
  e.machine.history e.host ops

def afterAll : Machine × Host :=
  e.machine.afterAll e.host ops

end Effect

end Dwell

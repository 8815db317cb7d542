import Dwell.Notice
import Dwell.Simulation.Fault

/-!
# Results with notices

What is built step by step gives notices on the way, and gives those before a fault even when it
fails. The result alone does not depend on them (`result_bind`).
-/

namespace Dwell

structure Logged (α : Type) where
  result : Except SimulationFault α
  notices : List Notice := []

namespace Logged

variable {α β : Type}

instance : Monad Logged where
  pure a := ⟨.ok a, []⟩
  bind x f :=
    match x.result with
    | .error e => ⟨.error e, x.notices⟩
    | .ok a => ⟨(f a).result, x.notices ++ (f a).notices⟩

def note (n : Notice) : Logged Unit :=
  ⟨.ok (), [n]⟩

def ofExcept (r : Except SimulationFault α) : Logged α :=
  ⟨r, []⟩

@[simp] theorem result_pure (a : α) : (pure a : Logged α).result = .ok a := rfl

@[simp] theorem result_bind (x : Logged α) (f : α → Logged β) :
    (x >>= f).result = x.result.bind fun a => (f a).result := by
  cases h : x.result <;> simp [bind, Except.bind, h]

@[simp] theorem result_note (n : Notice) : (note n).result = .ok () := rfl

@[simp] theorem result_ofExcept (r : Except SimulationFault α) : (ofExcept r).result = r := rfl

end Logged

end Dwell

import Dwell.Proofs.Machine.WellFormed

/-!
# What configuring preserves

A configuration text is carried out directive by directive, so what each operation that a directive
stands for preserves is preserved by the whole text (`configure_induction`): the machine's options
(`options_configure`), what properties its host has (`fixed_configure`), and what
programming keeps (`Program.Invariant.configure`).
-/

namespace Dwell

namespace Machine

variable {m : Machine} {host : Host} {now : Instant}

section Induction

variable {I : Machine → Host → Prop}
  (hassign : ∀ m host x, I m host → I { m with value := x } host)
  (hbind : ∀ m host s, I m host → I (m.bind host s).machine (m.bind host s).host)
  (hrule : ∀ m host s, I m host → I (m.addRule host s).machine (m.addRule host s).host)
  (hhold : ∀ m host s, I m host → I (m.addHold host s).machine (m.addHold host s).host)
  (hreset : ∀ m host, I m host → I (m.reset host now).machine (m.reset host now).host)
  (hclear : ∀ m host, I m host → I m.clear host)

include hassign in
theorem assign_induction (h : I m host) (text : List Char) :
    I (m.assign host text).machine (m.assign host text).host := by
  unfold assign
  split
  · exact hassign _ _ _ h
  · exact h

include hassign hbind hrule hhold hreset hclear

theorem apply_induction (h : I m host) (whole : String) (d : Directive) :
    I (m.apply host now whole d).machine (m.apply host now whole d).host := by
  cases d with
  | value text => exact assign_induction hassign h text
  | state property => exact hbind _ _ _ h
  | rule spec => exact hrule _ _ _ h
  | hold spec => exact hhold _ _ _ h
  | reset => exact hreset _ _ h
  | clear => exact hclear _ _ h
  | external spec | unknown name => exact h

theorem applyAll_induction (whole : String) : ∀ (texts : List (List Char)) {m : Machine}
    {host : Host}, I m host →
    I (m.applyAll host now whole texts).machine (m.applyAll host now whole texts).host
  | [], _, _, h => h
  | s :: rest, m, host, h => by
    have hs := apply_induction hassign hbind hrule hhold hreset hclear h whole (.ofText s)
    simp only [applyAll]
    split
    · exact applyAll_induction whole rest hs
    · exact hs

theorem configure_induction (h : I m host) (text : String) :
    I (m.configure host text now).machine (m.configure host text now).host := by
  unfold configure
  split
  · exact h
  · split
    · exact assign_induction hassign h _
    · exact applyAll_induction hassign hbind hrule hhold hreset hclear _ _ h

end Induction

variable (m host now)

theorem fixed_reset : (m.reset host now).host.fixed = host.fixed := by
  unfold reset
  split
  · rfl
  · exact Host.fixed_command ..

theorem host_bind (property : String) : (m.bind host property).host = host := by
  rcases m.bind_cases host property with ⟨_, _, he⟩ | ⟨_, _, -, -, he⟩ <;> rw [he]

theorem host_addRule (spec : String) : (m.addRule host spec).host = host := by
  rcases m.addRule_cases host spec with ⟨_, _, he⟩ | ⟨_, _, _, _, -, -, he⟩ <;> rw [he]

theorem host_addHold (spec : String) : (m.addHold host spec).host = host := by
  rcases m.addHold_cases host spec with ⟨_, _, he⟩ | ⟨_, _, _, -, -, he⟩ <;> rw [he]

theorem host_setHook (state : String) (k : Hook) : (m.setHook host state k).host = host := by
  rcases m.setHook_cases host state k with ⟨_, _, he⟩ | ⟨_, _, -, -, he⟩ <;> rw [he]

theorem fixed_configure (text : String) : (m.configure host text now).host.fixed = host.fixed := by
  refine @configure_induction m host now (fun _ h => h.fixed = host.fixed) ?_ ?_ ?_ ?_ ?_ ?_ rfl text
  · exact fun _ _ _ h => h
  · exact fun m host s h => (congrArg _ (m.host_bind host s)).trans h
  · exact fun m host s h => (congrArg _ (m.host_addRule host s)).trans h
  · exact fun m host s h => (congrArg _ (m.host_addHold host s)).trans h
  · exact fun m host h => (m.fixed_reset host now).trans h
  · exact fun _ _ h => h

theorem options_bind (property : String) : (m.bind host property).machine.options = m.options := by
  rcases m.bind_cases host property with ⟨_, _, he⟩ | ⟨_, _, -, -, he⟩ <;> rw [he]

theorem options_addRule (spec : String) : (m.addRule host spec).machine.options = m.options := by
  rcases m.addRule_cases host spec with ⟨_, _, he⟩ | ⟨_, _, _, _, -, -, he⟩ <;> rw [he]

theorem options_addHold (spec : String) : (m.addHold host spec).machine.options = m.options := by
  rcases m.addHold_cases host spec with ⟨_, _, he⟩ | ⟨_, _, _, -, -, he⟩ <;> rw [he]

theorem options_reset : (m.reset host now).machine.options = m.options := by
  unfold reset
  split <;> rfl

theorem options_configure (text : String) :
    (m.configure host text now).machine.options = m.options := by
  refine @configure_induction m host now (fun n _ => n.options = m.options) ?_ ?_ ?_ ?_ ?_ ?_ rfl text
  · exact fun _ _ _ h => h
  · exact fun m host s h => (m.options_bind host s).trans h
  · exact fun m host s h => (m.options_addRule host s).trans h
  · exact fun m host s h => (m.options_addHold host s).trans h
  · exact fun m host h => (m.options_reset host now).trans h
  · exact fun _ _ h => h

variable {m host}

theorem program?_reset (m : Machine) (host : Host) :
    (m.reset host now).machine.program? = m.program? := by
  unfold reset
  split <;> simp_all

end Machine

namespace Program.Invariant

variable {P : Host → Program → Prop} (hI : Invariant P) {m : Machine} {host : Host} (now : Instant)
include hI

theorem reset (h : m.Meets P host) :
    (m.reset host now).machine.Meets P (m.reset host now).host :=
  hI.meets_of_fixed (m.fixed_reset host now)
    (Machine.meets_of_program? (Machine.program?_reset now m host) h)

theorem configure (h : m.Meets P host) (text : String) :
    (m.configure host text now).machine.Meets P (m.configure host text now).host := by
  refine @Machine.configure_induction m host now (fun m host => m.Meets P host)
    ?_ ?_ ?_ ?_ ?_ ?_ h text
  · exact fun _ _ _ h => h
  · exact fun m host s h => (m.host_bind host s).symm ▸ hI.bind h s
  · exact fun m host s h => (m.host_addRule host s).symm ▸ hI.addRule h s
  · exact fun m host s h => (m.host_addHold host s).symm ▸ hI.addHold h s
  · exact fun m host h => hI.reset now h
  · exact fun _ _ _ _ hp => nomatch hp

end Program.Invariant

end Dwell

import SelfGit.Foundation.Runs

namespace Foundation
set_option autoImplicit true
variable {Op W ε α : Type} {Res : Op → Type}

/-- Run a program for at most so many operations, each answered by a policy. -/
def Prog.exec (policy : W → (o : Op) → Res o) (step : W → (o : Op) → Res o → Option W) :
    Nat → W → Prog Op Res ε α → Option (Except ε α × W)
  | 0, _, _ => none
  | _ + 1, w, .ret a => some (.ok a, w)
  | _ + 1, w, .halt e => some (.error e, w)
  | n + 1, w, .call o k => (step w o (policy w o)).bind fun w' =>
    Prog.exec policy step n w' (k (policy w o))

theorem Prog.exec_runs {policy : W → (o : Op) → Res o}
    {step : W → (o : Op) → Res o → Option W} {R : W → (o : Op) → Res o → W → Prop}
    {p : Prog Op Res ε α}
    (hR : ∀ w o w', step w o (policy w o) = some w' → R w o (policy w o) w')
    (h : Prog.exec policy step n w p = some (x, w')) : Prog.Runs R w p x w' := by
  induction n generalizing w p with
  | zero => cases h
  | succ n ih =>
    cases p with
    | ret a =>
      cases h
      exact .ret
    | halt e =>
      cases h
      exact .halt
    | call o k =>
      rw [Prog.exec, Option.bind_eq_some_iff] at h
      obtain ⟨w₁, hs, h⟩ := h
      exact .call (hR _ _ _ hs) (ih h)

end Foundation

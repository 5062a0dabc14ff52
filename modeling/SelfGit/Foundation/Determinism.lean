import SelfGit.Foundation.Runs

namespace Foundation
set_option autoImplicit true

variable {Op W ε α β : Type} {Res : Op → Type} {R R' : W → (o : Op) → Res o → W → Prop} {w w' : W}

theorem Prog.Runs.agree {p : Prog Op Res ε α} {x y : Except ε α}
    (hR : ∀ w o r w₁ r' w₂, R w o r w₁ → R' w o r' w₂ → r = r' ∧ w₁ = w₂)
    (h : Prog.Runs R w p x w') (h' : Prog.Runs R' w p y w'') : x = y ∧ w' = w'' := by
  induction h with
  | ret =>
    obtain ⟨rfl, rfl⟩ := Prog.runs_ret.1 h'
    exact ⟨rfl, rfl⟩
  | halt =>
    obtain ⟨rfl, rfl⟩ := Prog.runs_halt.1 h'
    exact ⟨rfl, rfl⟩
  | call hr _ ih =>
    obtain ⟨r', w₂, hr', h'⟩ := Prog.runs_call.1 h'
    obtain ⟨rfl, rfl⟩ := hR _ _ _ _ _ _ hr hr'
    exact ih h'

/-- No operation of a program, whatever the answers, is one of those given. -/
def Prog.Avoids (S : Op → Prop) : Prog Op Res ε α → Prop
  | .ret _ => True
  | .halt _ => True
  | .call o k => ¬ S o ∧ ∀ r, (k r).Avoids S

variable {S : Op → Prop}

theorem Prog.Avoids.bind {p : Prog Op Res ε α} {f : α → Prog Op Res ε β} (h : p.Avoids S)
    (hf : ∀ a, (f a).Avoids S) : (p >>= f).Avoids S := by
  induction p with
  | ret a => exact hf a
  | halt e => trivial
  | call o k ih => exact ⟨h.1, fun r => ih r (h.2 r)⟩

theorem Prog.avoids_pure (a : α) : (pure a : Prog Op Res ε α).Avoids S := trivial

theorem Prog.avoids_halt (e : ε) : (.halt e : Prog Op Res ε α).Avoids S := trivial

theorem Prog.avoids_call {k : Res o → Prog Op Res ε α} :
    (Prog.call o k).Avoids S ↔ ¬ S o ∧ ∀ r, (k r).Avoids S := Iff.rfl

theorem Prog.avoids_ask (h : ¬ S o) : (Prog.ask o : Prog Op Res ε (Res o)).Avoids S :=
  ⟨h, fun _ => trivial⟩

theorem Prog.avoids_ofOption (a : Option α) (e : ε) :
    (Prog.ofOption e a : Prog Op Res ε α).Avoids S := by
  cases a with
  | none => trivial
  | some a => trivial

theorem Prog.Avoids.mono {S S' : Op → Prop} {p : Prog Op Res ε α} (h : p.Avoids S)
    (hS : ∀ o, S' o → S o) : p.Avoids S' := by
  induction p with
  | ret a => exact Prog.avoids_pure a
  | halt e => exact Prog.avoids_halt e
  | call o k ih =>
    obtain ⟨ho, hk⟩ := Prog.avoids_call.1 h
    exact Prog.avoids_call.2 ⟨fun hs => ho (hS o hs), fun r => ih r (hk r)⟩

/-- Where a program avoids operations, it makes no difference how they are answered. -/
theorem Prog.Avoids.runs {p : Prog Op Res ε α} {x : Except ε α} (h : p.Avoids S)
    (hR : ∀ w o r w', ¬ S o → R w o r w' → R' w o r w') (hr : Prog.Runs R w p x w') :
    Prog.Runs R' w p x w' := by
  induction hr with
  | ret => exact .ret
  | halt => exact .halt
  | call hr _ ih => exact .call (hR _ _ _ _ h.1 hr) (ih (h.2 _))

/-- What only those operations change stays as it is. -/
theorem Prog.Avoids.keeps {V : Type} {p : Prog Op Res ε α} {x : Except ε α} (part : W → V)
    (h : p.Avoids S) (hR : ∀ w o r w', ¬ S o → R w o r w' → part w' = part w)
    (hr : Prog.Runs R w p x w') : part w' = part w := by
  induction hr with
  | ret => rfl
  | halt => rfl
  | call hr _ ih => exact (ih (h.2 _)).trans (hR _ _ _ _ h.1 hr)

attribute [irreducible] Prog.Avoids

end Foundation

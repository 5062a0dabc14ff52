import SelfGit.Foundation.Program

namespace Foundation
set_option autoImplicit true

/-- The complete runs of a program over a state. `R` tells the possible answers. -/
inductive Prog.Runs (R : W → (o : Op) → Res o → W → Prop) :
    W → Prog Op Res ε α → Except ε α → W → Prop
  | ret : Runs R w (.ret a) (.ok a) w
  | halt : Runs R w (.halt e) (.error e) w
  | call (hr : R w o r w₁) (h : Runs R w₁ (k r) x w') : Runs R w (.call o k) x w'

variable {Op W G ε α β : Type} {Res : Op → Type} {R : W → (o : Op) → Res o → W → Prop}
  {w w' : W} {x : Except ε α}

@[simp] theorem Prog.runs_ret :
    Prog.Runs R w (.ret a : Prog Op Res ε α) x w' ↔ x = .ok a ∧ w' = w := by
  constructor
  · intro h
    cases h
    exact ⟨rfl, rfl⟩
  · rintro ⟨rfl, rfl⟩
    exact .ret

@[simp] theorem Prog.runs_pure :
    Prog.Runs R w (pure a : Prog Op Res ε α) x w' ↔ x = .ok a ∧ w' = w := Prog.runs_ret

@[simp] theorem Prog.runs_halt :
    Prog.Runs R w (.halt e : Prog Op Res ε α) x w' ↔ x = .error e ∧ w' = w := by
  constructor
  · intro h
    cases h
    exact ⟨rfl, rfl⟩
  · rintro ⟨rfl, rfl⟩
    exact .halt

theorem Prog.runs_call :
    Prog.Runs R w (.call o k : Prog Op Res ε α) x w' ↔
      ∃ r w₁, R w o r w₁ ∧ Prog.Runs R w₁ (k r) x w' := by
  constructor
  · intro h
    cases h with
    | call hr h => exact ⟨_, _, hr, h⟩
  · rintro ⟨r, w₁, hr, h⟩
    exact .call hr h

/-- A run of one program after another, or an early stop in the first. -/
theorem Prog.runs_bind {x : Except ε β} (p : Prog Op Res ε α) (f : α → Prog Op Res ε β) :
    Prog.Runs R w (p >>= f) x w' ↔
      (∃ a w₁, Prog.Runs R w p (.ok a) w₁ ∧ Prog.Runs R w₁ (f a) x w') ∨
        ∃ e, x = .error e ∧ Prog.Runs R w p (.error e) w' := by
  change Prog.Runs R w (p.bind f) x w' ↔ _
  induction p generalizing w with
  | ret a => simp [Prog.bind]
  | halt e =>
    simp only [Prog.bind, runs_halt, reduceCtorEq, false_and, exists_false, false_or,
      Except.error.injEq]
    constructor
    · rintro ⟨rfl, rfl⟩
      exact ⟨e, rfl, rfl, rfl⟩
    · rintro ⟨e', rfl, rfl, rfl⟩
      exact ⟨rfl, rfl⟩
  | call o k ih =>
    simp only [Prog.bind, runs_call, ih]
    constructor
    · rintro ⟨r, w₁, hr, ⟨a, w₂, ha, hf⟩ | ⟨e, rfl, he⟩⟩
      · exact .inl ⟨a, w₂, ⟨r, w₁, hr, ha⟩, hf⟩
      · exact .inr ⟨e, rfl, r, w₁, hr, he⟩
    · rintro (⟨a, w₂, ⟨r, w₁, hr, ha⟩, hf⟩ | ⟨e, rfl, r, w₁, hr, he⟩)
      · exact ⟨r, w₁, hr, .inl ⟨a, w₂, ha, hf⟩⟩
      · exact ⟨r, w₁, hr, .inr ⟨e, rfl, he⟩⟩

@[simp] theorem Prog.runs_ask_bind (o : Op) (f : Res o → Prog Op Res ε α) :
    Prog.Runs R w (Prog.ask o >>= f) x w' ↔ ∃ r w₁, R w o r w₁ ∧ Prog.Runs R w₁ (f r) x w' :=
  Prog.runs_call

theorem Prog.runs_ofOption_bind {x : Except ε β} (a : Option α) (e : ε)
    (f : α → Prog Op Res ε β) :
    Prog.Runs R w (Prog.ofOption e a >>= f) x w' ↔
      (∃ b, a = some b ∧ Prog.Runs R w (f b) x w') ∨ (a = none ∧ x = .error e ∧ w' = w) := by
  rw [Prog.runs_bind]
  cases a with
  | none => simp [Prog.ofOption]
  | some b => simp [Prog.ofOption]

theorem Prog.runs_ofOption (a : Option α) (e : ε) :
    Prog.Runs R w (Prog.ofOption e a : Prog Op Res ε α) x w' ↔
      (∃ b, a = some b ∧ x = .ok b ∧ w' = w) ∨ (a = none ∧ x = .error e ∧ w' = w) := by
  cases a with
  | none => simp [Prog.ofOption]
  | some b => simp [Prog.ofOption]

theorem Prog.Runs.mono {R' : W → (o : Op) → Res o → W → Prop} {p : Prog Op Res ε α}
    (hR : ∀ w o r w', R w o r w' → R' w o r w') (h : Prog.Runs R w p x w') :
    Prog.Runs R' w p x w' := by
  induction h with
  | ret => exact .ret
  | halt => exact .halt
  | call hr _ ih => exact .call (hR _ _ _ _ hr) ih

/-- The invariant rule for a program on its terms: it holds at the end of every run. -/
theorem Prog.Runs.on_terms {P : Protocol Op Res G} {J : W → G → Prop}
    {Q : Except ε α → G → Prop} {p : Prog Op Res ε α}
    (hJ : ∀ w g o r w', J w g → P.allows g o → R w o r w' →
      P.answers g o r ∧ J w' (P.next g o r))
    (h : Prog.Runs R w p x w') (hj : J w g) (hp : p.wp P Q g) : ∃ g', J w' g' ∧ Q x g' := by
  induction h generalizing g with
  | ret => exact ⟨g, hj, Prog.wp_ret.1 hp⟩
  | halt => exact ⟨g, hj, Prog.wp_halt.1 hp⟩
  | call hr _ ih =>
    obtain ⟨ha, hk⟩ := Prog.wp_call.1 hp
    obtain ⟨hans, hj'⟩ := hJ _ _ _ _ _ hj ha hr
    exact ih hj' (hk _ hans)

end Foundation

import SelfGit.Foundation.Runs

namespace Foundation
set_option autoImplicit true

/-- A program over some operations as one over others that include them. -/
def Prog.embed (f : Op → Op') (g : (o : Op) → Res' (f o) → Res o) :
    Prog Op Res ε α → Prog Op' Res' ε α
  | .ret a => .ret a
  | .halt e => .halt e
  | .call o k => .call (f o) fun r => (k (g o r)).embed f g

variable {Op Op' W W' V ε α : Type} {Res : Op → Type} {Res' : Op' → Type}
  {R : W → (o : Op) → Res o → W → Prop} {R' : W' → (o : Op') → Res' o → W' → Prop}
  {f : Op → Op'} {g : (o : Op) → Res' (f o) → Res o} {w w' : W'} {x : Except ε α}

/-- A part of a state that can be replaced on its own. -/
structure Part (W' W : Type) where
  get : W' → W
  put : W' → W → W'
  get_put : ∀ w v, get (put w v) = v
  put_put : ∀ w v v', put (put w v) v' = put w v'
  put_get : ∀ w, put w (get w) = w

/-- Where the answers work on a part of the state, the runs are those of the program on that part.
-/
theorem Prog.runs_embed {p : Prog Op Res ε α} (part : Part W' W)
    (hR : ∀ w o r w', R' w (f o) r w' ↔
      ∃ v, R (part.get w) o (g o r) v ∧ w' = part.put w v)
    (hg : ∀ o r, ∃ r', g o r' = r) :
    Prog.Runs R' w (p.embed f g) x w' ↔
      ∃ v, Prog.Runs R (part.get w) p x v ∧ w' = part.put w v := by
  induction p generalizing w with
  | ret a =>
    constructor
    · intro h
      obtain ⟨rfl, rfl⟩ := Prog.runs_ret.1 h
      exact ⟨_, .ret, (part.put_get _).symm⟩
    · rintro ⟨v, h, rfl⟩
      obtain ⟨rfl, rfl⟩ := Prog.runs_ret.1 h
      rw [part.put_get]
      exact .ret
  | halt e =>
    constructor
    · intro h
      obtain ⟨rfl, rfl⟩ := Prog.runs_halt.1 h
      exact ⟨_, .halt, (part.put_get _).symm⟩
    · rintro ⟨v, h, rfl⟩
      obtain ⟨rfl, rfl⟩ := Prog.runs_halt.1 h
      rw [part.put_get]
      exact .halt
  | call o k ih =>
    constructor
    · intro h
      obtain ⟨r, w₁, hr, h⟩ := Prog.runs_call.1 h
      obtain ⟨v, hv, rfl⟩ := (hR _ _ _ _).1 hr
      obtain ⟨v', hrun, rfl⟩ := (ih _).1 h
      rw [part.get_put] at hrun
      exact ⟨v', .call hv hrun, part.put_put _ _ _⟩
    · rintro ⟨v', h, rfl⟩
      obtain ⟨r, v, hr, h⟩ := Prog.runs_call.1 h
      obtain ⟨r', rfl⟩ := hg o r
      refine .call ((hR _ _ _ _).2 ⟨v, hr, rfl⟩) ((ih _).2 ⟨v', ?_, ?_⟩)
      · rwa [part.get_put]
      · rw [part.put_put]

end Foundation

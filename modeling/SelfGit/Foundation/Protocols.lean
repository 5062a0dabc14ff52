import SelfGit.Foundation.Determinism
import SelfGit.Foundation.Embedding
import SelfGit.Foundation.Interleaving

namespace Foundation
set_option autoImplicit true

section Rules
variable {Op Op' G W ε α β : Type} {Res : Op → Type} {Res' : Op' → Type} {P : Protocol Op Res G}
  {P' : Protocol Op' Res' G}

theorem Prog.wp_keeping {I : G → Prop} {Q : Except ε α → G → Prop} {p : Prog Op Res ε α}
    (hI : ∀ g o r, I g → P.allows g o → P.answers g o r → I (P.next g o r))
    (h : p.wp P Q g) (hg : I g) : p.wp P (fun x g => Q x g ∧ I g) g := by
  induction p generalizing g with
  | ret a => exact Prog.wp_ret.2 ⟨Prog.wp_ret.1 h, hg⟩
  | halt e => exact Prog.wp_halt.2 ⟨Prog.wp_halt.1 h, hg⟩
  | call o k ih =>
    obtain ⟨ha, hk⟩ := Prog.wp_call.1 h
    exact Prog.wp_call.2 ⟨ha, fun r hr => ih r (hk r hr) (hI g o r hg ha hr)⟩

theorem Prog.wp_and {Q Q' : Except ε α → G → Prop} {p : Prog Op Res ε α} (h : p.wp P Q g)
    (h' : p.wp P Q' g) : p.wp P (fun x g => Q x g ∧ Q' x g) g := by
  induction p generalizing g with
  | ret a => exact Prog.wp_ret.2 ⟨Prog.wp_ret.1 h, Prog.wp_ret.1 h'⟩
  | halt e => exact Prog.wp_halt.2 ⟨Prog.wp_halt.1 h, Prog.wp_halt.1 h'⟩
  | call o k ih =>
    obtain ⟨ha, hk⟩ := Prog.wp_call.1 h
    obtain ⟨-, hk'⟩ := Prog.wp_call.1 h'
    exact Prog.wp_call.2 ⟨ha, fun r hr => ih r (hk r hr) (hk' r hr)⟩

theorem Prog.avoids_never (p : Prog Op Res ε α) : p.Avoids fun _ => False := by
  induction p with
  | ret a => exact Prog.avoids_pure a
  | halt e => exact Prog.avoids_halt e
  | call o k ih => exact Prog.avoids_call.2 ⟨id, ih⟩

theorem Prog.embed_bind (f : Op → Op') (r' : (o : Op) → Res' (f o) → Res o)
    (p : Prog Op Res ε α) (k : α → Prog Op Res ε β) :
    (p >>= k).embed f r' = p.embed f r' >>= fun a => (k a).embed f r' := by
  induction p with
  | ret a => rfl
  | halt e => rfl
  | call o _ ih => exact congrArg (Prog.call (f o)) (funext fun r => ih (r' o r))

theorem Prog.embed_embed {Op'' : Type} {Res'' : Op'' → Type} (f : Op → Op')
    (r' : (o : Op) → Res' (f o) → Res o) (f' : Op' → Op'')
    (r'' : (o : Op') → Res'' (f' o) → Res' o) (p : Prog Op Res ε α) :
    (p.embed f r').embed f' r'' = p.embed (fun o => f' (f o)) fun o r => r' o (r'' (f o) r) := by
  induction p with
  | ret a => rfl
  | halt e => rfl
  | call o _ ih => exact congrArg (Prog.call (f' (f o))) (funext fun r => ih (r' o (r'' (f o) r)))

theorem Prog.embed_ofOption (f : Op → Op') (r' : (o : Op) → Res' (f o) → Res o) (e : ε)
    (a : Option α) : (Prog.ofOption e a : Prog Op Res ε α).embed f r' = Prog.ofOption e a := by
  cases a with
  | none => rfl
  | some a => rfl

/-- A program keeps to its terms among more operations that treat those it issues as before. -/
theorem Prog.wp_embed {f : Op → Op'} {r' : (o : Op) → Res' (f o) → Res o} {I : G → Prop}
    {S : Op → Prop} {Q : Except ε α → G → Prop} {p : Prog Op Res ε α}
    (ha : ∀ g o, I g → ¬ S o → P.allows g o → P'.allows g (f o))
    (hr : ∀ g o r, P'.answers g (f o) r → P.answers g o (r' o r))
    (hn : ∀ g o r, P'.next g (f o) r = P.next g o (r' o r))
    (hI : ∀ g o r, I g → I (P.next g o r)) (hS : p.Avoids S) (hg : I g) (h : p.wp P Q g) :
    (p.embed f r').wp P' Q g := by
  induction p generalizing g with
  | ret a => exact Prog.wp_ret.2 (Prog.wp_ret.1 h)
  | halt e => exact Prog.wp_halt.2 (Prog.wp_halt.1 h)
  | call o k ih =>
    obtain ⟨hao, hk⟩ := Prog.wp_call.1 h
    obtain ⟨ho, hrest⟩ := Prog.avoids_call.1 hS
    refine Prog.wp_call.2 ⟨ha g o hg ho hao, fun r hr' => ?_⟩
    rw [hn]
    exact ih _ (hrest _) (hI g o _ hg) (hk _ (hr g o r hr'))

/-- A program whose operations are always allowed and never noticed. -/
theorem Prog.wp_unnoticed {f : Op → Op'} {r' : (o : Op) → Res' (f o) → Res o}
    {Q : Except ε α → G → Prop} (p : Prog Op Res ε α) (ha : ∀ g o, P'.allows g (f o))
    (hn : ∀ g o r, P'.next g (f o) r = g) (hQ : ∀ x, Q x g) : (p.embed f r').wp P' Q g := by
  induction p with
  | ret a => exact Prog.wp_ret.2 (hQ _)
  | halt e => exact Prog.wp_halt.2 (hQ _)
  | call o k ih =>
    refine Prog.wp_call.2 ⟨ha g o, fun r _ => ?_⟩
    rw [hn]
    exact ih _

/-- Whatever the answers, what the program returns satisfies `S`. -/
def Prog.Yields (S : α → Prop) : Prog Op Res ε α → Prop
  | .ret a => S a
  | .halt _ => True
  | .call _ k => ∀ r, (k r).Yields S

theorem Prog.yields_pure {S : α → Prop} (h : S a) : (pure a : Prog Op Res ε α).Yields S := h

theorem Prog.yields_halt {S : α → Prop} (e : ε) : (.halt e : Prog Op Res ε α).Yields S := trivial

theorem Prog.yields_any (p : Prog Op Res ε α) : p.Yields fun _ => True := by
  induction p with
  | ret a => trivial
  | halt e => trivial
  | call o k ih => exact ih

theorem Prog.Yields.mono {S T : α → Prop} {p : Prog Op Res ε α} (h : p.Yields S)
    (hT : ∀ a, S a → T a) : p.Yields T := by
  induction p with
  | ret a => exact hT a h
  | halt e => trivial
  | call o k ih => exact fun r => ih r (h r)

theorem Prog.Yields.bind {S : α → Prop} {T : β → Prop} {p : Prog Op Res ε α}
    {f : α → Prog Op Res ε β} (h : p.Yields S) (hf : ∀ a, S a → (f a).Yields T) :
    (p >>= f).Yields T := by
  induction p with
  | ret a => exact hf a h
  | halt e => trivial
  | call o k ih => exact fun r => ih r (h r)

theorem Prog.Avoids.bind_yields {S : Op → Prop} {T : α → Prop} {p : Prog Op Res ε α}
    {f : α → Prog Op Res ε β} (h : p.Avoids S) (hy : p.Yields T)
    (hf : ∀ a, T a → (f a).Avoids S) : (p >>= f).Avoids S := by
  induction p with
  | ret a => exact hf a hy
  | halt e => exact Prog.avoids_halt e
  | call o k ih =>
    obtain ⟨ho, hk⟩ := Prog.avoids_call.1 h
    exact Prog.avoids_call.2 ⟨ho, fun r => ih r (hk r) (hy r)⟩

theorem Prog.Avoids.embed {f : Op → Op'} {r' : (o : Op) → Res' (f o) → Res o} {S : Op → Prop}
    {S' : Op' → Prop} {p : Prog Op Res ε α} (h : p.Avoids S) (hS : ∀ o, S' (f o) → S o) :
    (p.embed f r').Avoids S' := by
  induction p with
  | ret a => exact Prog.avoids_pure a
  | halt e => exact Prog.avoids_halt e
  | call o k ih =>
    obtain ⟨ho, hk⟩ := Prog.avoids_call.1 h
    exact Prog.avoids_call.2 ⟨fun hs => ho (hS o hs), fun r => ih _ (hk _)⟩

theorem Prog.yields_ofOption {S : α → Prop} {a : Option α} (e : ε) (h : ∀ b, a = some b → S b) :
    (Prog.ofOption e a : Prog Op Res ε α).Yields S := by
  cases a with
  | none => trivial
  | some b => exact h b rfl

theorem Prog.Yields.embed {f : Op → Op'} {r' : (o : Op) → Res' (f o) → Res o} {S : α → Prop}
    {p : Prog Op Res ε α} (h : p.Yields S) : (p.embed f r').Yields S := by
  induction p with
  | ret a => exact h
  | halt e => trivial
  | call o k ih => exact fun r => ih _ (h _)

theorem Prog.Yields.runs {S : α → Prop} {R : W → (o : Op) → Res o → W → Prop}
    {p : Prog Op Res ε α} (h : p.Yields S) (hr : Prog.Runs R w p (.ok a) w') : S a := by
  induction p generalizing w with
  | ret b =>
    cases (Prog.runs_ret.1 hr).1
    exact h
  | halt e => cases (Prog.runs_halt.1 hr).1
  | call o k ih =>
    obtain ⟨r, w₁, -, hr⟩ := Prog.runs_call.1 hr
    exact ih r (h r) hr

theorem Prog.Yields.wp {S : α → Prop} {Q : Except ε α → G → Prop} {p : Prog Op Res ε α}
    (hy : p.Yields S) (h : p.wp P (fun x g => (∀ a, x = .ok a → S a) → Q x g) g) :
    p.wp P Q g := by
  induction p generalizing g with
  | ret a =>
    refine Prog.wp_ret.2 (Prog.wp_ret.1 h ?_)
    rintro b ⟨⟩
    exact hy
  | halt e =>
    refine Prog.wp_halt.2 (Prog.wp_halt.1 h ?_)
    intro b hb
    cases hb
  | call o k ih =>
    obtain ⟨ha, hk⟩ := Prog.wp_call.1 h
    exact Prog.wp_call.2 ⟨ha, fun r hr => ih r (hy r) (hk r hr)⟩

attribute [irreducible] Prog.Yields

end Rules

namespace Config
variable {Op Pid W ε α : Type} {Res : Op → Type} [DecidableEq Pid]
  {R : Config Op Res ε α Pid W → Pid → (o : Op) → Res o → W → Prop}
  {c c' : Config Op Res ε α Pid W} {i : Pid}

theorem Step.mono {R' : Config Op Res ε α Pid W → Pid → (o : Op) → Res o → W → Prop}
    (h : Step R c c') (hR : ∀ c i o r w, R c i o r w → R' c i o r w) : Step R' c c' := by
  cases h with
  | act hd hp hr => exact .act hd hp (hR _ _ _ _ _ hr)
  | die i => exact .die i

/-- A process that does nothing more: it is dead, or it has come to its end. -/
def Idle (c : Config Op Res ε α Pid W) (i : Pid) : Prop :=
  c.dead i = true ∨ ∀ o k, c.prog i ≠ .call o k

theorem Step.idle (h : Step R c c') (hi : c.Idle i) : c'.Idle i := by
  cases h with
  | @act j o k r w hj hp hr =>
    have hij : i ≠ j := by
      rintro rfl
      rcases hi with hd | hend
      · rw [hd] at hj
        cases hj
      · exact hend _ _ hp
    refine hi.imp_right fun hend => ?_
    simp only [Config.act, Function.update_of_ne hij]
    exact hend
  | die j =>
    refine hi.imp_left fun hd => ?_
    simp only [kill, Function.update_apply]
    split
    · rfl
    · exact hd

/-- As long as no process has an operation in `S` before it, the state stays as it is. -/
theorem Reaches.unchanged {S : Op → Prop} (hR : ∀ c₁ i o k r w, Reaches R c c₁ →
      c₁.prog i = .call o k → ¬ S o → R c₁ i o r w → w = c₁.shared)
    (h : Reaches R c c') (hp : ∀ i, (c.prog i).Avoids S) :
    c'.shared = c.shared ∧ ∀ i, (c'.prog i).Avoids S := by
  induction h with
  | refl => exact ⟨rfl, hp⟩
  | tail hbefore hs ih =>
    obtain ⟨hshared, havoids⟩ := ih
    cases hs with
    | @act j o k r w hd hpj hr =>
      have hj := havoids j
      rw [hpj] at hj
      obtain ⟨ho, hk⟩ := Prog.avoids_call.1 hj
      refine ⟨(hR _ _ _ _ _ _ hbefore hpj ho hr).trans hshared, ?_⟩
      exact (Function.forall_update_iff _ fun _ p => Prog.Avoids S p).2 ⟨hk r, fun i _ => havoids i⟩
    | die j => exact ⟨hshared, havoids⟩

theorem Step.views_cases (P : Protocol Op Res G) (g : Pid → G) (h : Step R c c') :
    (c'.shared = c.shared ∧ views P g c' = views P g c) ∨
      ∃ i o r k, c.dead i = false ∧ c.prog i = .call o k ∧ R c i o r c'.shared ∧
        views P g c' = Function.update (views P g c) i (P.next (views P g c i) o r) := by
  cases h with
  | @act i o k r w hd hp hr => exact .inr ⟨i, o, r, k, hd, hp, hr, views_act P g c⟩
  | die i => exact .inl ⟨rfl, rfl⟩

end Config
end Foundation

import SelfGit.Foundation.Program

namespace Foundation
set_option autoImplicit true

abbrev Event (Op : Type) (Res : Op → Type) := (o : Op) × Res o

/-- Processes over a shared state. A dead process keeps its program but issues nothing more. -/
structure Config (Op : Type) (Res : Op → Type) (ε α Pid W : Type) where
  shared : W
  prog : Pid → Prog Op Res ε α
  past : Pid → List (Event Op Res)
  dead : Pid → Bool

namespace Config

def start (w : W) (p : Pid → Prog Op Res ε α) : Config Op Res ε α Pid W :=
  ⟨w, p, fun _ => [], fun _ => false⟩

variable [DecidableEq Pid]

def act (c : Config Op Res ε α Pid W) (i : Pid) (e : Event Op Res) (p : Prog Op Res ε α)
    (w : W) : Config Op Res ε α Pid W where
  shared := w
  prog := Function.update c.prog i p
  past := Function.update c.past i (c.past i ++ [e])
  dead := c.dead

def kill (c : Config Op Res ε α Pid W) (i : Pid) : Config Op Res ε α Pid W :=
  { c with dead := Function.update c.dead i true }

/-- One process gets an answer to its next operation, or dies. `R` tells the possible answers. -/
inductive Step (R : Config Op Res ε α Pid W → Pid → (o : Op) → Res o → W → Prop) :
    Config Op Res ε α Pid W → Config Op Res ε α Pid W → Prop
  | act {c : Config Op Res ε α Pid W} {i : Pid} {o : Op} {k : Res o → Prog Op Res ε α}
      {r : Res o} {w : W} (hd : c.dead i = false) (hp : c.prog i = .call o k)
      (hr : R c i o r w) : Step R c (c.act i ⟨o, r⟩ (k r) w)
  | die {c : Config Op Res ε α Pid W} (i : Pid) : Step R c (c.kill i)

def Reaches (R : Config Op Res ε α Pid W → Pid → (o : Op) → Res o → W → Prop) :
    Config Op Res ε α Pid W → Config Op Res ε α Pid W → Prop :=
  Relation.ReflTransGen (Step R)

def view (P : Protocol Op Res G) (g : G) (past : List (Event Op Res)) : G :=
  past.foldl (fun g e => P.next g e.1 e.2) g

theorem view_append (P : Protocol Op Res G) (g : G) (past : List (Event Op Res))
    (e : Event Op Res) :
    view P g (past ++ [e]) = P.next (view P g past) e.1 e.2 := by
  simp only [view, List.foldl_append, List.foldl_cons, List.foldl_nil]

def views (P : Protocol Op Res G) (g : Pid → G) (c : Config Op Res ε α Pid W) : Pid → G :=
  fun i => view P (g i) (c.past i)

theorem views_act (P : Protocol Op Res G) (g : Pid → G) (c : Config Op Res ε α Pid W) :
    views P g (c.act i ⟨o, r⟩ p w) =
      Function.update (views P g c) i (P.next (views P g c i) o r) := by
  funext j
  by_cases hj : j = i
  · subst j
    simp only [views, act, Function.update_self, view_append]
  · simp only [views, act, Function.update_of_ne hj]

/-- A joint invariant of the shared state and all views, and every process on its terms. -/
structure Sound (P : Protocol Op Res G) (g : Pid → G) (J : W → (Pid → G) → Prop)
    (Q : Pid → Except ε α → G → Prop) (c : Config Op Res ε α Pid W) : Prop where
  joint : J c.shared (views P g c)
  each : ∀ i, (c.prog i).wp P (Q i) (views P g c i)

variable {R : Config Op Res ε α Pid W → Pid → (o : Op) → Res o → W → Prop}
  {P : Protocol Op Res G} {g : Pid → G} {J : W → (Pid → G) → Prop}
  {Q : Pid → Except ε α → G → Prop}

theorem Sound.step {c c' : Config Op Res ε α Pid W}
    (hJ : ∀ c i o r w, J c.shared (views P g c) → P.allows (views P g c i) o → R c i o r w →
      P.answers (views P g c i) o r ∧
        J w (Function.update (views P g c) i (P.next (views P g c i) o r)))
    (h : Sound P g J Q c) (hs : Step R c c') : Sound P g J Q c' := by
  cases hs with
  | @act i o k r w hd hp hr =>
    have hw := h.each i
    rw [hp, Prog.wp_call] at hw
    obtain ⟨ha, hk⟩ := hw
    obtain ⟨hans, hj⟩ := hJ c i o r w h.joint ha hr
    constructor
    · rw [views_act]
      exact hj
    · intro j
      rw [views_act]
      by_cases hji : j = i
      · subst j
        simp only [Config.act, Function.update_self]
        exact hk r hans
      · simp only [Config.act, Function.update_of_ne hji]
        exact h.each j
  | die i => exact ⟨h.joint, h.each⟩

/-- The invariant rule: what each answered operation preserves, every interleaving preserves. -/
theorem Sound.reaches {c c' : Config Op Res ε α Pid W}
    (hJ : ∀ c i o r w, J c.shared (views P g c) → P.allows (views P g c i) o → R c i o r w →
      P.answers (views P g c i) o r ∧
        J w (Function.update (views P g c) i (P.next (views P g c i) o r)))
    (h : Sound P g J Q c) (hr : Reaches R c c') : Sound P g J Q c' := by
  induction hr with
  | refl => exact h
  | tail _ hs ih => exact ih.step hJ hs

theorem Reaches.mono {R' : Config Op Res ε α Pid W → Pid → (o : Op) → Res o → W → Prop}
    {c c' : Config Op Res ε α Pid W} (h : Reaches R c c')
    (hR : ∀ c i o r w, R c i o r w → R' c i o r w) : Reaches R' c c' := by
  have hs : ∀ a b, Step R a b → Step R' a b := by
    intro a b hs
    cases hs with
    | act hd hp hr => exact .act hd hp (hR _ _ _ _ _ hr)
    | die i => exact .die i
  exact Relation.ReflTransGen.mono hs _ _ h

/-- Run a schedule of process turns, each answered by a policy and checked by `step`. -/
def drive (step : Config Op Res ε α Pid W → Pid → (o : Op) → Res o → Option W)
    (policy : W → (o : Op) → Res o) :
    List Pid → Config Op Res ε α Pid W → Option (Config Op Res ε α Pid W)
  | [], c => some c
  | i :: is, c =>
    match c.prog i with
    | .call o k =>
      match step c i o (policy c.shared o) with
      | some w => drive step policy is (c.act i ⟨o, policy c.shared o⟩ (k (policy c.shared o)) w)
      | none => none
    | _ => none

theorem drive_reaches {step : Config Op Res ε α Pid W → Pid → (o : Op) → Res o → Option W}
    {policy : W → (o : Op) → Res o} {is : List Pid} {c c' : Config Op Res ε α Pid W}
    (hR : ∀ c i o w, step c i o (policy c.shared o) = some w → R c i o (policy c.shared o) w)
    (hc : ∀ i, c.dead i = false) (h : drive step policy is c = some c') : Reaches R c c' := by
  induction is generalizing c with
  | nil =>
    cases h
    exact .refl
  | cons i is ih =>
    rw [drive] at h
    split at h
    · rename_i o k hp
      split at h
      · rename_i w hw
        exact .head (.act (hc i) hp (hR c i o w hw)) (ih hc h)
      · cases h
    · cases h

end Config
end Foundation

import Mathlib

namespace Foundation
set_option autoImplicit true

/-- A program issues operations, each answered from outside, and ends with a value or stops. -/
inductive Prog (Op : Type) (Res : Op → Type) (ε α : Type) where
  | ret (a : α)
  | halt (e : ε)
  | call (o : Op) (k : Res o → Prog Op Res ε α)

namespace Prog

def bind : Prog Op Res ε α → (α → Prog Op Res ε β) → Prog Op Res ε β
  | .ret a, f => f a
  | .halt e, _ => .halt e
  | .call o k, f => .call o fun r => (k r).bind f

instance : Monad (Prog Op Res ε) where
  pure := .ret
  bind := .bind

def ask (o : Op) : Prog Op Res ε (Res o) := .call o .ret

def ofOption (e : ε) : Option α → Prog Op Res ε α
  | some a => .ret a
  | none => .halt e

end Prog

/-- The terms on which one process runs: how its own view moves with each answered operation,
which operations it may issue in a view, and which answers it has to expect there. -/
structure Protocol (Op : Type) (Res : Op → Type) (G : Type) where
  next : G → (o : Op) → Res o → G
  allows : G → Op → Prop
  answers : G → (o : Op) → Res o → Prop

/-- Weakest precondition: only allowed operations from view `g` on, and an end as `Q` says. -/
def Prog.wp (P : Protocol Op Res G) (Q : Except ε α → G → Prop) :
    Prog Op Res ε α → G → Prop
  | .ret a, g => Q (.ok a) g
  | .halt e, g => Q (.error e) g
  | .call o k, g => P.allows g o ∧ ∀ r, P.answers g o r → (k r).wp P Q (P.next g o r)

@[simp] theorem Prog.wp_ret {P : Protocol Op Res G} {Q : Except ε α → G → Prop} :
    (Prog.ret a : Prog Op Res ε α).wp P Q g ↔ Q (.ok a) g := Iff.rfl

@[simp] theorem Prog.wp_pure {P : Protocol Op Res G} {Q : Except ε α → G → Prop} :
    (pure a : Prog Op Res ε α).wp P Q g ↔ Q (.ok a) g := Iff.rfl

@[simp] theorem Prog.wp_halt {P : Protocol Op Res G} {Q : Except ε α → G → Prop} :
    (Prog.halt e : Prog Op Res ε α).wp P Q g ↔ Q (.error e) g := Iff.rfl

@[simp] theorem Prog.wp_ask {P : Protocol Op Res G} {Q : Except ε (Res o) → G → Prop} :
    (Prog.ask o).wp P Q g ↔
      P.allows g o ∧ ∀ r, P.answers g o r → Q (.ok r) (P.next g o r) := Iff.rfl

theorem Prog.wp_call {P : Protocol Op Res G} {Q : Except ε α → G → Prop} :
    (Prog.call o k : Prog Op Res ε α).wp P Q g ↔
      P.allows g o ∧ ∀ r, P.answers g o r → (k r).wp P Q (P.next g o r) := Iff.rfl

def Prog.andThen (Q : Except ε β → G → Prop) (R : α → G → Prop) : Except ε α → G → Prop
  | .ok a, g => R a g
  | .error e, g => Q (.error e) g

@[simp] theorem Prog.andThen_ok (Q : Except ε β → G → Prop) (R : α → G → Prop) :
    Prog.andThen Q R (.ok a) g ↔ R a g := Iff.rfl

@[simp] theorem Prog.andThen_error (Q : Except ε β → G → Prop) (R : α → G → Prop) :
    Prog.andThen Q R (.error e) g ↔ Q (.error e) g := Iff.rfl

@[simp] theorem Prog.wp_bind {P : Protocol Op Res G} {Q : Except ε β → G → Prop}
    (p : Prog Op Res ε α) (f : α → Prog Op Res ε β) :
    (p >>= f).wp P Q g ↔ p.wp P (Prog.andThen Q fun a => (f a).wp P Q) g := by
  change (p.bind f).wp P Q g ↔ _
  induction p generalizing g with
  | ret a => exact Iff.rfl
  | halt e => exact Iff.rfl
  | call o k ih =>
    simp only [Prog.bind, Prog.wp]
    exact and_congr_right fun _ => forall_congr' fun r => imp_congr_right fun _ => ih r

theorem Prog.wp_mono {P : Protocol Op Res G} {Q Q' : Except ε α → G → Prop}
    {p : Prog Op Res ε α} (h : p.wp P Q g) (hQ : ∀ r g, Q r g → Q' r g) : p.wp P Q' g := by
  induction p generalizing g with
  | ret a => exact hQ _ _ h
  | halt e => exact hQ _ _ h
  | call o k ih => exact ⟨h.1, fun r hr => ih r (h.2 r hr)⟩

theorem Prog.wp_ofOption {P : Protocol Op Res G} {Q : Except ε α → G → Prop} :
    (Prog.ofOption e a : Prog Op Res ε α).wp P Q g ↔
      (∀ b, a = some b → Q (.ok b) g) ∧ (a = none → Q (.error e) g) := by
  cases a with
  | none => simp [Prog.ofOption]
  | some b => simp [Prog.ofOption]

-- programs are taken apart by the rules above, never by computing them
attribute [irreducible] Prog.wp

end Foundation

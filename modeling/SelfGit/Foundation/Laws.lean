import SelfGit.Foundation.Program

namespace Foundation
set_option autoImplicit true

theorem Prog.bind_ret (p : Prog Op Res ε α) : p.bind .ret = p := by
  induction p with
  | ret a => rfl
  | halt e => rfl
  | call o k ih => exact congrArg (Prog.call o) (funext ih)

theorem Prog.bind_bind (p : Prog Op Res ε α) (f : α → Prog Op Res ε β)
    (g : β → Prog Op Res ε γ) : (p.bind f).bind g = p.bind fun a => (f a).bind g := by
  induction p with
  | ret a => rfl
  | halt e => rfl
  | call o k ih => exact congrArg (Prog.call o) (funext ih)

instance : LawfulMonad (Prog Op Res ε) :=
  LawfulMonad.mk' (Prog Op Res ε) Prog.bind_ret (fun _ _ => rfl) Prog.bind_bind

end Foundation

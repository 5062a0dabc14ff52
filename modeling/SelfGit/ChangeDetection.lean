import SelfGit.IndexBounds
import SelfGit.Lookup
import SelfGit.ShowDiff

namespace SelfGit
open Foundation
set_option autoImplicit true

/-- What is compared together, under one bit of the result. -/
inductive StatGroup where
  | mtime
  | ctime
  | owner
  | mode
  | inode
  | data

/-- Equality of the low 32 bits. -/
def SameLow (a b : UInt64) : Prop := a.toNat % 2 ^ 32 = b.toNat % 2 ^ 32

instance : Decidable (SameLow a b) := inferInstanceAs (Decidable (_ = _))

def StatGroup.Same (s s' : Stat) : StatGroup → Prop
  | .mtime => SameLow s.mtimeSec s'.mtimeSec ∧ SameLow s.mtimeNsec s'.mtimeNsec
  | .ctime => SameLow s.ctimeSec s'.ctimeSec ∧ SameLow s.ctimeNsec s'.ctimeNsec
  | .owner => SameLow s.stUid s'.stUid ∧ SameLow s.stGid s'.stGid
  | .mode => SameLow s.stMode s'.stMode
  | .inode => SameLow s.stDev s'.stDev ∧ SameLow s.stIno s'.stIno
  | .data => SameLow s.stSize s'.stSize

instance (g : StatGroup) : Decidable (g.Same s s') :=
  match g with
  | .mtime => inferInstanceAs (Decidable (_ ∧ _))
  | .ctime => inferInstanceAs (Decidable (_ ∧ _))
  | .owner => inferInstanceAs (Decidable (_ ∧ _))
  | .mode => inferInstanceAs (Decidable (SameLow _ _))
  | .inode => inferInstanceAs (Decidable (_ ∧ _))
  | .data => inferInstanceAs (Decidable (SameLow _ _))

section Runs
variable {es : List CacheEntry} {c : Cache} {fs : FS} {work : Path → Except Errno Stat}
  {x : Except Stop Int}

end Runs

end SelfGit

import SelfGit.Edits

namespace SelfGit
open Foundation
set_option autoImplicit true

/-- What a process has on its books: the index as it opened it and as it found it, the lock and the
object it is writing, the objects known to be in place, and the index it has installed. -/
structure View where
  lib : Lib
  words : List CStr
  handle : Option Nat
  size : Option Nat
  seen : Option (Option (List Byte))
  lock : Option Nat
  written : List Byte
  object : Option (Nat × Path)
  objects : List Path
  installed : Option (List Byte)

def View.init (L : Lib) (words : List CStr) : View :=
  ⟨L, words, none, none, none, none, [], none, [], none⟩

namespace View

def opened (g : View) (p : Path) : Except Errno Fd → View
  | .ok (.repo i) => if p = indexPath ∧ g.seen = none then { g with handle := some i } else g
  | .error .ENOENT => if p = indexPath ∧ g.seen = none then { g with seen := some none } else g
  | _ => g

def statted (g : View) (fd : Fd) (r : Option Stat) : View :=
  match fd, r with
  | .repo i, some st =>
    if g.handle = some i ∧ g.seen = none then { g with size := some st.stSize.toNat } else g
  | _, _ => g

def mapped (g : View) (fd : Fd) (r : Option (List Byte)) : View :=
  match fd, r with
  | .repo i, some m =>
    if g.handle = some i ∧ g.seen = none then { g with seen := some (some m) } else g
  | _, _ => g

def created (g : View) (p : Path) : Except Errno Fd → View
  | .ok (.repo i) =>
    if p = lockPath then { g with lock := some i, written := [] }
    else { g with object := some (i, p), objects := p :: g.objects }
  | .error .EEXIST => if p = lockPath then g else { g with objects := p :: g.objects }
  | _ => g

def wrote (g : View) (fd : Fd) (buf : List Byte) (r : Int) : View :=
  match fd with
  | .repo i =>
    if g.object.map Prod.fst = some i then { g with object := none }
    else if g.lock = some i then { g with written := g.written ++ buf.take r.toNat }
    else g
  | .work _ => g

def renamed (g : View) (r : Bool) : View :=
  if r then { g with lock := none, installed := some g.written } else g

def unlinked (g : View) (r : Bool) : View := if r then { g with lock := none } else g

def accessed (g : View) (p : Path) (r : Bool) : View :=
  if r then { g with objects := p :: g.objects } else g

def next (g : View) : (o : Op) → o.Res → View
  | .accessDir _, _ => g
  | .access p, r => g.accessed p r
  | .openRead p, r => g.opened p r
  | .openExcl p, r => g.created p r
  | .fstat fd, r => g.statted fd r
  | .mmap fd _, r => g.mapped fd r
  | .write fd buf, r => g.wrote fd buf r
  | .rename _ _, r => g.renamed r
  | .unlink _, r => g.unlinked r
  | .malloc _, _ => g
  | .memory _, _ => g
  | .noReturn _ _, _ => g
  | .treeOf _, _ => g

end View

/-- The cache `read_cache` makes of the index, or of its absence, if it accepts it. -/
def loaded (L : Lib) : Option (List Byte) → Option Cache
  | none => some Cache.null
  | some b =>
    if headerSize < b.length then
      (loadCache L Cache.null b).bind fun r => if r.1 < 0 then none else some r.2
    else none

namespace View

def mayMap (g : View) (fd : Fd) (len : Nat) : Prop :=
  ∀ i, fd = .repo i → g.handle = some i → g.seen = none → g.size = some len

/-- The lock comes after a loadable index, and an object under the name of a hash. -/
def mayCreate (g : View) (p : Path) : Prop :=
  (p = lockPath ∧ g.lock = none ∧ ∃ s c, g.seen = some s ∧ loaded g.lib s = some c) ∨
  (g.object = none ∧ ∃ s, p = sha1FileName g.lib s)

def mayWrite (g : View) (fd : Fd) (buf : List Byte) : Prop :=
  ∃ i, fd = .repo i ∧ ((∃ p, g.object = some (i, p) ∧ p = sha1FileName g.lib (g.lib.sha1 buf)) ∨
    (g.object = none ∧ g.lock = some i))

/-- The lock file is the image of what the command line makes of the index seen. -/
def mayRename (ok : (o : Op) → o.Res → Prop) (g : View) (src dst : Path) : Prop :=
  src = lockPath ∧ dst = indexPath ∧ g.lock ≠ none ∧
    ∃ s c c', g.seen = some s ∧ loaded g.lib s = some c ∧
      Edits g.lib ok g.objects c g.words c' ∧ c'.image g.lib = some g.written

def may (ok : (o : Op) → o.Res → Prop) (g : View) : Op → Prop
  | .mmap fd len => g.mayMap fd len
  | .openExcl p => g.mayCreate p
  | .write fd buf => g.mayWrite fd buf
  | .rename src dst => g.mayRename ok src dst
  | .unlink p => p = lockPath ∧ g.lock ≠ none
  | .treeOf es => ∀ e ∈ es, sha1FileName g.lib e.sha1 ∈ g.objects
  | _ => True

end View

/-- Some state of the repository gives this answer. -/
def Possible (o : Op) (r : o.Res) : Prop := ∃ fs fs' : FS, fs.step o r = some fs'

def Unlinks : (o : Op) → o.Res → Prop
  | .unlink _, (r : Bool) => r = true
  | _, _ => True

/-- The terms on which the commands run. Nothing is done after an installation. -/
def terms (ok : (o : Op) → o.Res → Prop) : Protocol Op Op.Res View where
  next := View.next
  allows := fun g o => g.installed = none ∧ g.may ok o
  answers := fun _ o r => Possible o r ∧ ok o r ∧ Unlinks o r

section Answers

theorem possible_openRead {r : Except Errno Fd} (h : Possible (.openRead p) r) (hr : r = .ok fd) :
    p.length < pathMax := by
  obtain ⟨fs, fs', h⟩ := h
  subst hr
  simp only [FS.step, FS.opened] at h
  split at h
  · simp at h
  · omega

theorem possible_open_index {r : Except Errno Fd} (h : Possible (.openRead indexPath) r)
    (hr : r = .ok fd) : ∃ i, fd = .repo i := by
  obtain ⟨fs, fs', h⟩ := h
  subst hr
  simp only [FS.step, FS.opened, true_or, ↓reduceIte] at h
  cases fd with
  | repo i => exact ⟨i, rfl⟩
  | work n =>
    cases hd : fs.dir indexPath with
    | none => simp [hd] at h
    | some i => simp [hd] at h

theorem possible_openExcl {r : Except Errno Fd} (h : Possible (.openExcl p) r) (hr : r = .ok fd) :
    ∃ i, fd = .repo i := by
  obtain ⟨fs, fs', h⟩ := h
  subst hr
  simp only [FS.step, FS.created] at h
  split at h
  · rename_i hfd
    exact ⟨_, hfd.1⟩
  · cases h

theorem possible_mmap {r : Option (List Byte)} (h : Possible (.mmap fd len) r) (hr : r = some m) :
    m.length = len := by
  obtain ⟨fs, fs', h⟩ := h
  subst hr
  cases fd with
  | repo i =>
    simp only [FS.step, FS.mapped] at h
    split at h
    · rename_i hm
      exact hm.2.1
    · cases h
  | work n =>
    simp only [FS.step, FS.mapped] at h
    split at h
    · rename_i hm
      exact hm.1
    · cases h

end Answers

section Calls
variable {ok : (o : Op) → o.Res → Prop} {g : View}

theorem wp_ask_of {o : Op} {Q : Except Stop o.Res → View → Prop} (hi : g.installed = none)
    (hm : g.may ok o)
    (h : ∀ r, Possible o r → ok o r → Unlinks o r → Q (.ok r) (g.next o r)) :
    (Prog.ask o : Proc o.Res).wp (terms ok) Q g :=
  Prog.wp_ask.2 ⟨⟨hi, hm⟩, fun r hr => h r hr.1 hr.2.1 hr.2.2⟩

theorem wp_accessDir {Q : Except Stop Bool → View → Prop} (hi : g.installed = none)
    (h : ∀ r : Bool, Q (.ok r) g) : (accessDir p).wp (terms ok) Q g :=
  wp_ask_of (o := .accessDir p) hi trivial fun r _ _ _ => h r

theorem wp_access {Q : Except Stop Bool → View → Prop} (hi : g.installed = none)
    (h : ∀ r : Bool, Q (.ok r) (g.accessed p r)) : (access p).wp (terms ok) Q g :=
  wp_ask_of (o := .access p) hi trivial fun r _ _ _ => h r

theorem wp_openRead {Q : Except Stop (Except Errno Fd) → View → Prop} (hi : g.installed = none)
    (h : ∀ r : Except Errno Fd, Possible (.openRead p) r → ok (.openRead p) r →
      Q (.ok r) (g.opened p r)) :
    (openRead p).wp (terms ok) Q g :=
  wp_ask_of (o := .openRead p) hi trivial fun r hp hok _ => h r hp hok

theorem wp_openExcl {Q : Except Stop (Except Errno Fd) → View → Prop} (hi : g.installed = none)
    (hm : g.mayCreate p)
    (h : ∀ r : Except Errno Fd, Possible (.openExcl p) r → ok (.openExcl p) r →
      Q (.ok r) (g.created p r)) :
    (openExcl p).wp (terms ok) Q g :=
  wp_ask_of (o := .openExcl p) hi hm fun r hp hok _ => h r hp hok

theorem wp_fstat {Q : Except Stop (Option Stat) → View → Prop} (hi : g.installed = none)
    (h : ∀ r : Option Stat, ok (.fstat fd) r → Q (.ok r) (g.statted fd r)) :
    (fstat fd).wp (terms ok) Q g :=
  wp_ask_of (o := .fstat fd) hi trivial fun r _ hok _ => h r hok

theorem wp_mmap {Q : Except Stop (Option (List Byte)) → View → Prop} (hi : g.installed = none)
    (hm : g.mayMap fd len)
    (h : ∀ r : Option (List Byte), Possible (.mmap fd len) r → Q (.ok r) (g.mapped fd r)) :
    (mmap fd len).wp (terms ok) Q g :=
  wp_ask_of (o := .mmap fd len) hi hm fun r hp _ _ => h r hp

theorem wp_write {Q : Except Stop Int → View → Prop} (hi : g.installed = none)
    (hm : g.mayWrite fd buf) (h : ∀ r : Int, Q (.ok r) (g.wrote fd buf r)) :
    (write fd buf).wp (terms ok) Q g :=
  wp_ask_of (o := .write fd buf) hi hm fun r _ _ _ => h r

theorem wp_rename {Q : Except Stop Bool → View → Prop} (hi : g.installed = none)
    (hm : g.mayRename ok src dst) (h : ∀ r : Bool, Q (.ok r) (g.renamed r)) :
    (rename src dst).wp (terms ok) Q g :=
  wp_ask_of (o := .rename src dst) hi hm fun r _ _ _ => h r

theorem wp_unlink {Q : Except Stop Bool → View → Prop} (hi : g.installed = none)
    (hl : g.lock ≠ none) (h : Q (.ok true) (g.unlinked true)) :
    (unlink lockPath).wp (terms ok) Q g :=
  wp_ask_of (o := .unlink lockPath) hi ⟨rfl, hl⟩ fun r _ _ hr => by
    have ht : (r : Bool) = true := hr
    subst ht
    exact h

theorem wp_malloc {Q : Except Stop Bool → View → Prop} (hi : g.installed = none)
    (h : ∀ r : Bool, Q (.ok r) g) : (malloc n).wp (terms ok) Q g :=
  wp_ask_of (o := .malloc n) hi trivial fun r _ _ _ => h r

theorem wp_memory {Q : Except Stop (List Byte) → View → Prop} (hi : g.installed = none)
    (h : ∀ r : List Byte, Q (.ok r) g) : (memory n).wp (terms ok) Q g :=
  wp_ask_of (o := .memory n) hi trivial fun r _ _ _ => h r

theorem wp_noReturn {Q : Except Stop Int → View → Prop} (hi : g.installed = none)
    (h : ∀ r : Int, ok (.noReturn c p) r → Q (.ok r) g) : (noReturn c p).wp (terms ok) Q g :=
  wp_ask_of (o := .noReturn c p) hi trivial fun r _ hok _ => h r hok

theorem wp_treeOf {Q : Except Stop Unit → View → Prop} (hi : g.installed = none)
    (hm : ∀ e ∈ es, sha1FileName g.lib e.sha1 ∈ g.objects) (h : Q (.ok ()) g) :
    (treeOf es).wp (terms ok) Q g :=
  wp_ask_of (o := .treeOf es) hi hm fun _ _ _ _ => h

theorem wp_defined {a : Option α} {Q : Except Stop α → View → Prop} :
    (defined a).wp (terms ok) Q g ↔
      (∀ b, a = some b → Q (.ok b) g) ∧ (a = none → Q (.error .fault) g) :=
  Prog.wp_ofOption

end Calls

end SelfGit

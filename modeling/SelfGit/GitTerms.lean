import SelfGit.Footprints
import SelfGit.TrackedNames

namespace SelfGit
open Foundation
set_option autoImplicit true

/-- The books of a whole process, opened anew when a handler is entered. -/
def View.gitNext (g : View) : (o : GitOp) → o.Res → View
  | .console (.sys o), r => g.next o r
  | .enter .updateCache argv, _ => View.init g.lib (argv.drop 1)
  | .enter _ _, _ => View.init g.lib []
  | _, _ => g

/-- The tree is made of the index that was read, whose objects are in place. -/
def View.mayTree (g : View) (es : List CacheEntry) : Prop :=
  (∃ s c, g.seen = some s ∧ loaded g.lib s = some c ∧ es = c.entries) ∧
    ∀ e ∈ es, sha1FileName g.lib e.sha1 ∈ g.objects

def View.mayDiff (g : View) (cmd : List Byte) : Prop :=
  ∃ s c e n, g.seen = some s ∧ loaded g.lib s = some c ∧ e ∈ c.entries ∧
    strlen e.name = some n ∧ cmd = diffCommand (e.name.take n)

/-- What a process may ask for. Only a call of `update_cache` installs an index. -/
def View.gitMay (W : Lib → List CStr → Prop) (ok : (o : Op) → o.Res → Prop) (g : View) :
    GitOp → Prop
  | .console (.sys o) => (terms ok).allows g o ∧ (Renaming o → W g.lib g.words) ∧
      (o = .openRead indexPath → g.handle = none ∨ g.seen ≠ none)
  | .console (.popen cmd) => g.mayDiff cmd
  | .enter h argv => g.lock = none ∧ g.object = none ∧ (h = .updateCache → W g.lib (argv.drop 1))
  | .treeOf es => g.mayTree es
  | _ => True

def View.gitFaces (ok : (o : Op) → o.Res → Prop) (g : View) : (o : GitOp) → o.Res → Prop
  | .console (.sys o), r => (terms ok).answers g o r
  | _, _ => True

def gitTerms (W : Lib → List CStr → Prop) (ok : (o : Op) → o.Res → Prop) :
    Protocol GitOp GitOp.Res View where
  next := View.gitNext
  allows := View.gitMay W ok
  answers := View.gitFaces ok

/-- What an operation that is not the loading of the index leaves in the books. -/
structure View.Same (o : Op) (g g' : View) : Prop where
  lib : g'.lib = g.lib
  words : g'.words = g.words
  seen : g.seen ≠ none → g'.seen ≠ none
  installed : g'.installed = g.installed ∨ Renaming o ∧ g'.lock = none
  handle : g'.handle = g.handle ∨ o = .openRead indexPath ∧ g.seen = none

theorem View.opened_same (g : View) : g.Same (.openRead p) (g.opened p r) := by
  rw [View.opened.eq_def]
  split
  · split
    · rename_i hp
      exact ⟨rfl, rfl, id, .inl rfl, .inr ⟨congrArg Op.openRead hp.1, hp.2⟩⟩
    · exact ⟨rfl, rfl, id, .inl rfl, .inl rfl⟩
  · split
    · exact ⟨rfl, rfl, fun _ => Option.some_ne_none _, .inl rfl, .inl rfl⟩
    · exact ⟨rfl, rfl, id, .inl rfl, .inl rfl⟩
  · exact ⟨rfl, rfl, id, .inl rfl, .inl rfl⟩

theorem View.created_same (g : View) : g.Same o (g.created p r) := by
  rw [View.created.eq_def]
  split
  · split <;> exact ⟨rfl, rfl, id, .inl rfl, .inl rfl⟩
  · split <;> exact ⟨rfl, rfl, id, .inl rfl, .inl rfl⟩
  · exact ⟨rfl, rfl, id, .inl rfl, .inl rfl⟩

theorem View.statted_same (g : View) : g.Same o (g.statted fd r) := by
  rw [View.statted.eq_def]
  split
  · split <;> exact ⟨rfl, rfl, id, .inl rfl, .inl rfl⟩
  · exact ⟨rfl, rfl, id, .inl rfl, .inl rfl⟩

theorem View.mapped_same (g : View) : g.Same o (g.mapped fd r) := by
  rw [View.mapped.eq_def]
  split
  · split
    · exact ⟨rfl, rfl, fun _ => Option.some_ne_none _, .inl rfl, .inl rfl⟩
    · exact ⟨rfl, rfl, id, .inl rfl, .inl rfl⟩
  · exact ⟨rfl, rfl, id, .inl rfl, .inl rfl⟩

theorem View.wrote_same (g : View) : g.Same o (g.wrote fd buf r) := by
  rw [View.wrote.eq_def]
  split
  · split
    · exact ⟨rfl, rfl, id, .inl rfl, .inl rfl⟩
    · split <;> exact ⟨rfl, rfl, id, .inl rfl, .inl rfl⟩
  · exact ⟨rfl, rfl, id, .inl rfl, .inl rfl⟩

theorem View.renamed_same (g : View) : g.Same (.rename src dst) (g.renamed r) := by
  rw [View.renamed]
  split
  · exact ⟨rfl, rfl, id, .inr ⟨trivial, rfl⟩, .inl rfl⟩
  · exact ⟨rfl, rfl, id, .inl rfl, .inl rfl⟩

theorem View.unlinked_same (g : View) : g.Same o (g.unlinked r) := by
  rw [View.unlinked]
  split <;> exact ⟨rfl, rfl, id, .inl rfl, .inl rfl⟩

theorem View.accessed_same (g : View) : g.Same o (g.accessed p r) := by
  rw [View.accessed]
  split <;> exact ⟨rfl, rfl, id, .inl rfl, .inl rfl⟩

theorem View.next_same (g : View) (o : Op) (r : o.Res) : g.Same o (g.next o r) := by
  cases o with
  | access p => exact g.accessed_same
  | openRead p => exact g.opened_same
  | openExcl p => exact g.created_same
  | fstat fd => exact g.statted_same
  | mmap fd len => exact g.mapped_same
  | write fd buf => exact g.wrote_same
  | rename src dst => exact g.renamed_same
  | unlink p => exact g.unlinked_same
  | _ => exact ⟨rfl, rfl, id, .inl rfl, .inl rfl⟩

section Pieces
variable {W : Lib → List CStr → Prop} {ok : (o : Op) → o.Res → Prop} {g : View} {α : Type}

theorem wp_sys {Q : Except Stop α → View → Prop} {p : Proc α} (hW : W g.lib g.words)
    (hs : g.seen ≠ none) (h : p.wp (terms ok) Q g) : (Console.sys p).wp (gitTerms W ok) Q g := by
  refine Prog.wp_embed (I := fun g => W g.lib g.words ∧ g.seen ≠ none) (S := fun _ => False)
    (fun g o hI _ ha => ⟨ha, fun _ => hI.1, fun _ => .inr hI.2⟩) (fun _ _ _ hr => hr)
    (fun _ _ _ => rfl) ?_ (Prog.avoids_never p) ⟨hW, hs⟩ h
  rintro g o r ⟨hI, hseen⟩
  obtain ⟨hlib, hwords, hkept, -, -⟩ := g.next_same o r
  refine ⟨?_, hkept hseen⟩
  rw [show (terms ok).next g o r = g.next o r from rfl, hlib, hwords]
  exact hI

theorem wp_sys_stores {Q : Except Stop α → View → Prop} {p : Proc α} (hp : p.Avoids Watched)
    (h : p.wp (terms ok) Q g) : (Console.sys p).wp (gitTerms W ok) Q g :=
  Prog.wp_embed (I := fun _ => True) (S := Watched)
    (fun _ _ _ ho ha => ⟨ha, fun hren => absurd (.inl hren) ho, fun hopen => absurd (.inr hopen) ho⟩)
    (fun _ _ _ hr => hr) (fun _ _ _ => rfl) (fun _ _ _ _ => trivial) hp trivial h

theorem wp_sys_looks {Q : Except Stop α → View → Prop} {p : Proc α} (hp : p.Avoids Unsettling)
    (h : p.wp (terms ok) Q g) : (Console.sys p).wp (gitTerms W ok) Q g :=
  wp_sys_stores (hp.mono Watched.unsettling) h

theorem wp_sys_call {o : Op} {k : o.Res → Proc α} {Q : Except Stop α → View → Prop}
    (hren : ¬ Renaming o) (hopen : o = .openRead indexPath → g.handle = none)
    (h : (Prog.ask o >>= k).wp (terms ok) Q g)
    (hk : ∀ r, (k r).wp (terms ok) Q (g.next o r) →
      (Console.sys (k r)).wp (gitTerms W ok) Q (g.next o r)) :
    (Console.sys (Prog.ask o >>= k)).wp (gitTerms W ok) Q g := by
  obtain ⟨ha, hrest⟩ := Prog.wp_call.1 h
  refine Prog.wp_call (o := GitOp.console (.sys o)) |>.2 ⟨⟨ha, ?_, ?_⟩, fun r hr => ?_⟩
  · exact fun hr => absurd hr hren
  · exact fun ho => .inl (hopen ho)
  · exact hk r (hrest r hr)

theorem wp_sys_readCache {Q : Except Stop (Int × Cache) → View → Prop} (hh : g.handle = none)
    (h : (readCache L Cache.null).wp (terms ok) Q g) :
    (Console.sys (readCache L Cache.null)).wp (gitTerms W ok) Q g := by
  rw [readCache, if_neg (by simp [Cache.null])] at h ⊢
  refine wp_sys_call (o := .accessDir L.objectDirectory) id (fun ho => by cases ho) h
    fun r hr => ?_
  cases r with
  | false => exact wp_sys_stores (Prog.avoids_pure _) hr
  | true =>
    refine wp_sys_call (o := .openRead indexPath) id (fun _ => hh) hr fun r hr => ?_
    refine wp_sys_stores ?_ hr
    cases r with
    | error e => exact Prog.avoids_pure _
    | ok fd =>
      have hstat : ¬ Watched (.fstat fd) := by simp [Watched, Renaming]
      refine Prog.Avoids.bind (Prog.avoids_ask hstat) fun r => ?_
      cases r with
      | none => exact Prog.avoids_pure _
      | some st =>
        dsimp only
        split
        · refine Prog.Avoids.bind (Prog.avoids_ask (by simp [Watched, Renaming])) fun r => ?_
          cases r with
          | none => exact Prog.avoids_pure _
          | some map => exact Prog.avoids_ofOption _ _
        · exact Prog.avoids_halt _

theorem wp_quiet {o : GitOp} {Q : Except Stop o.Res → View → Prop}
    (ha : ∀ g : View, g.gitMay W ok o) (hn : ∀ (g : View) r, g.gitNext o r = g)
    (h : ∀ r, Q (.ok r) g) : (Prog.ask o : GitProc o.Res).wp (gitTerms W ok) Q g := by
  refine Prog.wp_ask.2 ⟨ha g, fun r _ => ?_⟩
  rw [show (gitTerms W ok).next g o r = g.gitNext o r from rfl, hn]
  exact h r

theorem wp_say {Q : Except Stop Unit → View → Prop} (h : Q (.ok ()) g) :
    (Console.say t).wp (gitTerms W ok) Q g :=
  wp_quiet (o := .console (.printf t)) (fun _ => trivial) (fun _ _ => rfl) fun _ => h

theorem wp_mkstemp {Q : Except Stop (Except Errno Path) → View → Prop}
    (h : ∀ r : Except Errno Path, Q (.ok r) g) : (Console.mkstemp t).wp (gitTerms W ok) Q g :=
  wp_quiet (o := .mkstemp t) (fun _ => trivial) (fun _ _ => rfl) h

theorem wp_fill {Q : Except Stop Int → View → Prop} (h : ∀ n : Int, Q (.ok n) g) :
    (Console.fill name buf).wp (gitTerms W ok) Q g :=
  wp_quiet (o := .fill name buf) (fun _ => trivial) (fun _ _ => rfl) h

theorem wp_tree {Q : Except Stop Unit → View → Prop} (hm : g.mayTree es) (h : Q (.ok ()) g) :
    (Console.treeOf es).wp (gitTerms W ok) Q g :=
  Prog.wp_ask (o := GitOp.treeOf es) |>.2 ⟨hm, fun _ _ => h⟩

theorem wp_sayAll {Q : Except Stop Unit → View → Prop} (ts : List (List Byte))
    (h : Q (.ok ()) g) : (Console.sayAll ts).wp (gitTerms W ok) Q g := by
  induction ts with
  | nil => exact Prog.wp_pure.2 h
  | cons t ts ih =>
    rw [Console.sayAll, Prog.wp_bind]
    exact wp_say ih

theorem wp_ofOption {a : Option α} {Q : Except Stop α → View → Prop}
    (h : ∀ b, a = some b → Q (.ok b) g) (he : Q (.error .fault) g) :
    (Prog.ofOption .fault a : GitProc α).wp (gitTerms W ok) Q g :=
  Prog.wp_ofOption.2 ⟨h, fun _ => he⟩

end Pieces

end SelfGit

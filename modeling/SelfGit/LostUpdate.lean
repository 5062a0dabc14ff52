import SelfGit.Sessions
import SelfGit.WildSlots

namespace SelfGit
open Foundation
set_option autoImplicit true

/-- The files to be added exist, as reported, and whatever is removed is the last entry. -/
def careful (target : Pid → CStr) (reported : Stat → Prop) : (o : Op) → o.Res → Prop
  | .openRead p, (r : Except Errno Fd) => ∀ i, p = (target i).1 → r ≠ .error .ENOENT
  | .fstat _, (r : Option Stat) => ∀ st, r = some st → reported st
  | .noReturn c path, _ => AtEnd c path
  | _, _ => True

/-- An entry of that path, made of a reported status, as far as the index holds it. -/
def MadeOf (reported : Stat → Prop) (p : CStr) (e : CacheEntry) : Prop :=
  e.key = p.1 ∧ ∃ st s, reported st ∧ e.trim = CacheEntry.trim { newEntry p st with sha1 := s }

def Lists (L : Lib) (reported : Stat → Prop) (p : CStr) (s : Option (List Byte)) : Prop :=
  ∃ es, es.length < 2 ^ 31 ∧ s = some (cacheImage L es) ∧ ∃ e ∈ es, MadeOf reported p e

@[simp] theorem CacheEntry.trim_trim (ce : CacheEntry) : ce.trim.trim = ce.trim := by
  ext1 <;> try rfl
  simp only [CacheEntry.trim, ceSize, List.take_take, min_self]

theorem AtEnd.split (h : AtEnd c path) (hc : c.Holds es) (hes : es = l ++ e :: r)
    (he : e.key = path) : r = [] := by
  have hlen : es.length = l.length + r.length + 1 := by
    rw [hes, List.length_append, List.length_cons]
    omega
  have hslot := hc.slot (i := l.length) (by omega)
  have hn := h l.length (by rw [hc.nr]; omega) e (by rw [hslot]; simp [hes]) he
  rw [hc.nr] at hn
  exact List.length_eq_zero_iff.1 (by omega)

variable {target : Pid → CStr} {reported : Stat → Prop} {i : Pid}

theorem Edits.keep_made (h : Edits L (careful target reported) objects c ps c')
    (hc : c.Holds es) (he : ∃ e ∈ es, MadeOf reported (target i) e) :
    ∃ es', c'.Holds es' ∧ ∃ e ∈ es', MadeOf reported (target i) e := by
  refine h.preserves ?_ ?_ hc he
  · rintro es es' p fd st s hlen hst - hadd ⟨e, hmem, hkey, hmade⟩
    by_cases hsame : e.key = CacheEntry.key { newEntry p st with sha1 := s }
    · rw [newEntry_key (fits_of_lt_pathMax hlen)] at hsame
      have hpt : p = target i := Subtype.ext (hsame.symm.trans hkey)
      subst hpt
      exact ⟨_, hadd.self_mem, newEntry_key (fits_of_lt_pathMax hlen), st, s, hst st rfl, rfl⟩
    · exact ⟨e, hadd.keep hmem hsame, hkey, hmade⟩
  · rintro c es es' p hc hm hn hrem ⟨e, hmem, hkey, hmade⟩
    have hne : e.key ≠ p.1 := by
      intro hk
      exact hm i (hk.symm.trans hkey) rfl
    exact ⟨e, hrem.keep hmem hne fun l r f hes hf => hn.split hc hes hf, hkey, hmade⟩

theorem Edits.made (h : Edits L (careful target reported) objects c ps c') (hc : c.Holds es)
    (hv : verifyPath (target i) = true) (hi : target i ∈ ps) :
    ∃ es', c'.Holds es' ∧ ∃ e ∈ es', MadeOf reported (target i) e := by
  induction h generalizing es with
  | done => cases hi
  | skipped hv' _ ih =>
    rcases List.mem_cons.1 hi with rfl | hi
    · rw [hv] at hv'
      cases hv'
    · exact ih hc hi
  | added hv' hlen hst hs ha hrest ih =>
    obtain ⟨es₁, hc₁, h₁⟩ := addCacheEntry_spec hc ha
    rcases List.mem_cons.1 hi with hit | hi
    · subst hit
      exact hrest.keep_made hc₁
        ⟨_, h₁.self_mem, newEntry_key (fits_of_lt_pathMax hlen), _, _, hst _ rfl, rfl⟩
    · exact ih hc₁ hi
  | removed hv' hm hr hn _ ih =>
    obtain ⟨es₁, hc₁, h₁⟩ := removeFileFromCache_spec hc hr
    rcases List.mem_cons.1 hi with hit | hi
    · subst hit
      exact absurd rfl (hm i rfl)
    · exact ih hc₁ hi

theorem Edits.wild (h : Edits L (careful target reported) objects c ps c') (hc : c.Shape)
    (hw : c.Wild) : c'.Wild := by
  induction h with
  | done => exact hw
  | skipped _ _ ih => exact ih hc hw
  | added _ _ _ _ ha _ ih => exact ih (addCacheEntry_shape hc ha) (hw.add hc ha)
  | removed _ _ hr hn _ ih => exact ih (removeFileFromCache_shape hc hr) (hw.remove hc hn hr)

theorem MadeOf.of_trim (h : MadeOf reported p e) (he : f.trim = e.trim) :
    MadeOf reported p f := by
  obtain ⟨hkey, st, s, hst, htrim⟩ := h
  refine ⟨?_, st, s, hst, he.trans htrim⟩
  rw [← CacheEntry.trim_key f, he, CacheEntry.trim_key, hkey]

/-- Each process brings about that its path is listed, and none undoes it for another. -/
theorem listing_keeps {argv : Pid → List CStr}
    (hv : ∀ i, verifyPath (target i) = true) (hi : ∀ i, target i ∈ (argv i).drop 1) :
    Keeps (careful target reported) (fun _ : Pid => L) argv (fun _ => True)
      (fun i => Lists L reported (target i)) where
  inv _ _ _ _ _ _ _ _ _ _ := trivial
  own i objects s c c' b _ hl he hb := by
    have hshape := loaded_shape hl
    rcases hshape.holds_or_wild with ⟨es, hes⟩ | hw
    · obtain ⟨es', hes', hmade⟩ := he.made hes (hv i) (hi i)
      rw [hes'.image_eq, Option.some.injEq] at hb
      exact ⟨es', hes'.length_lt, by rw [hb], hmade⟩
    · rw [(he.wild hshape hw).image (he.shape hshape)] at hb
      cases hb
  keep i j objects s c c' b _ hj hl he hb := by
    obtain ⟨es, hn, rfl, e, hmem, hmade⟩ := hj
    obtain ⟨es', hes', hmade'⟩ := he.keep_made (loaded_image hn hl)
      ⟨e.trim, List.mem_map_of_mem hmem, hmade.of_trim (CacheEntry.trim_trim e)⟩
    rw [hes'.image_eq, Option.some.injEq] at hb
    exact ⟨es', hes'.length_lt, by rw [hb], hmade'⟩

/-- No update is lost if every process gets the lock on the index it has seen and whatever is
removed is the last entry. -/
theorem no_lost_update [DecidableEq Pid] {argv : Pid → List CStr} {c : Machine Pid}
    (hg : fs.Good) (hv : ∀ i, verifyPath (target i) = true)
    (hi : ∀ i, target i ∈ (argv i).drop 1)
    (hr : Config.Reaches (answering (careful target reported) Fresh (fun _ => L) argv)
      (updating (fun _ => L) argv fs) c)
    (ha : c.prog a = .ret (some 0, ma)) (hb : c.prog b = .ret (some 0, mb)) :
    ∃ es, c.shared.read indexPath = some (cacheImage L es) ∧
      (∃ e ∈ es, MadeOf reported (target a) e) ∧ ∃ e ∈ es, MadeOf reported (target b) e := by
  have hs := (listing_keeps hv hi).reaches hg trivial hr
  have hlist : ∀ i m, c.prog i = .ret (some 0, m) →
      Lists L reported (target i) (c.shared.read indexPath) := by
    intro i m hp
    have hw := hs.each i
    rw [hp, Prog.wp_ret] at hw
    obtain ⟨es, -, hin⟩ := hw.1 rfl
    exact hs.joint.has i (by rw [hin]; exact Option.some_ne_none _)
  obtain ⟨es, hn, hread, hea⟩ := hlist a ma ha
  obtain ⟨es', hn', hread', e, hmem, hmade⟩ := hlist b mb hb
  refine ⟨es, hread, hea, ?_⟩
  rw [hread, Option.some.injEq] at hread'
  have htrim := cacheImage_trim (by omega) (by omega) hread'
  have hmem' : e.trim ∈ es.map CacheEntry.trim := by
    rw [htrim]
    exact List.mem_map_of_mem hmem
  obtain ⟨f, hf, hfe⟩ := List.mem_map.1 hmem'
  exact ⟨f, hf, hmade.of_trim hfe⟩

/-- The program has come to `return 0`. -/
def returned : Proc (Option Int × Cache) → Bool
  | .ret (some r, _) => r = 0
  | _ => false

theorem returned_eq (h : returned p = true) : ∃ m, p = .ret (some 0, m) := by
  cases p with
  | ret a =>
    obtain ⟨r, m⟩ := a
    cases r with
    | none => cases h
    | some r =>
      have hr : r = 0 := by simpa [returned] using h
      exact ⟨m, by rw [hr]⟩
  | halt e => cases h
  | call o k => cases h

def twoFiles (i : Bool) : CStr := if i then cstr "b" else cstr "a"

def twoCommands (i : Bool) : List CStr := [cstr "git", twoFiles i]

/-- The answers that can be told to be careful and fresh. -/
def sure (c : Machine Bool) (i : Bool) (o : Op) (r : o.Res) : Bool :=
  match o, r with
  | .openRead p, (r : Except Errno Fd) => decide (p = indexPath ∨ r ≠ .error .ENOENT)
  | .openExcl _, _ =>
    decide ((books (fun _ => storedLib) twoCommands c i).seen = some (c.shared.read indexPath))
  | .noReturn _ _, _ => false
  | _, _ => true

/-- The second process reads the index after the first has installed it. -/
theorem no_lost_update_in_turn : ∃ c : Machine Bool,
    Config.Reaches (answering (careful twoFiles fun _ => True) Fresh (fun _ => storedLib)
      twoCommands) (updating (fun _ => storedLib) twoCommands FS.empty) c ∧
    ∃ es, c.shared.read indexPath = some (cacheImage storedLib es) ∧
      (∃ e ∈ es, MadeOf (fun _ => True) (twoFiles false) e) ∧
      ∃ e ∈ es, MadeOf (fun _ => True) (twoFiles true) e := by
  have hsure : ∀ c i o r, sure c i o r = true → careful twoFiles (fun _ => True) o r ∧
      OnLock Fresh c.shared (books (fun _ => storedLib) twoCommands c i) o r := by
    intro c i o r h
    cases o with
    | openRead p =>
      refine ⟨fun j hj => ?_, trivial⟩
      simp only [sure, decide_eq_true_eq] at h
      rcases h with hp | hne
      · rw [hp] at hj
        cases j <;> exact absurd hj (by decide)
      · exact hne
    | openExcl p =>
      refine ⟨trivial, ?_⟩
      cases r with
      | error e => trivial
      | ok fd =>
        change decide ((books (fun _ => storedLib) twoCommands c i).seen =
          some (c.shared.read indexPath)) = true at h
        rw [decide_eq_true_eq] at h
        exact fun _ => h
    | fstat fd => exact ⟨fun _ _ => trivial, trivial⟩
    | noReturn m p => cases h
    | _ => exact ⟨trivial, trivial⟩
  obtain ⟨c, hc, hret⟩ : ∃ c, Config.drive
      (fun c i o r => if sure c i o r then turn c i o r else none)
      (FS.serve [(str "a", str "x"), (str "b", str "y")])
      (List.replicate 12 false ++ List.replicate 15 true)
      (updating (fun _ => storedLib) twoCommands FS.empty) = some c ∧
      (returned (c.prog false), returned (c.prog true)) = (true, true) := by
    rw [← Option.map_eq_some_iff]
    decide +kernel
  rw [Prod.mk.injEq] at hret
  obtain ⟨ma, ha⟩ := returned_eq hret.1
  obtain ⟨mb, hb⟩ := returned_eq hret.2
  have hr : Config.Reaches (answering (careful twoFiles fun _ => True) Fresh
      (fun _ => storedLib) twoCommands) (updating (fun _ => storedLib) twoCommands FS.empty) c := by
    refine Config.drive_reaches (fun c i o w h => ?_) (fun _ => rfl) hc
    split at h
    · rename_i hs
      exact ⟨h, hsure _ _ _ _ hs⟩
    · cases h
  exact ⟨c, hr, no_lost_update FS.empty_good (by decide) (by decide) hr ha hb⟩

/-- The second process reads the index before the first gets the lock, and installs its own after
it: the entry of the first is gone. -/
theorem update_lost : ∃ c : Machine Bool,
    Config.Reaches answered (updating (fun _ => storedLib) twoCommands FS.empty) c ∧
    (∃ m, c.prog false = .ret (some 0, m)) ∧ (∃ m, c.prog true = .ret (some 0, m)) ∧
    ∃ es, c.shared.read indexPath = some (cacheImage storedLib es) ∧
      ∀ e ∈ es, e.key ≠ (twoFiles false).1 := by
  obtain ⟨c, hc, hret⟩ : ∃ c, Config.drive turn
      (FS.serve [(str "a", str "x"), (str "b", str "y")])
      (List.replicate 2 true ++ List.replicate 12 false ++ List.replicate 10 true)
      (updating (fun _ => storedLib) twoCommands FS.empty) = some c ∧
      (returned (c.prog false), returned (c.prog true), c.shared.read indexPath) =
        (true, true, some (cacheImage storedLib [sampleEntry "b" 121])) := by
    rw [← Option.map_eq_some_iff]
    decide +kernel
  simp only [Prod.mk.injEq] at hret
  refine ⟨c, Config.drive_reaches (fun _ _ _ _ h => h) (fun _ => rfl) hc, returned_eq hret.1,
    returned_eq hret.2.1, _, hret.2.2, ?_⟩
  decide

end SelfGit

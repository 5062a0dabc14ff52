import SelfGit.Serial
import SelfGit.StoredZlib

namespace SelfGit
open Foundation
set_option autoImplicit true

/-- The states of a repository in a sequence of `update_cache` runs, each possibly cut short. -/
inductive Session (L : Lib) (ok : (o : Op) → o.Res → Prop) (fs : FS) : FS → Prop
  | start : Session L ok fs fs
  | run (h : Session L ok fs fs') (argv : List CStr)
      (hr : Config.Reaches (answering ok (fun _ _ => True) (fun _ => L) fun _ => argv)
        (alone L argv fs') c) : Session L ok fs c.shared

def IsImage (L : Lib) (P : List CacheEntry → Prop) : Option (List Byte) → Prop
  | none => True
  | some b => ∃ es, es.length < 2 ^ 31 ∧ b = cacheImage L es ∧ P es

@[simp] theorem CacheEntry.trim_key (ce : CacheEntry) : ce.trim.key = ce.key := by
  have hb := nameOffset_lt_ceSize ce
  simp only [CacheEntry.key, CacheEntry.trim, List.take_take]
  congr 1
  omega

theorem ascending_trim : Ascending (es.map CacheEntry.trim) ↔ Ascending es := by
  simp only [ascending_iff, List.pairwise_map, CacheEntry.trim_key]

theorem loaded_image (hn : es.length < 2 ^ 31) (h : loaded L (some (cacheImage L es)) = some c) :
    c.Holds (es.map CacheEntry.trim) := by
  rw [loaded] at h
  split at h
  · by_cases hle : es.length ≤ 1431655749
    · rw [loadCache_cacheImage L _ hle, Option.bind_some, if_neg (by simp)] at h
      cases h
      exact reloaded_holds hle
    · rw [loadCache_overflow L _ (by omega) hn] at h
      cases h
  · cases h

theorem IsImage.loaded {P : List CacheEntry → Prop} (hI : IsImage L P s)
    (hP : P [] ∧ ∀ es, P es → P (es.map CacheEntry.trim)) (h : loaded L s = some c) :
    ∃ es, c.Holds es ∧ P es := by
  cases s with
  | none =>
    cases h
    exact ⟨[], Cache.null_holds, hP.1⟩
  | some b =>
    obtain ⟨es, hn, rfl, hes⟩ := hI
    exact ⟨_, loaded_image hn h, hP.2 es hes⟩

/-- A property of entries that every edit keeps is a property of the index in every state. -/
theorem Session.image {P : List CacheEntry → Prop}
    (hP : P [] ∧ ∀ es, P es → P (es.map CacheEntry.trim))
    (hedits : ∀ objects c ps c' es, Edits L ok objects c ps c' → c.Holds es → P es →
      ∃ es', c'.Holds es' ∧ P es')
    (hg : fs.Good) (h0 : fs.dir indexPath = none) (h : Session L ok fs fs') :
    fs'.Good ∧ IsImage L P (fs'.read indexPath) := by
  induction h with
  | start =>
    refine ⟨hg, ?_⟩
    rw [FS.read, h0]
    trivial
  | @run fs' c h argv hr ih =>
    have hk : Keeps ok (fun _ : Unit => L) (fun _ => argv) (IsImage L P) (fun _ _ => True) := by
      refine ⟨?_, fun _ _ _ _ _ _ _ _ _ _ => trivial, fun _ _ _ _ _ _ _ _ _ _ _ _ => trivial⟩
      intro i objects s c c' b hI hl he hb
      obtain ⟨es, hes, hPes⟩ := hI.loaded hP hl
      obtain ⟨es', hes', hPes'⟩ := hedits _ _ _ _ _ he hes hPes
      rw [hes'.image_eq, Option.some.injEq] at hb
      exact ⟨es', hes'.length_lt, hb.symm, hPes'⟩
    have hs := hk.reaches ih.1 ih.2 (alone_fresh ih.1 hr)
    exact ⟨hs.joint.serial.1.good, hs.joint.inv⟩

def NearEnd (c : Cache) (path : Path) : Prop :=
  ∀ k < c.activeNr, ∀ e ∈ c.activeCache[k]?.join, e.key = path → c.activeNr ≤ k + 2

def removesNearEnd : (o : Op) → o.Res → Prop
  | .noReturn c path, _ => NearEnd c path
  | _, _ => True

instance (o : Op) (r : o.Res) : Decidable (removesNearEnd o r) :=
  match o, r with
  | .noReturn c path, _ => inferInstanceAs (Decidable (∀ k < c.activeNr,
      ∀ e ∈ c.activeCache[k]?.join, e.key = path → c.activeNr ≤ k + 2))
  | .accessDir _, _ | .access _, _ | .openRead _, _ | .openExcl _, _ | .fstat _, _
  | .mmap _ _, _ | .write _ _, _ | .rename _ _, _ | .unlink _, _ | .malloc _, _ | .memory _, _
  | .treeOf _, _ => isTrue trivial

theorem NearEnd.split (h : NearEnd c path) (hc : c.Holds es) (hes : es = l ++ e :: r)
    (he : e.key = path) : r.length ≤ 1 := by
  have hlen : es.length = l.length + r.length + 1 := by
    rw [hes, List.length_append, List.length_cons]
    omega
  have hslot := hc.slot (i := l.length) (by omega)
  have hn := h l.length (by rw [hc.nr]; omega) e (by rw [hslot]; simp [hes]) he
  rw [hc.nr] at hn
  omega

theorem Edits.ascending (h : Edits L removesNearEnd objects c ps c') (hc : c.Holds es)
    (ha : Ascending es) : ∃ es', c'.Holds es' ∧ Ascending es' := by
  refine h.preserves (fun _ _ _ _ _ _ _ _ _ hadd ha => hadd.ascending ha) ?_ hc ha
  intro c es es' p hc _ hn hrem ha
  exact hrem.ascending ha fun l r e hes he => NearEnd.split hn hc hes he

def SortedIndex (L : Lib) (fs : FS) : Prop := IsImage L Ascending (fs.read indexPath)

theorem Session.drive {policy : FS → (o : Op) → o.Res}
    {step : Machine Unit → Unit → (o : Op) → o.Res → Option FS} (h : Session L ok fs fs')
    (hstep : ∀ c i o w, step c i o (policy c.shared o) = some w →
      c.shared.step o (policy c.shared o) = some w ∧ ok o (policy c.shared o))
    (hd : Config.drive step policy is (alone L argv fs') = some c) : Session L ok fs c.shared :=
  h.run argv (Config.drive_reaches (fun c i o w hw =>
    ⟨(hstep c i o w hw).1, (hstep c i o w hw).2, onLock_any⟩) (fun _ => rfl) hd)

/-- From a fresh repository, if every removal meets an entry at one of the last two places, the
index is in order in every state. -/
theorem session_sorted (hg : fs.Good) (h0 : fs.dir indexPath = none)
    (h : Session L removesNearEnd fs fs') : SortedIndex L fs' :=
  (h.image ⟨List.Pairwise.nil, fun _ ha => ascending_trim.2 ha⟩
    (fun _ _ _ _ _ he hc ha => he.ascending hc ha) hg h0).2

instance (es : List CacheEntry) : Decidable (Ascending es) :=
  inferInstanceAs (Decidable (es.Pairwise fun a b =>
    cacheNameCompare a.name a.namelen.toNat b.name b.namelen.toNat < 0))

def sampleEntry (name : String) (content : Byte) : CacheEntry :=
  { newEntry (cstr name) (Stat.ofSize 1) with
    sha1 := storedLib.sha1 (storedStream (str "blob 1" ++ [0, content])) }

/-- Add `a` and `b`; then `b` is gone and is added again. -/
theorem session_sorted_last_removed : ∃ fs, Session storedLib removesNearEnd FS.empty fs ∧
    fs.read indexPath = some (cacheImage storedLib [sampleEntry "a" 120]) ∧
    SortedIndex storedLib fs := by
  let step (c : Machine Unit) (i : Unit) (o : Op) (r : o.Res) : Option FS :=
    if removesNearEnd o r then turn c i o r else none
  have hstep : ∀ c i o r w, step c i o r = some w →
      c.shared.step o r = some w ∧ removesNearEnd o r := by
    intro c i o r w h
    by_cases hr : removesNearEnd o r
    · simp only [step, if_pos hr] at h
      exact ⟨h, hr⟩
    · simp only [step, if_neg hr, reduceCtorEq] at h
  have hrun : (Config.drive step (FS.serve [(str "a", str "x"), (str "b", str "y")])
      (List.replicate 19 ()) (alone storedLib [cstr "git", cstr "a", cstr "b"]
        FS.empty)).bind (fun c => (Config.drive step (FS.serve [(str "a", str "x")])
      (List.replicate 10 ()) (alone storedLib [cstr "git", cstr "b"] c.shared)).map
        fun c' => c'.shared.read indexPath) =
      some (some (cacheImage storedLib [sampleEntry "a" 120])) := by
    decide +kernel
  rw [Option.bind_eq_some_iff] at hrun
  obtain ⟨c, hc, hrun⟩ := hrun
  rw [Option.map_eq_some_iff] at hrun
  obtain ⟨c', hc', hread⟩ := hrun
  have hs := (Session.start.drive (fun _ _ _ _ h => hstep _ _ _ _ _ h) hc).drive
    (fun _ _ _ _ h => hstep _ _ _ _ _ h) hc'
  exact ⟨_, hs, hread, session_sorted FS.empty_good rfl hs⟩

/-- Add `a`, `b` and `c`; then `a` is gone and is added again. -/
theorem session_unsorted :
    ¬ ∀ fs, Session storedLib anyAnswer FS.empty fs → SortedIndex storedLib fs := by
  intro hall
  have hrun : (Config.drive turn
      (FS.serve [(str "a", str "x"), (str "b", str "y"), (str "c", str "z")])
      (List.replicate 26 ()) (alone storedLib [cstr "git", cstr "a", cstr "b", cstr "c"]
        FS.empty)).bind (fun c => (Config.drive turn
      (FS.serve [(str "b", str "y"), (str "c", str "z")]) (List.replicate 11 ())
      (alone storedLib [cstr "git", cstr "a"] c.shared)).map fun c' => c'.shared.read indexPath) =
      some (some (cacheImage storedLib [sampleEntry "b" 121, sampleEntry "b" 121])) := by
    decide +kernel
  rw [Option.bind_eq_some_iff] at hrun
  obtain ⟨c, hc, hrun⟩ := hrun
  rw [Option.map_eq_some_iff] at hrun
  obtain ⟨c', hc', hread⟩ := hrun
  have hs : Session storedLib anyAnswer FS.empty c'.shared :=
    (Session.start.drive (fun _ _ _ _ h => ⟨h, trivial⟩) hc).drive
      (fun _ _ _ _ h => ⟨h, trivial⟩) hc'
  have hsorted := hall _ hs
  rw [SortedIndex, hread] at hsorted
  obtain ⟨es, hn, he, ha⟩ := hsorted
  rw [← ascending_trim, ← cacheImage_trim (by decide) (by omega) he, ascending_trim] at ha
  exact absurd ha (by decide +kernel)

end SelfGit

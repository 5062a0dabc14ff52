import SelfGit.IndexImage
import SelfGit.Terms

namespace SelfGit
open Foundation
set_option autoImplicit true

def View.more (g : View) (objects : List Path) : View := { g with objects := objects }

@[simp] theorem View.more_self (g : View) : g.more g.objects = g := rfl

@[simp] theorem View.more_more (g : View) (as bs : List Path) : (g.more as).more bs = g.more bs :=
  rfl

theorem View.opened_of_seen {g : View} (h : g.seen ≠ none) : g.opened p r = g := by
  simp only [View.opened, h, and_false, ↓reduceIte]
  split <;> rfl

theorem View.statted_of_seen {g : View} (h : g.seen ≠ none) : g.statted fd r = g := by
  simp only [View.statted, h, and_false, ↓reduceIte]
  split <;> rfl

theorem View.mapped_of_seen {g : View} (h : g.seen ≠ none) : g.mapped fd r = g := by
  simp only [View.mapped, h, and_false, ↓reduceIte]
  split <;> rfl

variable {ok : (o : Op) → o.Res → Prop} {g : View} {L : Lib}

theorem wp_writeSha1Buffer {Q : Except Stop Int → View → Prop} (hL : g.lib = L)
    (hi : g.installed = none) (ho : g.object = none)
    (hQ : ∀ r objects, g.objects ⊆ objects → (0 ≤ r → sha1FileName L (L.sha1 buf) ∈ objects) →
      Q (.ok r) (g.more objects)) :
    (writeSha1Buffer L (L.sha1 buf) buf).wp (terms ok) Q g := by
  have hne := sha1FileName_ne_lock L (L.sha1 buf)
  rw [writeSha1Buffer, Prog.wp_bind]
  refine wp_openExcl hi (.inr ⟨ho, _, by rw [hL]⟩) fun r hp _ => ?_
  cases r with
  | error e =>
    cases e with
    | EEXIST =>
      simp only [Prog.andThen_ok, View.created, if_neg hne, Prog.wp_pure]
      exact hQ _ _ (List.subset_cons_self _ _) fun _ => List.mem_cons_self
    | ENOENT =>
      exact Prog.wp_pure.2 <| hQ (-1) g.objects (List.Subset.refl _) fun h => absurd h (by decide)
    | other =>
      exact Prog.wp_pure.2 <| hQ (-1) g.objects (List.Subset.refl _) fun h => absurd h (by decide)
  | ok fd =>
    obtain ⟨i, rfl⟩ := possible_openExcl hp rfl
    simp only [Prog.andThen_ok, View.created, if_neg hne, Prog.wp_bind]
    refine wp_write hi ⟨i, rfl, .inl ⟨_, rfl, by rw [← hL]⟩⟩ fun n => ?_
    have hg : View.wrote { g with
        object := some (i, sha1FileName L (L.sha1 buf))
        objects := sha1FileName L (L.sha1 buf) :: g.objects } (.repo i) buf n =
        g.more (sha1FileName L (L.sha1 buf) :: g.objects) := by
      simp only [View.wrote, Option.map_some, ↓reduceIte, View.more, ← ho]
    rw [hg]
    exact Prog.wp_pure.2 <| hQ 0 _ (List.subset_cons_self _ _) fun _ => List.mem_cons_self

theorem wp_indexFd {Q : Except Stop (Int × CacheEntry) → View → Prop} (hL : g.lib = L)
    (hi : g.installed = none) (ho : g.object = none) (hs : g.seen ≠ none)
    (hQ : ∀ r ce' objects, g.objects ⊆ objects →
      (0 ≤ r → ∃ s, ce' = { ce with sha1 := s } ∧ sha1FileName L s ∈ objects) →
      Q (.ok (r, ce')) (g.more objects)) :
    (indexFd L namelen ce fd st).wp (terms ok) Q g := by
  have hfail : Q (.ok (-1, ce)) g :=
    hQ (-1) ce g.objects (List.Subset.refl _) fun h => absurd h (by decide)
  simp only [indexFd, Prog.wp_bind]
  refine wp_malloc hi fun out => ?_
  simp only [Prog.andThen_ok, Prog.wp_bind]
  refine wp_mmap hi (fun i _ _ hn => absurd hn hs) fun r _ => ?_
  rw [View.mapped_of_seen hs]
  cases r with
  | none => exact Prog.wp_pure.2 hfail
  | some content =>
    cases out with
    | false => exact Prog.wp_pure.2 hfail
    | true =>
      simp only [Prog.andThen_ok, ↓reduceIte, Prog.wp_bind]
      refine wp_writeSha1Buffer hL hi ho fun r objects hsub hin => ?_
      exact Prog.wp_pure.2 <| hQ r _ objects hsub fun hr => ⟨_, rfl, hin hr⟩

theorem wp_addFileToCache {Q : Except Stop (Int × Cache) → View → Prop} (hL : g.lib = L)
    (hi : g.installed = none) (ho : g.object = none) (hs : g.seen ≠ none)
    (hv : verifyPath path = true)
    (hQ : ∀ r c' objects, g.objects ⊆ objects →
      (r = 0 → ∀ objects' ps d, objects ⊆ objects' → Edits L ok objects' c' ps d →
        Edits L ok objects' c (path :: ps) d) →
      Q (.ok (r, c')) (g.more objects))
    (he : ∀ e g', g'.installed = none → g'.object = none → Q (.error e) g') :
    (addFileToCache L c path).wp (terms ok) Q g := by
  have hfail : Q (.ok (-1, c)) g :=
    hQ (-1) c g.objects (List.Subset.refl _) fun h => absurd h (by decide)
  simp only [addFileToCache, Prog.wp_bind]
  refine wp_openRead hi fun r hp hok => ?_
  rw [View.opened_of_seen hs]
  cases r with
  | error e =>
    simp only [Prog.andThen_ok]
    by_cases hen : e = .ENOENT
    · subst e
      simp only [↓reduceIte, Prog.wp_bind]
      rw [wp_defined]
      refine ⟨fun c' hc' => ?_, fun _ => he .fault g hi ho⟩
      simp only [Prog.andThen_ok, Prog.wp_bind]
      refine wp_noReturn hi fun r hn => ?_
      refine Prog.wp_pure.2 <| hQ r c' g.objects (List.Subset.refl _) ?_
      rintro rfl objects' ps d _ hed
      exact .removed hv hok hc' hn hed
    · simp only [hen, ↓reduceIte]
      exact Prog.wp_pure.2 hfail
  | ok fd =>
    simp only [Prog.andThen_ok, Prog.wp_bind]
    refine wp_fstat hi fun r hst => ?_
    rw [View.statted_of_seen hs]
    cases r with
    | none => exact Prog.wp_pure.2 hfail
    | some st =>
      simp only [Prog.andThen_ok, Prog.wp_bind]
      refine wp_indexFd hL hi ho hs fun r ce' objects hsub hin => ?_
      simp only [Prog.andThen_ok]
      by_cases hr : r < 0
      · simp only [hr, ↓reduceIte]
        exact Prog.wp_pure.2 <| hQ (-1) c objects hsub fun h => absurd h (by decide)
      · simp only [hr, ↓reduceIte, Prog.wp_bind]
        rw [wp_defined]
        refine ⟨fun c' hc' => ?_, fun _ => he .fault (g.more objects) hi ho⟩
        obtain ⟨s, rfl, hmem⟩ := hin (by omega)
        refine Prog.wp_pure.2 <| hQ 0 c' objects hsub ?_
        intro _ objects' ps d hsub' hed
        exact .added hv (possible_openRead hp rfl) hst (hsub' hmem) hc' hed

theorem wp_addPaths {Q : Except Stop (Bool × Cache) → View → Prop} (hL : g.lib = L)
    (hi : g.installed = none) (ho : g.object = none) (hs : g.seen ≠ none)
    (hQ : ∀ b c' objects, g.objects ⊆ objects → (b = true → Edits L ok objects c ps c') →
      Q (.ok (b, c')) (g.more objects))
    (he : ∀ e g', g'.installed = none → g'.object = none → Q (.error e) g') :
    (addPaths L ps c).wp (terms ok) Q g := by
  induction ps generalizing g c with
  | nil => exact Prog.wp_pure.2 <| hQ true c g.objects (List.Subset.refl _) fun _ => .done
  | cons path ps ih =>
    rw [addPaths]
    by_cases hv : verifyPath path = true
    · rw [if_pos hv, Prog.wp_bind]
      refine wp_addFileToCache hL hi ho hs hv (fun r c' objects hsub hstep => ?_) he
      simp only [Prog.andThen_ok]
      by_cases hr : r ≠ 0
      · rw [if_pos hr]
        exact Prog.wp_pure.2 <| hQ false c' objects hsub fun h => absurd h (by decide)
      · rw [if_neg hr]
        refine ih (g := g.more objects) hL hi ho hs ?_
        intro b c'' objects' hsub' hed
        refine hQ b c'' objects' (List.Subset.trans hsub hsub') fun hb => ?_
        exact hstep (not_not.1 hr) objects' ps c'' hsub' (hed hb)
    · rw [if_neg hv]
      refine ih hL hi ho hs ?_
      intro b c' objects hsub hed
      exact hQ b c' objects hsub fun hb => .skipped (Bool.not_eq_true _ ▸ hv) (hed hb)

theorem loadCache_shape (h : loadCache L c b = some (n, c')) (hn : 0 ≤ n) : c'.Shape := by
  rw [loadCache] at h
  split at h
  · cases h
    omega
  · simp only [Option.map_eq_some_iff] at h
    obtain ⟨r, hr, he⟩ := h
    obtain ⟨hl, hb⟩ := fillCache_length hr
    have hal := allocNr_lt (wordAt b 8).toNat
    have hle := hb (Nat.zero_le _)
    generalize allocNr (wordAt b 8).toNat = alloc at *
    simp only [Prod.mk.injEq] at he
    obtain ⟨-, rfl⟩ := he
    refine ⟨by simpa using hle, ?_, hal⟩
    simp only [List.length_append, List.length_replicate, hl]
    omega

theorem loaded_shape (h : loaded L s = some c) : c.Shape := by
  cases s with
  | none =>
    cases h
    exact Cache.null_shape
  | some b =>
    rw [loaded] at h
    split at h
    · rw [Option.bind_eq_some_iff] at h
      obtain ⟨⟨n, c'⟩, hl, h⟩ := h
      split at h
      · cases h
      · rename_i hn
        cases h
        exact loadCache_shape hl (by simpa using hn)
    · cases h

theorem wp_readCache {Q : Except Stop (Int × Cache) → View → Prop} (hi : g.installed = none)
    (ho : g.object = none) (hs : g.seen = none)
    (hQ : ∀ n c h z s, (0 ≤ n → ∃ s', s = some s' ∧ loaded L s' = some c) →
      Q (.ok (n, c)) { g with handle := h, size := z, seen := s })
    (he : ∀ e g', g'.installed = none → g'.object = none → Q (.error e) g') :
    (readCache L Cache.null).wp (terms ok) Q g := by
  have hfail : ∀ h z s, Q (.ok (-1, Cache.null)) { g with handle := h, size := z, seen := s } :=
    fun h z s => hQ (-1) Cache.null h z s fun h => absurd h (by decide)
  simp only [readCache, Cache.null, ne_eq, not_true_eq_false, ↓reduceIte, Prog.wp_bind]
  refine wp_accessDir hi fun r => ?_
  cases r with
  | false => exact Prog.wp_pure.2 <| hfail g.handle g.size g.seen
  | true =>
    simp only [Prog.andThen_ok, ↓reduceIte, Prog.wp_bind]
    refine wp_openRead hi fun r hp _ => ?_
    cases r with
    | error e =>
      cases e with
      | ENOENT =>
        simp only [Prog.andThen_ok, View.opened, hs, and_self, ↓reduceIte, Prog.wp_pure]
        exact hQ 0 Cache.null g.handle g.size (some none) fun _ => ⟨none, rfl, rfl⟩
      | EEXIST => exact Prog.wp_pure.2 <| hfail g.handle g.size g.seen
      | other => exact Prog.wp_pure.2 <| hfail g.handle g.size g.seen
    | ok fd =>
      obtain ⟨i, rfl⟩ := possible_open_index hp rfl
      simp only [Prog.andThen_ok, View.opened, hs, and_self, ↓reduceIte, Prog.wp_bind]
      refine wp_fstat hi fun r _ => ?_
      cases r with
      | none => exact Prog.wp_pure.2 <| hfail (some i) g.size none
      | some st =>
        simp only [Prog.andThen_ok, View.statted, and_self, ↓reduceIte]
        split
        · rename_i hsize
          rw [Prog.wp_bind]
          refine wp_mmap hi (fun _ _ _ _ => rfl) fun r hm => ?_
          cases r with
          | none => exact Prog.wp_pure.2 <| hfail (some i) (some st.stSize.toNat) none
          | some m =>
            simp only [Prog.andThen_ok, View.mapped, and_self, ↓reduceIte]
            rw [wp_defined]
            refine ⟨fun nc hl => ?_, fun _ => he _ _ hi ho⟩
            refine hQ nc.1 nc.2 (some i) (some st.stSize.toNat) (some (some m)) fun hn => ?_
            refine ⟨some m, rfl, ?_⟩
            have hlen : headerSize < m.length := by
              rw [possible_mmap hm rfl]
              exact hsize
            rw [loaded, if_pos hlen]
            change (loadCache L ⟨[], 0, 0⟩ m).bind _ = _
            rw [hl, Option.bind_some, if_neg (by omega)]
        · exact Prog.wp_halt.2 (he _ _ hi ho)

theorem wp_writePieces {Q : Except Stop Int → View → Prop} (hi : g.installed = none)
    (ho : g.object = none) (hk : g.lock = some k)
    (hQ : ∀ r w, (r = 0 → w = g.written ++ pieces.flatten) →
      Q (.ok r) { g with written := w }) :
    (writePieces (.repo k) pieces).wp (terms ok) Q g := by
  induction pieces generalizing g with
  | nil => exact Prog.wp_pure.2 <| hQ 0 g.written fun _ => (List.append_nil _).symm
  | cons b bs ih =>
    rw [writePieces, Prog.wp_bind]
    refine wp_write hi ⟨k, rfl, .inr ⟨ho, hk⟩⟩ fun n => ?_
    have hg : g.wrote (.repo k) b n = { g with written := g.written ++ b.take n.toNat } := by
      simp only [View.wrote, ho, hk, Option.map_none, reduceCtorEq, ↓reduceIte]
    rw [hg, Prog.andThen_ok]
    by_cases hn : n ≠ b.length
    · rw [if_pos hn]
      exact Prog.wp_pure.2 <| hQ (-1) _ fun h => absurd h (by decide)
    · rw [if_neg hn]
      refine ih hi ho hk fun r w hw => hQ r w fun hr => ?_
      have hb : b.take n.toNat = b := by
        rw [not_not.1 hn, Int.toNat_natCast, List.take_length]
      rw [hw hr, hb, List.flatten_cons, List.append_assoc]

theorem wp_writeCache {Q : Except Stop Int → View → Prop} (hi : g.installed = none)
    (ho : g.object = none) (hk : g.lock = some k) (hw : g.written = [])
    (hQ : ∀ r w, (r = 0 → c.image L = some w) → Q (.ok r) { g with written := w })
    (he : ∀ e g', g'.installed = none → g'.object = none → Q (.error e) g') :
    (writeCache L (.repo k) c).wp (terms ok) Q g := by
  simp only [writeCache, Prog.wp_bind]
  rw [wp_defined]
  refine ⟨fun blocks hb => ?_, fun _ => he _ _ hi ho⟩
  refine wp_writePieces hi ho hk fun r w hr => hQ r w fun h0 => ?_
  rw [Cache.image, hb, Option.map_some, hr h0, hw, List.nil_append, List.flatten_cons]

/-- `update_cache` returns 0 with the image of its cache installed, or installs nothing. -/
def Ended (L : Lib) : Except Stop (Option Int × Cache) → View → Prop
  | .ok (r, c), g =>
    (r = some 0 → ∃ es, c.Holds es ∧ g.installed = some (cacheImage L es)) ∧
      (r ≠ some 0 → g.installed = none ∧ g.lock = none)
  | .error _, g => g.installed = none

def EndedClosed (L : Lib) (x : Except Stop (Option Int × Cache)) (g : View) : Prop :=
  Ended L x g ∧ g.object = none

theorem wp_giveUp (hi : g.installed = none) (ho : g.object = none) (hk : g.lock ≠ none) :
    (giveUp c).wp (terms ok) (EndedClosed L) g := by
  rw [giveUp, Prog.wp_bind]
  refine wp_unlink hi hk ?_
  exact Prog.wp_pure.2 ⟨⟨fun h => absurd h (by decide), fun _ => ⟨hi, rfl⟩⟩, ho⟩

theorem wp_updateCache_closed (L : Lib) (argv : List CStr) :
    (updateCache L argv).wp (terms ok) (EndedClosed L) (View.init L (argv.drop 1)) := by
  have hend : ∀ c (g : View), g.installed = none → g.object = none → g.lock = none →
      EndedClosed L (.ok (some (-1), c)) g :=
    fun c g hi ho hl => ⟨⟨fun h => absurd h (by decide), fun _ => ⟨hi, hl⟩⟩, ho⟩
  rw [updateCache, Prog.wp_bind]
  refine wp_readCache rfl rfl rfl (fun n c h z s hs => ?_) fun _ _ hi ho => ⟨hi, ho⟩
  simp only [Prog.andThen_ok]
  split
  · exact Prog.wp_pure.2 <| hend _ _ rfl rfl rfl
  · rename_i hn
    obtain ⟨s, rfl, hc⟩ := hs (by omega)
    rw [Prog.wp_bind]
    refine wp_openExcl rfl (.inl ⟨rfl, rfl, s, c, rfl, hc⟩) fun r hp _ => ?_
    cases r with
    | error e =>
      cases e <;> exact Prog.wp_pure.2 <| hend _ _ rfl rfl rfl
    | ok fd =>
      obtain ⟨k, rfl⟩ := possible_openExcl hp rfl
      simp only [Prog.andThen_ok, View.created, ↓reduceIte, Prog.wp_bind]
      refine wp_addPaths rfl rfl rfl (by simp) (fun b c' objects _ hed => ?_)
        fun _ _ hi ho => ⟨hi, ho⟩
      simp only [Prog.andThen_ok]
      split
      · rename_i hb
        rw [installCache, Prog.wp_bind]
        refine wp_writeCache rfl rfl rfl rfl (fun r w hw => ?_) fun _ _ hi ho => ⟨hi, ho⟩
        simp only [Prog.andThen_ok]
        split
        · rename_i hr
          rw [Prog.wp_bind]
          refine wp_rename rfl ⟨rfl, rfl, by simp [View.more], s, c, c', rfl, hc, hed hb, hw hr⟩
            fun r => ?_
          cases r with
          | true =>
            obtain ⟨es, hes, rfl⟩ :=
              ((hed hb).shape (loaded_shape hc)).holds_of_image (hw hr)
            exact Prog.wp_pure.2 ⟨⟨fun _ => ⟨es, hes, rfl⟩, fun h => absurd rfl h⟩, rfl⟩
          | false => exact wp_giveUp rfl rfl (by simp [View.renamed, View.more])
        · exact wp_giveUp rfl rfl (by simp [View.more])
      · exact wp_giveUp rfl rfl (by simp [View.more])

theorem wp_updateCache (L : Lib) (argv : List CStr) :
    (updateCache L argv).wp (terms ok) (Ended L) (View.init L (argv.drop 1)) :=
  Prog.wp_mono (wp_updateCache_closed L argv) fun _ _ h => h.1

end SelfGit

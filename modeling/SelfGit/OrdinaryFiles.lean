import SelfGit.PathGrammar
import SelfGit.Removal
import SelfGit.StoreHistory

namespace SelfGit
open Foundation
set_option autoImplicit true

/-- The file can be read, though `mmap` fails if it is empty, and an object is written whole. -/
def Serving (path : Path) (content : List Byte) (st : Stat) : (o : Op) → o.Res → Prop
  | .openRead p, (r : Except Errno Fd) => p = path → ∃ fd, r = .ok fd
  | .fstat _, (r : Option Stat) => r = some st
  | .mmap _ len, (r : Option (List Byte)) => r = if len = 0 then none else some content
  | .malloc _, (r : Bool) => r = true
  | .openExcl _, (r : Except Errno Fd) => ∀ e, r = .error e → e = .EEXIST
  | .write _ buf, (r : Int) => r = buf.length
  | _, _ => True

def FileAt (fs : FS) (path : Path) (content : List Byte) : Prop :=
  path.length < pathMax ∧ ∀ i, fs.dir path = some i → fs.data i = content

def AddFits (c : Cache) (es : List CacheEntry) (name : List Byte) : Prop :=
  SearchFits es name ∧
    (lookup es name = none → es.length = c.activeAlloc → c.activeAlloc < 1431655750)

/-- Adding goes through if and only if the search does and the array can grow. -/
theorem addCacheEntry_fits (h : Cache.Holds c es) (ha : Ascending es) (ce : CacheEntry) :
    (∃ c', addCacheEntry c ce = some c') ↔ AddFits c es ce.key := by
  have hl := Nat.le_of_lt ce.namelen_lt
  have hfits := cacheNamePos_fits h ha hl
  have hnr := h.nr
  have hlen := h.len
  have hle := h.length_le
  have hal := h.alloc
  rw [addCacheEntry, AddFits, CacheEntry.key, ← hfits]
  cases hp : cacheNamePos c ce.name ce.namelen.toNat with
  | none => simp
  | some pos =>
    have hpos := cacheNamePos_spec h hl hp
    have hneg := hpos.neg_iff ha.ordered
    have hlook : lookup es (ce.name.take ce.namelen.toNat) = none ↔ ¬ pos < 0 := by
      rw [hneg, lookup_eq_none]
      simp
    simp only [Option.bind_eq_bind, Option.bind_some, ne_eq, reduceCtorEq, not_false_eq_true,
      true_and, hlook]
    cases hpos with
    | found l r e hp hes he =>
      have hk : l.length < es.length := by simp [hes]
      rw [if_pos (by omega), store, if_pos (by omega)]
      simp only [Option.bind_some, Option.some.injEq, exists_eq', true_iff]
      intro h0
      omega
    | absent l r hp hes hl hr =>
      have hk : l.length ≤ es.length := by simp [hes]
      rw [if_neg (by omega), show pos.toNat = l.length by omega]
      have h0 : ¬ pos < 0 := by omega
      simp only [h0, not_false_eq_true, forall_const]
      by_cases hfull : c.activeNr = c.activeAlloc
      · rw [if_pos hfull]
        constructor
        · rintro ⟨c', hi⟩ -
          have hb := Cache.insertAt_bound hi (by simp only [Cache.grow]; omega)
            (by simp only [Cache.grow]; omega)
          by_contra hbig
          have hw := le_allocNr_iff (show c.activeAlloc < 2 ^ 32 by omega)
          simp only [Cache.grow, List.length_append, List.length_take,
            List.length_replicate] at hb
          omega
        · intro hsmall
          have hall := allocNr_eq (hsmall (by omega))
          refine Cache.insertAt_total (Cache.grow_holds h (by omega)) hk ?_ ce
          simp only [Cache.grow]
          omega
      · rw [if_neg hfull]
        refine ⟨fun _ h1 => absurd h1 (by omega), fun _ => ?_⟩
        exact Cache.insertAt_total h hk (by omega) ce

/-- The object is there, and if it was not there before it is the one given. -/
structure Stores (L : Lib) (fs fs' : FS) (b : List Byte) : Prop where
  present : fs'.dir (sha1FileName L (L.sha1 b)) ≠ none
  new : fs.dir (sha1FileName L (L.sha1 b)) = none →
    fs'.read (sha1FileName L (L.sha1 b)) = some b

section Serving
variable {path : Path} {content : List Byte} {st : Stat} {L : Lib} {fs fs' : FS}

theorem serving_write (k : Nat) (buf : List Byte) (r : Int) :
    Serving path content st (.write (.repo k) buf) r ↔ r = buf.length := Iff.rfl

theorem writeSha1Buffer_serving {x : Except Stop Int}
    (h : RunsTo (Serving path content st) fs (writeSha1Buffer L (L.sha1 b) b) x fs') :
    x = .ok 0 ∧ Stores L fs fs' b := by
  cases x with
  | error e => exact absurd h writeSha1Buffer_ends
  | ok r =>
    rcases writeSha1Buffer_cases h with ⟨rfl, rfl, hd, -⟩ | ⟨-, -, e, hne, he⟩ |
      ⟨rfl, hd, -, -, w, hw, rfl, -⟩
    · exact ⟨rfl, hd, fun hn => absurd hn hd⟩
    · exact absurd (he e rfl) hne
    · rw [(serving_write _ _ _).1 hw, Int.toNat_natCast, List.take_length]
      have hdir := FS.create_append_dir fs (sha1FileName L (L.sha1 b)) b
      refine ⟨rfl, by rw [hdir]; simp, fun _ => ?_⟩
      rw [FS.read, hdir, Option.map_some, FS.create_append_data]

theorem writeSha1Buffer_served (hp : (sha1FileName L (L.sha1 b)).length < pathMax) :
    ∃ fs', RunsTo (Serving path content st) fs (writeSha1Buffer L (L.sha1 b) b) (.ok 0) fs' := by
  cases hd : fs.dir (sha1FileName L (L.sha1 b)) with
  | some k =>
    refine ⟨fs, writeSha1Buffer_refused _ L _ _ .EEXIST (fun _ => by rw [hd]; simp) ?_⟩
    intro e he
    exact (Except.error.inj he).symm
  | none =>
    refine ⟨_, (writeSha1Buffer_new serving_write hd).2 (.inl ⟨rfl, hp, ?_, rfl⟩)⟩
    intro e he
    cases he

theorem indexFd_empty (h0 : content = []) (hst : st.stSize.toNat = content.length)
    (h : RunsTo (Serving path content st) fs (indexFd L namelen ce fd st) x fs') :
    x = .ok (-1, ce) ∧ fs' = fs := by
  simp only [indexFd, runs_malloc, runs_mmap] at h
  obtain ⟨out, -, r, ⟨-, hr⟩, h⟩ := h
  have hr : r = if st.stSize.toNat = 0 then none else some content := hr
  rw [hst, h0, List.length_nil, if_pos rfl] at hr
  subst hr
  exact Prog.runs_pure.1 h

theorem indexFd_serving (h0 : 0 < content.length) (hn : content.length ≤ 2 ^ 30)
    (hst : st.stSize.toNat = content.length)
    (h : RunsTo (Serving path content st) fs (indexFd L namelen ce fd st) x fs') :
    x = .ok (0, { ce with sha1 := L.sha1 (blobFile L namelen content) }) ∧
      Stores L fs fs' (blobFile L namelen content) := by
  simp only [indexFd, runs_malloc, runs_mmap] at h
  obtain ⟨out, ⟨-, hout⟩, r, ⟨-, hr⟩, h⟩ := h
  have hr : r = if st.stSize.toNat = 0 then none else some content := hr
  have hout : out = true := hout
  rw [hst, if_neg (by omega)] at hr
  subst hr hout
  simp only [hst, Nat.mod_eq_of_lt (show content.length < 2 ^ 32 by omega), List.take_length,
    ↓reduceIte] at h
  change RunsTo _ fs (writeSha1Buffer L (L.sha1 (blobFile L namelen content))
    (blobFile L namelen content) >>= _) _ _ at h
  rw [runs_seq] at h
  rcases h with ⟨r, fs₁, hw, h⟩ | ⟨e, -, hw⟩
  · obtain ⟨hr, hstores⟩ := writeSha1Buffer_serving hw
    cases hr
    obtain ⟨rfl, rfl⟩ := Prog.runs_pure.1 h
    exact ⟨rfl, hstores⟩
  · cases (writeSha1Buffer_serving hw).1

theorem indexFd_served (hl : namelen < pathMax) (hn : content.length ≤ 2 ^ 30)
    (hst : st.stSize.toNat = content.length)
    (hmap : fs.mapped fd content.length
      (if content.length = 0 then none else some content) = some fs)
    (hp : (sha1FileName L (L.sha1 (blobFile L namelen content))).length < pathMax) :
    ∃ x fs', RunsTo (Serving path content st) fs (indexFd L namelen ce fd st) (.ok x) fs' := by
  have hroom : (toInt (namelen + content.length + 200 : Nat) % 2 ^ 64).toNat < 2 ^ 63 := by
    rw [pathMax] at hl
    rw [toInt_of_lt (by omega)]
    omega
  simp only [indexFd, runs_malloc, runs_mmap, hst]
  by_cases h0 : content.length = 0
  · rw [if_pos h0] at hmap
    exact ⟨(-1, ce), fs, true, ⟨fun _ => hroom, rfl⟩, none, ⟨hmap, (if_pos h0).symm⟩,
      Prog.runs_pure.2 ⟨rfl, rfl⟩⟩
  · rw [if_neg h0] at hmap
    obtain ⟨fs', hw⟩ : ∃ fs', RunsTo (Serving path content st) fs
      (writeSha1Buffer L (L.sha1 (blobFile L namelen content)) (blobFile L namelen content))
      (.ok 0) fs' := writeSha1Buffer_served hp
    refine ⟨(0, { ce with sha1 := L.sha1 (blobFile L namelen content) }), fs', true,
      ⟨fun _ => hroom, rfl⟩, some content, ⟨hmap, (if_neg h0).symm⟩, ?_⟩
    simp only [Nat.mod_eq_of_lt (show content.length < 2 ^ 32 by omega), List.take_length,
      ↓reduceIte]
    change RunsTo _ fs (writeSha1Buffer L (L.sha1 (blobFile L namelen content))
      (blobFile L namelen content) >>= _) _ _
    rw [runs_seq]
    exact .inl ⟨0, fs', hw, Prog.runs_pure.2 ⟨rfl, rfl⟩⟩

end Serving

def fileEntry (L : Lib) (path : CStr) (content : List Byte) (st : Stat) : CacheEntry :=
  { newEntry path st with sha1 := L.sha1 (blobFile L path.1.length content) }

/-- The path is bound to an entry with the status of the file and the hash of its stored object. -/
def AddsFile (L : Lib) (fs : FS) (c : Cache) (es : List CacheEntry) (path : CStr)
    (content : List Byte) (st : Stat) : Prop :=
  (∃ x fs', RunsTo (Serving path.1 content st) fs (addFileToCache L c path) x fs') ∧
    ∀ x fs', RunsTo (Serving path.1 content st) fs (addFileToCache L c path) x fs' →
      ∃ c' es', x = .ok (0, c') ∧ c'.Holds es' ∧ Added es (fileEntry L path content st) es' ∧
        (Ascending es → lookup es' path.1 = some (fileEntry L path content st)) ∧
        Stores L fs fs' (blobFile L path.1.length content)

section Adding
variable {path : CStr} {content : List Byte} {st : Stat} {L : Lib} {fs fs' : FS} {c : Cache}
  {es : List CacheEntry}

theorem addFileToCache_serving (hn : content.length ≤ 2 ^ 30)
    (hst : st.stSize.toNat = content.length)
    (h : RunsTo (Serving path.1 content st) fs (addFileToCache L c path) x fs') :
    (content = [] ∧ x = .ok (-1, c)) ∨
      (0 < content.length ∧ Stores L fs fs' (blobFile L path.1.length content) ∧
        ((∃ c', addCacheEntry c (fileEntry L path content st) = some c' ∧ x = .ok (0, c')) ∨
          (addCacheEntry c (fileEntry L path content st) = none ∧ x = .error .fault))) := by
  simp only [addFileToCache, runs_openRead] at h
  obtain ⟨r, ⟨-, hr⟩, h⟩ := h
  obtain ⟨fd, rfl⟩ := hr rfl
  simp only [runs_fstat] at h
  obtain ⟨r, ⟨-, hr⟩, h⟩ := h
  have hr : r = some st := hr
  subst hr
  simp only [runs_seq] at h
  by_cases h0 : content = []
  · rcases h with ⟨a, fs₁, hi, h⟩ | ⟨e, -, hi⟩
    · obtain ⟨ha, rfl⟩ := indexFd_empty h0 hst hi
      cases ha
      exact .inl ⟨h0, (Prog.runs_pure.1 h).1⟩
    · cases (indexFd_empty h0 hst hi).1
  · have hpos := List.length_pos_of_ne_nil h0
    refine .inr ⟨hpos, ?_⟩
    rcases h with ⟨a, fs₁, hi, h⟩ | ⟨e, -, hi⟩
    · obtain ⟨ha, hstores⟩ := indexFd_serving hpos hn hst hi
      cases ha
      simp only [Int.lt_irrefl, ↓reduceIte, runs_defined] at h
      rcases h with ⟨c', hadd, h⟩ | ⟨hadd, hx, rfl⟩
      · obtain ⟨hx, rfl⟩ := Prog.runs_pure.1 h
        exact ⟨hstores, .inl ⟨c', hadd, hx⟩⟩
      · exact ⟨hstores, .inr ⟨hadd, hx⟩⟩
    · cases (indexFd_serving hpos hn hst hi).1

theorem FileAt.served (hf : FileAt fs path.1 content) (hv : verifyPath path = true)
    (hst : st.stSize.toNat = content.length) (hn : content.length ≤ 2 ^ 30) :
    ∃ fd, fs.opened path.1 (.ok fd) = some fs ∧ fs.statted fd (some st) = some fs ∧
      fs.mapped fd content.length (if content.length = 0 then none else some content) =
        some fs := by
  have hshort : ¬ pathMax ≤ path.1.length := Nat.not_le.2 hf.1
  cases hd : fs.dir path.1 with
  | some i =>
    have hdata := hf.2 i hd
    refine ⟨.repo i, ?_, ?_, ?_⟩
    · simp only [FS.opened, if_neg hshort, hd, ↓reduceIte]
    · simp only [FS.statted, hdata, hst, ↓reduceIte]
    · split
      · simp only [FS.mapped]
      · simp only [FS.mapped, hdata, List.take_length, true_and]
        rw [if_pos (by omega)]
  | none =>
    have hname : ¬ (path.1 = indexPath ∨ path.1 = lockPath) := by
      rintro (h | h)
      · rw [verifyPath, h] at hv
        exact absurd hv (by decide)
      · rw [verifyPath, h] at hv
        exact absurd hv (by decide)
    refine ⟨.work 0, ?_, ?_, ?_⟩
    · simp only [FS.opened, if_neg hshort, hd, if_neg hname]
    · simp only [FS.statted]
      rw [if_pos (by omega)]
    · split
      · simp only [FS.mapped]
      · simp only [FS.mapped, true_and]
        rw [if_pos (by omega)]

theorem addFileToCache_served (hf : FileAt fs path.1 content) (hv : verifyPath path = true)
    (hn : content.length ≤ 2 ^ 30) (hst : st.stSize.toNat = content.length)
    (hp : (sha1FileName L (L.sha1 (blobFile L path.1.length content))).length < pathMax) :
    ∃ x fs', RunsTo (Serving path.1 content st) fs (addFileToCache L c path) x fs' := by
  obtain ⟨fd, hopen, hstat, hmap⟩ := hf.served hv hst hn
  obtain ⟨⟨r, ce⟩, fs₁, hi⟩ : ∃ x fs₁, RunsTo (Serving path.1 content st) fs
    (indexFd L path.1.length (newEntry path st) fd st) (.ok x) fs₁ :=
    indexFd_served hf.1 hn hst hmap hp
  obtain ⟨x, fs', hrest⟩ : ∃ x fs', RunsTo (Serving path.1 content st) fs₁
      (if r < 0 then return (-1, c)
      else do
        let c' ← defined (addCacheEntry c ce)
        return (0, c')) x fs' := by
    split
    · exact ⟨_, _, Prog.runs_pure.2 ⟨rfl, rfl⟩⟩
    · simp only [runs_defined]
      cases addCacheEntry c ce with
      | none => exact ⟨_, _, .inr ⟨rfl, rfl, rfl⟩⟩
      | some c' => exact ⟨_, _, .inl ⟨c', rfl, Prog.runs_pure.2 ⟨rfl, rfl⟩⟩⟩
  refine ⟨x, fs', ?_⟩
  simp only [addFileToCache, runs_openRead]
  refine ⟨.ok fd, ⟨hopen, fun _ => ⟨fd, rfl⟩⟩, ?_⟩
  simp only [runs_fstat]
  refine ⟨some st, ⟨hstat, rfl⟩, ?_⟩
  rw [runs_seq]
  exact .inl ⟨(r, ce), fs₁, hi, hrest⟩

theorem fileEntry_key (L : Lib) (content : List Byte) (st : Stat) (hp : path.1.length < pathMax) :
    (fileEntry L path content st).key = path.1 := newEntry_key (fits_of_lt_pathMax hp)

theorem addsFile_iff (hc : c.Holds es) (hv : verifyPath path = true)
    (hf : FileAt fs path.1 content) (hn : content.length ≤ 2 ^ 30)
    (hst : st.stSize.toNat = content.length)
    (hp : (sha1FileName L (L.sha1 (blobFile L path.1.length content))).length < pathMax) :
    AddsFile L fs c es path content st ↔ 0 < content.length ∧
      ∃ c', addCacheEntry c (fileEntry L path content st) = some c' := by
  have hkey := fileEntry_key L content st hf.1
  constructor
  · rintro ⟨⟨x, fs', hrun⟩, hall⟩
    obtain ⟨c', es', rfl, -⟩ := hall x fs' hrun
    rcases addFileToCache_serving hn hst hrun with ⟨-, h⟩ | ⟨h0, -, ⟨c'', hadd, -⟩ | ⟨-, h⟩⟩
    · cases h
    · exact ⟨h0, c'', hadd⟩
    · cases h
  · rintro ⟨h0, c', hadd⟩
    refine ⟨addFileToCache_served hf hv hn hst hp, ?_⟩
    intro x fs' hrun
    rcases addFileToCache_serving hn hst hrun with ⟨h, -⟩ | ⟨-, hstores, ⟨c'', hadd', rfl⟩ | ⟨h, -⟩⟩
    · rw [h] at h0
      cases h0
    · obtain ⟨es', hc', hes⟩ := addCacheEntry_spec hc hadd'
      refine ⟨c'', es', rfl, hc', hes, ?_, hstores⟩
      intro ha
      rw [← hkey]
      exact (hes.updated ha).bound
    · rw [h] at hadd
      cases hadd

/-- Every readable file of at most 2^30 bytes is added if and only if it is not empty, unless the
cache has more than 2^30 entries. -/
theorem ordinary_file_added (hc : c.Holds es) (hv : verifyPath path = true)
    (hf : FileAt fs path.1 content) (hn : content.length ≤ 2 ^ 30)
    (hst : st.stSize.toNat = content.length)
    (hp : (sha1FileName L (L.sha1 (blobFile L path.1.length content))).length < pathMax) :
    (es.length ≤ 2 ^ 30 → (AddsFile L fs c es path content st ↔ 0 < content.length)) ∧
      (Ascending es → (AddsFile L fs c es path content st ↔
        0 < content.length ∧ AddFits c es path.1)) := by
  have hkey := fileEntry_key L content st hf.1
  have hiff := addsFile_iff hc hv hf hn hst hp
  constructor
  · intro hes
    rw [hiff]
    exact and_iff_left (addCacheEntry_total hc hes _)
  · intro ha
    rw [hiff, addCacheEntry_fits hc ha, hkey]

end Adding

theorem fileAt_empty (hp : path.length < pathMax) : FileAt FS.empty path content :=
  ⟨hp, fun _ h => by cases h⟩

theorem ordinary_file_added_one :
    AddsFile storedLib FS.empty Cache.null [] (cstr "a") [120] (Stat.ofSize 1) :=
  ((ordinary_file_added Cache.null_holds (by decide) (fileAt_empty (by decide)) (by decide)
    (by decide) (sha1FileName_stored _)).1 (by decide)).2 (by decide)

/-- An empty file is refused. -/
theorem empty_file_refused : ¬ ∀ L fs c es (path : CStr) content st, Cache.Holds c es →
    verifyPath path = true → FileAt fs path.1 content → content.length ≤ 2 ^ 30 →
    st.stSize.toNat = content.length →
    (sha1FileName L (L.sha1 (blobFile L path.1.length content))).length < pathMax →
    es.length ≤ 2 ^ 30 → AddsFile L fs c es path content st := by
  intro hall
  have hadds := hall storedLib FS.empty Cache.null [] (cstr "a") [] (Stat.ofSize 0)
    Cache.null_holds (by decide) (fileAt_empty (by decide)) (by decide) (by decide)
    (sha1FileName_stored _) (by decide)
  obtain ⟨⟨x, fs', hrun⟩, hall⟩ := hadds
  obtain ⟨c', es', rfl, -⟩ := hall x fs' hrun
  rcases addFileToCache_serving (by decide) (by decide) hrun with ⟨-, h⟩ | ⟨h, -⟩
  · cases h
  · cases h

end SelfGit

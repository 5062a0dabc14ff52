import SelfGit.Foundation.Laws
import SelfGit.Parents

namespace SelfGit
open Foundation
set_option autoImplicit true

/-- The part of `write_tree` in front of `write_sha1_file`. -/
def treeReady (L : Lib) : Proc (List Byte × Nat) := do
  let (entries, c) ← readCache L Cache.null
  if entries ≤ 0 then Prog.halt (.exit 1)
  else
    let (buffer, len) ← buildTree L entries.toNat c
    treeOf (c.activeCache.take entries.toNat).reduceOption
    return (buffer, len)

/-- `write_tree` goes on to copy the hash, whatever `write_sha1_file` returns. -/
theorem writeTree_ready (L : Lib) (sha1 : List Byte) :
    writeTree L sha1 = do
      let (buffer, len) ← treeReady L
      let (_, hash) ← writeSha1File L buffer len
      return strcpy sha1 hash.toList := by
  rw [writeTree, treeReady, bind_assoc]
  apply bind_congr
  intro r
  obtain ⟨entries, c⟩ := r
  dsimp only
  split
  · rfl
  · simp only [bind_assoc, pure_bind]

section Ready
variable {ok : (o : Op) → o.Res → Prop} {L : Lib} {fs fs' : FS}

theorem addTreeEntries_ok {slots : List (Option CacheEntry)}
    (h : RunsTo ok fs (addTreeEntries L n slots b) (.ok b') fs') : fs' = fs ∧
    ∃ (es : List CacheEntry) (rest : List (Option CacheEntry)),
      slots = es.map some ++ rest ∧ es.length = n ∧
      (∀ ce ∈ es, fs.dir (sha1FileName L ce.sha1) ≠ none) ∧
      es.foldlM addTreeEntry b = some b' := by
  induction n generalizing slots b with
  | zero =>
    obtain ⟨hb, hfs⟩ := Prog.runs_pure.1 h
    cases hb
    exact ⟨hfs, [], slots, rfl, rfl, by simp, rfl⟩
  | succ n ih =>
    cases slots with
    | nil => cases (Prog.runs_halt.1 h).1
    | cons slot slots =>
      cases slot with
      | none => cases (Prog.runs_halt.1 h).1
      | some ce =>
        simp only [addTreeEntries, runs_access] at h
        obtain ⟨r, ⟨hobj, -⟩, h⟩ := h
        cases r with
        | false => cases (Prog.runs_halt.1 h).1
        | true =>
          simp only [↓reduceIte, runs_defined] at h
          rcases h with ⟨b₁, hb₁, h⟩ | ⟨-, h, -⟩
          · obtain ⟨hfs, es, rest, rfl, hn, hall, hfold⟩ := ih h
            refine ⟨hfs, ce :: es, rest, rfl, by rw [List.length_cons, hn], ?_, ?_⟩
            · rw [List.forall_mem_cons]
              exact ⟨hobj rfl, hall⟩
            · rw [List.foldlM_cons, hb₁, Option.bind_eq_bind, Option.bind_some, hfold]
          · cases h

theorem buildTree_ok (h : RunsTo ok fs (buildTree L n c) (.ok r) fs') : fs' = fs ∧
    ∃ (es : List CacheEntry) (rest : List (Option CacheEntry)),
      c.activeCache = es.map some ++ rest ∧ es.length = n ∧
      (∀ ce ∈ es, fs.dir (sha1FileName L ce.sha1) ≠ none) ∧ handedTree es = .ok r := by
  rw [buildTree] at h
  split at h
  · rename_i hsize
    rw [runs_seq] at h
    rcases h with ⟨b, fs₁, hb, h⟩ | ⟨e, he, -⟩
    · obtain ⟨rfl, es, rest, hslots, hn, hall, hfold⟩ := addTreeEntries_ok hb
      simp only [runs_defined] at h
      rcases h with ⟨⟨buffer, len⟩, hfin, h⟩ | ⟨-, h, -⟩
      · obtain ⟨hr, rfl⟩ := Prog.runs_pure.1 h
        cases hr
        refine ⟨rfl, es, rest, hslots, hn, hall, ?_⟩
        rw [handedTree, hn, if_pos hsize, hfold, Option.bind_some, hfin]
        rfl
      · cases h
    · cases he
  · cases (Prog.runs_halt.1 h).1

end Ready

/-- The index loads, and makes this tree. -/
structure IndexTree (L : Lib) (fs : FS) (es : List CacheEntry) (buf : List Byte) (len : Nat) :
    Prop where
  loads : ∃ b c rest, fs.read indexPath = some b ∧ readBack L b = .ok ((es.length : Int), c) ∧
    c.activeCache = es.map some ++ rest
  nonempty : es ≠ []
  objects : ∀ ce ∈ es, fs.dir (sha1FileName L ce.sha1) ≠ none
  handed : handedTree es = .ok (buf, len)

theorem treeReady_ok {ok : (o : Op) → o.Res → Prop} {fs fs' : FS}
    (h : RunsTo ok fs (treeReady L) (.ok (buf, len)) fs') :
    fs' = fs ∧ ∃ es, IndexTree L fs es buf len := by
  rw [treeReady, runs_seq] at h
  rcases h with ⟨⟨n, c⟩, fs₁, hr, h⟩ | ⟨e, he, -⟩
  · obtain ⟨rfl, hx⟩ := readCache_outcome hr
    dsimp only at h
    split at h
    · cases (Prog.runs_halt.1 h).1
    · rename_i hpos
      rw [runs_seq] at h
      rcases h with ⟨r, fs₂, hb, h⟩ | ⟨e, he, -⟩
      · obtain ⟨rfl, es, rest, hslots, hn, hobj, hhanded⟩ := buildTree_ok hb
        rw [runs_treeOf] at h
        obtain ⟨hr', rfl⟩ := Prog.runs_pure.1 h.2
        cases hr'
        have hlen : (es.length : Int) = n := by omega
        refine ⟨rfl, es, ⟨?_, ?_, hobj, hhanded⟩⟩
        · rcases hx with hx | hx
          · cases hx
            omega
          · cases hread : fs'.read indexPath with
            | none =>
              rw [hread, readResult] at hx
              cases hx
              omega
            | some b =>
              rw [hread, readResult] at hx
              exact ⟨b, c, rest, rfl, by rw [hlen, ← hx], hslots⟩
        · rintro rfl
          simp at hlen
          omega
      · cases he
  · cases he

end SelfGit

import SelfGit.CommitEncoding
import SelfGit.CommitId

namespace SelfGit
open Foundation
set_option autoImplicit true

/-- The buffer that `commit_tree` hands to `write_sha1_file`, or where it stops before. -/
def builtCommit (argv : List CStr) (w : Surroundings) (tree : List Byte) :
    Except Stop (List Byte × Nat) :=
  match collectParents 0 (parentArgs (argv.drop 2)), w.passwd with
  | .error e, _ => .error e
  | .ok _, none => .error (.exit 1)
  | .ok parents, some pw =>
    match signatures w pw with
    | none => .error .fault
    | some (author, committer) =>
      match commitBuffer tree parents author committer w.stdin with
      | none => .error .fault
      | some (_, false) => .error .fault
      | some (r, true) => .ok r

theorem defined_some (a : α) (f : α → Proc β) : defined (some a) >>= f = f a := rfl

theorem commitTree_built (L : Lib) (argv : List CStr) (w : Surroundings) (tree : List Byte) :
    commitTree L argv w tree = match builtCommit argv w tree with
      | .error e => Prog.halt e
      | .ok (buffer, size) => do
        let _ ← writeSha1File L buffer size
        return 0 := by
  rw [commitTree, builtCommit]
  cases collectParents 0 (parentArgs (argv.drop 2)) with
  | error e => rfl
  | ok parents =>
    cases w.passwd with
    | none => rfl
    | some pw =>
      simp only
      cases signatures w pw with
      | none => rfl
      | some s =>
        obtain ⟨author, committer⟩ := s
        simp only [defined_some]
        cases commitBuffer tree parents author committer w.stdin with
        | none => rfl
        | some r =>
          obtain ⟨⟨buffer, size⟩, inside⟩ := r
          cases inside with
          | false => rfl
          | true => rfl

theorem commitTree_runs (h : builtCommit argv w tree = .ok (buffer, size)) :
    RunsTo ok fs (commitTree L argv w tree) x fs' ↔
      x = .ok 0 ∧ ∃ r, RunsTo ok fs (writeSha1File L buffer size) (.ok r) fs' := by
  rw [commitTree_built, h]
  simp only [runs_seq]
  constructor
  · rintro (⟨r, fs₁, hw, h⟩ | ⟨e, -, hw⟩)
    · obtain ⟨rfl, rfl⟩ := Prog.runs_pure.1 h
      exact ⟨rfl, r, hw⟩
    · exact absurd hw writeSha1File_ends
  · rintro ⟨rfl, r, hw⟩
    exact .inl ⟨r, fs', hw, Prog.runs_pure.2 ⟨rfl, rfl⟩⟩

/-- A buffer that has not outgrown the block it was given at first. -/
structure Buffer.Roomy (b : Buffer) (text : List Byte) : Prop where
  tight : b.Tight text
  block : b.block = blocking
  inside : b.inside = true
  fits : origOffset + text.length ≤ blocking

theorem initBuffer_roomy : initBuffer.Roomy [] :=
  ⟨initBuffer_tight, rfl, rfl, by decide⟩

section Room
variable {b b' : Buffer} {text line : List Byte}

theorem addBuffer_room (hb : b.Roomy text) (hl : line.length ≤ 2048) :
    ∃ b', addBuffer b line = some b' ∧ b'.Tight (text ++ lineText line) ∧ b'.block = blocking ∧
      (b'.inside = true ↔ origOffset + (text ++ lineText line).length ≤ blocking) := by
  have hfits := hb.fits
  have hlt : origOffset + text.length < 2 ^ 32 := by
    rw [blocking] at hfits
    omega
  have hsize : b.size = origOffset + text.length := by rw [hb.tight.size, Nat.mod_eq_of_lt hlt]
  have hround : ¬ b.size + line.length > roundUp b.size := by
    rw [roundUp, hsize]
    rw [blocking, origOffset] at hfits
    rw [origOffset]
    omega
  obtain ⟨b', h, ht⟩ := addBuffer_tight hb.tight hlt hl
  refine ⟨b', h, ht, ?_⟩
  rw [addBuffer, copiedLine_eq, if_pos hl, Option.bind_eq_bind, Option.bind_some, known_bytes,
    Option.bind_eq_bind, Option.bind_some] at h
  simp only [hround, ↓reduceIte, Option.some.injEq] at h
  rw [← h]
  simp only [hb.block, hb.inside, Bool.true_and, decide_eq_true_eq, true_and]
  rw [hsize, List.length_append, lineText_length hl, Nat.add_assoc]

theorem addBuffer_some (h : addBuffer b line = some b') :
    line.length ≤ 2048 ∧ (b'.inside = true → b.inside = true) := by
  rw [addBuffer, copiedLine_eq] at h
  split at h
  · rename_i hl
    refine ⟨hl, ?_⟩
    rw [Option.bind_eq_bind, Option.bind_some, known_bytes, Option.bind_eq_bind,
      Option.bind_some] at h
    rw [← Option.some.inj h]
    intro hin
    exact (Bool.and_eq_true _ _ ▸ hin).1
  · cases h

theorem addBuffers_inside {texts : List (List Byte)} (h : texts.foldlM addBuffer b = some b')
    (hin : b'.inside = true) : b.inside = true := by
  induction texts generalizing b with
  | nil =>
    cases h
    exact hin
  | cons t texts ih =>
    rw [List.foldlM_cons, Option.bind_eq_bind, Option.bind_eq_some_iff] at h
    obtain ⟨b₁, h₁, h⟩ := h
    exact (addBuffer_some h₁).2 (ih h)

theorem addBuffers_roomy (texts : List (List Byte)) (hb : b.Roomy text)
    (hall : ∀ t ∈ texts, t.length ≤ 2048)
    (hfits : origOffset + (text ++ (texts.map lineText).flatten).length ≤ blocking) :
    ∃ b', texts.foldlM addBuffer b = some b' ∧
      b'.Roomy (text ++ (texts.map lineText).flatten) := by
  induction texts generalizing b text with
  | nil => exact ⟨b, rfl, by simpa using hb⟩
  | cons t texts ih =>
    rw [List.forall_mem_cons] at hall
    rw [List.map_cons, List.flatten_cons, ← List.append_assoc] at hfits ⊢
    obtain ⟨b₁, h₁, ht, hbl, hiff⟩ := addBuffer_room hb hall.1
    have hfirst : origOffset + (text ++ lineText t).length ≤ blocking := by
      rw [List.length_append] at hfits
      omega
    obtain ⟨b', h, hb'⟩ := ih ⟨ht, hbl, hiff.2 hfirst, hfirst⟩ hall.2 hfits
    refine ⟨b', ?_, hb'⟩
    rw [List.foldlM_cons, h₁, Option.bind_eq_bind, Option.bind_some, h]

theorem addBuffers_iff (texts : List (List Byte)) (hb : b.Roomy text) :
    (∃ b', texts.foldlM addBuffer b = some b' ∧ b'.inside = true) ↔
      (∀ t ∈ texts, t.length ≤ 2048) ∧
        origOffset + (text ++ (texts.map lineText).flatten).length ≤ blocking := by
  constructor
  · induction texts generalizing b text with
    | nil =>
      intro _
      simpa using hb.fits
    | cons t texts ih =>
      simp only [List.foldlM_cons, Option.bind_eq_bind, Option.bind_eq_some_iff,
        List.forall_mem_cons, List.map_cons, List.flatten_cons, ← List.append_assoc]
      rintro ⟨b', ⟨b₁, h₁, h⟩, hin⟩
      have hl := (addBuffer_some h₁).1
      obtain ⟨b₂, h₂, ht, hbl, hiff⟩ := addBuffer_room hb hl
      rw [h₁, Option.some.injEq] at h₂
      subst h₂
      have hin₁ := addBuffers_inside h hin
      have hrest := ih ⟨ht, hbl, hin₁, hiff.1 hin₁⟩ ⟨b', h, hin⟩
      exact ⟨⟨hl, hrest.1⟩, hrest.2⟩
  · rintro ⟨hall, hfits⟩
    obtain ⟨b', h, hb'⟩ := addBuffers_roomy texts hb hall hfits
    exact ⟨b', h, hb'.inside⟩

end Room

def commitObject (tree : List Byte) (parents : List (List Byte)) (author committer : Signature)
    (stdin : List Byte) : List Byte :=
  let text := ((commitTexts tree parents author committer stdin).map lineText).flatten
  commitHeader text.length ++ text

/-- The texts of a commit go into the first block. -/
def CommitFits (tree : List Byte) (parents : List (List Byte)) (author committer : Signature)
    (stdin : List Byte) : Prop :=
  (∀ t ∈ commitTexts tree parents author committer stdin, t.length ≤ 2048) ∧
    origOffset + (commitTexts tree parents author committer stdin).flatten.length ≤ blocking

instance (tree : List Byte) (parents : List (List Byte)) (author committer : Signature)
    (stdin : List Byte) : Decidable (CommitFits tree parents author committer stdin) :=
  inferInstanceAs (Decidable (_ ∧ _))

/-- The buffer is built inside its block if and only if the texts go into it. -/
theorem commitBuffer_inside :
    commitBuffer tree parents author committer stdin = some (r, true) ↔
      CommitFits tree parents author committer stdin ∧
        r = (commitObject tree parents author committer stdin,
          (commitObject tree parents author committer stdin).length) := by
  obtain ⟨texts, htexts⟩ : ∃ texts, texts = commitTexts tree parents author committer stdin :=
    ⟨_, rfl⟩
  have hfits_iff : CommitFits tree parents author committer stdin ↔
      (∀ t ∈ texts, t.length ≤ 2048) ∧
        origOffset + (texts.map lineText).flatten.length ≤ blocking := by
    rw [CommitFits, ← htexts]
    exact and_congr_right fun hall => by rw [lineTexts_length hall]
  have hiff := addBuffers_iff texts initBuffer_roomy
  rw [List.nil_append, ← hfits_iff] at hiff
  have hbuilt : ∀ b, texts.foldlM addBuffer initBuffer = some b →
      CommitFits tree parents author committer stdin →
      finishBuffer (str "commit ") b = some (commitObject tree parents author committer stdin,
        (commitObject tree parents author committer stdin).length) := by
    intro b h hfits
    obtain ⟨hall, hroom⟩ := hfits_iff.1 hfits
    have hlen := lineTexts_length hall
    have hlt : origOffset + ([] : List Byte).length + texts.flatten.length < 2 ^ 32 := by
      rw [blocking] at hroom
      rw [List.length_nil]
      omega
    obtain ⟨b', h', ht⟩ := addBuffer_all _ initBuffer_tight hlt hall
    rw [h, Option.some.injEq] at h'
    subst h'
    rw [List.nil_append] at ht
    rw [finishBuffer_tight ht, commitObject, ← htexts, List.length_append, Nat.mod_eq_of_lt]
    have hle := commitHeader_length_le (texts.map lineText).flatten.length
    rw [List.length_nil, origOffset] at hlt
    omega
  rw [commitBuffer, ← htexts, Option.bind_eq_bind, Option.bind_eq_some_iff]
  simp only [Option.bind_eq_bind, Option.bind_eq_some_iff, Option.some.injEq, Prod.mk.injEq]
  constructor
  · rintro ⟨b, h, r', hr, rfl, hin⟩
    have hfits : CommitFits tree parents author committer stdin := hiff.1 ⟨b, h, hin⟩
    rw [hbuilt b h hfits, Option.some.injEq] at hr
    exact ⟨hfits, hr.symm⟩
  · rintro ⟨hfits, rfl⟩
    obtain ⟨b, h, hin⟩ := hiff.2 hfits
    exact ⟨b, h, _, hbuilt b h hfits, rfl, hin⟩

theorem builtCommit_iff :
    builtCommit argv w tree = .ok r ↔ ∃ parents pw author committer,
      collectParents 0 (parentArgs (argv.drop 2)) = .ok parents ∧ w.passwd = some pw ∧
      signatures w pw = some (author, committer) ∧
      CommitFits tree parents author committer w.stdin ∧
      r = (commitObject tree parents author committer w.stdin,
        (commitObject tree parents author committer w.stdin).length) := by
  constructor
  · intro h
    rw [builtCommit.eq_def] at h
    split at h
    · cases h
    · cases h
    · rename_i parents pw hparents hpw
      split at h
      · cases h
      · rename_i author committer hs
        split at h
        · cases h
        · cases h
        · rename_i r' hbuf
          cases h
          obtain ⟨hfits, hr⟩ := commitBuffer_inside.1 hbuf
          exact ⟨parents, pw, author, committer, hparents, hpw, hs, hfits, hr⟩
  · rintro ⟨parents, pw, author, committer, hparents, hpw, hs, hfits, hr⟩
    have hbuf := commitBuffer_inside.2 ⟨hfits, hr⟩
    rw [builtCommit, hparents, hpw]
    simp only [hs, hbuf]

/-- What `commit_tree` hands on is the encoding of what it has been given. -/
theorem builtCommit_encode {x : CommitInput} (h : builtCommit argv w x.tree.toList = .ok (buffer, size))
    (hp : collectParents 0 (parentArgs (argv.drop 2)) = .ok (x.parents.map List.Vector.toList))
    (hpw : w.passwd = some pw) (he : realEmail pw w.hostname = some email.1)
    (ha : x.author = w.author pw email) (hc : x.committer = w.committer pw email)
    (hs : w.stdin = x.changelog.1) : x.encode = some (buffer.take size) := by
  rw [builtCommit, hp, hpw] at h
  simp only [signatures_cleaned w he, ← ha, ← hc, hs] at h
  rw [CommitInput.encode, Person.signature_eq, Person.signature_eq]
  simp only [Option.bind_eq_bind, Option.bind_some]
  split at h
  · cases h
  · cases h
  · rename_i r hbuf
    cases h
    rw [hbuf, Option.bind_some]

end SelfGit

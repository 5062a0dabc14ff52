import SelfGit.CommitBuffer
import SelfGit.StoreHistory

namespace SelfGit
open Foundation
set_option autoImplicit true

def isHexDigit (c : Byte) : Bool :=
  (48 ≤ c && c ≤ 57) || (97 ≤ c && c ≤ 102) || (65 ≤ c && c ≤ 70)

/-- A hex digit as `sha1_to_hex` writes it. -/
def lowerDigit (c : Byte) : Byte := if 65 ≤ c ∧ c ≤ 70 then c + 32 else c

def IsHex (p : CStr) : Prop := 40 ≤ p.1.length ∧ ∀ c ∈ p.1.take 40, isHexDigit c = true

def hexOf (p : CStr) : List Byte := (p.1.take 40).map lowerDigit

theorem hexval_cases (c : Byte) :
    (isHexDigit c = true ∧ ∃ k < 16, hexval c = UInt32.ofNat k ∧
      lowerDigit c = hexDigit (UInt8.ofNat k)) ∨
    (isHexDigit c = false ∧ hexval c = ~~~0) := by
  have hall : ∀ n < 256, (isHexDigit (UInt8.ofNat n) = true ∧
      ∃ k < 16, hexval (UInt8.ofNat n) = UInt32.ofNat k ∧
        lowerDigit (UInt8.ofNat n) = hexDigit (UInt8.ofNat k)) ∨
      (isHexDigit (UInt8.ofNat n) = false ∧ hexval (UInt8.ofNat n) = ~~~0) := by
    decide +kernel
  have hc := hall c.toNat c.toNat_lt
  rwa [UInt8.ofNat_toNat] at hc

theorem hexPair_valid (ha : isHexDigit a = true) (hb : isHexDigit b = true) :
    ((hexval a <<< 4) ||| hexval b) &&& ~~~0xff = 0 ∧
      hexByte ((hexval a <<< 4) ||| hexval b).toUInt8 = [lowerDigit a, lowerDigit b] := by
  rcases hexval_cases a with ⟨-, h, hh, hvh, hlh⟩ | ⟨hn, -⟩
  · rcases hexval_cases b with ⟨-, l, hl, hvl, hll⟩ | ⟨hn, -⟩
    · have hall : ∀ h < 16, ∀ l < 16,
          ((UInt32.ofNat h <<< 4) ||| UInt32.ofNat l) &&& ~~~0xff = 0 ∧
          hexByte ((UInt32.ofNat h <<< 4) ||| UInt32.ofNat l).toUInt8 =
            [hexDigit (UInt8.ofNat h), hexDigit (UInt8.ofNat l)] := by
        decide +kernel
      rw [hvh, hvl, hlh, hll]
      exact hall h hh l hl
    · rw [hb] at hn
      cases hn
  · rw [ha] at hn
    cases hn

theorem hexPair_invalid (h : isHexDigit a = false ∨ isHexDigit b = false) :
    ((hexval a <<< 4) ||| hexval b) &&& ~~~0xff ≠ 0 := by
  have hones : ∀ k < 16, ((~~~0 : UInt32) <<< 4 ||| UInt32.ofNat k) &&& ~~~0xff ≠ 0 ∧
      (UInt32.ofNat k <<< 4 ||| (~~~0 : UInt32)) &&& ~~~0xff ≠ 0 := by
    decide +kernel
  have hboth : ((~~~0 : UInt32) <<< 4 ||| ~~~0) &&& ~~~0xff ≠ 0 := by decide
  rcases hexval_cases a with ⟨ha, k, hk, hva, -⟩ | ⟨-, hva⟩
  · rcases hexval_cases b with ⟨hb, -⟩ | ⟨-, hvb⟩
    · rw [ha, hb] at h
      simp at h
    · rw [hva, hvb]
      exact (hones k hk).2
  · rcases hexval_cases b with ⟨-, k, hk, hvb, -⟩ | ⟨-, hvb⟩
    · rw [hva, hvb]
      exact (hones k hk).1
    · rw [hva, hvb]
      exact hboth

/-- The loop of `get_sha1_hex` runs to its end over digits only, which `sha1_to_hex` gives back. -/
theorem getSha1HexLoop_spec (n : Nat) (hex : List Byte) :
    ((getSha1HexLoop n hex).2 = true ↔
      2 * n ≤ hex.length ∧ ∀ c ∈ hex.take (2 * n), isHexDigit c = true) ∧
    ((getSha1HexLoop n hex).2 = true →
      sha1ToHex (getSha1HexLoop n hex).1 = (hex.take (2 * n)).map lowerDigit) := by
  have hnul : isHexDigit 0 = false := by decide
  induction n generalizing hex with
  | zero => simp [getSha1HexLoop, sha1ToHex]
  | succ n ih =>
    rcases hex with - | ⟨a, - | ⟨b, t⟩⟩
    · have hstop : getSha1HexLoop (n + 1) [] = ([], false) := by
        rw [getSha1HexLoop]
        exact if_pos (hexPair_invalid (b := 0) (.inl hnul))
      rw [hstop]
      simp
    · have hstop : getSha1HexLoop (n + 1) [a] = ([], false) :=
        if_pos (hexPair_invalid (.inr hnul))
      rw [hstop]
      simp
      omega
    · obtain ⟨hiff, hback⟩ := ih t
      simp only [show 2 * (n + 1) = 2 * n + 2 by omega, List.take_succ_cons, List.length_cons,
        List.forall_mem_cons, List.map_cons]
      by_cases hab : isHexDigit a = true ∧ isHexDigit b = true
      · obtain ⟨hok, hbyte⟩ := hexPair_valid hab.1 hab.2
        have hgo : getSha1HexLoop (n + 1) (a :: b :: t) =
            ((hexval a <<< 4 ||| hexval b).toUInt8 :: (getSha1HexLoop n t).1,
              (getSha1HexLoop n t).2) := if_neg (not_not.2 hok)
        rw [hgo]
        constructor
        · simp only [hiff, hab, true_and, Nat.add_assoc, Nat.add_le_add_iff_right]
        · intro h
          have hcons : sha1ToHex ((hexval a <<< 4 ||| hexval b).toUInt8 ::
              (getSha1HexLoop n t).1) = hexByte (hexval a <<< 4 ||| hexval b).toUInt8 ++
                sha1ToHex (getSha1HexLoop n t).1 := rfl
          rw [hcons, hbyte, hback h]
          rfl
      · have hbad : isHexDigit a = false ∨ isHexDigit b = false := by
          simpa [imp_iff_not_or] using hab
        have hstop : getSha1HexLoop (n + 1) (a :: b :: t) = ([], false) :=
          if_pos (hexPair_invalid hbad)
        rw [hstop]
        simp only [Bool.false_eq_true, false_iff, IsEmpty.forall_iff, and_true]
        intro h
        exact hab ⟨h.2.1, h.2.2.1⟩

theorem getSha1Hex_iff (p : CStr) : (getSha1Hex p.1).2 = true ↔ IsHex p :=
  (getSha1HexLoop_spec 20 p.1).1

theorem sha1ToHex_getSha1Hex (h : IsHex p) : sha1ToHex (getSha1Hex p.1).1 = hexOf p :=
  (getSha1HexLoop_spec 20 p.1).2 ((getSha1Hex_iff p).2 h)

instance (p : CStr) : Decidable (IsHex p) := decidable_of_iff _ (getSha1Hex_iff p)

theorem parentArgs_getElem? (ps : List CStr) (i : Nat) : (parentArgs ps)[i]? = ps[2 * i]? := by
  induction ps using parentArgs.induct generalizing i with
  | case1 => simp [parentArgs]
  | case2 q =>
    cases i with
    | zero => rfl
    | succ i => simp [parentArgs, show 2 * (i + 1) = 2 * i + 1 + 1 by omega]
  | case3 q r rest ih =>
    cases i with
    | zero => rfl
    | succ i =>
      rw [parentArgs, List.getElem?_cons_succ, ih]
      rfl

theorem mem_parentArgs (ps : List CStr) : p ∈ parentArgs ps ↔ ∃ i, ps[2 * i]? = some p := by
  simp only [List.mem_iff_getElem?, parentArgs_getElem?]

theorem parentArgs_length (ps : List CStr) : (parentArgs ps).length = (ps.length + 1) / 2 := by
  induction ps using parentArgs.induct with
  | case1 => simp [parentArgs]
  | case2 q => simp [parentArgs]
  | case3 q r rest ih =>
    simp only [parentArgs, List.length_cons, ih]
    omega

theorem collectParents_eq (n : Nat) (ps : List CStr) (hn : n + ps.length ≤ maxParent) :
    collectParents n ps = if ∀ p ∈ ps, IsHex p then .ok (ps.map fun p => (getSha1Hex p.1).1)
      else .error (.exit 1) := by
  induction ps generalizing n with
  | nil => simp [collectParents]
  | cons p ps ih =>
    rw [List.length_cons] at hn
    have hrow : ¬ (maxParent ≤ n ∧ (getSha1Hex p.1).1 ≠ []) := fun h => by omega
    rw [collectParents, if_neg hrow, ih (n + 1) (by omega)]
    simp only [List.forall_mem_cons, List.map_cons, ← getSha1Hex_iff]
    cases (getSha1Hex p.1).2 with
    | false => simp
    | true =>
      simp only [Bool.true_eq_false, ↓reduceIte, true_and]
      split
      · rfl
      · rfl

/-- The ids of some words, as the rows of `parent_sha1` hold them. -/
def decoded (ps : List CStr) : List (List Byte) := ps.map fun p => (getSha1Hex p.1).1

theorem decoded_lines (h : ∀ p ∈ ps, IsHex p) :
    (decoded ps).map parentLine = ps.map fun p => str "parent " ++ hexOf p ++ [10] := by
  rw [decoded, List.map_map]
  apply List.map_congr_left
  intro p hp
  rw [Function.comp_apply, parentLine, sha1ToHex_getSha1Hex (h p hp)]

theorem decoded_sha1 (h : ∀ p ∈ ps, IsHex p) :
    ∃ vs : List Sha1, vs.map List.Vector.toList = decoded ps := by
  apply (List.canLift Subtype.val fun l : List Byte => l.length = 20).prf
  intro l hl
  obtain ⟨p, hp, rfl⟩ := List.mem_map.1 hl
  have hlen := congrArg List.length (sha1ToHex_getSha1Hex (h p hp))
  rw [sha1ToHex_length, hexOf, List.length_map, List.length_take,
    Nat.min_eq_left (h p hp).1] at hlen
  omega

/-- A line for each of the words, in their order, behind that of the tree. -/
def ParentsBetween (ps : List CStr) (tree object : List Byte) : Prop :=
  ∃ header rest, 0 ∉ header ∧ object = header ++ 0 :: (treeLine tree ++
    ((ps.map fun p => str "parent " ++ hexOf p ++ [10]).flatten ++ (str "author " ++ rest)))

theorem treeLine_length (h : tree.length = 20) : (treeLine tree).length = 46 := by
  have hword : (str "tree ").length = 5 := by decide
  simp [treeLine, h, hword]

theorem parentLines_length {parents : List (List Byte)} (h : ∀ l ∈ parents, l.length = 20) :
    (∀ line ∈ parents.map parentLine, line.length = 48) ∧
      (parents.map parentLine).flatten.length = 48 * parents.length := by
  have hword : (str "parent ").length = 7 := by decide
  have hline : ∀ l ∈ parents, (parentLine l).length = 48 := by
    intro l hl
    simp [parentLine, h l hl, hword]
  constructor
  · intro line hl
    obtain ⟨l, hmem, rfl⟩ := List.mem_map.1 hl
    exact hline l hmem
  · induction parents with
    | nil => rfl
    | cons l parents ih =>
      rw [List.forall_mem_cons] at h hline
      rw [List.map_cons, List.flatten_cons, List.length_append, hline.1, ih h.2 hline.2,
        List.length_cons]
      omega

theorem lineText_word (hw : word.length ≤ 2047) (t : List Byte) :
    ∃ rest, lineText (word ++ t) = word ++ rest := by
  rw [lineText]
  split
  · exact ⟨t, rfl⟩
  · rw [List.take_append, List.take_of_length_le hw, List.append_assoc]
    exact ⟨_, rfl⟩

theorem commitObject_between (ht : tree.length = 20) (h : ∀ p ∈ ps, IsHex p) :
    ParentsBetween ps tree (commitObject tree (decoded ps) author committer stdin) := by
  obtain ⟨vs, hvs⟩ := decoded_sha1 h
  have hsha : ∀ l ∈ decoded ps, l.length = 20 := by
    intro l hl
    rw [← hvs] at hl
    obtain ⟨v, -, rfl⟩ := List.mem_map.1 hl
    exact v.2
  have htree : lineText (treeLine tree) = treeLine tree :=
    lineText_short (by rw [treeLine_length ht]; decide)
  have hparents : ((decoded ps).map parentLine).map lineText = (decoded ps).map parentLine :=
    lineTexts_short fun line hl => by rw [(parentLines_length hsha).1 line hl]; decide
  have hword : (str "author ").length ≤ 2047 := by decide
  obtain ⟨rest, hauthor⟩ := lineText_word hword
    (author.gecos ++ str " <" ++ author.email ++ str "> " ++ author.date ++ [10])
  refine ⟨str "commit " ++ numeral 10
    (((commitTexts tree (decoded ps) author committer stdin).map lineText).flatten.length % 2 ^ 32),
    rest ++ (lineText (signatureLine (str "committer ") committer ++ [10]) ++
      (((commentPieces stdin.length stdin).map stringAt).map lineText).flatten), ?_, ?_⟩
  · intro h0
    rcases List.mem_append.1 h0 with h0 | h0
    · exact absurd h0 (by decide)
    · exact digit_ne_zero (numeral_digit (by decide) (by decide) h0) rfl
  · simp only [List.append_assoc] at hauthor
    rw [commitObject, commitHeader, ← decoded_lines h]
    simp only [commitTexts, headerLines, signatureLine, List.map_append, List.map_cons,
      htree, hparents, hauthor, List.flatten_append, List.flatten_cons, List.append_assoc,
      List.cons_append, List.nil_append]

theorem between_length (hps : ∀ p ∈ ps, IsHex p) (hqs : ∀ p ∈ qs, IsHex p)
    (hp : ParentsBetween ps tree object) (hq : ParentsBetween qs tree object) :
    ps.length = qs.length := by
  obtain ⟨header, rest, h0, rfl⟩ := hp
  obtain ⟨header', rest', h0', heq⟩ := hq
  obtain ⟨vs, hvs⟩ := decoded_sha1 hps
  obtain ⟨us, hus⟩ := decoded_sha1 hqs
  have hlines := List.append_cancel_left (split_unique h0 h0' heq).2
  rw [← decoded_lines hps, ← decoded_lines hqs, ← hvs, ← hus] at hlines
  have hsame := (parentLines_injective vs us rfl rfl hlines).1
  have hv := congrArg List.length hvs
  have hu := congrArg List.length hus
  rw [List.length_map, decoded, List.length_map] at hv hu
  rw [← hv, ← hu, hsame]

/-- The user is known, and there is room for any number of parents, and for the comment. -/
def Surroundings.Ordinary (w : Surroundings) : Prop :=
  ∃ pw author committer, w.passwd = some pw ∧ signatures w pw = some (author, committer) ∧
    CommitFits (List.replicate 20 0) (List.replicate maxParent (List.replicate 20 0)) author
      committer w.stdin

theorem CommitFits.fewer {parents most : List (List Byte)} {tree tree' : List Byte}
    (h : CommitFits tree' most author committer stdin) (ht : tree.length = 20)
    (ht' : tree'.length = 20) (hp : ∀ l ∈ parents, l.length = 20)
    (hm : ∀ l ∈ most, l.length = 20) (hle : parents.length ≤ most.length) :
    CommitFits tree parents author committer stdin := by
  obtain ⟨hline, hsum⟩ := parentLines_length hp
  have hsum' := (parentLines_length hm).2
  obtain ⟨hall, hfits⟩ := h
  simp only [commitTexts, headerLines, List.cons_append, List.forall_mem_cons,
    List.forall_mem_append, List.append_assoc, List.flatten_cons, List.flatten_append,
    List.length_append, treeLine_length ht', hsum'] at hall hfits
  constructor
  · simp only [commitTexts, headerLines, List.cons_append, List.forall_mem_cons,
      List.forall_mem_append, List.append_assoc, List.length_append, treeLine_length ht]
    refine ⟨by omega, fun line hl => ?_, hall.2.2⟩
    have := hline line hl
    omega
  · simp only [commitTexts, headerLines, List.cons_append, List.append_assoc, List.flatten_cons,
      List.flatten_append, List.length_append, treeLine_length ht, hsum]
    omega

def commitArgv (ps : List CStr) : List CStr := cstr "git" :: cstr "--commit" :: ps

/-- A commit of words that are all ids has them as its parents; otherwise nothing is stored. -/
structure RecordsParents (ps : List CStr) : Prop where
  built : (∀ p ∈ ps, IsHex p) → ∀ (w : Surroundings) (tree : Sha1), w.Ordinary →
    ∃ r, builtCommit (commitArgv ps) w tree.toList = .ok r
  recorded : (∀ p ∈ ps, IsHex p) → ∀ (w : Surroundings) (tree : Sha1) (buffer : List Byte)
    (size : Nat), builtCommit (commitArgv ps) w tree.toList = .ok (buffer, size) →
    ParentsBetween ps tree.toList (buffer.take size)
  refused : (∃ p ∈ ps, ¬ IsHex p) → ∀ (L : Lib) (w : Surroundings) (tree : Sha1) (fs fs' : FS)
    (x : Except Stop Int),
    RunsTo anyAnswer fs (commitTree L (commitArgv ps) w tree.toList) x fs' → fs' = fs

section Argv
variable {ps : List CStr}

theorem collectParents_argv (hn : ps.length ≤ maxParent) :
    collectParents 0 (parentArgs ((commitArgv ps).drop 2)) =
      if ∀ p ∈ parentArgs ps, IsHex p then .ok (decoded (parentArgs ps))
      else .error (.exit 1) := by
  apply collectParents_eq
  rw [commitArgv, List.drop_succ_cons, List.drop_succ_cons, List.drop_zero, parentArgs_length]
  omega

theorem builtCommit_argv (hn : ps.length ≤ maxParent) (h : ∀ p ∈ parentArgs ps, IsHex p)
    (tree : Sha1) :
    (w.Ordinary → ∃ r, builtCommit (commitArgv ps) w tree.toList = .ok r) ∧
      ∀ buffer size, builtCommit (commitArgv ps) w tree.toList = .ok (buffer, size) →
        ParentsBetween (parentArgs ps) tree.toList (buffer.take size) := by
  have hcollect := collectParents_argv hn
  rw [if_pos h] at hcollect
  constructor
  · rintro ⟨pw, author, committer, hpw, hs, hfits⟩
    obtain ⟨vs, hvs⟩ := decoded_sha1 h
    refine ⟨_, builtCommit_iff.2 ⟨_, pw, author, committer, hcollect, hpw, hs, ?_, rfl⟩⟩
    apply hfits.fewer tree.2 List.length_replicate
    · intro l hl
      rw [← hvs] at hl
      obtain ⟨v, -, rfl⟩ := List.mem_map.1 hl
      exact v.2
    · intro l hl
      rw [List.eq_of_mem_replicate hl, List.length_replicate]
    · rw [decoded, List.length_map, parentArgs_length, List.length_replicate]
      omega
  · intro buffer size hb
    obtain ⟨parents, pw, author, committer, hp, -, -, -, hr⟩ := builtCommit_iff.1 hb
    rw [hcollect, Except.ok.injEq] at hp
    subst hp
    cases hr
    rw [List.take_length]
    exact commitObject_between tree.2 h

theorem commitTree_refuses (hn : ps.length ≤ maxParent) (h : ∃ p ∈ parentArgs ps, ¬ IsHex p)
    (hrun : RunsTo ok fs (commitTree L (commitArgv ps) w tree) x fs') : fs' = fs := by
  have hcollect := collectParents_argv hn
  rw [if_neg (by simpa using h)] at hcollect
  rw [commitTree, hcollect] at hrun
  exact (Prog.runs_halt.1 hrun).2

end Argv

theorem parentArgs_few {ps : List CStr} (h : ps.length ≤ 1) : parentArgs ps = ps := by
  cases ps with
  | nil => rfl
  | cons p ps =>
    cases ps with
    | nil => rfl
    | cons q ps =>
      simp only [List.length_cons] at h
      omega

theorem someone_ordinary : someone.Ordinary := by
  refine ⟨⟨cstr "u", cstr "U"⟩, ⟨str "U", str "u@h", str "now"⟩, ⟨str "U", str "u@h", str "now"⟩,
    rfl, by decide +kernel, by decide +kernel⟩

theorem commitTree_stores {ps : List CStr}
    (h : builtCommit (commitArgv ps) someone tree = .ok (buffer, size)) : ∃ x fs', fs' ≠ FS.empty ∧
      RunsTo anyAnswer FS.empty (commitTree storedLib (commitArgv ps) someone tree) x fs' := by
  obtain ⟨s, hs⟩ : ∃ s, s = fileHash storedLib buffer size := ⟨_, rfl⟩
  obtain ⟨bytes, hbytes⟩ : ∃ bytes, bytes = deflateInto storedLib [buffer.take size]
    (toInt (storedLib.zlib.deflateBound size)) := ⟨_, rfl⟩
  have hshort : (sha1FileName storedLib s).length < pathMax := by
    rw [sha1FileName_length, show storedLib.objectDirectory.length = 17 by decide]
    decide
  have hstore : RunsTo Complete FS.empty (writeSha1Buffer storedLib s bytes) (.ok 0)
      ((FS.empty.create (sha1FileName storedLib s)).append 0 bytes) :=
    (writeSha1Buffer_new complete_repo rfl).2 (.inl ⟨rfl, hshort, trivial, rfl⟩)
  refine ⟨.ok 0, (FS.empty.create (sha1FileName storedLib s)).append 0 bytes, ?_, ?_⟩
  · intro heq
    have hdir := FS.create_append_dir FS.empty (sha1FileName storedLib s) bytes
    have heq : (FS.empty.create (sha1FileName storedLib s)).append FS.empty.next bytes =
        FS.empty := heq
    rw [heq] at hdir
    cases hdir
  · rw [commitTree_runs h]
    refine ⟨rfl, _, writeSha1File_runs.2 ⟨0, rfl, ?_⟩⟩
    rw [← hs, ← hbytes]
    exact hstore.mono fun _ _ _ _ ha => ⟨ha.1, trivial⟩

/-- Parents are recorded as they are given if and only if there is at most one, or one of those at
an odd place is no id. -/
theorem parents_recorded (ps : List CStr) (hn : ps.length ≤ maxParent) :
    RecordsParents ps ↔ ps.length ≤ 1 ∨ ∃ i p, ps[2 * i]? = some p ∧ ¬ IsHex p := by
  have hodd : (∃ i p, ps[2 * i]? = some p ∧ ¬ IsHex p) ↔ ∃ p ∈ parentArgs ps, ¬ IsHex p := by
    simp only [mem_parentArgs]
    constructor
    · rintro ⟨i, p, hi, hp⟩
      exact ⟨p, ⟨i, hi⟩, hp⟩
    · rintro ⟨p, ⟨i, hi⟩, hp⟩
      exact ⟨i, p, hi, hp⟩
  rw [hodd]
  constructor
  · intro h
    by_contra hnot
    rw [not_or] at hnot
    obtain ⟨hmany, hgood⟩ := hnot
    have hgood : ∀ p ∈ parentArgs ps, IsHex p := by simpa using hgood
    obtain ⟨hbuilt, hbetween⟩ := builtCommit_argv (w := someone) hn hgood
      (List.Vector.replicate 20 0)
    obtain ⟨⟨buffer, size⟩, hb⟩ := hbuilt someone_ordinary
    by_cases hall : ∀ p ∈ ps, IsHex p
    · have hlen := between_length hall hgood (h.recorded hall _ _ _ _ hb) (hbetween _ _ hb)
      rw [parentArgs_length] at hlen
      omega
    · obtain ⟨x, fs', hne, hrun⟩ := commitTree_stores hb
      exact hne (h.refused (by simpa using hall) _ _ _ _ _ _ hrun)
  · intro h
    have hbad : (∃ p ∈ ps, ¬ IsHex p) → ps.length ≤ 1 → ∃ p ∈ parentArgs ps, ¬ IsHex p := by
      intro hp h1
      rwa [parentArgs_few h1]
    rcases h with h1 | hex
    · have hargs := parentArgs_few h1
      have hgood : (∀ p ∈ ps, IsHex p) → ∀ p ∈ parentArgs ps, IsHex p := by
        rw [hargs]
        exact id
      refine ⟨?_, ?_, ?_⟩
      · intro hall w tree
        exact (builtCommit_argv hn (hgood hall) tree).1
      · intro hall w tree buffer size hb
        rw [← hargs]
        exact (builtCommit_argv hn (hgood hall) tree).2 buffer size hb
      · intro hp L w tree fs fs' x
        exact commitTree_refuses hn (hbad hp h1)
    · have hnot : ¬ ∀ p ∈ ps, IsHex p := by
        intro hall
        obtain ⟨p, hp, hn⟩ := hex
        obtain ⟨i, hi⟩ := (mem_parentArgs ps).1 hp
        exact hn (hall p (List.mem_of_getElem? hi))
      refine ⟨fun hall => absurd hall hnot, fun hall => absurd hall hnot, ?_⟩
      intro _ L w tree fs fs' x
      exact commitTree_refuses hn hex

theorem parents_recorded_one : RecordsParents [cstr "0123456789abcdef0123456789abcdef01234567"] :=
  (parents_recorded _ (by decide)).2 (.inl (by decide))

/-- Two parents: the second is passed over. -/
theorem second_parent_lost : ¬ ∀ ps : List CStr, ps.length ≤ maxParent → RecordsParents ps := by
  intro h
  let p := cstr "0123456789abcdef0123456789abcdef01234567"
  let q := cstr "89abcdef0123456789abcdef0123456789abcdef"
  have hrec := h [p, q] (by decide)
  have hall : ∀ r ∈ [p, q], IsHex r := by decide
  have hn : [p, q].length ≤ maxParent := by decide
  obtain ⟨hbuilt, hbetween⟩ := builtCommit_argv (w := someone) hn (by decide)
    (List.Vector.replicate 20 0)
  obtain ⟨⟨buffer, size⟩, hb⟩ := hbuilt someone_ordinary
  have hlen := between_length hall (by decide) (hrec.recorded hall _ _ _ _ hb) (hbetween _ _ hb)
  exact absurd hlen (by decide)

end SelfGit

import SelfGit.CommitText
import SelfGit.StoredZlib

namespace SelfGit
open Foundation
set_option autoImplicit true

/-- The name, email and date of a person, as they come in. -/
structure Person where
  name : CStr
  email : CStr
  date : CStr

/-- What goes into a commit. -/
structure CommitInput where
  tree : Sha1
  parents : List Sha1
  author : Person
  committer : Person
  changelog : CStr

/-- The strings after `remove_special`. -/
def Person.signature (p : Person) : Option Signature := do
  let name ← removeSpecial (p.name.1 ++ [0])
  let email ← removeSpecial (p.email.1 ++ [0])
  let date ← removeSpecial (p.date.1 ++ [0])
  some ⟨stringAt name, stringAt email, stringAt date⟩

/-- The bytes that `commit_tree` hands to `write_sha1_file`, the heap taken as large enough. -/
def CommitInput.encode (x : CommitInput) : Option (List Byte) := do
  let author ← x.author.signature
  let committer ← x.committer.signature
  let ((buffer, size), _) ← commitBuffer x.tree.toList (x.parents.map List.Vector.toList) author
    committer x.changelog.1
  some (buffer.take size)

def Person.cleaned (p : Person) : Signature :=
  ⟨clean p.name.1, clean p.email.1, clean p.date.1⟩

theorem Person.signature_eq (p : Person) : p.signature = some p.cleaned := by
  obtain ⟨n, hn, hns, -⟩ := removeSpecial_eq p.name []
  obtain ⟨e, he, hes, -⟩ := removeSpecial_eq p.email []
  obtain ⟨d, hd, hds, -⟩ := removeSpecial_eq p.date []
  simp only [Person.signature, hn, he, hd, Option.bind_eq_bind, Option.bind_some, hns, hes, hds,
    Person.cleaned]

def Surroundings.author (w : Surroundings) (pw : Passwd) (email : CStr) : Person :=
  ⟨w.committerName.getD pw.pwGecos, w.committerEmail.getD email, w.committerDate.getD w.ctime⟩

def Surroundings.committer (w : Surroundings) (pw : Passwd) (email : CStr) : Person :=
  ⟨pw.pwGecos, email, w.ctime⟩

theorem signatures_cleaned (w : Surroundings) (h : realEmail pw w.hostname = some email.1) :
    signatures w pw = some ((w.author pw email).cleaned, (w.committer pw email).cleaned) := by
  simp only [signatures, h, cleanPair_eq, Option.bind_eq_bind, Option.bind_some]
  rfl

def CommitInput.lines (x : CommitInput) : List (List Byte) :=
  headerLines x.tree.toList (x.parents.map List.Vector.toList) x.author.cleaned
    x.committer.cleaned

def CommitInput.text (x : CommitInput) : List Byte := x.lines.flatten ++ x.changelog.1

theorem stringAt_of_no_nul (h : 0 ∉ s) : stringAt s = s := by
  rw [stringAt, List.takeWhile_eq_self_iff]
  intro c hc
  simp only [ne_eq, decide_not, Bool.not_eq_eq_eq_not, Bool.not_true, decide_eq_false_iff_not]
  rintro rfl
  exact h hc

theorem comment_texts (s : CStr) :
    (commentPieces s.1.length s.1).map stringAt = commentPieces s.1.length s.1 := by
  refine (List.map_congr_left ?_).trans (List.map_id _)
  intro p hp
  apply stringAt_of_no_nul
  intro h0
  exact s.2 ((commentPieces_mem hp).2 0 h0)

theorem commitTexts_flatten (x : CommitInput) :
    (commitTexts x.tree.toList (x.parents.map List.Vector.toList) x.author.cleaned
      x.committer.cleaned x.changelog.1).flatten = x.text := by
  rw [commitTexts, List.flatten_append, comment_texts,
    commentPieces_flatten _ (Nat.le_refl _)]
  rfl

/-- A buffer written without a gap, as long as its size says. -/
structure Buffer.Tight (b : Buffer) (text : List Byte) : Prop where
  mem : b.mem = List.replicate origOffset 0 ++ text
  size : b.size = (origOffset + text.length) % 2 ^ 32

theorem roundUp_ge (n : Nat) : n ≤ roundUp n := by
  rw [roundUp]
  omega

theorem oneLine_length (text : List Byte) : (oneLine text).length = 2048 := by
  simp only [oneLine, List.length_append, List.length_map, List.length_take, List.length_cons,
    List.length_replicate]
  omega

/-- What is put into the buffer: of a text of 2048 bytes, a NUL is the last. -/
def lineText (text : List Byte) : List Byte :=
  if text.length < 2048 then text else text.take 2047 ++ [0]

theorem lineText_short (h : text.length < 2048) : lineText text = text := if_pos h

theorem lineText_length (h : text.length ≤ 2048) : (lineText text).length = text.length := by
  rw [lineText]
  split
  · rfl
  · rw [List.length_append, List.length_take, List.length_singleton]
    omega

theorem lineTexts_short {texts : List (List Byte)} (h : ∀ t ∈ texts, t.length < 2048) :
    texts.map lineText = texts :=
  (List.map_congr_left fun t ht => lineText_short (h t ht)).trans (List.map_id _)

theorem lineTexts_length {texts : List (List Byte)} (h : ∀ t ∈ texts, t.length ≤ 2048) :
    (texts.map lineText).flatten.length = texts.flatten.length := by
  rw [List.length_flatten, List.length_flatten, List.map_map]
  congr 1
  exact List.map_congr_left fun t ht => lineText_length (h t ht)

theorem copiedLine_short (h : text.length < 2048) : copiedLine text = some (text.map some) := by
  rw [copiedLine, oneLine_length, if_pos (by omega), oneLine,
    List.take_of_length_le (show text.length ≤ 2047 by omega),
    List.take_left' (List.length_map ..)]

theorem copiedLine_eq (text : List Byte) :
    copiedLine text = if text.length ≤ 2048 then some ((lineText text).map some) else none := by
  split
  · rename_i hle
    by_cases hlt : text.length < 2048
    · rw [copiedLine_short hlt, lineText_short hlt]
    · have hlen : text.length = 2048 := by omega
      have hall : (oneLine text).take 2048 = oneLine text :=
        List.take_of_length_le (Nat.le_of_eq (oneLine_length text))
      rw [copiedLine, oneLine_length, if_pos hle, lineText, if_neg hlt, hlen, hall, oneLine, hlen]
      simp
  · rename_i hlong
    rw [copiedLine, oneLine_length, if_neg hlong]

theorem known_bytes (l : List α) : (l.map some).mapM id = some l := by
  induction l with
  | nil => rfl
  | cons a l ih => rw [List.map_cons, List.mapM_cons, ih]; rfl

theorem addBuffer_tight (hb : Buffer.Tight b text) (hlt : origOffset + text.length < 2 ^ 32)
    (hl : line.length ≤ 2048) :
    ∃ b', addBuffer b line = some b' ∧ b'.Tight (text ++ lineText line) := by
  have hsize : b.size = origOffset + text.length := by rw [hb.size, Nat.mod_eq_of_lt hlt]
  have hmem : b.mem.length = b.size := by
    rw [hb.mem, hsize, List.length_append, List.length_replicate]
  have hround := roundUp_ge (b.size + line.length)
  rw [addBuffer, copiedLine_eq, if_pos hl, Option.bind_eq_bind, Option.bind_some, known_bytes,
    Option.bind_eq_bind, Option.bind_some]
  refine ⟨_, rfl, ?_, ?_⟩
  · have htake : b.mem.take (roundUp (b.size + line.length)) = b.mem :=
      List.take_of_length_le (by omega)
    have hall : b.mem.take b.size = b.mem := List.take_of_length_le (by omega)
    have hnone : b.mem.drop (b.size + line.length) = [] := List.drop_eq_nil_of_le (by omega)
    simp only
    split
    · rw [htake, hall, hnone, hb.mem]
      simp
    · rw [hall, hnone, hb.mem]
      simp
  · simp only [hsize, List.length_append, Nat.add_assoc, lineText_length hl]

theorem addBuffer_all (texts : List (List Byte)) (hb : Buffer.Tight b text)
    (hlt : origOffset + text.length + texts.flatten.length < 2 ^ 32)
    (hall : ∀ t ∈ texts, t.length ≤ 2048) :
    ∃ b', texts.foldlM addBuffer b = some b' ∧
      b'.Tight (text ++ (texts.map lineText).flatten) := by
  induction texts generalizing b text with
  | nil => exact ⟨b, rfl, by simpa using hb⟩
  | cons t texts ih =>
    rw [List.forall_mem_cons] at hall
    rw [List.flatten_cons, List.length_append] at hlt
    obtain ⟨b₁, h₁, hb₁⟩ := addBuffer_tight hb (by omega) hall.1
    obtain ⟨b₂, h₂, hb₂⟩ := ih hb₁ (by rw [List.length_append, lineText_length hall.1]; omega) hall.2
    refine ⟨b₂, ?_, ?_⟩
    · rw [List.foldlM_cons, h₁, Option.bind_eq_bind, Option.bind_some, h₂]
    · rw [List.map_cons, List.flatten_cons, ← List.append_assoc]
      exact hb₂

theorem addBuffer_short_all (texts : List (List Byte)) (hb : Buffer.Tight b text)
    (hlt : origOffset + text.length + texts.flatten.length < 2 ^ 32)
    (hall : ∀ t ∈ texts, t.length < 2048) :
    ∃ b', texts.foldlM addBuffer b = some b' ∧ b'.Tight (text ++ texts.flatten) := by
  have h := addBuffer_all texts hb hlt fun t ht => Nat.le_of_lt (hall t ht)
  rwa [lineTexts_short hall] at h

def commitHeader (len : Nat) : List Byte := str "commit " ++ numeral 10 (len % 2 ^ 32) ++ [0]

theorem commitHeader_length_le (len : Nat) : (commitHeader len).length ≤ 18 := by
  have hnum := numeral_length_le (b := 10) (k := 10) (n := len % 2 ^ 32) (by decide) (by decide)
    (by omega)
  have htag : (str "commit ").length = 7 := by decide
  simp only [commitHeader, List.length_append, List.length_singleton, htag]
  omega

theorem finishBuffer_tight (hb : Buffer.Tight b text) :
    finishBuffer (str "commit ") b = some (commitHeader text.length ++ text,
      ((commitHeader text.length).length + text.length) % 2 ^ 32) := by
  have hle := commitHeader_length_le text.length
  have hlen : (str "commit ").length + (numeral 10 (text.length % 2 ^ 32)).length + 1 =
      (commitHeader text.length).length := by
    simp only [commitHeader, List.length_append, List.length_singleton]
  have hval : (b.size + 2 ^ 32 - origOffset) % 2 ^ 32 = text.length % 2 ^ 32 := by
    rw [hb.size, origOffset]
    omega
  obtain ⟨pre, hpre, hsum⟩ := prependHeader_eq (str "commit ") (text.length % 2 ^ 32)
    (List.replicate origOffset 0) text List.length_replicate (by rw [hlen, origOffset]; omega)
  rw [hlen, origOffset] at hsum
  rw [finishBuffer, hval, hb.mem, hpre, Option.bind_eq_bind, Option.bind_some]
  have hbytes : (pre ++ (str "commit " ++ numeral 10 (text.length % 2 ^ 32) ++ 0 :: text)).drop
      pre.length = commitHeader text.length ++ text := by
    rw [List.drop_left, commitHeader, List.append_assoc _ [0], List.singleton_append]
  have hsize : (b.size + 2 ^ 32 - pre.length) % 2 ^ 32 =
      ((commitHeader text.length).length + text.length) % 2 ^ 32 := by
    rw [hb.size, origOffset]
    generalize (commitHeader text.length).length = h at *
    omega
  dsimp only
  rw [hbytes, hsize]

theorem encode_of_tight {x : CommitInput}
    (h : (commitTexts x.tree.toList (x.parents.map List.Vector.toList) x.author.cleaned
      x.committer.cleaned x.changelog.1).foldlM addBuffer initBuffer = some b)
    (hb : b.Tight x.text) :
    x.encode = some ((commitHeader x.text.length ++ x.text).take
      (((commitHeader x.text.length).length + x.text.length) % 2 ^ 32)) := by
  have hbuffer : commitBuffer x.tree.toList (x.parents.map List.Vector.toList) x.author.cleaned
      x.committer.cleaned x.changelog.1 = some ((commitHeader x.text.length ++ x.text,
        ((commitHeader x.text.length).length + x.text.length) % 2 ^ 32), b.inside) := by
    rw [commitBuffer, h, Option.bind_eq_bind, Option.bind_some, finishBuffer_tight hb,
      Option.bind_eq_bind, Option.bind_some]
  rw [CommitInput.encode, Person.signature_eq, Person.signature_eq, Option.bind_eq_bind,
    Option.bind_some, Option.bind_eq_bind, Option.bind_some, hbuffer, Option.bind_some]

theorem initBuffer_tight : initBuffer.Tight [] where
  mem := by simp [initBuffer]
  size := by simp [initBuffer, origOffset]

def CommitInput.LinesFit (x : CommitInput) : Prop := ∀ line ∈ x.lines, line.length < 2048

theorem CommitInput.LinesFit.texts {x : CommitInput} (h : x.LinesFit) :
    ∀ t ∈ commitTexts x.tree.toList (x.parents.map List.Vector.toList) x.author.cleaned
      x.committer.cleaned x.changelog.1, t.length < 2048 := by
  intro t ht
  rw [commitTexts, comment_texts, List.mem_append] at ht
  rcases ht with ht | ht
  · exact h t ht
  · have := (commentPieces_mem ht).1
    omega

def CommitInput.Small (x : CommitInput) : Prop := origOffset + x.text.length < 2 ^ 32

theorem encode_small {x : CommitInput} (hl : x.LinesFit) (hs : x.Small) :
    x.encode = some (commitHeader x.text.length ++ x.text) := by
  have hlt : origOffset + x.text.length < 2 ^ 32 := hs
  have hle := commitHeader_length_le x.text.length
  obtain ⟨b, h, hb⟩ := addBuffer_short_all _ initBuffer_tight (by
    rw [commitTexts_flatten]
    simpa using hlt) hl.texts
  rw [commitTexts_flatten, List.nil_append] at hb
  rw [encode_of_tight h hb, Nat.mod_eq_of_lt (by rw [origOffset] at hlt; omega),
    List.take_of_length_le (by simp)]

theorem Person.cleaned_no_special (p : Person) : (∀ c ∈ p.cleaned.gecos, isSpecial c = false) ∧
    (∀ c ∈ p.cleaned.email, isSpecial c = false) ∧ ∀ c ∈ p.cleaned.date, isSpecial c = false :=
  ⟨clean_no_special _, clean_no_special _, clean_no_special _⟩

theorem not_mem_of_special {s : List Byte} (hs : isSpecial d = true)
    (h : ∀ c ∈ s, isSpecial c = false) : d ∉ s := by
  intro hd
  rw [h d hd] at hs
  cases hs

theorem signatureLine_injective (word : List Byte) (p q : Person)
    (h : signatureLine word p.cleaned ++ t = signatureLine word q.cleaned ++ u) :
    p.cleaned = q.cleaned ∧ t = u := by
  obtain ⟨hpn, hpe, hpd⟩ := p.cleaned_no_special
  obtain ⟨hqn, hqe, hqd⟩ := q.cleaned_no_special
  have hlt : isSpecial 60 = true := by decide
  have hgt : isSpecial 62 = true := by decide
  have hnl : isSpecial 10 = true := by decide
  have hopen : str " <" = [32, 60] := by decide
  have hclose : str "> " = [62, 32] := by decide
  have hsp : (60 : Byte) ≠ 32 := by decide
  have hline : ∀ (s : Signature) (t : List Byte), signatureLine word s ++ t =
      word ++ ((s.gecos ++ [32]) ++ 60 :: (s.email ++ 62 :: (32 :: (s.date ++ 10 :: t)))) := by
    intro s t
    simp [signatureLine, hopen, hclose]
  rw [hline, hline] at h
  have h := List.append_cancel_left h
  obtain ⟨hname, h⟩ := split_unique (a := 60)
    (by simp [not_mem_of_special hlt hpn, hsp]) (by simp [not_mem_of_special hlt hqn, hsp]) h
  obtain ⟨hemail, h⟩ := split_unique (not_mem_of_special hgt hpe) (not_mem_of_special hgt hqe) h
  obtain ⟨hdate, h⟩ := split_unique (not_mem_of_special hnl hpd) (not_mem_of_special hnl hqd)
    (List.cons.inj h).2
  have hgecos := List.append_cancel_right hname
  refine ⟨?_, h⟩
  calc p.cleaned = ⟨p.cleaned.gecos, p.cleaned.email, p.cleaned.date⟩ := rfl
    _ = ⟨q.cleaned.gecos, q.cleaned.email, q.cleaned.date⟩ := by rw [hgecos, hemail, hdate]

theorem treeLine_injective (s s' : Sha1)
    (h : treeLine s.toList ++ t = treeLine s'.toList ++ u) : s = s' ∧ t = u := by
  have hl : (treeLine s.toList).length = (treeLine s'.toList).length := by
    simp [treeLine]
  obtain ⟨hline, ht⟩ := List.append_inj h hl
  simp only [treeLine, List.append_assoc] at hline
  have hhex := List.append_cancel_right (List.append_cancel_left hline)
  exact ⟨Subtype.ext (sha1ToHex_injective hhex), ht⟩

theorem parentLines_injective (ps qs : List Sha1) (ht : t.head? = some 97)
    (hu : u.head? = some 97)
    (h : ((ps.map List.Vector.toList).map parentLine).flatten ++ t =
      ((qs.map List.Vector.toList).map parentLine).flatten ++ u) : ps = qs ∧ t = u := by
  have hfirst : ∀ (p : Sha1) (s : List Byte), (parentLine p.toList ++ s).head? = some 112 := by
    intro p s
    rfl
  induction ps generalizing qs with
  | nil =>
    cases qs with
    | nil => exact ⟨rfl, by simpa using h⟩
    | cons q qs =>
      have hhead := congrArg List.head? h
      simp only [List.map_nil, List.flatten_nil, List.nil_append, List.map_cons,
        List.flatten_cons, List.append_assoc, hfirst, ht] at hhead
      exact absurd hhead (by decide)
  | cons p ps ih =>
    cases qs with
    | nil =>
      have hhead := congrArg List.head? h
      simp only [List.map_nil, List.flatten_nil, List.nil_append, List.map_cons,
        List.flatten_cons, List.append_assoc, hfirst, hu] at hhead
      exact absurd hhead (by decide)
    | cons q qs =>
      simp only [List.map_cons, List.flatten_cons, List.append_assoc] at h
      have hl : (parentLine p.toList).length = (parentLine q.toList).length := by
        simp [parentLine]
      obtain ⟨hline, hrest⟩ := List.append_inj h hl
      simp only [parentLine, List.append_assoc] at hline
      have hhex := List.append_cancel_right (List.append_cancel_left hline)
      obtain ⟨rfl, htu⟩ := ih qs hrest
      rw [show p = q from Subtype.ext (sha1ToHex_injective hhex)]
      exact ⟨rfl, htu⟩

/-- The same commit, but for the characters that are taken out. -/
structure SameCommit (x y : CommitInput) : Prop where
  tree : x.tree = y.tree
  parents : x.parents = y.parents
  author : x.author.cleaned = y.author.cleaned
  committer : x.committer.cleaned = y.committer.cleaned
  changelog : x.changelog = y.changelog

theorem text_eq (x : CommitInput) : x.text = treeLine x.tree.toList ++
    (((x.parents.map List.Vector.toList).map parentLine).flatten ++
      (signatureLine (str "author ") x.author.cleaned ++
        (signatureLine (str "committer ") x.committer.cleaned ++ 10 :: x.changelog.1))) := by
  simp [CommitInput.text, CommitInput.lines, headerLines]

theorem text_injective (h : x.text = y.text) : SameCommit x y := by
  rw [text_eq, text_eq] at h
  obtain ⟨htree, h⟩ := treeLine_injective _ _ h
  obtain ⟨hparents, h⟩ := parentLines_injective _ _ rfl rfl h
  obtain ⟨hauthor, h⟩ := signatureLine_injective _ _ _ h
  obtain ⟨hcommitter, h⟩ := signatureLine_injective _ _ _ h
  exact ⟨htree, hparents, hauthor, hcommitter, Subtype.ext (List.cons.inj h).2⟩

/-- `remove_special` deletes the special characters, once and for all, and the buffer of a commit
determines it as long as the size of the buffer fits its variable. -/
theorem commit_determined (s : CStr) (tail : List Byte) {x y : CommitInput} (hx : x.LinesFit)
    (hy : y.LinesFit) (hsx : x.Small) (hsy : y.Small) :
    (∃ mem, removeSpecial (s.1 ++ 0 :: tail) = some mem ∧
      stringAt mem = s.1.filter (fun c => c ≠ 10 ∧ c ≠ 60 ∧ c ≠ 62) ∧
      removeSpecial mem = some mem) ∧
    (∃ b, x.encode = some b) ∧ (x.encode = y.encode → SameCommit x y) := by
  constructor
  · obtain ⟨mem, hmem, hstr, hagain⟩ := removeSpecial_eq s tail
    refine ⟨mem, hmem, ?_, hagain⟩
    rw [hstr, clean]
    congr 1
    funext c
    simp [isSpecial, Bool.and_assoc]
  · rw [encode_small hx hsx, encode_small hy hsy]
    refine ⟨⟨_, rfl⟩, ?_⟩
    intro h
    apply text_injective
    have hnul : ∀ n, 0 ∉ str "commit " ++ numeral 10 (n % 2 ^ 32) := by
      intro n h0
      rcases List.mem_append.1 h0 with h0 | h0
      · exact absurd h0 (by decide)
      · exact digit_ne_zero (numeral_digit (by decide) (by decide) h0) rfl
    have hheader : ∀ n (t : List Byte), commitHeader n ++ t =
        (str "commit " ++ numeral 10 (n % 2 ^ 32)) ++ 0 :: t := by
      intro n t
      rw [commitHeader, List.append_assoc _ [0], List.singleton_append]
    have h := Option.some.inj h
    rw [hheader, hheader] at h
    exact (split_unique (hnul _) (hnul _) h).2

/-- Nobody's commit, of an empty tree, with the given changelog. -/
def anonymous (changelog : CStr) : CommitInput :=
  ⟨List.Vector.replicate 20 0, [], ⟨cstr "", cstr "", cstr ""⟩, ⟨cstr "", cstr "", cstr ""⟩,
    changelog⟩

theorem anonymous_lines (s : CStr) : (anonymous s).LinesFit := by
  intro line hline
  have hall : ∀ line ∈ (anonymous (cstr "")).lines, line.length < 2048 := by decide
  exact hall line hline

theorem anonymous_length (s : CStr) : (anonymous s).text.length = 74 + s.1.length := by
  have hlen : (anonymous (cstr "")).lines.flatten.length = 74 := by decide
  rw [CommitInput.text, List.length_append]
  exact congrArg (· + s.1.length) hlen

theorem commit_determined_two :
    (anonymous (cstr "x")).encode ≠ (anonymous (cstr "y")).encode := by
  intro h
  have hs : ∀ s : CStr, s.1.length = 1 → (anonymous s).Small := by
    intro s hs
    rw [CommitInput.Small, anonymous_length, hs]
    decide
  have hsame := (commit_determined (cstr "") [] (anonymous_lines (cstr "x"))
    (anonymous_lines (cstr "y")) (hs _ rfl) (hs _ rfl)).2.2 h
  exact absurd hsame.changelog (by decide)

theorem fgets_no_newline (n : Nat) (s : List Byte) (h : 10 ∉ s) :
    fgets n s = (s.take n, s.drop n) := by
  induction n generalizing s with
  | zero => rfl
  | succ n ih =>
    cases s with
    | nil => rfl
    | cons c s =>
      rw [List.mem_cons, not_or] at h
      rw [fgets, if_neg (Ne.symm h.1), ih s h.2]
      rfl

theorem commentPieces_last (s : List Byte) (h : 10 ∉ s) (h0 : s ≠ []) (hf : s.length ≤ fuel) :
    ∃ init last, commentPieces fuel s = init ++ [last] ∧
      last.length = (s.length - 1) % 999 + 1 := by
  induction fuel generalizing s with
  | zero => exact absurd (List.length_eq_zero_iff.1 (Nat.le_zero.1 hf)) h0
  | succ fuel ih =>
    cases s with
    | nil => exact absurd rfl h0
    | cons c s =>
      rw [commentPieces, fgets_no_newline _ _ h]
      simp only
      rw [List.length_cons] at hf
      by_cases hl : s.length < 999
      · have hnil : (c :: s).drop 999 = [] := List.drop_eq_nil_of_le (by simpa using hl)
        refine ⟨[], (c :: s).take 999, ?_, ?_⟩
        · rw [hnil]
          cases fuel <;> rfl
        · rw [List.take_of_length_le (by simpa using hl), List.length_cons, Nat.add_sub_cancel,
            Nat.mod_eq_of_lt hl]
      · have hlen : ((c :: s).drop 999).length = s.length + 1 - 999 := by
          rw [List.length_drop, List.length_cons]
        obtain ⟨init, last, heq, hlast⟩ := ih ((c :: s).drop 999)
          (fun hm => h (List.mem_of_mem_drop hm))
          (List.ne_nil_of_length_pos (by omega)) (by omega)
        refine ⟨(c :: s).take 999 :: init, last, by rw [heq]; rfl, ?_⟩
        rw [hlast, hlen, List.length_cons]
        omega

/-- A text of 2^32 bytes is not seen at all. -/
theorem encode_wrapped (s : CStr) (h : 10 ∉ s.1) (hn : s.1.length + 74 = 2 ^ 32) :
    (anonymous s).encode = some (commitHeader 0) := by
  obtain ⟨init, last, hpieces, hlast⟩ := commentPieces_last s.1 h
    (List.ne_nil_of_length_pos (by omega)) (Nat.le_refl _)
  have hlong : 40 < last.length := by
    rw [hlast, show s.1.length = 4294967222 by omega]
    decide
  have htexts : commitTexts (anonymous s).tree.toList
      ((anonymous s).parents.map List.Vector.toList) (anonymous s).author.cleaned
      (anonymous s).committer.cleaned (anonymous s).changelog.1 =
      ((anonymous s).lines ++ init) ++ [last] := by
    rw [commitTexts, comment_texts, List.append_assoc]
    exact congrArg _ hpieces
  have hfit := (anonymous_lines s).texts
  have hflat := commitTexts_flatten (anonymous s)
  have hlen := anonymous_length s
  rw [htexts] at hfit hflat
  rw [List.flatten_append, List.flatten_singleton] at hflat
  have hsum := congrArg List.length hflat
  rw [List.length_append, hlen] at hsum
  obtain ⟨b, hb, htight⟩ := addBuffer_short_all ((anonymous s).lines ++ init) initBuffer_tight
    (by
      simp only [List.length_nil, origOffset]
      omega)
    (fun t ht => hfit t (List.mem_append_left _ ht))
  rw [List.nil_append] at htight
  obtain ⟨b', hb', htight'⟩ := addBuffer_tight htight
    (by
      rw [origOffset]
      omega)
    (Nat.le_of_lt (hfit last (List.mem_append_right _ (List.mem_singleton.2 rfl))))
  rw [lineText_short (hfit last (List.mem_append_right _ (List.mem_singleton.2 rfl))), hflat]
    at htight'
  have hfold : (commitTexts (anonymous s).tree.toList
      ((anonymous s).parents.map List.Vector.toList) (anonymous s).author.cleaned
      (anonymous s).committer.cleaned (anonymous s).changelog.1).foldlM addBuffer initBuffer =
      some b' := by
    rw [htexts, List.foldlM_append, hb, Option.bind_eq_bind, Option.bind_some, List.foldlM_cons,
      hb', Option.bind_eq_bind, Option.bind_some]
    rfl
  have hheader : commitHeader (anonymous s).text.length = commitHeader 0 := by
    rw [hlen, commitHeader, commitHeader, show 74 + s.1.length = 2 ^ 32 by omega, Nat.mod_self,
      Nat.zero_mod]
  rw [encode_of_tight hfold htight', hheader, hlen]
  have hsize : ((commitHeader 0).length + (74 + s.1.length)) % 2 ^ 32 =
      (commitHeader 0).length := by
    have := commitHeader_length_le 0
    omega
  rw [hsize, List.take_left]

/-- Two changelogs that differ in their first byte, with 2^32 bytes of text. -/
theorem commit_confused : ¬ ∀ x y : CommitInput, x.LinesFit → y.LinesFit →
    x.encode = y.encode → SameCommit x y := by
  intro hall
  obtain ⟨n, hn⟩ : ∃ n, n + 75 = 2 ^ 32 := ⟨4294967221, by decide⟩
  let s (c : Byte) (hc : 0 ≠ c) : CStr := ⟨c :: List.replicate n 97, by
    rw [List.mem_cons, not_or]
    exact ⟨hc, fun h => absurd (List.eq_of_mem_replicate h) (by decide)⟩⟩
  have hline : ∀ c hc, c ≠ 10 → 10 ∉ (s c hc).1 := by
    intro c hc h10 h
    rcases List.mem_cons.1 h with h | h
    · exact h10 h.symm
    · exact absurd (List.eq_of_mem_replicate h) (by decide)
  have hlen : ∀ c hc, (s c hc).1.length + 74 = 2 ^ 32 := by
    intro c hc
    simp only [s, List.length_cons, List.length_replicate]
    omega
  have ha : (0 : Byte) ≠ 97 := by decide
  have hb : (0 : Byte) ≠ 98 := by decide
  have hsame := hall (anonymous (s 97 ha)) (anonymous (s 98 hb)) (anonymous_lines _)
    (anonymous_lines _) (by
      rw [encode_wrapped _ (hline 97 ha (by decide)) (hlen 97 ha),
        encode_wrapped _ (hline 98 hb (by decide)) (hlen 98 hb)])
  have hlog := congrArg (fun c : CStr => c.1.head?) hsame.changelog
  exact absurd hlog (by
    change some (97 : Byte) ≠ some 98
    decide)

end SelfGit

import SelfGit.Index

namespace SelfGit
open Foundation
set_option autoImplicit true

/-- Room in front for `tree <size>` and its NUL. -/
def origOffset : Nat := 40

/-- The loop of `prepend_integer`: the digits are stored downwards, with room for each. -/
def storeDigits : Nat → Nat → List Byte → Nat → Option (List Byte × Nat)
  | 0, _, buffer, i => some (buffer, i)
  | fuel + 1, val, buffer, i =>
    if i = 0 then none
    else
      let buffer := buffer.set (i - 1) (UInt8.ofNat (48 + val % 10))
      if val / 10 = 0 then some (buffer, i - 1) else storeDigits fuel (val / 10) buffer (i - 1)

/-- The buffer and the position where the number starts. -/
def prependInteger (buffer : List Byte) (val i : Nat) : Option (List Byte × Nat) :=
  if i = 0 then none else storeDigits (val + 1) val (buffer.set (i - 1) 0) (i - 1)

/-- The header written into the reserve in front of the data, and the start of it. -/
def prependHeader (tag : List Byte) (buffer : List Byte) (val : Nat) :
    Option (List Byte × Nat) := do
  let (buffer, i) ← prependInteger buffer val origOffset
  if tag.length ≤ i then
    let i := i - tag.length
    some (buffer.take i ++ tag ++ buffer.drop (i + tag.length), i)
  else none

/-- The bytes that `write_tree` has stored from `ORIG_OFFSET` on, and the size of the block. -/
structure TreeBuffer where
  payload : List Byte
  size : Nat
  deriving DecidableEq

def TreeBuffer.offset (b : TreeBuffer) : Nat := origOffset + b.payload.length

/-- One turn of the loop after the object has been found. Every store has to lie in the block. -/
def addTreeEntry (b : TreeBuffer) (ce : CacheEntry) : Option TreeBuffer := do
  let need := b.offset + ce.namelen.toNat + 60
  let size := if need > b.size then (need + 16) * 3 % 2 ^ 64 / 2 else b.size
  let n ← strlen ce.name
  let text := numeral 8 ce.stMode.toNat ++ 32 :: ce.name.take n
  if b.offset + text.length + 1 ≤ size ∧ b.offset + text.length + 1 + 20 ≤ size then
    some ⟨b.payload ++ text ++ 0 :: ce.sha1.toList, size⟩
  else none

/-- `check_valid_sha1` and the buffer, entry by entry. -/
def addTreeEntries (L : Lib) : Nat → List (Option CacheEntry) → TreeBuffer → Proc TreeBuffer
  | 0, _, b => return b
  | n + 1, some ce :: slots, b => do
    if ← access (sha1FileName L ce.sha1) then
      let b ← defined (addTreeEntry b ce)
      addTreeEntries L n slots b
    else Prog.halt (.exit 1)
  | _ + 1, _, _ => Prog.halt .fault

/-- The size is an `unsigned` there, whatever it is here. What the reserve held before is
overwritten or cut off. -/
def finishTree (b : TreeBuffer) : Option (List Byte × Nat) := do
  let (buffer, i) ← prependHeader (str "tree ") (List.replicate origOffset 0 ++ b.payload)
    (b.payload.length % 2 ^ 32)
  some (buffer.drop i, b.offset - i)

/-- The part of `write_tree` up to `write_sha1_file`. The first guess at the size is signed. -/
def buildTree (L : Lib) (entries : Nat) (c : Cache) : Proc (List Byte × Nat) := do
  if entries * 40 + 400 < 2 ^ 31 then
    let b ← addTreeEntries L entries c.activeCache ⟨[], entries * 40 + 400⟩
    let (buffer, len) ← defined (finishTree b)
    return (buffer, len % 2 ^ 32)
  else Prog.halt .fault

/-- Up to the first NUL, without which it goes on past both blocks, as the flag tells. -/
def strcpy (dst src : List Byte) : List Byte × Bool :=
  match strlen src with
  | some n => (src.take (n + 1) ++ dst.drop (n + 1), false)
  | none => (src, true)

/-- What `write_tree` leaves in the block `sha1` of its caller, and whether it has run past it. -/
def writeTree (L : Lib) (sha1 : List Byte) : Proc (List Byte × Bool) := do
  let (entries, c) ← readCache L Cache.null
  if entries ≤ 0 then Prog.halt (.exit 1)
  else
    let (buffer, len) ← buildTree L entries.toNat c
    treeOf (c.activeCache.take entries.toNat).reduceOption
    let (_, hash) ← writeSha1File L buffer len
    return strcpy sha1 hash.toList

/-- A line that `unpack` prints. -/
structure TreeRecord where
  mode : UInt32
  path : List Byte
  sha1 : List Byte
  deriving DecidableEq

inductive UnpackEnd where
  | done
  | corrupt
  | fault
  | endless
  deriving DecidableEq

/-- The loop of `unpack`. Looking for a NUL behind the payload and adding to the null pointer of a
missing blank are undefined. The length of a line is an `int`, which a huge one can overflow. -/
def unpackLoop (payload : List Byte) : Nat → Nat → List TreeRecord × UnpackEnd
  | 0, _ => ([], .endless)
  | fuel + 1, pos =>
    if payload.length ≤ pos then ([], .done)
    else
      match strlen (payload.drop pos) with
      | none => ([], .fault)
      | some n =>
        let line := (payload.drop pos).take n
        let len := toInt (n + 1 : Nat)
        if pos + len < 0 ∨ 32 ∉ line ∨ 2 ^ 31 ≤ len + 20 then ([], .fault)
        -- a negative sum is huge where it is compared with the size
        else if len + 20 < 0 ∨ ((payload.length - pos : Nat) : Int) < len + 20 then ([], .corrupt)
        else
          match scanUnsigned 8 line with
          | none => ([], .corrupt)
          | some (mode, _) =>
            let path := (line.dropWhile (· ≠ 32)).drop 1
            let sha1 := (pos + len).toNat
            let rest := unpackLoop payload fuel (sha1 + 20)
            (⟨UInt32.ofNat mode, path, (payload.drop sha1).take 20⟩ :: rest.1, rest.2)

/-- The lines printed; `usage` ends the process. -/
def unpack (L : Lib) (sha1 : Sha1) : Proc (List TreeRecord) := do
  match ← readSha1File L sha1 with
  | none => Prog.halt (.exit 1)
  | some (type, _, buffer) =>
    if type = str "tree" then
      match unpackLoop buffer (buffer.length + 1) 0 with
      | (lines, .done) => return lines
      | (_, .corrupt) => Prog.halt (.exit 1)
      | _ => Prog.halt .fault
    else Prog.halt (.exit 1)

def CacheEntry.triple (ce : CacheEntry) : TreeRecord := ⟨ce.stMode, ce.key, ce.sha1.toList⟩

/-- A name of `namelen` bytes other than NUL, with a NUL behind it. -/
def CacheEntry.Named (ce : CacheEntry) : Prop := strlen ce.name = some ce.namelen.toNat

def TreeRecord.bytes (r : TreeRecord) : List Byte :=
  numeral 8 r.mode.toNat ++ 32 :: r.path ++ 0 :: r.sha1

def treePayload (es : List CacheEntry) : List Byte := es.flatMap fun ce => ce.triple.bytes

def treeBytes (es : List CacheEntry) : List Byte :=
  str "tree " ++ numeral 10 ((treePayload es).length % 2 ^ 32) ++ 0 :: treePayload es

theorem CacheEntry.Named.no_nul (h : CacheEntry.Named ce) : 0 ∉ ce.key := by
  obtain ⟨t, -, h0, -⟩ := strlen_spec h
  exact h0

theorem numeral_mode_length (m : UInt32) : (numeral 8 m.toNat).length ≤ 11 := by
  have hm := m.toNat_lt
  exact numeral_length_le (by decide) (by decide) (by omega)

theorem CacheEntry.record_length_eq (ce : CacheEntry) :
    ce.triple.bytes.length = (numeral 8 ce.stMode.toNat).length + ce.namelen.toNat + 22 := by
  simp only [TreeRecord.bytes, CacheEntry.triple, List.length_append, List.length_cons,
    CacheEntry.key_length, List.Vector.toList_length]
  omega

theorem CacheEntry.record_length (ce : CacheEntry) :
    ce.triple.bytes.length ≤ ce.namelen.toNat + 33 := by
  have := numeral_mode_length ce.stMode
  have := ce.record_length_eq
  omega

theorem addTreeEntry_named (hn : ce.Named) (hb : b.offset < 2 ^ 61) :
    ∃ size, addTreeEntry b ce = some ⟨b.payload ++ ce.triple.bytes, size⟩ := by
  have hmode := numeral_mode_length ce.stMode
  have hk := ce.key_length
  have hlt := ce.namelen.toNat_lt
  have hstr : strlen ce.name = some ce.namelen.toNat := hn
  obtain ⟨size, hsize⟩ : ∃ size, size = if b.offset + ce.namelen.toNat + 60 > b.size then
    (b.offset + ce.namelen.toNat + 60 + 16) * 3 % 2 ^ 64 / 2 else b.size := ⟨_, rfl⟩
  have hroom : b.offset + ce.namelen.toNat + 60 ≤ size := by
    rw [hsize, Nat.mod_eq_of_lt (by omega)]
    split <;> omega
  refine ⟨size, ?_⟩
  simp only [addTreeEntry, hstr, Option.bind_eq_bind, Option.bind_some, ← hsize]
  rw [if_pos]
  · simp only [TreeRecord.bytes, CacheEntry.triple, CacheEntry.key, List.append_assoc]
  · simp only [List.length_append, List.length_cons]
    simp only [CacheEntry.key] at hk
    omega

theorem addTreeEntry_all (es : List CacheEntry) (hn : ∀ ce ∈ es, ce.Named) (b : TreeBuffer)
    (hb : b.offset + 65568 * es.length < 2 ^ 61) :
    ∃ size, es.foldlM addTreeEntry b = some ⟨b.payload ++ treePayload es, size⟩ := by
  induction es generalizing b with
  | nil => exact ⟨b.size, by simp [treePayload]⟩
  | cons ce es ih =>
    have hr := ce.record_length
    have hlt := ce.namelen.toNat_lt
    rw [List.length_cons] at hb
    obtain ⟨size, hs⟩ := addTreeEntry_named (hn ce List.mem_cons_self) (b := b) (by omega)
    obtain ⟨size', hs'⟩ := ih (fun e he => hn e (List.mem_cons_of_mem _ he))
      ⟨b.payload ++ ce.triple.bytes, size⟩ (by
        simp only [TreeBuffer.offset, List.length_append] at hb ⊢
        omega)
    refine ⟨size', ?_⟩
    rw [List.foldlM_cons, hs, Option.bind_eq_bind, Option.bind_some, hs']
    simp only [treePayload, List.flatMap_cons, List.append_assoc]

theorem numeral_step (n : Nat) (h : n / 10 ≠ 0) :
    numeral 10 n = numeral 10 (n / 10) ++ [UInt8.ofNat (48 + n % 10)] := by
  have hn : n ≠ 0 := by omega
  rw [numeral, if_neg hn, numeral, if_neg h, Nat.digits_def' (by decide) (by omega)]
  simp

theorem numeral_digit_one (n : Nat) (h : n / 10 = 0) :
    numeral 10 n = [UInt8.ofNat (48 + n % 10)] := by
  have hlt : n < 10 := by omega
  rw [numeral]
  split
  · rename_i h0
    subst h0
    rfl
  · rename_i h0
    rw [Nat.digits_of_lt 10 n h0 hlt, Nat.mod_eq_of_lt hlt]
    rfl

theorem storeDigits_eq (fuel val : Nat) (r t : List Byte) (hf : val < fuel)
    (hl : (numeral 10 val).length ≤ r.length) :
    storeDigits fuel val (r ++ t) r.length =
      some (r.take (r.length - (numeral 10 val).length) ++ numeral 10 val ++ t,
        r.length - (numeral 10 val).length) := by
  induction fuel generalizing val r t with
  | zero => omega
  | succ fuel ih =>
    have hpos := numeral_length_pos 10 val
    obtain ⟨init, last, rfl⟩ := (List.eq_nil_or_concat r).resolve_left
      (List.ne_nil_of_length_pos (by omega))
    rw [List.concat_eq_append] at hl ⊢
    have hset : (init ++ [last] ++ t).set ((init ++ [last]).length - 1)
        (UInt8.ofNat (48 + val % 10)) = init ++ (UInt8.ofNat (48 + val % 10) :: t) := by
      simp
    have hlen : (init ++ [last]).length = init.length + 1 := by simp
    rw [storeDigits, if_neg (by omega)]
    simp only [hset]
    rw [hlen, Nat.add_sub_cancel]
    split
    · rename_i h0
      rw [numeral_digit_one val h0]
      simp
    · rename_i h0
      have hstep := numeral_step val h0
      have hnl := congrArg List.length hstep
      rw [List.length_append, List.length_singleton] at hnl
      rw [ih (val / 10) init _ (by omega) (by omega), hstep, List.length_append,
        List.length_singleton, Nat.add_sub_add_right, List.take_append_of_le_length (by omega)]
      simp only [List.append_assoc, List.cons_append, List.nil_append]

theorem prependHeader_eq (tag : List Byte) (val : Nat) (r t : List Byte)
    (hr : r.length = origOffset) (hl : tag.length + (numeral 10 val).length + 1 ≤ origOffset) :
    ∃ pre : List Byte, prependHeader tag (r ++ t) val =
      some (pre ++ (tag ++ numeral 10 val ++ 0 :: t), pre.length) ∧
      pre.length + (tag.length + (numeral 10 val).length + 1) = origOffset := by
  simp only [origOffset] at hr hl ⊢
  obtain ⟨init, last, rfl⟩ := (List.eq_nil_or_concat r).resolve_left
    (List.ne_nil_of_length_pos (by omega))
  rw [List.concat_eq_append] at hr ⊢
  have hinit : init.length = 39 := by
    simp only [List.length_append, List.length_singleton] at hr
    omega
  have hset : (init ++ [last] ++ t).set (40 - 1) 0 = init ++ (0 :: t) := by
    rw [show 40 - 1 = init.length by omega]
    simp
  have hd := storeDigits_eq (val + 1) val init (0 :: t) (Nat.lt_succ_self _) (by omega)
  rw [hinit] at hd
  obtain ⟨i, hi⟩ : ∃ i, i = 39 - (numeral 10 val).length - tag.length := ⟨_, rfl⟩
  have htake : (init.take (39 - (numeral 10 val).length)).length =
      39 - (numeral 10 val).length := by
    rw [List.length_take]
    omega
  refine ⟨init.take i, ?_, by rw [List.length_take]; omega⟩
  rw [prependHeader, prependInteger, if_neg (by decide), origOffset, hset]
  simp only [hd, Option.bind_eq_bind, Option.bind_some, Nat.reduceSub]
  rw [if_pos (by omega), ← hi]
  simp only [Option.some.injEq, Prod.mk.injEq]
  constructor
  · rw [show i + tag.length = (init.take (39 - (numeral 10 val).length)).length by omega,
      List.append_assoc (init.take _), List.drop_left, List.take_append_of_le_length (by omega),
      List.take_take, Nat.min_eq_left (by omega)]
    simp only [List.append_assoc]
  · rw [List.length_take]
    omega

theorem finishTree_eq (es : List CacheEntry) (size : Nat) :
    finishTree ⟨treePayload es, size⟩ = some (treeBytes es, (treeBytes es).length) := by
  have hlt : (treePayload es).length % 2 ^ 32 < 2 ^ 32 := Nat.mod_lt _ (by decide)
  have hnum := numeral_length_le (b := 10) (k := 10) (n := (treePayload es).length % 2 ^ 32)
    (by decide) (by decide) (by omega)
  have htag : (str "tree ").length = 5 := by decide
  obtain ⟨pre, hpre, hlen⟩ := prependHeader_eq (str "tree ") ((treePayload es).length % 2 ^ 32)
    (List.replicate origOffset 0) (treePayload es) List.length_replicate (by
      rw [htag, origOffset]
      omega)
  simp only [finishTree, hpre, Option.bind_eq_bind, Option.bind_some, List.drop_left,
    TreeBuffer.offset, Option.some.injEq, Prod.mk.injEq]
  refine ⟨rfl, ?_⟩
  rw [treeBytes, List.length_append, List.length_append, List.length_cons]
  omega

end SelfGit

import SelfGit.Foundation.Bytes

namespace Foundation
set_option autoImplicit true

inductive HasArg where
  | noArgument
  | requiredArgument
  | optionalArgument
  deriving DecidableEq

/-- A row of the table of long options, with no variable to set: its value is returned. -/
structure LongOption where
  name : List Byte
  hasArg : HasArg
  val : Byte
  deriving DecidableEq

/-- What `getopt_long` keeps between its calls: the words as it has permuted them, the index of the
next one, the span of the words it has skipped, and what is left of a word of short options. -/
structure Getopt (α : Type) where
  argv : List α
  optind : Nat
  firstNonopt : Nat
  lastNonopt : Nat
  nextchar : List Byte

/-- A word that is no option: it does not start with a dash, or is nothing but a dash. -/
def nonoption : List Byte → Bool
  | 45 :: _ :: _ => false
  | _ => true

/-- The row for a long option: that of its name, or of the only one that the name abbreviates. -/
def findLong (longopts : List LongOption) (name : List Byte) : Option LongOption :=
  match longopts.find? fun o => o.name = name with
  | some o => some o
  | none =>
    match longopts.filter fun o => name.isPrefixOf o.name with
    | [] => none
    | o :: os => if os.all fun o' => o'.hasArg = o.hasArg ∧ o'.val = o.val then some o else none

/-- What a character of a word of short options stands for. -/
def findShort (optstring : List Byte) (c : Byte) : Option HasArg :=
  if c = 58 ∨ c = 59 then none
  else
    match optstring.dropWhile (· ≠ c) with
    | [] => none
    | _ :: 58 :: 58 :: _ => some .optionalArgument
    | _ :: 58 :: _ => some .requiredArgument
    | _ :: _ => some .noArgument

namespace Getopt

def start (argv : List α) : Getopt α := ⟨argv, 1, 1, 1, []⟩

/-- Move the words skipped behind those read since. -/
def exchange (g : Getopt α) : Getopt α :=
  { g with
    argv := g.argv.take g.firstNonopt ++ (g.argv.take g.optind).drop g.lastNonopt ++
      (g.argv.take g.lastNonopt).drop g.firstNonopt ++ g.argv.drop g.optind
    firstNonopt := g.firstNonopt + (g.optind - g.lastNonopt)
    lastNonopt := g.optind }

section Scanning
variable (text : α → List Byte)

/-- Get to the next word to look at. When the order is to be kept that is the next one, and else
words that are no options are skipped. -/
def skip (posix : Bool) (g : Getopt α) : Getopt α :=
  let g := { g with
    firstNonopt := min g.firstNonopt g.optind
    lastNonopt := min g.lastNonopt g.optind }
  if posix then g
  else
    let g :=
      if g.firstNonopt ≠ g.lastNonopt ∧ g.lastNonopt ≠ g.optind then g.exchange
      else if g.lastNonopt ≠ g.optind then { g with firstNonopt := g.optind }
      else g
    let optind := g.optind +
      ((g.argv.drop g.optind).takeWhile fun w => nonoption (text w)).length
    { g with optind := optind, lastNonopt := optind }

/-- Behind the word `--` there are no options. -/
def terminate (g : Getopt α) : Getopt α :=
  let g := { g with optind := g.optind + 1 }
  let g :=
    if g.firstNonopt ≠ g.lastNonopt ∧ g.lastNonopt ≠ g.optind then g.exchange
    else if g.firstNonopt = g.lastNonopt then { g with firstNonopt := g.optind }
    else g
  { g with lastNonopt := g.argv.length, optind := g.argv.length }

def nextWord (c : Byte) (g : Getopt α) : Option (Byte × Option (List Byte)) × Getopt α :=
  match g.argv[g.optind]? with
  | none => (some (63, none), g)
  | some w => (some (c, some (text w)), { g with optind := g.optind + 1 })

/-- The word at hand without its two dashes. Its name ends at an equals sign, if there is one. -/
def longOption (longopts : List LongOption) (word : List Byte) (g : Getopt α) :
    Option (Byte × Option (List Byte)) × Getopt α :=
  let g := { g with optind := g.optind + 1, nextchar := [] }
  let name := word.takeWhile (· ≠ 61)
  match findLong longopts name with
  | none => (some (63, none), g)
  | some o =>
    match word.drop name.length with
    | _ :: arg =>
      if o.hasArg = .noArgument then (some (63, none), g) else (some (o.val, some arg), g)
    | [] =>
      if o.hasArg = .requiredArgument then g.nextWord text o.val else (some (o.val, none), g)

/-- One character of a word of short options, and what comes behind it in the word. -/
def shortOption (optstring : List Byte) (c : Byte) (rest : List Byte) (g : Getopt α) :
    Option (Byte × Option (List Byte)) × Getopt α :=
  let next := { g with optind := g.optind + 1, nextchar := [] }
  let g := if rest = [] then next else { g with nextchar := rest }
  match findShort optstring c with
  | none => (some (63, none), g)
  | some .noArgument => (some (c, none), g)
  | some .requiredArgument => if rest = [] then g.nextWord text c else (some (c, some rest), next)
  | some .optionalArgument =>
    if rest = [] then (some (c, none), g) else (some (c, some rest), next)

/-- A call of `getopt_long`. The option string starts with none of the characters that change the
order or the errors, so every error is a question mark, and has no `W;` in it. -/
def getoptLong (posix : Bool) (optstring : List Byte) (longopts : List LongOption)
    (g : Getopt α) : Option (Byte × Option (List Byte)) × Getopt α :=
  match g.nextchar with
  | c :: rest => g.shortOption text optstring c rest
  | [] =>
    let g := g.skip text posix
    let g := if (g.argv[g.optind]?).map text = some [45, 45] then g.terminate else g
    match g.argv[g.optind]? with
    | none =>
      (none, if g.firstNonopt ≠ g.lastNonopt then { g with optind := g.firstNonopt } else g)
    | some w =>
      match text w with
      | 45 :: 45 :: word => g.longOption text longopts word
      | 45 :: c :: rest => g.shortOption text optstring c rest
      | _ => (none, g)

/-- Between two words, with nothing skipped since the last option. -/
structure AtWord (g : Getopt α) : Prop where
  nextchar : g.nextchar = []
  first : g.firstNonopt = g.lastNonopt
  last : g.lastNonopt ≤ g.optind

theorem start_atWord (argv : List α) : (start argv).AtWord := ⟨rfl, rfl, Nat.le_refl _⟩

variable {text : α → List Byte} {g : Getopt α} {posix : Bool} {optstring : List Byte}
  {longopts : List LongOption}

theorem skip_option (posix : Bool) (h : g.AtWord) (hw : g.argv[g.optind]? = some w)
    (ho : nonoption (text w) = false) : ∃ first last, first = last ∧ last ≤ g.optind ∧
      g.skip text posix = { g with firstNonopt := first, lastNonopt := last } := by
  have hfirst := h.first
  have hlast := h.last
  have hmin : min g.lastNonopt g.optind = g.lastNonopt := Nat.min_eq_left hlast
  simp only [skip, hfirst, hmin, ne_eq, not_true_eq_false, false_and, ↓reduceIte]
  cases posix with
  | true => exact ⟨g.lastNonopt, g.lastNonopt, rfl, hlast, rfl⟩
  | false =>
    have hdrop : g.argv.drop g.optind = w :: g.argv.drop (g.optind + 1) := by
      obtain ⟨hlt, rfl⟩ := List.getElem?_eq_some_iff.1 hw
      exact List.drop_eq_getElem_cons hlt
    refine ⟨g.optind, g.optind, rfl, Nat.le_refl _, ?_⟩
    by_cases he : g.lastNonopt = g.optind
    · simp [he, hdrop, ho]
    · simp [he, hdrop, ho]

theorem nonoption_dashes (h : nonoption word = true) (c : Byte) (rest : List Byte) :
    word ≠ 45 :: c :: rest := by
  rintro rfl
  cases h

/-- When only words are left that are no options, the call tells so and leaves them in place. -/
theorem getoptLong_nonoptions (posix : Bool) (optstring : List Byte)
    (longopts : List LongOption) (h : g.AtWord) (hle : g.optind ≤ g.argv.length)
    (hall : ∀ w ∈ g.argv.drop g.optind, nonoption (text w) = true) :
    ∃ g', g.getoptLong text posix optstring longopts = (none, g') ∧ g'.argv = g.argv ∧
      g'.optind = g.optind := by
  have hfirst := h.first
  have hmin : min g.lastNonopt g.optind = g.lastNonopt := Nat.min_eq_left h.last
  simp only [getoptLong, h.nextchar, skip, hfirst, hmin, ne_eq, not_true_eq_false, false_and,
    ↓reduceIte]
  cases posix with
  | true =>
    cases hw : g.argv[g.optind]? with
    | none =>
      refine ⟨⟨g.argv, g.optind, g.lastNonopt, g.lastNonopt, []⟩, ?_, rfl, rfl⟩
      simp [hw]
    | some w =>
      have hmem : w ∈ g.argv.drop g.optind := by
        obtain ⟨hlt, rfl⟩ := List.getElem?_eq_some_iff.1 hw
        rw [List.drop_eq_getElem_cons hlt]
        exact List.mem_cons_self
      have hno := nonoption_dashes (hall w hmem)
      have hdd : ¬ text w = [45, 45] := hno 45 []
      refine ⟨⟨g.argv, g.optind, g.lastNonopt, g.lastNonopt, []⟩, ?_, rfl, rfl⟩
      simp only [hw, Option.map_some, Option.some.injEq, hdd, ↓reduceIte]
      split
      · rename_i word hword
        exact absurd hword (hno 45 word)
      · rename_i c rest _ hword
        exact absurd hword (hno c rest)
      · rfl
  | false =>
    -- all of them are skipped, and the index goes back to the first
    have hskip : ((g.argv.drop g.optind).takeWhile fun w => nonoption (text w)) =
        g.argv.drop g.optind := List.takeWhile_eq_self_iff.2 hall
    have hend : g.optind + (g.argv.length - g.optind) = g.argv.length := by omega
    by_cases he : g.lastNonopt = g.optind
    · simp only [he, hskip, not_true_eq_false, ↓reduceIte, Bool.false_eq_true, List.length_drop,
        hend, List.getElem?_length, Option.map_none, reduceCtorEq]
      split
      · exact ⟨_, rfl, rfl, rfl⟩
      · rename_i hsame
        rw [not_not] at hsame
        exact ⟨_, rfl, rfl, hsame.symm⟩
    · simp only [he, hskip, not_false_eq_true, ↓reduceIte, Bool.false_eq_true, List.length_drop,
        hend, List.getElem?_length, Option.map_none, reduceCtorEq]
      split
      · exact ⟨_, rfl, rfl, rfl⟩
      · rename_i hsame
        rw [not_not] at hsame
        exact ⟨_, rfl, rfl, hsame.symm⟩

theorem getoptLong_long (posix : Bool) (optstring : List Byte) (longopts : List LongOption)
    (h : g.AtWord) (hw : g.argv[g.optind]? = some w)
    (ht : text w = 45 :: 45 :: word) (hne : word ≠ []) : ∃ first last, first = last ∧
      last ≤ g.optind ∧ g.getoptLong text posix optstring longopts =
        longOption text longopts word { g with firstNonopt := first, lastNonopt := last } := by
  obtain ⟨first, last, hfl, hlast, hskip⟩ := skip_option posix h hw
    (show nonoption (text w) = false by rw [ht]; rfl)
  refine ⟨first, last, hfl, hlast, ?_⟩
  simp [getoptLong, h.nextchar, hskip, hw, ht, hne]

theorem getoptLong_short (posix : Bool) (optstring : List Byte) (longopts : List LongOption)
    (h : g.AtWord) (hw : g.argv[g.optind]? = some w)
    (ht : text w = 45 :: c :: rest) (hc : c ≠ 45) : ∃ first last, first = last ∧
      last ≤ g.optind ∧ g.getoptLong text posix optstring longopts =
        shortOption text optstring c rest { g with firstNonopt := first, lastNonopt := last } := by
  obtain ⟨first, last, hfl, hlast, hskip⟩ := skip_option posix h hw
    (show nonoption (text w) = false by rw [ht]; rfl)
  refine ⟨first, last, hfl, hlast, ?_⟩
  simp [getoptLong, h.nextchar, hskip, hw, ht, hc]

theorem longOption_separate (hname : 61 ∉ name) (hf : findLong longopts name = some o)
    (ho : o.hasArg = .requiredArgument) (hp : g.argv[g.optind + 1]? = some p) :
    g.longOption text longopts name =
      (some (o.val, some (text p)), { g with optind := g.optind + 2, nextchar := [] }) := by
  have hall : name.takeWhile (· ≠ 61) = name := by
    rw [List.takeWhile_eq_self_iff]
    intro c hc
    simp only [ne_eq, decide_not, Bool.not_eq_eq_eq_not, Bool.not_true, decide_eq_false_iff_not]
    rintro rfl
    exact hname hc
  simp only [longOption, hall, hf, List.drop_length, ho, ↓reduceIte, nextWord, hp]

theorem longOption_attached (hname : 61 ∉ name) (hf : findLong longopts name = some o)
    (ho : o.hasArg = .requiredArgument) (arg : List Byte) :
    g.longOption text longopts (name ++ 61 :: arg) =
      (some (o.val, some arg), { g with optind := g.optind + 1, nextchar := [] }) := by
  have hall : (name ++ 61 :: arg).takeWhile (· ≠ 61) = name := by
    rw [List.takeWhile_append_of_pos]
    · simp
    · intro c hc
      simp only [ne_eq, decide_not, Bool.not_eq_eq_eq_not, Bool.not_true, decide_eq_false_iff_not]
      rintro rfl
      exact hname hc
  simp only [longOption, hall, hf, List.drop_left, ho, reduceCtorEq, ↓reduceIte]

theorem shortOption_separate (hf : findShort optstring c = some .requiredArgument)
    (hp : g.argv[g.optind + 1]? = some p) :
    g.shortOption text optstring c [] =
      (some (c, some (text p)), { g with optind := g.optind + 2, nextchar := [] }) := by
  simp only [shortOption, hf, ↓reduceIte, nextWord, hp]

theorem shortOption_attached (hf : findShort optstring c = some .requiredArgument)
    (hr : rest ≠ []) : g.shortOption text optstring c rest =
      (some (c, some rest), { g with optind := g.optind + 1, nextchar := [] }) := by
  simp only [shortOption, hf, hr, ↓reduceIte]

/-- The indices are in order and inside the words, and there is a word to what is left of one. -/
structure Sound (g : Getopt α) : Prop where
  first : g.firstNonopt ≤ g.lastNonopt
  last : g.lastNonopt ≤ g.optind
  optind : g.optind ≤ g.argv.length
  word : g.nextchar ≠ [] → g.optind < g.argv.length

theorem start_sound {argv : List α} (h : argv ≠ []) : (start argv).Sound :=
  ⟨Nat.le_refl _, Nat.le_refl _, List.length_pos_of_ne_nil h, fun hn => absurd rfl hn⟩

def size (text : α → List Byte) (argv : List α) (k : Nat) : Nat :=
  ((argv.drop k).map fun w => (text w).length + 1).sum

/-- What is left to scan. A word of short options is at the index until its end. -/
def left (text : α → List Byte) (g : Getopt α) : Nat :=
  if g.nextchar = [] then size text g.argv g.optind
  else g.nextchar.length + size text g.argv (g.optind + 1)

theorem size_anti (argv : List α) (h : j ≤ k) : size text argv k ≤ size text argv j := by
  obtain ⟨n, rfl⟩ := Nat.exists_eq_add_of_le h
  have hsplit := List.take_append_drop n (argv.drop j)
  rw [List.drop_drop] at hsplit
  rw [size, size, ← hsplit, List.map_append, List.sum_append]
  omega

theorem size_word (text : α → List Byte) {argv : List α} (hw : argv[k]? = some w) :
    size text argv k = (text w).length + 1 + size text argv (k + 1) := by
  obtain ⟨hlt, rfl⟩ := List.getElem?_eq_some_iff.1 hw
  rw [size, size, List.drop_eq_getElem_cons hlt, List.map_cons, List.sum_cons]

theorem exchange_argv (h : g.Sound) :
    g.exchange.argv.drop g.optind = g.argv.drop g.optind ∧
      g.exchange.argv.length = g.argv.length := by
  have hfirst := h.first
  have hlast := h.last
  have hoptind := h.optind
  have hfront : (g.argv.take g.firstNonopt ++ (g.argv.take g.optind).drop g.lastNonopt ++
      (g.argv.take g.lastNonopt).drop g.firstNonopt).length = g.optind := by
    simp only [List.length_append, List.length_take, List.length_drop]
    omega
  constructor
  · exact List.drop_left' hfront
  · rw [exchange, List.length_append, hfront, List.length_drop]
    omega

theorem skip_sound (text : α → List Byte) (posix : Bool) (h : g.Sound) (hn : g.nextchar = []) :
    (g.skip text posix).Sound ∧
    size text (g.skip text posix).argv (g.skip text posix).optind ≤
      size text g.argv g.optind := by
  have hfirst := h.first
  have hlast := h.last
  have hoptind := h.optind
  have hmin1 : min g.firstNonopt g.optind = g.firstNonopt := Nat.min_eq_left (by omega)
  have hmin2 : min g.lastNonopt g.optind = g.lastNonopt := Nat.min_eq_left hlast
  have hwhile : ∀ argv : List α, ((argv.drop g.optind).takeWhile fun w =>
      nonoption (text w)).length ≤ argv.length - g.optind := by
    intro argv
    rw [← List.length_drop]
    exact (List.takeWhile_sublist _).length_le
  simp only [skip, hmin1, hmin2]
  cases posix with
  | true => exact ⟨⟨hfirst, hlast, hoptind, h.word⟩, Nat.le_refl _⟩
  | false =>
    simp only [Bool.false_eq_true, ↓reduceIte]
    split
    · obtain ⟨hdrop, hlen⟩ := exchange_argv h
      have hbound := hwhile g.exchange.argv
      refine ⟨⟨?_, Nat.le_refl _, ?_, fun hne => absurd hn hne⟩, ?_⟩
      · simp only [exchange]
        omega
      · simp only [exchange] at hlen hbound ⊢
        omega
      · refine (size_anti g.exchange.argv (Nat.le_add_right g.optind _)).trans ?_
        rw [size, size, hdrop]
    · have hbound := hwhile g.argv
      split
      · refine ⟨⟨?_, Nat.le_refl _, ?_, fun hne => absurd hn hne⟩,
          size_anti _ (Nat.le_add_right _ _)⟩
        · simp only
          omega
        · simp only
          omega
      · refine ⟨⟨?_, Nat.le_refl _, ?_, fun hne => absurd hn hne⟩,
          size_anti _ (Nat.le_add_right _ _)⟩
        · simp only
          omega
        · simp only
          omega

/-- No more is left than the words from `k` on. -/
structure Within (text : α → List Byte) (g : Getopt α) (k : Nat) : Prop where
  sound : g.Sound
  left : g.left text ≤ k

theorem nextWord_within (h : g.Sound) (hn : g.nextchar = []) (c : Byte) :
    Within text (g.nextWord text c).2 (size text g.argv g.optind) := by
  have hleft : g.left text = size text g.argv g.optind := by rw [Getopt.left, if_pos hn]
  have hlast := h.last
  rw [nextWord]
  split
  · exact ⟨h, Nat.le_of_eq hleft⟩
  · rename_i w hw
    have hlt := (List.getElem?_eq_some_iff.1 hw).1
    refine ⟨⟨h.first, by simp only; omega, hlt, fun hne => absurd hn hne⟩, ?_⟩
    rw [Getopt.left, if_pos hn]
    exact size_anti _ (Nat.le_add_right _ _)

theorem next_within (h : g.Sound) (hlt : g.optind < g.argv.length) :
    Within text { g with optind := g.optind + 1, nextchar := [] }
      (size text g.argv (g.optind + 1)) := by
  have hlast := h.last
  refine ⟨⟨h.first, by simp only; omega, hlt, fun hne => absurd rfl hne⟩, ?_⟩
  rw [Getopt.left, if_pos rfl]

theorem longOption_within (h : g.Sound) (hlt : g.optind < g.argv.length) (word : List Byte) :
    Within text (g.longOption text longopts word).2 (size text g.argv (g.optind + 1)) := by
  have hnext : Within text { g with optind := g.optind + 1, nextchar := [] }
    (size text g.argv (g.optind + 1)) := next_within h hlt
  simp only [longOption]
  split
  · exact hnext
  · split
    · split
      · exact hnext
      · exact hnext
    · split
      · exact nextWord_within hnext.sound rfl _
      · exact hnext

theorem shortOption_within (h : g.Sound) (hlt : g.optind < g.argv.length) (c : Byte)
    (rest : List Byte) : Within text (g.shortOption text optstring c rest).2
      (rest.length + size text g.argv (g.optind + 1)) := by
  have hnext : Within text { g with optind := g.optind + 1, nextchar := [] }
    (size text g.argv (g.optind + 1)) := next_within h hlt
  have hadd : size text g.argv (g.optind + 1) ≤
      rest.length + size text g.argv (g.optind + 1) := Nat.le_add_left _ _
  by_cases hr : rest = []
  · have hend : Within text { g with optind := g.optind + 1, nextchar := [] }
      (rest.length + size text g.argv (g.optind + 1)) := ⟨hnext.sound, hnext.left.trans hadd⟩
    simp only [shortOption, hr, ↓reduceIte]
    rw [hr] at hend
    split
    · exact hend
    · exact hend
    · have hword : Within text
          (nextWord text c { g with optind := g.optind + 1, nextchar := [] }).2
          (size text g.argv (g.optind + 1)) := nextWord_within hnext.sound rfl c
      exact ⟨hword.sound, hword.left.trans (Nat.le_add_left _ _)⟩
    · exact hend
  · have hstay : Within text { g with nextchar := rest }
        (rest.length + size text g.argv (g.optind + 1)) := by
      refine ⟨⟨h.first, h.last, h.optind, fun _ => hlt⟩, ?_⟩
      rw [Getopt.left, if_neg hr]
    simp only [shortOption, hr, ↓reduceIte]
    split
    · exact hstay
    · exact hstay
    · exact ⟨hnext.sound, hnext.left.trans hadd⟩
    · exact ⟨hnext.sound, hnext.left.trans hadd⟩

theorem getoptLong_left (h : g.Sound)
    (hr : g.getoptLong text posix optstring longopts = (some r, g')) :
    g'.Sound ∧ g'.left text < g.left text := by
  have hstep : ∀ {x : Option (Byte × Option (List Byte)) × Getopt α} {k : Nat},
      x = (some r, g') → Within text x.2 k → k < g.left text →
        g'.Sound ∧ g'.left text < g.left text := by
    rintro x k rfl hx hk
    exact ⟨hx.sound, Nat.lt_of_le_of_lt hx.left hk⟩
  cases hn : g.nextchar with
  | cons c rest =>
    simp only [getoptLong, hn] at hr
    refine hstep hr (shortOption_within h (h.word (by simp [hn])) c rest) ?_
    simp only [Getopt.left, hn, reduceCtorEq, ↓reduceIte, List.length_cons]
    omega
  | nil =>
    have hleft : g.left text = size text g.argv g.optind := by rw [Getopt.left, if_pos hn]
    obtain ⟨hs, hsize⟩ := skip_sound text posix h hn
    simp only [getoptLong, hn] at hr
    generalize g.skip text posix = s at hr hs hsize
    -- behind `--` nothing is returned
    by_cases hdd : (s.argv[s.optind]?).map text = some [45, 45]
    · rw [if_pos hdd] at hr
      have hend : s.terminate.argv[s.terminate.optind]? = none := by
        rw [terminate]
        exact List.getElem?_eq_none (Nat.le_refl _)
      simp only [hend] at hr
      cases hr
    · rw [if_neg hdd] at hr
      cases hw : s.argv[s.optind]? with
      | none =>
        simp only [hw] at hr
        cases hr
      | some w =>
        have hlt := (List.getElem?_eq_some_iff.1 hw).1
        have hword := size_word text hw
        simp only [hw] at hr
        split at hr
        · rename_i word ht
          exact hstep hr (longOption_within hs hlt word) (by omega)
        · rename_i c rest _ ht
          rw [ht, List.length_cons, List.length_cons] at hword
          exact hstep hr (shortOption_within hs hlt c rest) (by omega)
        · cases hr

end Scanning

end Getopt

end Foundation

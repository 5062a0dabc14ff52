import SelfGit.CommitWithoutTree
import SelfGit.ExactReading
import SelfGit.HexNaming
import SelfGit.ReadOnly
import SelfGit.StatusReport

namespace SelfGit
open Foundation
set_option autoImplicit true

theorem idOf_hex {word : CStr} (h : word.1 = sha1ToHex s.toList) : Console.idOf word = some s := by
  obtain ⟨p, hp, hex⟩ := sha1ToHex_isHex s
  obtain rfl : word = p := Subtype.ext (h.trans hp.symm)
  have hid : (getSha1Hex word.1).1 = s.toList := by
    have hback := (getSha1Hex_memory word []).2 hex
    rw [h, getSha1Hex_sha1ToHex] at hback
    apply sha1ToHex_injective
    rw [sha1ToHex_getSha1Hex hex, ← hback]
  have hlen : (getSha1Hex word.1).1.length = 20 := by rw [hid, List.Vector.toList_length]
  rw [Console.idOf, if_pos ((getSha1Hex_iff word).2 hex), dif_pos hlen]
  exact congrArg some (Subtype.ext hid)

section Running
variable {ok : (o : Op) → o.Res → Prop} {work : Path → Except Errno Stat} {w w' : Site}
  {α : Type} {x : Except Stop α} {L : Lib}

theorem sys_seq (p : Proc β) (f : β → GitProc α) :
    GitRuns ok work w (Console.sys p >>= f) x w' ↔
      (∃ a fs, RunsTo ok w.fs p (.ok a) fs ∧ GitRuns ok work { w with fs := fs } (f a) x w') ∨
        ∃ e fs, x = .error e ∧ RunsTo ok w.fs p (.error e) fs ∧ w' = { w with fs := fs } := by
  simp only [git_seq, sys_runs]
  constructor
  · rintro (⟨a, w₁, ⟨fs, hp, rfl⟩, h⟩ | ⟨e, rfl, fs, hp, rfl⟩)
    · exact .inl ⟨a, fs, hp, h⟩
    · exact .inr ⟨e, fs, rfl, hp, rfl⟩
  · rintro (⟨a, fs, hp, h⟩ | ⟨e, fs, rfl, hp, rfl⟩)
    · exact .inl ⟨a, _, ⟨fs, hp, rfl⟩, h⟩
    · exact .inr ⟨e, rfl, fs, hp, rfl⟩

theorem git_grows (p : GitProc α) (h : GitRuns ok work w p x w') : w.out <+: w'.out := by
  induction p generalizing w with
  | ret a => rw [(Prog.runs_ret.1 h).2]
  | halt e => rw [(Prog.runs_halt.1 h).2]
  | call o k ih =>
    obtain ⟨r, w₁, hr, h⟩ := Prog.runs_call.1 h
    refine List.IsPrefix.trans ?_ (ih r h)
    cases o with
    | console o =>
      obtain ⟨s, hs, rfl⟩ := hr
      have hrun : ShowRuns ok work (Site.screen.get w) (.call o .ret) (.ok r) s := .call hs .ret
      exact show_grows _ hrun
    | directory o =>
      obtain ⟨t, -, rfl⟩ := hr
      exact List.prefix_rfl
    | mkstemp template =>
      cases r with
      | ok name => rw [hr.2.2]; exact List.prefix_rfl
      | error e => rw [show w₁ = w from hr]
    | fill name buf =>
      rcases hr with ⟨-, rfl⟩ | ⟨k, -, -, rfl⟩
      · exact List.prefix_rfl
      · exact List.prefix_rfl
    | enter h argv => rw [show w₁ = w from hr]
    | treeOf es => rw [show w₁ = w from hr]

theorem git_unchanged {p : GitProc α} (hp : p.Avoids GitOp.changes)
    (h : GitRuns ok work w p x w') : w'.fs = w.fs := by
  refine hp.keeps Site.fs (fun w o r w' ho hr => ?_) h
  cases o with
  | console o =>
    obtain ⟨s, hs, rfl⟩ := hr
    cases o with
    | sys o => exact step_unchanged ho hs.1.1
    | stat path => exact congrArg Screen.fs hs.2
    | printf t => exact congrArg Screen.fs hs
    | popen cmd => exact absurd trivial ho
    | fwrite t => exact congrArg Screen.fs hs
  | directory o =>
    obtain ⟨t, -, rfl⟩ := hr
    rfl
  | mkstemp template =>
    cases r with
    | ok name => rw [hr.2.2]; rfl
    | error e => rw [show w' = w from hr]
  | fill name buf =>
    rcases hr with ⟨-, rfl⟩ | ⟨k, -, -, rfl⟩
    · rfl
    · rfl
  | enter h argv => rw [show w' = w from hr]
  | treeOf es => rw [show w' = w from hr]

/-- The repository is in order, and the given file is in it. -/
structure HasFile (fs : FS) (p : Path) (b : List Byte) : Prop where
  good : fs.Good
  read : fs.read p = some b

theorem HasFile.new {fs : FS} (hg : fs.Good) (p : Path) (b : List Byte) :
    HasFile ((fs.create p).append fs.next b) p b where
  good := hg.create p
  read := (FS.create_append_read hg p p b).trans (if_pos rfl)

theorem HasFile.store {fs : FS} (h : HasFile fs p b) (hq : fs.dir q = none) (d : List Byte) :
    HasFile ((fs.create q).append fs.next d) p b where
  good := h.good.create q
  read := by
    have hne : p ≠ q := by
      rintro rfl
      have hread := h.read
      rw [FS.read, hq] at hread
      cases hread
    rw [FS.create_append_read h.good, if_neg hne, h.read]

theorem HasFile.write {fs fs' : FS} {x : Except Stop (Int × Sha1)} (h : HasFile fs p b)
    (hw : RunsTo ok fs (writeSha1File L buf len) x fs') : HasFile fs' p b := by
  obtain ⟨r, -, hw⟩ := writeSha1File_runs.1 hw
  rcases writeSha1Buffer_cases hw with ⟨-, rfl, -⟩ | ⟨-, rfl, -⟩ | ⟨-, hd, -, -, n, -, rfl, -⟩
  · exact h
  · exact h
  · exact h.store hd _

theorem commitTree_keeps {x : Except Stop Int} (h : HasFile w.fs p b)
    (hr : GitRuns ok work w (Console.commitTree L argv around tree) x w') : HasFile w'.fs p b := by
  rw [Console.commitTree] at hr
  split at hr
  · obtain ⟨-, rfl⟩ := Prog.runs_halt.1 hr
    exact h
  · split at hr
    · obtain ⟨-, rfl⟩ := Prog.runs_halt.1 hr
      exact h
    · rw [GitRuns, Prog.runs_ofOption_bind] at hr
      rcases hr with ⟨⟨author, committer⟩, -, hr⟩ | ⟨-, -, rfl⟩
      · rw [Prog.runs_ofOption_bind] at hr
        rcases hr with ⟨⟨⟨buffer, size⟩, inside⟩, -, hr⟩ | ⟨-, -, rfl⟩
        · dsimp only at hr
          split at hr
          · rw [Console.writeSha1File, bind_assoc] at hr
            rcases (sys_seq _ _).1 hr with ⟨⟨r, s⟩, fs, hw, hr⟩ | ⟨e, fs, -, hw, rfl⟩
            · have hkept := h.write hw
              dsimp only at hr
              split at hr
              · rw [pure_bind] at hr
                obtain ⟨-, rfl⟩ := Prog.runs_pure.1 hr
                exact hkept
              · simp only [bind_assoc, pure_bind, runs_say] at hr
                obtain ⟨-, rfl⟩ := Prog.runs_pure.1 hr
                exact hkept
            · exact h.write hw
          · obtain ⟨-, rfl⟩ := Prog.runs_halt.1 hr
            exact h
        · exact h
      · exact h

end Running

section Committing
variable {work : Path → Except Errno Stat} {w w' : Site} {α : Type} {x : Except Stop α} {L : Lib}
  {es : List CacheEntry} {c : Cache}

theorem writeSha1File_shows {f : Int × Sha1 → GitProc α} (hg : w.fs.Good)
    (hb : buf.length < 2 ^ 32)
    (hold : ∀ d, w.fs.read (sha1FileName L (L.sha1 (storedFile L buf))) = some d →
      d = storedFile L buf)
    (h : GitRuns Ready work w (Console.writeSha1File L buf (buf.length % 2 ^ 32) >>= f) x w') :
    ∃ fs, HasFile fs (sha1FileName L (L.sha1 (storedFile L buf))) (storedFile L buf) ∧
      GitRuns Ready work (Site.shows { w with fs := fs }
        [sha1ToHex (L.sha1 (storedFile L buf)).toList ++ str "\n"])
        (f (0, L.sha1 (storedFile L buf))) x w' := by
  have hfile : deflateInto L [buf.take (buf.length % 2 ^ 32)]
      (toInt (L.zlib.deflateBound (buf.length % 2 ^ 32))) = storedFile L buf := by
    rw [Nat.mod_eq_of_lt hb, List.take_length, storedFile]
  rw [Console.writeSha1File, bind_assoc] at h
  rcases (sys_seq _ _).1 h with ⟨⟨r, s⟩, fs, hw, h⟩ | ⟨e, fs, -, hw, -⟩
  · obtain ⟨r', heq, hw⟩ := writeSha1File_runs.1 hw
    rw [fileHash, hfile] at heq hw
    have hstored : r' = 0 ∧
        HasFile fs (sha1FileName L (L.sha1 (storedFile L buf))) (storedFile L buf) := by
      rcases writeSha1Buffer_cases hw with ⟨h0, rfl, hd, -⟩ | ⟨-, -, e, hne, he⟩ |
        ⟨h0, -, -, -, n, hn, rfl, -⟩
      · refine ⟨h0, hg, ?_⟩
        obtain ⟨k, hk⟩ := Option.ne_none_iff_exists'.1 hd
        have hread : w.fs.read (sha1FileName L (L.sha1 (storedFile L buf))) =
            some (w.fs.data k) := by rw [FS.read, hk, Option.map_some]
        rw [hread, hold _ hread]
      · exact absurd (he e rfl) hne
      · have hn : n = (storedFile L buf).length := hn
        rw [hn, Int.toNat_natCast, List.take_length]
        exact ⟨h0, .new hg _ _⟩
    obtain ⟨rfl, hhas⟩ := hstored
    cases heq
    rw [if_neg (by decide)] at h
    simp only [bind_assoc, pure_bind, Int.lt_irrefl, ↓reduceIte, runs_say] at h
    exact ⟨fs, hhas, h⟩
  · exact absurd hw writeSha1File_ends

def treeId (L : Lib) (es : List CacheEntry) : Sha1 := L.sha1 (storedFile L (treeBytes es))

/-- The index loads as the given entries, and their tree can be stored. -/
structure Committable (L : Lib) (fs : FS) (es : List CacheEntry) (c : Cache) : Prop where
  loads : Loads L fs es c
  nonempty : es ≠ []
  named : ∀ e ∈ es, e.Named
  objects : ∀ e ∈ es, fs.dir (sha1FileName L e.sha1) ≠ none
  count : es.length * 40 + 400 < 2 ^ 31
  size : (treePayload es).length < 2 ^ 32 - 8192
  good : fs.Good
  unspoilt : ∀ d, fs.read (sha1FileName L (treeId L es)) = some d → d = storedFile L (treeBytes es)

theorem readCache_ready {fs fs' : FS} {y : Except Stop (Int × Cache)} (hl : Loads L fs es c)
    (h : RunsTo Ready fs (readCache L Cache.null) y fs') :
    fs' = fs ∧ y = .ok ((es.length : Int), c) := by
  have hu : RunsTo Undisturbed fs (readCache L Cache.null) y fs' :=
    h.mono fun _ _ _ _ ha => ⟨ha.1, Granted.undisturbed (Ready.granted ha.2)⟩
  rw [← hl.result]
  exact readCache_undisturbed hu

theorem writeTree_shows {f : List Byte × Cache → GitProc α} (hC : Committable L w.fs es c)
    (h : GitRuns Ready work w (Console.writeTree L sha1 Cache.null >>= f) x w') :
    ∃ fs a, HasFile fs (sha1FileName L (treeId L es)) (storedFile L (treeBytes es)) ∧
      GitRuns Ready work (Site.shows { w with fs := fs }
        [sha1ToHex (treeId L es).toList ++ str "\n"]) (f (a, c)) x w' := by
  obtain ⟨rest, hslots⟩ := hC.loads.slots
  have hpos : ¬ (es.length : Int) ≤ 0 := by
    have := List.length_pos_of_ne_nil hC.nonempty
    omega
  have hbuild : ∀ y fs, RunsTo Ready w.fs (buildTree L es.length c) y fs ↔
      y = .ok (treeBytes es, (treeBytes es).length % 2 ^ 32) ∧ fs = w.fs := fun y fs => by
    rw [buildTree_slots (fun _ _ => Iff.rfl) hslots hC.objects, handedTree_named hC.named,
      if_pos hC.count]
  rw [Console.writeTree, bind_assoc] at h
  rcases (sys_seq _ _).1 h with ⟨⟨n, c'⟩, fs, hr, h⟩ | ⟨e, fs, -, hr, -⟩
  · obtain ⟨rfl, hy⟩ := readCache_ready hC.loads hr
    cases hy
    simp only [hpos, ↓reduceIte, Int.toNat_natCast, bind_assoc] at h
    rcases (sys_seq _ _).1 h with ⟨⟨buf, len⟩, fs, hb, h⟩ | ⟨e, fs, -, hb, -⟩
    · obtain ⟨heq, rfl⟩ := (hbuild _ _).1 hb
      cases heq
      simp only [runs_markTree] at h
      obtain ⟨fs, hhas, h⟩ := writeSha1File_shows hC.good (treeBytes_length_lt hC.size)
        hC.unspoilt h
      simp only [pure_bind] at h
      exact ⟨fs, _, hhas, h⟩
    · cases ((hbuild _ _).1 hb).1
  · cases (readCache_ready hC.loads hr).2

/-- A process that begins with `commit` prints the id of the tree, which is then in the repository.
-/
theorem commit_shows {E : Env} {x : Except Stop Int}
    (hb : Begins E.posix argv .commit words rest code)
    (hC : Committable E.lib w.fs es c) (h : GitRuns Ready work w (git E argv) x w') :
    (∃ more, w'.out = w.out ++ .text (sha1ToHex (treeId E.lib es).toList ++ str "\n") :: more) ∧
      HasFile w'.fs (sha1FileName E.lib (treeId E.lib es)) (storedFile E.lib (treeBytes es)) := by
  obtain ⟨rest', hslots⟩ := hC.loads.slots
  have hloaded : c.activeCache ≠ [] := by
    rw [hslots]
    intro hnil
    exact hC.nonempty (List.map_eq_nil_iff.1 (List.append_eq_nil_iff.1 hnil).1)
  rw [hb.git, Handler.run, Handler.body, Console.commit] at h
  simp only [bind_assoc, runs_enter, pure_bind] at h
  rcases (sys_seq _ _).1 h with ⟨m, fs₀, hm, h⟩ | ⟨e, fs₀, -, hm, -⟩
  · obtain rfl : fs₀ = w.fs := by
      obtain ⟨r, fs₁, hr, hm⟩ := Prog.runs_call.1 hm
      obtain ⟨-, rfl⟩ := Prog.runs_ret.1 hm
      exact ((FS.step_memory r).1 hr.1).2
    obtain ⟨fs, a, hhas, h⟩ := writeTree_shows hC h
    refine ⟨?_, ?_⟩
    · obtain ⟨more, hmore⟩ := git_grows _ h
      refine ⟨more, ?_⟩
      rw [← hmore]
      simp only [Site.shows, List.map_cons, List.map_nil, List.append_assoc, List.cons_append,
        List.nil_append]
    · rcases (git_seq _ _).1 h with ⟨r, w₁, hct, h⟩ | ⟨e, -, hct⟩
      · have hkept := commitTree_keeps hhas hct
        have hsame : w'.fs = w₁.fs := by
          refine git_unchanged (Prog.Avoids.bind (perform_again rest hloaded) fun _ => ?_) h
          exact Prog.avoids_pure _
        rw [hsame]
        exact hkept
      · exact commitTree_keeps hhas hct
  · obtain ⟨r, fs₁, -, hm⟩ := Prog.runs_call.1 hm
    cases (Prog.runs_ret.1 hm).1

end Committing

section ReadingBack
variable {ok : (o : Op) → o.Res → Prop} {work : Path → Except Errno Stat} {w w' : Site}
  {E : Env} {es : List CacheEntry}

theorem runs_mkstemp {x : Except Stop α} (t : List Byte) (f : Except Errno Path → GitProc α) :
    GitRuns ok work w (Console.mkstemp t >>= f) x w' ↔
      (∃ name, MadeFrom t name ∧ w.temps name = none ∧
        GitRuns ok work (w.setTemp name []) (f (.ok name)) x w') ∨
      ∃ e, GitRuns ok work w (f (.error e)) x w' := by
  refine (Prog.runs_call (o := GitOp.mkstemp t)).trans ?_
  constructor
  · rintro ⟨r, w₁, hr, h⟩
    cases r with
    | ok name =>
      obtain ⟨hname, hfree, rfl⟩ := hr
      exact .inl ⟨name, hname, hfree, h⟩
    | error e =>
      obtain rfl : w₁ = w := hr
      exact .inr ⟨e, h⟩
  · rintro (⟨name, hname, hfree, h⟩ | ⟨e, h⟩)
    · exact ⟨.ok name, _, ⟨hname, hfree, rfl⟩, h⟩
    · exact ⟨.error e, w, rfl, h⟩

theorem runs_fill {x : Except Stop α} (name : Path) (buf : List Byte) (f : Int → GitProc α) :
    GitRuns ok work w (Console.fill name buf >>= f) x w' ↔
      GitRuns ok work w (f (-1)) x w' ∨
      ∃ k ≤ buf.length, GitRuns ok work (w.setTemp name (buf.take k)) (f (k : Nat)) x w' := by
  refine (Prog.runs_call (o := GitOp.fill name buf)).trans ?_
  constructor
  · rintro ⟨n, w₁, ⟨rfl, rfl⟩ | ⟨k, hk, rfl, rfl⟩, h⟩
    · exact .inl h
    · exact .inr ⟨k, hk, h⟩
  · rintro (h | ⟨k, hk, h⟩)
    · exact ⟨(-1 : Int), w, .inl ⟨rfl, rfl⟩, h⟩
    · exact ⟨((k : Nat) : Int), _, .inr ⟨k, hk, rfl, rfl⟩, h⟩

theorem readTree_shows {x : Except Stop Int}
    (hb : Begins E.posix argv .readTree [a, b, word] rest code)
    (hw : word.1 = sha1ToHex s.toList) (hn : ∀ e ∈ es, e.Named)
    (hread : ∀ y fs, RunsTo ok w.fs (readSha1File E.lib s) y fs ↔
      fs = w.fs ∧ y = .ok (some (str "tree", (treePayload es).length, treePayload es))) :
    GitRuns ok work w (git E argv) x w' ↔
      GitRuns ok work (w.shows (es.map fun e => Console.recordLine e.triple))
        (perform E rest Cache.null >>= fun _ => pure code) x w' := by
  have hloop := unpackLoop_payload es hn (Nat.lt_succ_of_le (treePayload_length_ge es))
  rw [hb.git, Handler.run, Handler.body, Console.readTree]
  simp only [idOf_hex hw, Console.unpack, bind_assoc, runs_enter]
  rw [sys_reads hread]
  simp only [↓reduceIte, hloop, bind_assoc, runs_sayAll, pure_bind, List.map_map]
  rfl

/-- What `commit` prints as the id of its tree, any later `read_tree` prints as the entries of the
index that was committed, in their order. -/
theorem committed_tree_reads_back {E' : Env} {x : Except Stop Int}
    (hb : Begins E.posix argv .commit words rest code) (hC : Committable E.lib w.fs es c)
    (hz : E.lib.zlib.Lossless) (hfits : TreeFits E.lib es)
    (hp : (sha1FileName E.lib (treeId E.lib es)).length < pathMax) (hE : E'.lib = E.lib)
    (h : GitRuns Ready work w (git E argv) x w') :
    (∃ more, w'.out = w.out ++ .text (sha1ToHex (treeId E.lib es).toList ++ str "\n") :: more) ∧
    ∀ argv' a b word rest' code' v, v.fs = w'.fs →
      Begins E'.posix argv' .readTree [a, b, word] rest' code' →
      word.1 = sha1ToHex (treeId E.lib es).toList →
      ∀ y v', GitRuns Granted work v (git E' argv') y v' ↔
        GitRuns Granted work (v.shows (es.map fun e => Console.recordLine e.triple))
          (perform E' rest' Cache.null >>= fun _ => pure code') y v' := by
  obtain ⟨hout, hhas⟩ := commit_shows hb hC h
  refine ⟨hout, ?_⟩
  intro argv' a b word rest' code' v hv hb' hword y v'
  obtain ⟨k, hk, hdata⟩ := Option.map_eq_some_iff.1 hhas.read
  refine readTree_shows hb' hword hC.named ?_
  rw [hE, hv]
  exact (storedTree_reads hz hC.size hp hk hdata).2 hfits

/-- The site after an operation, when what is asked is the repository, and printing is possible. -/
def Site.stepIf (ok : (o : Op) → o.Res → Prop) [∀ o r, Decidable (ok o r)] (w : Site) :
    (o : GitOp) → o.Res → Option Site
  | .console (.sys o), r => (w.fs.stepIf ok o r).map fun fs => { w with fs := fs }
  | .console (.printf t), _ => some (w.shows [t])
  | .enter _ _, _ => some w
  | .treeOf _, _ => some w
  | _, _ => none

theorem exec_gitRuns [∀ o r, Decidable (ok o r)] {p : GitProc α} {x : Except Stop α}
    (h : Prog.exec (fun w => GitOp.serve [] w.fs) (Site.stepIf ok) n w p = some (x, w')) :
    GitRuns ok work w p x w' := by
  apply Prog.exec_runs _ h
  intro w o w₁ hs
  cases o with
  | console o =>
    cases o with
    | sys o =>
      obtain ⟨fs, hfs, rfl⟩ := Option.map_eq_some_iff.1 hs
      simp only [FS.stepIf, Option.ite_none_right_eq_some] at hfs
      exact ⟨⟨fs, w.out⟩, ⟨⟨hfs.2, hfs.1⟩, rfl⟩, rfl⟩
    | printf t =>
      cases hs
      exact ⟨⟨w.fs, w.out ++ [Shown.text t]⟩, rfl, rfl⟩
    | _ => cases hs
  | enter h argv =>
    cases hs
    rfl
  | treeOf es =>
    cases hs
    rfl
  | _ => cases hs

def linkedTwo : List CacheEntry := [linked (cstr "a"), linked (cstr "b")]

def FS.indexedTwo : FS :=
  { FS.indexed storedLib (linked (cstr "a")) with
    data := Function.update FS.empty.data 0 (cacheImage storedLib linkedTwo) }

theorem indexedTwo_committable :
    Committable storedLib FS.indexedTwo linkedTwo (reloaded linkedTwo) where
  loads := by
    have hread : FS.indexedTwo.read indexPath = some (cacheImage storedLib linkedTwo) := by
      simp only [FS.indexedTwo, FS.indexed, FS.read, Function.update_self, Option.map_some]
    have h := Loads.of_image hread (by decide) (by decide)
    rwa [show linkedTwo.map CacheEntry.trim = linkedTwo by decide] at h
  nonempty := List.cons_ne_nil _ _
  named e he := (linked_ab e he).1
  objects e he := by
    rw [(linked_ab e he).2]
    simp only [FS.indexedTwo, FS.indexed]
    rw [Function.update_of_ne (sha1FileName_ne_index _ _), Function.update_self]
    exact Option.some_ne_none 1
  count := by decide
  size := by decide +kernel
  good := indexed_good storedLib (linked (cstr "a"))
  unspoilt d hd := by
    have hnone : FS.indexedTwo.dir (sha1FileName storedLib (treeId storedLib linkedTwo)) = none := by
      decide +kernel
    rw [FS.read, hnone] at hd
    cases hd

/-- The commit of an index with two entries, and a look at its tree. -/
theorem committed_tree_reads_back_two : ∃ x w' v',
    GitRuns Ready (fun _ => .error .ENOENT) (siteOf FS.indexedTwo)
      (git storedEnv [cstr "git", cstr "--commit"]) x w' ∧
    (∃ more, w'.out = .text (str "78da014200bdff74726565203538003130303634\n") :: more) ∧
    GitRuns Granted (fun _ => .error .ENOENT) w' (git storedEnv
      [cstr "git", cstr "--read-tree", cstr "78da014200bdff74726565203538003130303634"])
      (.ok 1) v' ∧
    v'.out = w'.out ++ [.text (Console.recordLine (linked (cstr "a")).triple),
      .text (Console.recordLine (linked (cstr "b")).triple), .text usage] := by
  obtain ⟨⟨x, w'⟩, hexec⟩ := Option.isSome_iff_exists.1 (show (Prog.exec
    (fun w => GitOp.serve [] w.fs) (Site.stepIf Ready) 40 (siteOf FS.indexedTwo)
    (git storedEnv [cstr "git", cstr "--commit"])).isSome = true by decide +kernel)
  have hrun : GitRuns Ready (fun _ => .error .ENOENT) _ _ x w' := exec_gitRuns hexec
  have hb : Begins storedEnv.posix [cstr "git", cstr "--commit"] .commit
      [cstr "git", cstr "--commit"] [.print (str "Completed to commmit!\n")] 0 := by
    unfold Begins
    decide +kernel
  have hb' : Begins storedEnv.posix
      [cstr "git", cstr "--read-tree", cstr "78da014200bdff74726565203538003130303634"] .readTree
      [cstr "git", cstr "--read-tree", cstr "78da014200bdff74726565203538003130303634"]
      [.print usage] 1 := by
    unfold Begins
    decide +kernel
  have hid : (cstr "78da014200bdff74726565203538003130303634").1 =
      sha1ToHex (treeId storedLib linkedTwo).toList := by decide +kernel
  have hfits : TreeFits storedLib linkedTwo := by
    rw [TreeFits]
    decide +kernel
  have hC : Committable storedEnv.lib (siteOf FS.indexedTwo).fs linkedTwo (reloaded linkedTwo) :=
    indexedTwo_committable
  obtain ⟨⟨more, hout⟩, hback⟩ := committed_tree_reads_back hb hC storedZlib_lossless hfits
    (sha1FileName_stored _) (rfl : storedEnv.lib = storedEnv.lib) hrun
  have hline : sha1ToHex (treeId storedEnv.lib linkedTwo).toList ++ str "\n" =
      str "78da014200bdff74726565203538003130303634\n" := by
    decide +kernel
  have hread := fun y v' => hback _ _ _ _ _ _ w' rfl hb' hid y v'
  simp only [perform, bind_assoc, pure_bind, runs_say, Prog.runs_pure, Site.shows_shows] at hread
  refine ⟨x, w', _, hrun, ⟨more, ?_⟩, (hread _ _).2 ⟨rfl, rfl⟩, rfl⟩
  rw [hout, hline]
  rfl

/-- A process that begins with `cat_file` names the type of the object only if the whole content is
in the new file, and says `bad` otherwise, or gives up with nothing done. -/
theorem cat_file_truthful {x : Except Stop Int}
    (hb : Begins E.posix argv .catFile [a, b, word] rest code)
    (hw : word.1 = sha1ToHex s.toList) (hz : E.lib.zlib.Lossless) (ht : Tag type)
    (hn : content.length < 2 ^ 32) (hps : ps.flatten = objectBytes type content)
    (hobj : w.fs.read (sha1FileName E.lib s) = some (E.lib.zlib.deflate ps))
    (hl : (E.lib.zlib.deflate ps).length < 2 ^ 32)
    (hp : (sha1FileName E.lib s).length < pathMax) :
    GitRuns Granted work w (git E argv) x w' ↔
      (x = .error (.exit 1) ∧ w' = w) ∨
      ∃ name, MadeFrom Console.template name ∧ w.temps name = none ∧
        (GitRuns Granted work
            ((w.setTemp name content).shows [name ++ str ": " ++ type ++ str "\n"])
            (perform E rest Cache.null >>= fun _ => pure code) x w' ∨
          ∃ kept, kept <+: content ∧ (kept = [] ∨ kept ≠ content) ∧
            GitRuns Granted work
              ((w.setTemp name kept).shows [name ++ str ": " ++ str "bad" ++ str "\n"])
              (perform E rest Cache.null >>= fun _ => pure code) x w') := by
  obtain ⟨k, hk, hdata⟩ := Option.map_eq_some_iff.1 hobj
  have hread := (readSha1File_deflated hz ht hn hps hk hp hdata (by omega)).2 (by
    rw [inflateInput_eq hl, hz.inverse, hps])
  rw [hb.git, Handler.run, Handler.body, Console.catFile]
  simp only [idOf_hex hw, bind_assoc, runs_enter]
  rw [sys_reads hread]
  simp only [bind_assoc, runs_mkstemp]
  constructor
  · rintro (⟨name, hname, hfree, h⟩ | ⟨e, h⟩)
    · refine .inr ⟨name, hname, hfree, ?_⟩
      simp only [runs_fill, runs_say, pure_bind, Site.setTemp_setTemp] at h
      rcases h with h | ⟨n, hle, h⟩
      · rw [if_pos (by omega)] at h
        exact .inr ⟨[], List.nil_prefix, .inl rfl, h⟩
      · by_cases hall : n = content.length
        · subst hall
          rw [if_neg (fun h => h rfl), List.take_length] at h
          exact .inl h
        · rw [if_pos (by omega)] at h
          refine .inr ⟨content.take n, List.take_prefix _ _, .inr fun heq => hall ?_, h⟩
          have hlen := congrArg List.length heq
          rw [List.length_take] at hlen
          omega
    · exact .inl (Prog.runs_halt.1 h)
  · rintro (⟨rfl, rfl⟩ | ⟨name, hname, hfree, h⟩)
    · exact .inr ⟨.other, Prog.runs_halt.2 ⟨rfl, rfl⟩⟩
    · refine .inl ⟨name, hname, hfree, ?_⟩
      simp only [runs_fill, runs_say, pure_bind, Site.setTemp_setTemp]
      rcases h with h | ⟨kept, hpre, hshort, h⟩
      · refine .inr ⟨content.length, Nat.le_refl _, ?_⟩
        rw [if_neg (fun h => h rfl), List.take_length]
        exact h
      · by_cases hnil : kept = []
        · subst hnil
          refine .inl ?_
          rw [if_pos (by omega)]
          exact h
        · have hne := hshort.resolve_left hnil
          refine .inr ⟨kept.length, hpre.length_le, ?_⟩
          have hlt : kept.length ≠ content.length := fun heq => hne (hpre.eq_of_length heq)
          rw [if_pos (by omega), ← List.prefix_iff_eq_take.1 hpre]
          exact h

/-- A blob of one byte, in a store under an id of zeros. -/
theorem cat_file_truthful_one : ∃ w',
    GitRuns Granted (fun _ => .error .ENOENT) (siteOf (objectFile storedLib
      (List.Vector.replicate 20 0) (storedLib.zlib.deflate (blobPieces [120]))))
      (git storedEnv
        [cstr "git", cstr "--cat-file", cstr "0000000000000000000000000000000000000000"])
      (.ok 0) w' ∧
    w'.out = [.text (str "temp_git_file_abcdef: blob\n")] ∧
    w'.temps (str "temp_git_file_abcdef") = some [120] := by
  have hb : Begins storedEnv.posix
      [cstr "git", cstr "--cat-file", cstr "0000000000000000000000000000000000000000"] .catFile
      [cstr "git", cstr "--cat-file", cstr "0000000000000000000000000000000000000000"] [] 0 := by
    unfold Begins
    decide +kernel
  have hid : (cstr "0000000000000000000000000000000000000000").1 =
      sha1ToHex (List.Vector.replicate 20 (0 : Byte)).toList := by decide +kernel
  have hobj : (siteOf (objectFile storedLib (List.Vector.replicate 20 0)
      (storedLib.zlib.deflate (blobPieces [120])))).fs.read
        (sha1FileName storedEnv.lib (List.Vector.replicate 20 0)) =
      some (storedEnv.lib.zlib.deflate (blobPieces [120])) := by
    simp only [siteOf, FS.read]
    rw [show sha1FileName storedEnv.lib = sha1FileName storedLib from rfl, objectFile_dir]
    rfl
  have hrun := fun x w' => (cat_file_truthful hb hid storedZlib_lossless blob_tag
    (show [(120 : Byte)].length < 2 ^ 32 by decide) (blobPieces_flatten [120]) hobj
    (by decide +kernel) (sha1FileName_stored _) :
      GitRuns Granted (fun _ => .error .ENOENT) _ _ x w' ↔ _)
  refine ⟨_, (hrun _ _).2 (.inr ⟨str "temp_git_file_abcdef", ⟨by decide, by decide⟩, rfl,
    .inl (Prog.runs_pure.2 ⟨rfl, rfl⟩)⟩), ?_, ?_⟩
  · decide +kernel
  · simp only [Site.shows_temps, Site.setTemp, Function.update_self]

end ReadingBack

end SelfGit

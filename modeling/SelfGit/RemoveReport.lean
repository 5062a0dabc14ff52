import SelfGit.DiffReport
import SelfGit.Removal

namespace SelfGit
open Foundation
set_option autoImplicit true

section Removing
variable {ok : (o : Op) → o.Res → Prop} {work : Path → Except Errno Stat} {w w' : Site}
  {es : List CacheEntry} {c : Cache}

theorem sayNames_shows (hn : ∀ e ∈ es, e.Named) (rest : List (Option CacheEntry))
    (f : Unit → GitProc α) {x : Except Stop α} :
    GitRuns ok work w (Console.sayNames es.length (es.map some ++ rest) >>= f) x w' ↔
      GitRuns ok work (w.shows (es.map fun e => e.key ++ str "\n")) (f ()) x w' := by
  induction es generalizing w with
  | nil => rw [List.length_nil, Console.sayNames, pure_bind, List.map_nil, Site.shows_nil]
  | cons e es ih =>
    rw [List.forall_mem_cons] at hn
    have hlen : strlen e.name = some e.namelen.toNat := hn.1
    rw [List.length_cons, List.map_cons, List.cons_append, Console.sayNames, hlen, Prog.ofOption]
    change GitRuns ok work w (Console.say (e.key ++ str "\n") >>= _ >>= f) x w' ↔ _
    rw [bind_assoc, runs_say, ih hn.2, Site.shows_shows, List.map_cons, List.singleton_append]

theorem sayNames_holds (hc : c.Holds es) (hn : ∀ e ∈ es, e.Named) (f : Unit → GitProc α)
    {x : Except Stop α} :
    GitRuns ok work w (Console.sayNames c.activeNr c.activeCache >>= f) x w' ↔
      GitRuns ok work (w.shows (es.map fun e => e.key ++ str "\n")) (f ()) x w' := by
  obtain ⟨rest, hslots⟩ := hc.slots
  rw [hc.nr, hslots]
  exact sayNames_shows hn rest f

theorem search_undisturbed {L : Lib} {fs fs' : FS} {y : Except Stop (Int × Cache)}
    (hl : Loads L fs es c) (hpos : cacheNamePos c path path.length = some pos) :
    RunsTo Undisturbed fs (Remove.cacheNamePos L Cache.null path path.length) y fs' ↔
      fs' = fs ∧ y = .ok (pos, c) := by
  have hneg : ¬ (es.length : Int) < 0 := by omega
  simp only [Remove.cacheNamePos, runs_seq, readCache_undisturbed_iff hl.size, hl.result]
  constructor
  · rintro (⟨_, _, ⟨rfl, heq⟩, h⟩ | ⟨e, -, -, he⟩)
    · cases heq
      simp only [hneg, ↓reduceIte, hpos] at h
      exact (Prog.runs_pure.1 h).symm
    · cases he
  · rintro ⟨rfl, rfl⟩
    refine .inl ⟨_, _, ⟨rfl, rfl⟩, ?_⟩
    simp only [hneg, ↓reduceIte, hpos]
    exact Prog.runs_pure.2 ⟨rfl, rfl⟩

theorem placeOf_append (hl : ∀ e ∈ l, e.key < name) (hr : ∀ e ∈ r, ¬ e.key < name) :
    placeOf (l ++ r) name = l.length := by
  have hall : l.countP (fun e => e.key < name) = l.length := by
    rw [List.countP_eq_length]
    exact fun e he => decide_eq_true (hl e he)
  have hnone : r.countP (fun e => e.key < name) = 0 := by
    rw [List.countP_eq_zero]
    exact fun e he => by rw [decide_eq_true_eq]; exact hr e he
  rw [placeOf, List.countP_append, hall, hnone, Nat.add_zero]

/-- The search ends at the number of smaller names, turned negative on a hit. -/
theorem PosOf.eq_place (h : PosOf es name pos) (ha : Ascending es) :
    pos = if ∃ e ∈ es, e.key = name then -(placeOf es name : Int) - 1 else placeOf es name := by
  cases h with
  | found l r e hp hes he =>
    subst hes
    have hpair := ascending_iff.1 ha
    rw [List.pairwise_append, List.pairwise_cons] at hpair
    obtain ⟨-, ⟨hr, -⟩, hl⟩ := hpair
    have hplace : placeOf (l ++ e :: r) name = l.length := by
      rw [← he]
      refine placeOf_append (fun f hf => hl f hf e List.mem_cons_self) ?_
      rw [List.forall_mem_cons]
      exact ⟨List.lt_irrefl _, fun f hf hlt => List.lt_irrefl _ (List.lt_trans (hr f hf) hlt)⟩
    rw [if_pos ⟨e, List.mem_append_right _ List.mem_cons_self, he⟩, hplace, hp]
  | absent l r hp hes hbelow habove =>
    subst hes
    have hne := ha.ordered.absent hbelow habove
    have hal := (ha.ordered.sublist (List.sublist_append_left l r)).all_lt hbelow
    have har := (ha.ordered.sublist (List.sublist_append_right l r)).all_gt habove
    rw [if_neg fun ⟨e, he, hk⟩ => hne e he hk, hp,
      placeOf_append hal fun e he hlt => List.lt_irrefl _ (List.lt_trans (har e he) hlt)]

/-- A process that begins with `remove_function` prints the number of smaller names, turned negative
where the path is listed, and the names of all other entries, and changes nothing but its cache. -/
theorem rm_truthful {E : Env} (hb : Begins E.posix argv .removeFunction words rest code)
    (hp : words[2]? = some p) (hl : Loads E.lib w.fs es c) (hc : c.Holds es) (ha : Ascending es)
    (hn : ∀ e ∈ es, e.Named) (hle : es.length ≤ 2 ^ 30) : ∃ pos c',
    cacheNamePos c p.1 p.1.length = some pos ∧
    (pos = if ∃ e ∈ es, e.key = p.1 then -(placeOf es p.1 : Int) - 1 else placeOf es p.1) ∧
    c'.Holds (others es p.1) ∧
    ∀ x w', GitRuns Undisturbed work w (git E argv) x w' ↔
      GitRuns Undisturbed work (w.shows ((Console.decimal pos ++ str "\n") ::
        (others es p.1).map fun e => e.key ++ str "\n"))
        (perform E rest c' >>= fun _ => pure code) x w' := by
  obtain ⟨pos, hpos⟩ := cacheNamePos_total hc hle p.1 p.1.length
  have hspec := cacheNamePos_spec hc (Nat.le_refl _) hpos
  rw [List.take_length] at hspec
  have hplace := hspec.eq_place ha
  have hnamed : ∀ e ∈ others es p.1, e.Named := fun e he => hn e (List.mem_filter.1 he).1
  obtain ⟨c', hother, hstep⟩ : ∃ c', c'.Holds (others es p.1) ∧
      (if pos < 0 then do
        let slots ← Prog.ofOption .fault
          (Remove.shiftDown c.activeNr c.activeCache ((-pos - 1).toNat + 1) c.activeNr)
        return { c with activeCache := slots, activeNr := (c.activeNr + 2 ^ 32 - 1) % 2 ^ 32 }
      else return c : GitProc Cache) = pure c' := by
    cases hspec with
    | found l r e hp hes he =>
      subst hes
      obtain ⟨slots, hslots, hholds⟩ := hc.shiftDown
      rw [← he, others_split ha, if_pos (by omega), show (-pos - 1).toNat = l.length by omega,
        hslots]
      exact ⟨_, hholds, rfl⟩
    | absent l r hp hes hbelow habove =>
      subst hes
      rw [others_of_ne (ha.ordered.absent hbelow habove), if_neg (by omega)]
      exact ⟨c, hc, rfl⟩
  refine ⟨pos, c', hpos, hplace, hother, fun x w' => ?_⟩
  rw [hb.git, Handler.run, Handler.body, Console.removeFunction]
  simp only [hp, Console.removeFileFromCache, bind_assoc, runs_enter]
  rw [sys_reads fun y fs => search_undisturbed hl hpos]
  simp only [runs_say]
  rw [hstep, pure_bind]
  simp only [pure_bind, sayNames_holds hother hnamed, Site.shows_shows, List.singleton_append]

end Removing

theorem rm_truthful_two : ∃ w', GitRuns Undisturbed (fun _ => .error .ENOENT)
    (siteOf (withIndex twoEntries)) (git storedEnv [cstr "git", cstr "--rm", cstr "a"])
    (.ok 0) w' ∧ w'.fs = withIndex twoEntries ∧
    w'.out = [.text (str "-1\n"), .text (str "b\n"), .text (str "a has been removed!\n")] := by
  have hb : Begins storedEnv.posix [cstr "git", cstr "--rm", cstr "a"] .removeFunction
      [cstr "git", cstr "--rm", cstr "a"] [.print (str "a has been removed!\n")] 0 := by
    unfold Begins
    decide +kernel
  have hc : (reloaded twoEntries).Holds (twoEntries.map CacheEntry.trim) :=
    reloaded_holds (by decide)
  have ha : Ascending (twoEntries.map CacheEntry.trim) := by
    rw [ascending_iff]
    decide +kernel
  obtain ⟨pos, c', -, hpos, -, hrun⟩ := rm_truthful hb (rfl : _ = some (cstr "a")) twoEntries_site
    hc ha twoEntries_named (by decide)
  have hplace : (if ∃ e ∈ twoEntries.map CacheEntry.trim, e.key = (cstr "a").1 then
      -(placeOf (twoEntries.map CacheEntry.trim) (cstr "a").1 : Int) - 1
      else placeOf (twoEntries.map CacheEntry.trim) (cstr "a").1) = -1 := by
    decide +kernel
  obtain rfl : pos = -1 := hpos.trans hplace
  have hrun : ∀ x w', GitRuns Undisturbed (fun _ => .error .ENOENT) _ _ x w' ↔ _ := hrun
  simp only [perform, bind_assoc, pure_bind, runs_say, Prog.runs_pure] at hrun
  exact ⟨_, (hrun _ _).2 ⟨rfl, rfl⟩, rfl, by decide +kernel⟩

end SelfGit

import SelfGit.Commit
import SelfGit.UpdateCacheTerms

namespace SelfGit
open Foundation
set_option autoImplicit true

variable {ok : (o : Op) → o.Res → Prop} {g : View} {L : Lib}

theorem wp_addTreeEntries {Q : Except Stop TreeBuffer → View → Prop} (hL : g.lib = L)
    (hi : g.installed = none) (ho : g.object = none) {slots : List (Option CacheEntry)}
    (hQ : ∀ b' objects, g.objects ⊆ objects →
      (∀ e ∈ (slots.take n).reduceOption, sha1FileName L e.sha1 ∈ objects) →
      Q (.ok b') (g.more objects))
    (he : ∀ e g', g'.installed = none → g'.object = none → Q (.error e) g') :
    (addTreeEntries L n slots b).wp (terms ok) Q g := by
  induction n generalizing slots b g with
  | zero =>
    rw [addTreeEntries, Prog.wp_pure]
    exact hQ b g.objects (List.Subset.refl _) fun e hmem => by cases hmem
  | succ n ih =>
    cases slots with
    | nil => exact Prog.wp_halt.2 (he _ _ hi ho)
    | cons slot slots =>
      cases slot with
      | none => exact Prog.wp_halt.2 (he _ _ hi ho)
      | some ce =>
        rw [addTreeEntries, Prog.wp_bind]
        refine wp_access hi fun r => ?_
        cases r with
        | false => exact Prog.wp_halt.2 (he _ _ hi ho)
        | true =>
          simp only [Prog.andThen_ok, ↓reduceIte, Prog.wp_bind]
          rw [wp_defined]
          refine ⟨fun b' _ => ?_, fun _ => he _ _ hi ho⟩
          rw [Prog.andThen_ok]
          refine ih (g := g.accessed (sha1FileName L ce.sha1) true) hL hi ho ?_
          intro b'' objects hsub hall
          refine hQ b'' objects (fun p hp => hsub (List.mem_cons_of_mem _ hp)) ?_
          intro e hmem
          rw [List.take_succ_cons, List.reduceOption_cons_of_some, List.mem_cons] at hmem
          rcases hmem with rfl | hmem
          · exact hsub List.mem_cons_self
          · exact hall e hmem

theorem wp_buildTree {Q : Except Stop (List Byte × Nat) → View → Prop} (hL : g.lib = L)
    (hi : g.installed = none) (ho : g.object = none)
    (hQ : ∀ r objects, g.objects ⊆ objects →
      (∀ e ∈ (c.activeCache.take n).reduceOption, sha1FileName L e.sha1 ∈ objects) →
      Q (.ok r) (g.more objects))
    (he : ∀ e g', g'.installed = none → g'.object = none → Q (.error e) g') :
    (buildTree L n c).wp (terms ok) Q g := by
  rw [buildTree]
  split
  · rw [Prog.wp_bind]
    refine wp_addTreeEntries hL hi ho ?_ fun e g' hi' ho' => he e g' hi' ho'
    intro b objects hsub hall
    rw [Prog.andThen_ok, Prog.wp_bind, wp_defined]
    refine ⟨fun r _ => ?_, fun _ => he _ _ hi ho⟩
    exact Prog.wp_pure.2 <| hQ _ objects hsub hall
  · exact Prog.wp_halt.2 (he _ _ hi ho)

theorem wp_writeSha1File {Q : Except Stop (Int × Sha1) → View → Prop} (hL : g.lib = L)
    (hi : g.installed = none) (ho : g.object = none)
    (hQ : ∀ r objects, Q (.ok r) (g.more objects)) :
    (writeSha1File L buf len).wp (terms ok) Q g := by
  rw [writeSha1File, Prog.wp_bind]
  refine wp_writeSha1Buffer hL hi ho fun r objects _ _ => ?_
  exact Prog.wp_pure.2 <| hQ _ objects

theorem wp_writeTree {Q : Except Stop (List Byte × Bool) → View → Prop} (hL : g.lib = L)
    (hi : g.installed = none) (ho : g.object = none) (hs : g.seen = none)
    (hQ : ∀ r g', g'.lib = L → g'.installed = none → g'.object = none → Q (.ok r) g')
    (he : ∀ e g', g'.installed = none → g'.object = none → Q (.error e) g') :
    (writeTree L sha1).wp (terms ok) Q g := by
  rw [writeTree, Prog.wp_bind]
  refine wp_readCache hi ho hs (fun n c h z s _ => ?_) fun e g' hi' ho' => he e g' hi' ho'
  simp only [Prog.andThen_ok]
  split
  · exact Prog.wp_halt.2 (he _ _ hi ho)
  · rw [Prog.wp_bind]
    refine wp_buildTree hL hi ho (fun r objects _ hall => ?_) fun e g' hi' ho' => he e g' hi' ho'
    simp only [Prog.andThen_ok, Prog.wp_bind]
    refine wp_treeOf hi (fun e hmem => ?_) ?_
    · change sha1FileName g.lib e.sha1 ∈ objects
      rw [hL]
      exact hall e hmem
    · simp only [Prog.andThen_ok, Prog.wp_bind]
      refine wp_writeSha1File hL hi ho fun r objects' => ?_
      exact Prog.wp_pure.2 <| hQ _ _ hL hi ho

theorem wp_commitTree {Q : Except Stop Int → View → Prop} (hL : g.lib = L)
    (hi : g.installed = none) (ho : g.object = none)
    (hQ : ∀ r g', g'.object = none → Q r g') :
    (commitTree L argv w tree).wp (terms ok) Q g := by
  rw [commitTree.eq_def]
  split
  · exact Prog.wp_halt.2 (hQ _ _ ho)
  · split
    · exact Prog.wp_halt.2 (hQ _ _ ho)
    · rw [Prog.wp_bind, wp_defined]
      refine ⟨fun _ _ => ?_, fun _ => hQ _ _ ho⟩
      rw [Prog.andThen_ok, Prog.wp_bind, wp_defined]
      refine ⟨fun _ _ => ?_, fun _ => hQ _ _ ho⟩
      simp only [Prog.andThen_ok]
      split
      · rw [Prog.wp_bind]
        refine wp_writeSha1File hL hi ho fun r objects => ?_
        exact Prog.wp_pure.2 (hQ _ _ ho)
      · exact Prog.wp_halt.2 (hQ _ _ ho)

theorem wp_commit (L : Lib) (argv : List CStr) (w : Surroundings) :
    (commit L argv w).wp (terms ok) (fun _ g => g.object = none) (View.init L []) := by
  rw [commit, Prog.wp_bind]
  refine wp_memory rfl fun sha1 => ?_
  rw [Prog.andThen_ok, Prog.wp_bind]
  refine wp_writeTree rfl rfl rfl rfl ?_ fun _ _ _ ho => ho
  intro r g' hL hi ho
  simp only [Prog.andThen_ok, Prog.wp_bind]
  refine wp_commitTree hL hi ho ?_
  intro r' g'' ho'
  cases r' with
  | ok n => exact Prog.wp_pure.2 ho'
  | error e => exact ho'

end SelfGit

import SelfGit.Removal
import SelfGit.StatusReport

namespace SelfGit
open Foundation
set_option autoImplicit true

def Clean (work : Path → Except Errno Stat) (e : CacheEntry) : Prop :=
  ∃ st, work e.key = .ok st ∧ matchStat e st = 0

section Diff
variable {ok : (o : Op) → o.Res → Prop} {work : Path → Except Errno Stat} {w w' : Site}
  {before behind after : List CacheEntry} {es : List CacheEntry} {e : CacheEntry} {c : Cache}

theorem Clean.unchanged (hn : e.Named) (h : Clean work e) : Unchanged work e e.key := by
  obtain ⟨st, hst, hm⟩ := h
  exact ⟨e.namelen.toNat, st, hn, rfl, hst, hm⟩

end Diff

def twoEntries : List CacheEntry := [plainEntry (cstr "a"), plainEntry (cstr "b")]

theorem twoEntries_site : Loads storedEnv.lib (siteOf (withIndex twoEntries)).fs
    (twoEntries.map CacheEntry.trim) (reloaded twoEntries) := by
  have hread : (withIndex twoEntries).read indexPath = some (cacheImage storedLib twoEntries) := by
    simp only [withIndex, FS.read, Function.update_self, Option.map_some]
  exact Loads.of_image hread (by decide) (by decide)

theorem twoEntries_named : ∀ e ∈ twoEntries.map CacheEntry.trim, e.Named := by
  have hnamed : ∀ e ∈ twoEntries, e.Named := List.forall_mem_cons.2
    ⟨newEntry_named (by decide), List.forall_mem_singleton.2 (newEntry_named (by decide))⟩
  intro e he
  obtain ⟨f, hf, rfl⟩ := List.mem_map.1 he
  exact (hnamed f hf).trim

end SelfGit

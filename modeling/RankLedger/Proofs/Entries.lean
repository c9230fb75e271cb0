import Mathlib.Data.List.Nodup

/-!
# Lists of entries

Locks and cores are kept in lists of entries, each under a key.  As long as no key occurs twice,
looking a key up finds the entry of that key and misses none.
-/

namespace RankLedger

variable {κ α : Type} [BEq κ] [LawfulBEq κ] {entries : List (κ × α)} {key : κ} {entry : α}

theorem mem_of_lookup (h : entries.lookup key = some entry) : (key, entry) ∈ entries := by
  obtain ⟨before, after, rfl, -⟩ := List.lookup_eq_some_iff.1 h
  exact List.mem_append_right _ List.mem_cons_self

theorem lookup_of_mem (keys : (entries.map (·.1)).Nodup) (mem : (key, entry) ∈ entries) :
    entries.lookup key = some entry := by
  obtain ⟨before, after, rfl⟩ := List.append_of_mem mem
  rw [List.map_append, List.map_cons, List.nodup_append] at keys
  refine List.lookup_eq_some_iff.2 ⟨before, after, rfl, fun other mem => bne_iff_ne.2 ?_⟩
  exact (keys.2.2 _ (List.mem_map_of_mem mem) _ List.mem_cons_self).symm

end RankLedger

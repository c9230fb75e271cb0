import Mathlib.Logic.Function.Basic

/-!
# Merges

Several threads have a list each.  A *merge* is one list of all their entries in which the entries
of each thread keep their order.  There may be any number of threads.
-/

namespace RankLedger

variable {ι α : Type} [DecidableEq ι]

/-- One list of the entries of all threads, in the order of each thread: the first entry is the
    first one of some thread, and the rest merges what is left. -/
inductive Merges : (ι → List α) → List α → Prop
  | done {lists : ι → List α} : (∀ thread, lists thread = []) → Merges lists []
  | next {lists : ι → List α} {thread : ι} {first : α} {rest merged : List α} :
      lists thread = first :: rest → Merges (Function.update lists thread rest) merged →
      Merges lists (first :: merged)

namespace Merges

variable {lists : ι → List α} {merged : List α}

theorem mem_iff (h : Merges lists merged) {x : α} : x ∈ merged ↔ ∃ thread, x ∈ lists thread := by
  induction h with
  | done none => simp [none]
  | @next lists thread first rest merged split _ ih =>
      rw [List.mem_cons, ih]
      constructor
      · rintro (rfl | ⟨other, mem⟩)
        · exact ⟨thread, split ▸ List.mem_cons_self⟩
        · by_cases same : other = thread
          · rw [same, Function.update_self] at mem
            exact ⟨thread, split ▸ List.mem_cons_of_mem _ mem⟩
          · rw [Function.update_of_ne same] at mem
            exact ⟨other, mem⟩
      · rintro ⟨other, mem⟩
        by_cases same : other = thread
        · rw [same, split] at mem
          refine (List.mem_cons.1 mem).imp_right fun mem => ⟨thread, ?_⟩
          rwa [Function.update_self]
        · refine .inr ⟨other, ?_⟩
          rwa [Function.update_of_ne same]

/-- Entries that all belong to one thread stand in the merge as they stand there. -/
theorem filter_eq (h : Merges lists merged) {p : α → Bool} {thread : ι}
    (only : ∀ other, ∀ x ∈ lists other, p x = true → other = thread) :
    merged.filter p = (lists thread).filter p := by
  induction h with
  | done none => rw [none]
  | @next lists other first rest merged split _ ih =>
      have fewer : ∀ x ∈ rest, x ∈ lists other := fun x mem => split ▸ List.mem_cons_of_mem _ mem
      have ih := ih fun third x mem holds => by
        by_cases same : third = other
        · rw [same, Function.update_self] at mem
          rw [same]
          exact only other x (fewer x mem) holds
        · rw [Function.update_of_ne same] at mem
          exact only third x mem holds
      by_cases same : thread = other
      · rw [same, Function.update_self] at ih
        rw [List.filter_cons, ih, same, split, List.filter_cons]
      · rw [Function.update_of_ne same] at ih
        rw [← ih]
        -- the first entry is of another thread
        apply List.filter_cons_of_neg
        intro holds
        exact same (only other first (split ▸ List.mem_cons_self) holds).symm

end Merges

end RankLedger

import Mathlib.Data.List.Count
import Mathlib.Data.List.Induction
import RankLedger.Proofs.Threads.Basic
import RankLedger.Proofs.World.Commits

/-!
# The course of a run

Where threads end up does not tell what they did on the way.  A *journal* says of each step of a run
who took it and what others may notice of it: it makes writes visible, it tells the listeners
something, or nothing.  Commits and notifications each have an order, in which the threads take
turns in some way; if whoever commits finds that all others have told what they committed, they do
so in the same way (`Journal.IsPrompt.who_eq`).
-/

namespace RankLedger

variable {ν ι : Type}

/-! ## 1. Acts -/

inductive Act (ν : Type) where
  | silent
  /-- Writes that waited become visible. -/
  | commits (commit : Commit ν)
  /-- The listeners hear of something. -/
  | tells (notification : Notification ν)

namespace Act

def commit? : Act ν → Option (Commit ν)
  | commits commit => some commit
  | silent | tells _ => none

def notification? : Act ν → Option (Notification ν)
  | tells notification => some notification
  | silent | commits _ => none

end Act

def Call.act : Call ν → World ν → Act ν
  | .commit core, world => .commits ⟨core, (world.core core).pending, true⟩
  | .notify notification, _ => .tells notification
  | _, _ => .silent

/-- Where nothing fails, what is attempted is done. -/
theorem Call.attempted_eq [Scalar ν] {call : Call ν} {reply : call.Reply} {before after : World ν}
    (h : World.Answers World.reliable call before reply after) :
    call.attempted before reply = (call.act before).commit?.toList := by
  cases call with
  | commit core =>
      cases reply with
      | ok _ => rfl
      | error error => exact h.1.elim
  | openCore | add | delete | query | getLock | acquire | release | now | freshId | notify => rfl

def Thread.act (thread : Thread ν) (world : World ν) : Act ν :=
  match thread.current with
  | some (_, .step call _) => call.act world
  | some (_, .done _) | none => .silent

/-! ## 2. Journals -/

abbrev Journal (ι ν : Type) := List (ι × Act ν)

namespace Journal

def commits (journal : Journal ι ν) : List (ι × Commit ν) :=
  journal.filterMap fun step => step.2.commit?.map (step.1, ·)

def told (journal : Journal ι ν) : List (ι × Notification ν) :=
  journal.filterMap fun step => step.2.notification?.map (step.1, ·)

variable {journal : Journal ι ν} {i : ι} {act : Act ν}

@[simp] theorem commits_concat :
    commits (journal ++ [(i, act)]) = journal.commits ++ act.commit?.toList.map (i, ·) := by
  rw [commits, List.filterMap_append]
  cases act <;> rfl

@[simp] theorem told_concat :
    told (journal ++ [(i, act)]) = journal.told ++ act.notification?.toList.map (i, ·) := by
  rw [told, List.filterMap_append]
  cases act <;> rfl

/-! ## 3. Who commits and who tells -/

def committers (journal : Journal ι ν) : List ι :=
  journal.commits.map Prod.fst

def tellers (journal : Journal ι ν) : List ι :=
  journal.told.map Prod.fst

theorem committers_concat :
    committers (journal ++ [(i, act)]) =
      journal.committers ++ act.commit?.toList.map fun _ => i := by
  rw [committers, commits_concat, List.map_append, List.map_map]
  rfl

theorem tellers_concat :
    tellers (journal ++ [(i, act)]) =
      journal.tellers ++ act.notification?.toList.map fun _ => i := by
  rw [tellers, told_concat, List.map_append, List.map_map]
  rfl

variable [DecidableEq ι]

/-- Whoever commits finds that each of the others has told as much as it committed. -/
def IsPrompt (journal : Journal ι ν) : Prop :=
  ∀ earlier i commit later, journal = earlier ++ (i, .commits commit) :: later →
    ∀ j, j ≠ i → (tellers earlier).count j = (committers earlier).count j

def IsHonest (journal : Journal ι ν) : Prop :=
  ∀ earlier, earlier <+: journal → ∀ i, (tellers earlier).count i ≤ (committers earlier).count i

/-- If all are prompt, one thread at most has something to tell. -/
theorem IsPrompt.exists_left (prompt : IsPrompt journal) (honest : IsHonest journal) :
    ∃ left, journal.committers = journal.tellers ++ left ∧ ∀ j ∈ left, ∀ k ∈ left, j = k := by
  induction journal using List.reverseRecOn with
  | nil => exact ⟨[], rfl, nofun⟩
  | append_singleton journal step ih =>
      obtain ⟨i, act⟩ := step
      have prompt' : IsPrompt journal := by
        intro earlier j commit later split
        refine prompt earlier j commit (later ++ [(i, act)]) ?_
        rw [split, List.append_assoc, List.cons_append]
      obtain ⟨left, order, alone⟩ := ih prompt' fun earlier sooner =>
        honest earlier (sooner.trans (List.prefix_append _ _))
      have fewer := honest _ List.prefix_rfl i
      rw [committers_concat, tellers_concat, order] at fewer ⊢
      cases act with
      | silent => exact ⟨left, by simp [Act.commit?, Act.notification?], alone⟩
      | commits commit =>
          -- whoever commits is the one that has something to tell, if anybody has
          have same : ∀ j ∈ left, j = i := by
            intro j mem
            apply Classical.byContradiction
            intro other
            have even := prompt journal i commit [] rfl j other
            have := List.count_pos_iff.2 mem
            rw [order, List.count_append] at even
            omega
          have same : ∀ j ∈ left ++ [i], j = i :=
            List.forall_mem_append.2 ⟨same, List.forall_mem_singleton.2 rfl⟩
          refine ⟨left ++ [i], by simp [Act.commit?, Act.notification?], fun j mem k mem' => ?_⟩
          rw [same j mem, same k mem']
      | tells notification =>
          -- and so is whoever tells
          have mem : i ∈ left := by
            simp only [Act.commit?, Act.notification?, Option.toList_none, Option.toList_some,
              List.map_nil, List.map_cons, List.append_nil, List.count_append,
              List.count_singleton_self] at fewer
            exact List.count_pos_iff.1 (by omega)
          cases left with
          | nil => cases mem
          | cons j left =>
              obtain rfl := alone i mem j List.mem_cons_self
              refine ⟨left, by simp [Act.commit?, Act.notification?], fun j mem k mem' => ?_⟩
              exact alone j (List.mem_cons_of_mem _ mem) k (List.mem_cons_of_mem _ mem')

/-- **Prompt threads** tell in the order in which they commit, once each has told all it
    committed. -/
theorem IsPrompt.tellers_eq (prompt : IsPrompt journal) (honest : IsHonest journal)
    (even : ∀ i, journal.tellers.count i = journal.committers.count i) :
    journal.tellers = journal.committers := by
  obtain ⟨left, order, -⟩ := prompt.exists_left honest
  have none : left = [] := by
    refine List.eq_nil_iff_forall_not_mem.2 fun i mem => ?_
    have even := even i
    have := List.count_pos_iff.2 mem
    rw [order, List.count_append] at even
    omega
  rw [order, none, List.append_nil]

end Journal

/-- How often a thread occurs in a list. -/
theorem count_map_fst {α : Type} [DecidableEq ι] (list : List (ι × α)) (i : ι) :
    (list.map Prod.fst).count i = (list.filter fun x => x.1 = i).length := by
  rw [List.count, List.countP_map, List.countP_eq_length_filter]
  exact congrArg List.length (List.filter_congr fun x _ => beq_eq_decide ..)

/-- Lists in which the threads take turns in the same way, and each does the same, are the same. -/
theorem eq_of_filter_eq {α : Type} [DecidableEq ι] {a b : List (ι × α)}
    (turns : a.map Prod.fst = b.map Prod.fst)
    (each : ∀ i, a.filter (fun x => x.1 = i) = b.filter fun x => x.1 = i) : a = b := by
  induction a generalizing b with
  | nil => exact (List.map_eq_nil_iff.1 turns.symm).symm
  | cons x a ih =>
      cases b with
      | nil => cases turns
      | cons y b =>
          obtain ⟨who, others⟩ := List.cons.inj turns
          have here := each x.1
          rw [List.filter_cons_of_pos (by simp), List.filter_cons_of_pos (by simp [who])] at here
          obtain ⟨rfl, rest⟩ := List.cons.inj here
          refine congrArg _ (ih others fun i => ?_)
          by_cases same : x.1 = i
          · exact same ▸ rest
          · have each := each i
            rwa [List.filter_cons_of_neg (by simp [same]),
              List.filter_cons_of_neg (by simp [same])] at each

/-! ## 4. Courses -/

variable [Scalar ν] {manager : Manager}

/-- What a call tells the listeners they hear. -/
theorem World.Answers.heard {faults : Call ν → Prop} {call : Call ν} {reply : call.Reply}
    {before after : World ν} (h : World.Answers faults call before reply after) :
    after.heard = before.heard ++ (call.act before).notification?.toList := by
  have nothing (list : List (Notification ν)) : list = list ++ [] := (List.append_nil _).symm
  cases call with
  | openCore | query =>
      cases reply <;> rw [h.2] <;> exact nothing _
  | add | delete | commit | getLock | acquire =>
      cases reply with
      | ok _ =>
          obtain rfl : after = _ := h
          exact nothing _
      | error error =>
          rw [h.2]
          exact nothing _
  | release =>
      obtain rfl : after = _ := h
      exact nothing _
  | now | freshId =>
      rw [h.2]
      exact nothing _
  | notify notification =>
      obtain rfl : after = before.hear [notification] := h
      rfl

theorem Commons.Answers.heard {call : Call ν} {reply : call.Reply} {before after : Commons ν}
    (h : Commons.Answers call before reply after) :
    after.world.heard = before.world.heard ++ (call.act before.world).notification?.toList := by
  cases call with
  | getLock service key =>
      obtain ⟨-, rfl⟩ := h
      exact (List.append_nil _).symm
  | acquire service lock =>
      obtain ⟨-, -, rfl⟩ := h
      exact (List.append_nil _).symm
  | release service lock =>
      obtain rfl : after = _ := h
      exact (List.append_nil _).symm
  | openCore | query | add | delete | commit | now | freshId | notify => exact h.1.heard

theorem Thread.Step.heard {thread next : Thread ν} {before after : Commons ν}
    (h : Thread.Step manager thread before next after) :
    after.world.heard =
      before.world.heard ++ (thread.act before.world).notification?.toList := by
  cases h with
  | ask | answer => exact (List.append_nil _).symm
  | call answered => exact answered.heard

namespace Workshop

variable [DecidableEq ι]

inductive Course (manager : Manager) (first : Workshop ι ν) : Journal ι ν → Workshop ι ν → Prop
  | opening : Course manager first [] first
  | step {journal : Journal ι ν} {middle : Workshop ι ν} {i : ι} {thread : Thread ν}
      {commons : Commons ν} : Course manager first journal middle →
      Thread.Step manager (middle.threads i) middle.commons thread commons →
      Course manager first (journal ++ [(i, (middle.threads i).act middle.commons.world)])
        ⟨Function.update middle.threads i thread, commons⟩

variable {first last : Workshop ι ν} {journal : Journal ι ν}

/-- **Courses are runs,** and every run has a journal. -/
theorem exists_course_iff :
    (∃ journal, Course manager first journal last) ↔ Run manager first last := by
  constructor
  · rintro ⟨journal, course⟩
    induction course with
    | opening => exact .refl
    | step _ step ih => exact ih.tail (.thread step)
  · intro run
    induction run with
    | refl => exact ⟨[], .opening⟩
    | tail _ step ih =>
        obtain ⟨journal, course⟩ := ih
        obtain @⟨i, thread, commons, step⟩ := step
        exact ⟨_, course.step step⟩

namespace Course

/-- Every part of a journal, from its beginning, is the journal of a run. -/
theorem exists_of_prefix (course : Course manager first journal last) {earlier : Journal ι ν}
    (sooner : earlier <+: journal) : ∃ middle, Course manager first earlier middle := by
  induction course with
  | opening =>
      rw [List.prefix_nil.1 sooner]
      exact ⟨first, .opening⟩
  | step course step ih =>
      obtain whole | sooner := List.prefix_concat_iff.1 sooner
      · rw [whole]
        exact ⟨_, course.step step⟩
      · exact ih sooner

/-- The listeners hear what the journal says. -/
theorem heard (course : Course manager first journal last) :
    last.commons.world.heard = first.commons.world.heard ++ journal.told.map Prod.snd := by
  induction course with
  | opening => exact (List.append_nil _).symm
  | @step journal middle i thread commons _ step ih =>
      rw [Journal.told_concat, List.map_append, List.map_map, ← List.append_assoc, ← ih, step.heard]
      exact congrArg _ (List.map_id _).symm

end Course

end Workshop

end RankLedger

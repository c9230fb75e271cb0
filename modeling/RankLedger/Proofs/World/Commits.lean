import RankLedger.Proofs.World.Alike

/-!
# Worlds that keep count of commits

What a program wrote cannot be read off the world it leaves, since one write may cover another.  An
*observed* world remembers every commit that was attempted: the core, the writes that were waiting
for it, and whether it succeeded.  Observing changes nothing (`Observed.yields_iff`), and the
documents of a core are always those from before with the writes of the commits that succeeded
carried out in order, whatever program ran (`Observed.documents`).
-/

namespace RankLedger

variable {ν α : Type}

/-! ## 1. Commits -/

structure Commit (ν : Type) where
  core : String
  writes : List (CoreWrite ν)
  succeeded : Bool

namespace Commit

def written (core : String) (commits : List (Commit ν)) : List (CoreWrite ν) :=
  commits.flatMap fun commit =>
    if commit.succeeded = true ∧ commit.core = core then commit.writes else []

def waiting (core : String) (commits : List (Commit ν)) : List (CoreWrite ν) :=
  commits.flatMap fun commit =>
    if commit.succeeded = false ∧ commit.core = core then commit.writes else []

theorem written_append (core : String) (first second : List (Commit ν)) :
    written core (first ++ second) = written core first ++ written core second :=
  List.flatMap_append

theorem waiting_append (core : String) (first second : List (Commit ν)) :
    waiting core (first ++ second) = waiting core first ++ waiting core second :=
  List.flatMap_append

/-- Only commits that succeed make anything visible. -/
theorem written_filter (core : String) (commits : List (Commit ν)) :
    written core (commits.filter (·.succeeded)) = written core commits := by
  induction commits with
  | nil => rfl
  | cons commit rest ih =>
      cases succeeded : commit.succeeded with
      | true =>
          rw [List.filter_cons_of_pos succeeded, written, List.flatMap_cons]
          exact congrArg _ ih
      | false =>
          rw [List.filter_cons_of_neg (by rw [succeeded]; exact Bool.false_ne_true), ih]
          rw [written, written, List.flatMap_cons, if_neg, List.nil_append]
          rw [succeeded]
          exact fun wrong => Bool.false_ne_true wrong.1

/-- Commits that succeed leave nothing. -/
theorem waiting_eq_nil {commits : List (Commit ν)} (h : ∀ commit ∈ commits, commit.succeeded = true)
    (core : String) : waiting core commits = [] := by
  refine List.flatMap_eq_nil_iff.2 fun commit mem => if_neg ?_
  rw [h commit mem]
  exact fun wrong => Bool.noConfusion wrong.1

end Commit

def Call.attempted : (call : Call ν) → World ν → call.Reply → List (Commit ν)
  | .commit core, world, .ok _ => [⟨core, (world.core core).pending, true⟩]
  | .commit core, world, .error _ => [⟨core, (world.core core).pending, false⟩]
  | _, _, _ => []

def Call.IsSilent (call : Call ν) : Prop :=
  ∀ world reply, call.attempted world reply = []

theorem Call.Reads.isSilent {call : Call ν} (h : call.Reads) : call.IsSilent := by
  cases call with
  | openCore | query | now | freshId => exact fun _ _ => rfl
  | add | delete | commit | getLock | acquire | release | notify => exact h.elim

@[ext]
structure Observed (ν : Type) where
  world : World ν
  commits : List (Commit ν) := []

namespace Observed

variable [Scalar ν]

/-- The answers of a world, with the commits that they are answers to. -/
def Answers (faults : Call ν → Prop) : Program.Rules ν (Observed ν) :=
  fun call before reply after => World.Answers faults call before.world reply after.world ∧
    after.commits = before.commits ++ call.attempted before.world reply

variable {faults : Call ν → Prop} {program : Program ν α} {outcome : α} {before after : Observed ν}

theorem exists_answers (faults : Call ν → Prop) (call : Call ν) (before : Observed ν) :
    ∃ reply after, Answers faults call before reply after := by
  obtain ⟨reply, after, answered⟩ := World.exists_answers faults call before.world
  exact ⟨reply, ⟨after, _⟩, answered, rfl⟩

theorem ensures_iff {post : α → Observed ν → Prop} :
    program.Ensures (Answers faults) before post ↔
      ∀ outcome after, program.Yields (Answers faults) before outcome after → post outcome after :=
  ⟨And.right, fun h => ⟨Program.exists_yields (exists_answers faults) program before, h⟩⟩

/-- **Observing changes nothing.** A program has the same outcomes, observed or not. -/
theorem yields_iff {last : World ν} :
    (∃ commits, program.Yields (Answers faults) before outcome ⟨last, commits⟩) ↔
      program.Yields (World.Answers faults) before.world outcome last := by
  induction program generalizing before with
  | done result =>
      constructor
      · rintro ⟨_, rfl, same⟩
        exact ⟨rfl, congrArg Observed.world same⟩
      · rintro ⟨rfl, rfl⟩
        exact ⟨before.commits, rfl, rfl⟩
  | step call next ih =>
      constructor
      · rintro ⟨commits, reply, middle, ⟨answered, -⟩, rest⟩
        exact ⟨reply, middle.world, answered, (ih reply).1 ⟨commits, rest⟩⟩
      · rintro ⟨reply, middle, answered, rest⟩
        obtain ⟨commits, rest⟩ := (@ih reply ⟨middle, _⟩).2 rest
        exact ⟨commits, reply, ⟨middle, _⟩, ⟨answered, rfl⟩, rest⟩

theorem yields_world (h : program.Yields (Answers faults) before outcome after) :
    program.Yields (World.Answers faults) before.world outcome after.world :=
  yields_iff.1 ⟨after.commits, h⟩

omit [Scalar ν] in
/-- Commits are attempted in cores, so it does not matter what was heard before. -/
theorem attempted_alike {a b : World ν} (alike : a.Alike b) (call : Call ν) (reply : call.Reply) :
    call.attempted a reply = call.attempted b reply := by
  cases call with
  | commit core => cases reply <;> rw [Call.attempted, Call.attempted, alike.core]
  | openCore | add | delete | query | getLock | acquire | release | now | freshId | notify => rfl

theorem yields_alike {world : World ν} (h : program.Yields (Answers faults) before outcome after)
    (alike : before.world.Alike world) :
    ∃ last, program.Yields (Answers faults) ⟨world, before.commits⟩ outcome ⟨last, after.commits⟩ ∧
      after.world.Alike last := by
  induction program generalizing before world with
  | done result =>
      obtain ⟨rfl, rfl⟩ := h
      exact ⟨world, ⟨rfl, rfl⟩, alike⟩
  | step call next ih =>
      obtain ⟨reply, middle, ⟨answered, counted⟩, rest⟩ := h
      obtain ⟨middle', answered', alike'⟩ := answered.alike alike
      obtain ⟨last, yields, likewise⟩ := ih reply rest alike'
      rw [counted, attempted_alike alike] at yields
      exact ⟨last, ⟨reply, ⟨middle', _⟩, ⟨answered', rfl⟩, yields⟩, likewise⟩

/-- Where nothing fails, every commit succeeds. -/
theorem succeeded (h : program.Yields (Answers World.reliable) before outcome after)
    (start : ∀ commit ∈ before.commits, commit.succeeded = true) :
    ∀ commit ∈ after.commits, commit.succeeded = true := by
  induction program generalizing before with
  | done result => rwa [h.2]
  | step call next ih =>
      obtain ⟨reply, middle, ⟨answered, counted⟩, rest⟩ := h
      refine ih reply rest ?_
      rw [counted]
      refine List.forall_mem_append.2 ⟨start, ?_⟩
      cases call with
      | commit core =>
          cases reply with
          | ok _ => exact List.forall_mem_singleton.2 rfl
          | error error => exact answered.1.elim
      | openCore | add | delete | query | getLock | acquire | release | now | freshId | notify =>
          exact List.forall_mem_nil _

/-! ## 2. Programs that commit nothing -/

theorem commits_of_silent (silent : program.Makes Call.IsSilent)
    (h : program.Yields (Answers faults) before outcome after) :
    after.commits = before.commits := by
  induction program generalizing before with
  | done result => rw [h.2]
  | step call next ih =>
      obtain ⟨reply, middle, ⟨-, counted⟩, yields⟩ := h
      rw [ih reply (silent.2 reply) yields, counted, silent.1, List.append_nil]

/-- Whoever tells the listeners something commits nothing. -/
theorem yields_deliver {news : List (Notification ν)} {result : Unit}
    (h : (Manager.deliver news).Yields (Answers faults) before result after) :
    after = ⟨before.world.hear news, before.commits⟩ := by
  have silent : (Manager.deliver news).Makes Call.IsSilent := by
    clear h
    induction news with
    | nil => exact Program.makes_done _
    | cons notification rest ih => exact ⟨fun _ _ => rfl, fun _ => ih⟩
  have commits : after.commits = before.commits := commits_of_silent silent h
  exact Observed.ext (World.yields_deliver.1 (yields_world h)) commits

/-! ## 3. Documents -/

omit [Scalar ν] in
theorem documents_commit (world : World ν) (name core : String) :
    ((world.commit name).core core).documents =
      (Commit.written core [⟨name, (world.core name).pending, true⟩]).foldl
        (fun shelf write => write.on shelf) (world.core core).documents := by
  by_cases same : core = name
  · subst same
    rw [World.commit, World.core_change_self, Core.documents_commit]
    simp [Commit.written]
  · rw [World.commit, World.core_change_of_ne _ _ _ same]
    simp [Commit.written, Ne.symm same]

/-- A call makes visible what it commits, and nothing else. -/
theorem documents_of_answers {call : Call ν} {reply : call.Reply} {before after : World ν}
    (h : World.Answers faults call before reply after) (core : String) :
    (after.core core).documents =
      (Commit.written core (call.attempted before reply)).foldl
        (fun shelf write => write.on shelf) (before.core core).documents := by
  cases call with
  | commit name =>
      cases reply with
      | ok _ => exact (show after = before.commit name from h) ▸ documents_commit before name core
      | error error =>
          rw [h.2]
          simp [Commit.written, Call.attempted]
  | openCore | add | delete | query | getLock | acquire | release | now | freshId | notify =>
      exact h.documents rfl

/-- **Documents.** Whatever program runs, the documents of a core are those from before with
    everything carried out, in order, that the commits in between made visible. -/
theorem documents (h : program.Yields (Answers faults) before outcome after) :
    ∃ made, after.commits = before.commits ++ made ∧ ∀ core,
      (after.world.core core).documents = (Commit.written core made).foldl
        (fun shelf write => write.on shelf) (before.world.core core).documents := by
  induction program generalizing before with
  | done result =>
      rw [h.2]
      exact ⟨[], (List.append_nil _).symm, fun _ => rfl⟩
  | step call next ih =>
      obtain ⟨reply, middle, ⟨answered, counted⟩, yields⟩ := h
      obtain ⟨made, counted', later⟩ := ih reply yields
      refine ⟨call.attempted before.world reply ++ made, ?_, fun core => ?_⟩
      · rw [counted', counted, List.append_assoc]
      · rw [later, documents_of_answers answered, Commit.written_append, List.foldl_append]

end Observed

end RankLedger

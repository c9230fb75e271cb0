import RankLedger.Proofs.Deployment
import RankLedger.Proofs.Manager.Committing
import RankLedger.Proofs.Threads.Schedule

/-!
# What a failure leaves

Any call to the index or to the locks may fail at any time, and the cores may hold any documents.
Whatever happens, the listeners are told of every commit that succeeded and of nothing else, and an
error leaves one of two states: nothing was committed, or the vote was and its average was not
(`Request.leaves_documented_state`).
-/

namespace RankLedger

variable {ν : Type} [Scalar ν]

/-! ## 1. The whole of a request -/

variable {faults : Call ν → Prop} {before after : Observed ν} {manager : Manager}

/-- Under a lock that is got the work is done, and then it is told. -/
theorem Manager.observed_guard {α : Type} {target : EntityReference} {refuse : LockError → α}
    {work : Program ν (α × List (Notification ν))} {outcome : α}
    (h : (manager.guard target refuse work).Yields (Observed.Answers faults) before outcome
      after) :
    (∃ error, outcome = refuse error ∧ after = before) ∨
    ∃ news middle, work.Yields (Observed.Answers faults) before (outcome, news) middle ∧
      after = ⟨middle.world.hear news, middle.commits⟩ := by
  obtain ⟨got, first, ⟨answered, counted⟩, entering⟩ := h
  obtain rfl : first = before := by
    refine Observed.ext ?_ (counted.trans (List.append_nil _))
    cases got with
    | ok lock => exact answered
    | error error => exact answered.2
  cases got with
  | error error => exact .inl ⟨error, entering.1, entering.2⟩
  | ok lock =>
      obtain ⟨taken, second, ⟨answered, counted⟩, working⟩ := entering
      obtain rfl : second = first := by
        refine Observed.ext ?_ (counted.trans (List.append_nil _))
        cases taken with
        | ok _ => exact answered
        | error error => exact answered.2
      cases taken with
      | error error => exact .inl ⟨error, working.1, working.2⟩
      | ok _ =>
          obtain ⟨⟨result, news⟩, middle, worked, _, third, ⟨released, counted⟩, telling⟩ :=
            Program.yields_bind.1 working
          obtain rfl : third = middle :=
            Observed.ext released (counted.trans (List.append_nil _))
          obtain ⟨_, _, told, rfl, rfl⟩ := Program.yields_bind.1 telling
          exact .inr ⟨news, third, worked, Observed.yields_deliver told⟩

structure Request.Came (manager : Manager) (request : Request) (before : Observed ν)
    (response : Response ν) (made : List (Commit ν)) (news : List (Notification ν))
    (after : Observed ν) : Prop where
  commits : request.Commits manager (before.world.core manager.voteCore).documents response.isOk
    made news
  counted : after.commits = before.commits ++ made
  heard : after.world.heard = before.world.heard ++ news
  waiting : ∀ core, (after.world.core core).pending = Commit.waiting core made

omit [Scalar ν] in
/-- A request that was refused or found nothing to do. -/
theorem Request.Came.of_idle {request : Request} {response : Response ν}
    (commits : request.Commits manager (before.world.core manager.voteCore).documents response.isOk
      [] [])
    (idle : before.Attempts [] after) : request.Came manager before response [] [] after :=
  ⟨commits, idle.commits, idle.heard.trans (List.append_nil _).symm, idle.waiting⟩

omit [Scalar ν] in
theorem Request.isOk_refusal (request : Request) (error : LockError) :
    (request.refusal error : Response ν).isOk = false := by
  cases request <;> rfl

theorem Request.came_of_guarded (named : manager.voteCore ≠ "") (flushed : before.world.IsFlushed)
    {target : EntityReference} {request : Request} {response : Response ν}
    (h : (request.guarded manager target).Yields (Observed.Answers faults) before response after) :
    ∃ made news, request.Came manager before response made news after := by
  obtain ⟨error, rfl, rfl⟩ | ⟨news, middle, worked, rfl⟩ := Manager.observed_guard h
  · refine ⟨[], [], .of_idle ?_ (.none flushed)⟩
    rw [isOk_refusal]
    exact .failed
  · obtain ⟨made, commits, attempts⟩ := Request.commits_work named flushed worked
    refine ⟨made, news, commits, attempts.commits, ?_, attempts.waiting⟩
    rw [← attempts.heard]
    rfl

/-- **Requests** come to one of these, whatever calls fail. -/
theorem Request.exists_came (named : manager.voteCore ≠ "") (flushed : before.world.IsFlushed)
    {request : Request} {response : Response ν}
    (h : (request.program manager).Yields (Observed.Answers faults) before response after) :
    ∃ made news, request.Came manager before response made news after := by
  cases request with
  | save target voter vote =>
      cases valid : manager.validate vote with
      | ok rank =>
          rw [program_save valid] at h
          exact came_of_guarded named flushed h
      | error error =>
          rw [program_save_of_invalid valid] at h
          obtain ⟨rfl, rfl⟩ := h
          exact ⟨[], [], .of_idle .failed (.none flushed)⟩
  | recompute target =>
      rw [program_recompute] at h
      exact came_of_guarded named flushed h
  | remove id =>
      rw [program_remove, Program.yields_bind] at h
      obtain ⟨found, middle, looked, proceeding⟩ := h
      -- looking for the vote without the lock leaves everything as it was
      have idle := Manager.reads_oldest?.attempts flushed looked
      obtain error | _ | seen := found
      · obtain ⟨rfl, rfl⟩ := proceeding
        exact ⟨[], [], .of_idle .failed idle⟩
      · obtain ⟨rfl, rfl⟩ := proceeding
        exact ⟨[], [], .of_idle (.needless nofun) idle⟩
      · obtain ⟨made, news, came⟩ :=
          came_of_guarded named (idle.flushed (List.forall_mem_nil _)) proceeding
        have core : middle.world.core = before.world.core :=
          (Manager.reads_oldest?.idle (Observed.yields_world looked)).core
        refine ⟨made, news, core ▸ came.commits, ?_, ?_, came.waiting⟩
        · rw [came.counted, idle.commits, List.append_nil]
        · rw [came.heard, idle.heard]

/-! ## 2. Documented states -/

/-- The notification is of what the commit wrote or removed.  A vote that was changed or removed is
    one that was read from these documents. -/
inductive Commit.IsToldBy (manager : Manager) (documents : List (Document ν)) :
    Commit ν → Notification ν → Prop
  | vote {edit : Edit} : edit.IsFounded documents →
      IsToldBy manager documents ⟨manager.voteCore, [edit.write], true⟩
        (manager.tells edit.event edit.record)
  | average {old new : AverageRank ν} :
      IsToldBy manager documents ⟨averageCore, [.add new.toDocument], true⟩
        (manager.tellsAverage old new)

def Observed.done (observed : Observed ν) : List (Commit ν) :=
  observed.commits.filter (·.succeeded)

section Documented

variable {documents : List (Document ν)} {made : List (Commit ν)} {news : List (Notification ν)}
  {edit : Edit} {request : Request} {answered : Bool}

omit [Scalar ν] in
/-- A write that failed succeeded in nothing. -/
theorem Commit.Fails.filter_eq_nil {core : String} {write : CoreWrite ν}
    (h : Commit.Fails core write made) : made.filter (·.succeeded) = [] := by
  cases h with
  | refused => rfl
  | failed => rfl

omit [Scalar ν] in
/-- What succeeded of an edit is what is told of it. -/
theorem Manager.Commits.told {done : Bool} (h : manager.Commits edit done made news)
    (founded : edit.IsFounded documents) :
    List.Forall₂ (Commit.IsToldBy manager documents) (made.filter (·.succeeded)) news := by
  cases h with
  | lost fails =>
      rw [fails.filter_eq_nil]
      exact .nil
  | torn _ left =>
      rw [List.filter_cons_of_pos rfl]
      refine .cons (.vote founded) ?_
      obtain rfl | ⟨_, fails⟩ := left
      · exact .nil
      · rw [fails.filter_eq_nil]
        exact .nil
  | plain _ => exact .cons (.vote founded) .nil
  | full _ => exact .cons (.vote founded) (.cons .average .nil)

omit [Scalar ν] in
theorem Request.Commits.told (h : request.Commits manager documents answered made news) :
    List.Forall₂ (Commit.IsToldBy manager documents) (made.filter (·.succeeded)) news := by
  cases h with
  | failed | needless => exact .nil
  | edit _ _ founded commits => exact commits.told founded
  | lost fails =>
      rw [fails.filter_eq_nil]
      exact .nil
  | rebuilt => exact .cons .average .nil

omit [Scalar ν] in
/-- Whoever gives a result did not fail to commit anything. -/
theorem Request.Commits.succeeded (h : request.Commits manager documents true made news) :
    ∀ commit ∈ made, commit.succeeded = true := by
  cases h with
  | needless => exact List.forall_mem_nil _
  | edit _ _ _ commits =>
      cases commits with
      | plain _ => exact List.forall_mem_singleton.2 rfl
      | full _ => exact List.forall_mem_cons.2 ⟨rfl, List.forall_mem_singleton.2 rfl⟩
  | rebuilt => exact List.forall_mem_singleton.2 rfl

/-- What an error leaves: nothing was committed or told, or exactly the vote was, and then an
    average is kept. -/
inductive Request.IsTorn (manager : Manager) (documents : List (Document ν)) (request : Request) :
    List (Commit ν) → List (Notification ν) → Prop
  | nothing : IsTorn manager documents request [] []
  | vote (edit : Edit) : request.Asks manager edit → edit.IsFounded documents →
      manager.configuration.storeAverage = true →
      IsTorn manager documents request [⟨manager.voteCore, [edit.write], true⟩]
        [manager.tells edit.event edit.record]

omit [Scalar ν] in
theorem Request.Commits.isTorn (h : request.Commits manager documents false made news) :
    request.IsTorn manager documents (made.filter (·.succeeded)) news := by
  cases h with
  | failed => exact .nothing
  | edit edit asks founded commits =>
      cases commits with
      | lost fails =>
          rw [fails.filter_eq_nil]
          exact .nothing
      | torn on left =>
          obtain rfl | ⟨_, fails⟩ := left
          · exact .vote edit asks founded on
          · rw [List.filter_cons_of_pos rfl, fails.filter_eq_nil]
            exact .vote edit asks founded on
  | lost fails =>
      rw [fails.filter_eq_nil]
      exact .nothing

omit [Scalar ν] in
/-- An error leaves the averages alone. -/
theorem Request.IsTorn.written_averages (separate : manager.voteCore ≠ averageCore)
    (h : request.IsTorn manager documents made news) : Commit.written averageCore made = [] := by
  cases h with
  | nothing => rfl
  | vote _ _ _ _ =>
      rw [Commit.written, List.flatMap_singleton]
      exact if_neg fun wrong => separate wrong.2

end Documented

/-- **Every failure leaves a documented state.** Let the cores hold any documents, and let no write
    be waiting.  Whatever is asked of a manager, however it is configured, and whichever calls to
    the index and to the locks fail, the request ends, and then:
    each commit that succeeded was told, in order, with the record that it wrote or removed, and
    nothing else was told;
    the documents are those from before with what these commits wrote carried out;
    what is waiting is what a failed commit left;
    with a result no commit failed;
    and with an error either nothing was committed and told, or exactly the vote that was asked
    for was, in a manager that keeps averages, and the averages are those from before. -/
theorem Request.leaves_documented_state {identifier : String} {configuration : Configuration}
    {locks : LockService} {manager : Manager}
    (created : Manager.create? identifier configuration locks = .ok manager)
    (faults : Call ν → Prop) {world : World ν} (flushed : world.IsFlushed) (request : Request) :
    (request.program manager).Ensures (Observed.Answers faults) { world } fun response after =>
      ∃ news,
        after.world.heard = world.heard ++ news ∧
        List.Forall₂ (Commit.IsToldBy manager (world.core manager.voteCore).documents) after.done
          news ∧
        (∀ core, (after.world.core core).documents =
          (Commit.written core after.commits).foldl (fun shelf write => write.on shelf)
            (world.core core).documents) ∧
        (∀ core, (after.world.core core).pending = Commit.waiting core after.commits) ∧
        (response.isOk = true → ∀ commit ∈ after.commits, commit.succeeded = true) ∧
        (response.isOk = false →
          request.IsTorn manager (world.core manager.voteCore).documents after.done news ∧
          (after.world.core averageCore).documents = (world.core averageCore).documents) := by
  have placed := Manager.isPlaced_of_create? created
  refine Observed.ensures_iff.2 fun response after yields => ?_
  obtain ⟨made, news, commits, counted, heard, waiting⟩ :=
    Request.exists_came placed.named flushed yields
  obtain ⟨all, counted', documents⟩ := Observed.documents yields
  obtain rfl : after.commits = made := counted
  obtain rfl : after.commits = all := counted'
  refine ⟨news, heard, commits.told, documents, waiting, fun ok => ?_, fun error => ?_⟩
  · rw [ok] at commits
    exact commits.succeeded
  · rw [error] at commits
    have torn := commits.isTorn
    refine ⟨torn, ?_⟩
    rw [documents, ← Commit.written_filter]
    exact congrArg _ (torn.written_averages placed.separate)

/-! ## 3. A full disk -/

def Observed.reply (full : String) : Program.Handler ν (Observed ν)
  | .commit core, observed =>
      if core = full then
        (.error (.storage "disk full"), ⟨observed.world,
          observed.commits ++ [⟨core, (observed.world.core core).pending, false⟩]⟩)
      else (.ok (), ⟨observed.world.commit core,
        observed.commits ++ [⟨core, (observed.world.core core).pending, true⟩]⟩)
  | call, observed =>
      let (reply, world) := World.reply call observed.world
      (reply, ⟨world, observed.commits⟩)

theorem Observed.answers_reply (full : String) (call : Call ν) (observed : Observed ν) :
    Answers (fun call => call = .commit full) call observed (reply full call observed).1
      (reply full call observed).2 := by
  have nothing (call : Call ν) : World.reliable call → call = .commit full := False.elim
  have sound := (World.answers_reply call observed.world).mono nothing
  cases call with
  | commit core =>
      by_cases same : core = full
      · rw [reply, if_pos same]
        exact ⟨⟨congrArg _ same, rfl⟩, rfl⟩
      · rw [reply, if_neg same]
        exact ⟨rfl, rfl⟩
  | openCore | add | delete | query | getLock | acquire | release | now | freshId | notify =>
      exact ⟨sound, (List.append_nil _).symm⟩

def Request.firstVote : Request :=
  .save ⟨.document, "Main.WebHome"⟩ ⟨"alice"⟩ 4

def Request.onFullDisk : Response Rat × Observed Rat :=
  (firstVote.program Manager.stars).run (Observed.reply averageCore) { world := {} }

/-- The answer is an error, the vote was committed and told, and its average was attempted in
    vain. -/
theorem leaves_documented_state_on_full_disk :
    ∃ (response : Response Rat) (after : Observed Rat) (edit : Edit),
      (Request.firstVote.program Manager.stars).Yields
        (Observed.Answers fun call => call = .commit averageCore) { world := {} } response after ∧
      response.isOk = false ∧ after.commits.map (·.succeeded) = [true, false] ∧
      Request.firstVote.Asks Manager.stars edit ∧
      after.done = [⟨rankingCore, [edit.write], true⟩] ∧
      after.world.heard = [Manager.stars.tells edit.event edit.record] := by
  have ends := Program.yields_run (Observed.answers_reply averageCore)
    (Request.firstVote.program Manager.stars) ({ world := {} } : Observed Rat)
  have failed : Request.onFullDisk.1.isOk = false := by decide +kernel
  have attempted : Request.onFullDisk.2.commits.map (·.succeeded) = [true, false] := by
    decide +kernel
  have committed : Request.onFullDisk.2.done.length = 1 := by decide +kernel
  have created : Manager.create? "stars" {} Deployment.sharedLocks = .ok Manager.stars := rfl
  have flushed : ({} : World Rat).IsFlushed := fun _ => rfl
  obtain ⟨news, heard, -, -, -, -, error⟩ :=
    (Request.leaves_documented_state created _ flushed Request.firstVote).2 _ _ ends
  obtain ⟨torn, -⟩ := error failed
  generalize same : Observed.done _ = done at torn
  cases torn with
  | nothing => exact absurd (committed.symm.trans (congrArg List.length same)) Nat.one_ne_zero
  | vote edit asks _ _ => exact ⟨_, _, edit, ends, failed, attempted, asks, same, heard⟩

end RankLedger

import Mathlib.Data.DFinsupp.WellFounded
import Mathlib.SetTheory.Ordinal.Rank
import RankLedger.Proofs.Deployment
import RankLedger.Proofs.Threads.Scene
import RankLedger.Proofs.Threads.Schedule

/-!
# Requests on one target are serializable

Threads that make requests on one target, through one manager, on an index where nothing fails and
that nobody else uses, come to an end however they take turns, and what they were answered and what
they left behind could have come about by the same requests one after another
(`Workshop.serializable`).
-/

namespace RankLedger

variable {ν ι : Type} [Scalar ν]

/-! ## 1. Every run ends -/

/-- A thread may go on to be the next one, depending on what it is answered. -/
def Thread.GoesOn (manager : Manager) (next thread : Thread ν) : Prop :=
  ∃ before after, Thread.Step manager thread before next after

theorem Thread.wellFounded_goesOn (manager : Manager) :
    WellFounded (Thread.GoesOn (ν := ν) manager) := by
  -- a request comes to an end, by induction on what is left of its program
  have working {waiting : List Request}
      (idle : ∀ answered, Acc (GoesOn manager) (⟨answered, none, waiting⟩ : Thread ν))
      (request : Request) (program : Program ν (Response ν)) (answered : List (Exchange ν)) :
      Acc (GoesOn manager) ⟨answered, some (request, program), waiting⟩ := by
    induction program with
    | done response =>
        refine ⟨_, ?_⟩
        rintro _ ⟨_, _, ⟨⟩⟩
        exact idle _
    | step call next ih =>
        refine ⟨_, ?_⟩
        rintro _ ⟨_, _, ⟨⟩⟩
        exact ih _
  -- and so do all requests of a thread
  have idle (waiting : List Request) :
      ∀ answered, Acc (GoesOn manager) (⟨answered, none, waiting⟩ : Thread ν) := by
    induction waiting with
    | nil =>
        refine fun answered => ⟨_, ?_⟩
        rintro _ ⟨_, _, ⟨⟩⟩
    | cons request rest ih =>
        refine fun answered => ⟨_, ?_⟩
        rintro _ ⟨_, _, ⟨⟩⟩
        exact working ih _ _ _
  refine ⟨fun thread => ?_⟩
  obtain ⟨answered, none | ⟨request, program⟩, waiting⟩ := thread
  · exact idle _ _
  · exact working (idle _) _ _ _

/-- **No run goes on for ever**, if there are finitely many threads. -/
theorem Workshop.wellFounded_step [DecidableEq ι] [Finite ι] (manager : Manager) :
    WellFounded fun after before : Workshop ι ν => Step manager before after := by
  have : IsWellFounded (Thread ν) (Thread.GoesOn manager) := ⟨Thread.wellFounded_goesOn manager⟩
  -- a step lowers the rank of one thread, and leaves the others alone
  let ranks (workshop : Workshop ι ν) (i : ι) : Ordinal.{0} :=
    IsWellFounded.rank (Thread.GoesOn manager) (workshop.threads i)
  refine Subrelation.wf (r := InvImage (· < ·) ranks) ?_ (InvImage.wf _ wellFounded_lt)
  rintro _ before @⟨i, thread, commons, step⟩
  have less := IsWellFounded.rank_lt_of_rel (r := Thread.GoesOn manager) ⟨_, _, step⟩
  have here : ranks ⟨Function.update before.threads i thread, commons⟩ i =
      IsWellFounded.rank (Thread.GoesOn manager) thread :=
    congrArg (IsWellFounded.rank (Thread.GoesOn manager)) (Function.update_self ..)
  refine Pi.lt_def.2 ⟨fun j => ?_, i, ?_⟩
  · by_cases same : j = i
    · subst same
      rw [here]
      exact less.le
    · exact (congrArg (IsWellFounded.rank (Thread.GoesOn manager))
        (Function.update_of_ne same ..)).le
  · rw [here]
    exact less

/-! ## 2. Every request is answered -/

def Thread.requests (thread : Thread ν) : List Request :=
  thread.answered.map Prod.fst ++ (thread.current.map Prod.fst).toList ++ thread.waiting

theorem Thread.Step.requests_eq {manager : Manager} {thread next : Thread ν}
    {before after : Commons ν} (h : Thread.Step manager thread before next after) :
    next.requests = thread.requests := by
  cases h with
  | ask => simp [Thread.requests]
  | call => rfl
  | answer => simp [Thread.requests]

section Run

variable [DecidableEq ι] {manager : Manager} {before last : Workshop ι ν}

theorem Workshop.Run.requests_eq (run : Workshop.Run manager before last) (i : ι) :
    (last.threads i).requests = (before.threads i).requests := by
  induction run with
  | refl => rfl
  | tail _ step ih =>
      obtain @⟨j, thread, commons, step⟩ := step
      rw [← ih]
      by_cases same : i = j
      · subst same
        simpa only [Function.update_self] using step.requests_eq
      · simp only [Function.update_of_ne same]

omit [Scalar ν] [DecidableEq ι] in
/-- At the end a thread has answered all it was asked. -/
theorem Workshop.IsFinished.requests_eq (finished : last.IsFinished) (i : ι) :
    (last.threads i).requests = (last.threads i).answered.map Prod.fst := by
  rw [Thread.requests, (finished i).1, (finished i).2]
  simp

end Run

/-! ## 3. The beginning -/

def Core.HasOn (core : Core ν) (target : EntityReference) (id : String) : Prop :=
  ∃ vote, core.Keeps vote ∧ vote.target = target ∧ vote.id = id

omit [Scalar ν] in
/-- After a history it is quiet, as far as votes on the target are concerned. -/
theorem World.Settled.isQuiet {world : World ν} {tenants : Tenants} {votes : List Ranking}
    (settled : world.Settled tenants votes) {manager : Manager}
    (member : manager ∈ tenants.members) (target : EntityReference) :
    world.IsQuiet tenants ((world.core manager.voteCore).HasOn target) target := by
  have holds := settled.holds _ (Tenants.isPlaced member).separate
  refine ⟨⟨votes, settled, fun vote mem => ?_⟩, ?_⟩
  · rintro ⟨known, keeps, rfl, same⟩
    have mem' := (List.mem_filter.1 (holds.keeps_iff.1 keeps)).1
    rw [settled.order.eq_of_id mem' mem same]
  · rintro _ ⟨known, keeps, -, rfl⟩
    exact settled.order.given known (List.mem_filter.1 (holds.keeps_iff.1 keeps)).1

/-- Before the first step nobody refers to the lock. -/
theorem View.fits_opening [DecidableEq ι] {theme : Theme} {requests : ι → List Request}
    {commons : Commons ν} (quiet : commons.world.IsQuiet theme.tenants theme.ids theme.target)
    (about : ∀ i, ∀ request ∈ requests i, request.IsAbout theme.target theme.ids)
    (rest : (commons.locks theme.manager.locks).IsAtRest) :
    View.Fits theme { lock := default } (Workshop.opening requests commons) := by
  refine ⟨fun i => .idle, about, ⟨.nil, fun i => ?_, rest.guards _ _, .done quiet theme.member _⟩⟩
  exact .out List.not_mem_nil nofun nofun

/-! ## 4. Serializability -/

/-- **Requests on one target are serializable.** After any history in which nothing fails let
    threads, as many as there are, save votes on one target, remove votes that are on it, and
    rebuild its average, all through one manager.  However they take turns, no run goes on for ever
    or gets stuck before every thread is finished.  And when they are finished, there is a history
    that goes on with the same requests one after another, each thread's in its order, in which
    they are answered as the threads answered them, and which leaves the same cores and hands out
    the same identifiers.  In it no two removals remove the same vote, and one that removes none
    leaves the averages alone. -/
theorem Workshop.serializable [DecidableEq ι] [Finite ι] {tenants : Tenants}
    {turns : List (Turn ν)} {world : World ν} (history : History World.reliable tenants turns world)
    {manager : Manager} (member : manager ∈ tenants.members) {target : EntityReference}
    {requests : ι → List Request}
    (about : ∀ i, ∀ request ∈ requests i,
      request.IsAbout target ((world.core manager.voteCore).HasOn target))
    {locks : LockService → LockTable} (atRest : (locks manager.locks).IsAtRest)
    {last : Workshop ι ν} (run : Run manager (opening requests ⟨world, locks⟩) last) :
    (Acc (fun after before => Step manager before after) last ∧
      (¬ last.IsFinished → ∃ next, Step manager last next)) ∧
    (last.IsFinished → ∃ (later : List (Turn ν)) (final : World ν),
      History World.reliable tenants (turns ++ later) final ∧
      (∀ turn ∈ later, turn.manager = manager) ∧
      (∀ i, (last.threads i).answered.map Prod.fst = requests i) ∧
      Merges (fun i => (last.threads i).answered) (later.map Turn.exchange) ∧
      final.Alike last.commons.world ∧
      (later.Pairwise fun earlier later => ∀ id, earlier.Removes id → ¬ later.Removes id) ∧
      ∀ turn ∈ later, ∀ id, turn.request = .remove id → ¬ turn.Removes id →
        turn.after.core averageCore = turn.before.core averageCore) := by
  obtain ⟨votes, settled⟩ := history.settled
  let theme : Theme :=
    { tenants, manager, member, target, ids := (world.core manager.voteCore).HasOn target }
  have fits : View.Fits theme { lock := default } (opening requests ⟨world, locks⟩) :=
    View.fits_opening (settled.isQuiet member target) about atRest
  refine ⟨⟨(wellFounded_step manager).apply last, fun unfinished => ?_⟩, fun finished => ?_⟩
  · obtain ⟨view, fits⟩ := fits.run run
    exact fits.exists_step unfinished
  · have serial := Floor.Leads.free_iff.1 (fits.leads run finished)
    obtain ⟨later, final, rest, history', own, alike, split, merges⟩ :=
      serial turns world history (.refl world)
    have once := history'.removes_once
    refine ⟨later, final, history', own, fun i => ?_, ?_, alike,
      (List.pairwise_append.1 once.1).2.1,
      fun turn mem => once.2 turn (List.mem_append_right _ mem)⟩
    · rw [← finished.requests_eq, run.requests_eq]
      rfl
    · -- nothing was settled before the beginning
      rwa [funext split]

/-! ## 5. A race -/

def Ranking.alice : Ranking :=
  .create ((({} : IdSource).keepClear []).nth 0) "stars" ⟨.document, "Main.WebHome"⟩ ⟨"alice"⟩ 5 5
    (default : Instant).truncated

def World.withAlice : World Rat :=
  (((Request.save Ranking.alice.target Ranking.alice.voter 5).program Manager.stars).run World.reply
    {}).2

def Request.race : Bool → List Request
  | false => [.remove Ranking.alice.id, .save Ranking.alice.target ⟨"bob"⟩ 4]
  | true => [.remove Ranking.alice.id, .recompute Ranking.alice.target]

def Workshop.race : Workshop Bool Rat :=
  (Workshop.opening Request.race ⟨World.withAlice, fun _ => {}⟩).follow Manager.stars
    (List.replicate 3 false ++ List.replicate 5 true ++ (List.replicate 60 [false, true]).flatten)

def Response.removed? : Response ν → Option Bool
  | .removed (.ok done) => some done
  | _ => none

/-- In the race only one of the threads removes the vote, though both have seen it, and what they
    were answered could have come about one after another. -/
theorem serializable_of_race :
    ∃ (turns : List (Turn Rat)) (world : World Rat) (last : Workshop Bool Rat),
      History World.reliable Tenants.starsAndLikes turns world ∧
      Workshop.Run Manager.stars (Workshop.opening Request.race ⟨world, fun _ => {}⟩) last ∧
      last.IsFinished ∧
      ((last.threads false).answered.map fun exchange => exchange.2.removed?) =
        [some false, none] ∧
      ((last.threads true).answered.map fun exchange => exchange.2.removed?) = [some true, none] ∧
      ∃ (later : List (Turn Rat)) (final : World Rat),
        History World.reliable Tenants.starsAndLikes (turns ++ later) final ∧
        (∀ i, (last.threads i).answered.map Prod.fst = Request.race i) ∧
        Merges (fun i => (last.threads i).answered) (later.map Turn.exchange) ∧
        final.Alike last.commons.world := by
  have stars : Manager.stars ∈ Tenants.starsAndLikes.members := by decide
  have history : History World.reliable Tenants.starsAndLikes _ World.withAlice :=
    .turn .start stars (Program.yields_run World.answers_reply
      ((Request.save Ranking.alice.target Ranking.alice.voter 5).program Manager.stars) {})
  have read : ((World.withAlice.core rankingCore).documents.map fun document =>
      (Ranking.ofDocument document).toOption) = [Ranking.alice].map some := by
    decide +kernel
  have known : (World.withAlice.core rankingCore).HasOn Ranking.alice.target Ranking.alice.id :=
    ⟨Ranking.alice, Core.keeps_of_read read List.mem_cons_self, rfl, rfl⟩
  have about : ∀ i, ∀ request ∈ Request.race i, request.IsAbout Ranking.alice.target
      ((World.withAlice.core rankingCore).HasOn Ranking.alice.target) := by
    intro i request mem
    cases i with
    | false =>
        obtain rfl | rfl := List.mem_pair.1 mem
        · exact known
        · rfl
    | true =>
        obtain rfl | rfl := List.mem_pair.1 mem
        · exact known
        · rfl
  have run : Workshop.Run Manager.stars
      (Workshop.opening Request.race ⟨World.withAlice, fun _ => {}⟩) Workshop.race :=
    Workshop.run_follow _ _
  have finished : Workshop.race.IsFinished := by
    have done : ∀ i, (Workshop.race.threads i).current.isNone = true ∧
        (Workshop.race.threads i).waiting = [] := by
      decide +kernel
    exact fun i => (done i).imp_left Option.isNone_iff_eq_none.1
  obtain ⟨later, final, history', -, asked, merges, alike, -⟩ :=
    (Workshop.serializable history stars about ⟨rfl, rfl⟩ run).2 finished
  refine ⟨_, World.withAlice, Workshop.race, history, run, finished, ?_, ?_, later, final, history',
    asked, merges, alike⟩
  · decide +kernel
  · decide +kernel

end RankLedger

import RankLedger.Proofs.Failures
import RankLedger.Proofs.Log
import RankLedger.Proofs.Threads.Serializable

/-!
# Notifications follow commits, thread by thread

A thread tells what it committed after it gave its lock back, so others may commit and tell before
it does.  What is told is told by each thread in the order of its commits, but the threads may take
turns differently than they did when they committed (`Workshop.notifications_follow_commits`).

What is to be told, in the order of the commits, is kept in an *account* of the run (`Account`).  It
is what listeners would have heard if the requests had been made one after another, so the last
average in it is the one that is stored.
-/

namespace RankLedger

variable {ν ι : Type} [Scalar ν]

/-! ## 1. Requests one after another -/

/-- Where nothing fails, no request leaves a write waiting. -/
theorem History.flushed {tenants : Tenants} {turns : List (Turn ν)} {world : World ν}
    (history : History World.reliable tenants turns world) : world.IsFlushed := by
  induction history with
  | start => exact fun _ => rfl
  | @turn turns before after manager request response _ member yields ih =>
      obtain ⟨commits, observed⟩ : ∃ commits,
          (request.program manager).Yields (Observed.Answers World.reliable) { world := before }
            response ⟨after, commits⟩ :=
        Observed.yields_iff.2 yields
      obtain ⟨made, news, came⟩ :=
        Request.exists_came (Tenants.isPlaced member).named ih observed
      obtain rfl : commits = made := came.counted
      intro core
      rw [came.waiting, Commit.waiting_eq_nil (Observed.succeeded observed nofun)]

def Commit.IsTold (manager : Manager) (commit : Commit ν) (notification : Notification ν) : Prop :=
  ∃ documents, commit.IsToldBy manager documents notification

def Theme.Completes (theme : Theme) (turns : List (Turn ν)) (now : World ν)
    (outcome : Response ν × List (Notification ν)) (after : Observed ν) : Prop :=
  List.Forall₂ (Commit.IsTold theme.manager) after.commits outcome.2 ∧
  ∃ turn final, History World.reliable theme.tenants (turns ++ [turn]) final ∧
    final.Alike after.world ∧ final.heard = now.heard ++ outcome.2

/-- Every request comes to this, in any world that differs at most in what was heard. -/
theorem Theme.completes_work {theme : Theme} {turns : List (Turn ν)} {now world : World ν}
    (history : History World.reliable theme.tenants turns now) (alike : now.Alike world)
    {request : Request} {outcome : Response ν × List (Notification ν)} {after : Observed ν}
    (h : (request.work theme.manager).Yields (Observed.Answers World.reliable) { world } outcome
      after) : theme.Completes turns now outcome after := by
  have placed := Tenants.isPlaced theme.member
  obtain ⟨last, alone, likewise⟩ := Observed.yields_alike h alike.symm
  obtain ⟨made, commits, attempts⟩ := Request.commits_work placed.named history.flushed alone
  obtain rfl : after.commits = made := attempts.commits
  constructor
  · have told := commits.told
    rw [List.filter_eq_self.2 (Observed.succeeded alone nofun)] at told
    exact told.imp fun _ _ told => ⟨_, told⟩
  · obtain ⟨votes, settled⟩ := history.settled
    have turn := history.turn theme.member (Request.yields_of_work placed
      (settled.holds _ placed.separate) (Observed.yields_world alone))
    refine ⟨_, _, turn, (World.alike_hear _ _).symm.trans likewise.symm, ?_⟩
    rw [← attempts.heard]
    rfl

/-! ## 2. Accounts -/

def Floor.Accounts (theme : Theme) (turns : List (Turn ν)) (now world : World ν)
    (underway : List (ι × Commit ν)) : Floor ι ν → Prop
  | free => underway = [] ∧ now.Alike world
  | taken i _ rest => ∃ made, underway = made.map (i, ·) ∧ ∀ outcome after,
      rest.Yields (Observed.Answers World.reliable) ⟨world, made⟩ outcome after →
        theme.Completes turns now outcome after

/-- It does not matter what was heard. -/
theorem Floor.Accounts.alike {theme : Theme} {turns : List (Turn ν)} {now before after : World ν}
    {underway : List (ι × Commit ν)} {floor : Floor ι ν}
    (h : floor.Accounts theme turns now before underway) (alike : before.Alike after) :
    floor.Accounts theme turns now after underway := by
  cases floor with
  | free => exact h.imp_right fun likewise => likewise.trans alike
  | taken i request rest =>
      obtain ⟨made, same, completes⟩ := h
      refine ⟨made, same, fun outcome last yields => ?_⟩
      obtain ⟨last', yields', alike'⟩ := Observed.yields_alike yields alike.symm
      obtain ⟨told, turn, final, history, likewise, heard⟩ := completes _ _ yields'
      exact ⟨told, turn, final, history, likewise.trans alike'.symm, heard⟩

/-- An account of a run: the requests whose work was done, one after another, the world to which
    they led, the commits that were made for them, what is to be told of these commits, in their
    order, and the commits made so far for the request at hand. -/
structure Account (ι ν : Type) where
  later : List (Turn ν) := []
  now : World ν
  done : List (ι × Commit ν) := []
  announced : List (ι × Notification ν) := []
  underway : List (ι × Commit ν) := []

def Tells (manager : Manager) (commit : ι × Commit ν) (news : ι × Notification ν) : Prop :=
  news.1 = commit.1 ∧ commit.2.IsTold manager news.2

omit [Scalar ν] in
/-- Those tell who committed. -/
theorem Tells.who_eq {manager : Manager} {commits : List (ι × Commit ν)}
    {announced : List (ι × Notification ν)} (h : List.Forall₂ (Tells manager) commits announced) :
    announced.map Prod.fst = commits.map Prod.fst := by
  induction h with
  | nil => rfl
  | cons tells _ ih => rw [List.map_cons, List.map_cons, tells.1, ih]

structure Account.Holds [DecidableEq ι] (account : Account ι ν) (theme : Theme)
    (turns : List (Turn ν)) (start : World ν) (view : View ι ν) (journal : Journal ι ν)
    (world : World ν) : Prop where
  history : History World.reliable theme.tenants (turns ++ account.later) account.now
  few : account.later.length ≤ journal.length
  heard : account.now.heard = start.heard ++ account.announced.map Prod.snd
  commits : journal.commits = account.done ++ account.underway
  tells : List.Forall₂ (Tells theme.manager) account.done account.announced
  floor : view.floor.Accounts theme (turns ++ account.later) account.now world account.underway
  /-- Each thread told what is to be told of its commits, up to what it has yet to tell. -/
  owed : ∀ i, journal.told.filter (fun news => news.1 = i) ++ (view.stages i).owed.map (i, ·) =
    account.announced.filter fun news => news.1 = i

namespace Account.Holds

variable [DecidableEq ι] {account : Account ι ν} {theme : Theme} {turns : List (Turn ν)}
  {start before after : World ν} {view : View ι ν} {journal : Journal ι ν} {i : ι}
  {lock : LockId} {users : List ι} {stage : Stage ν} {act : Act ν}

/-- What a thread has yet to tell is told by its own steps only. -/
theorem owed_update (holds : account.Holds theme turns start view journal before)
    {news : List (Notification ν)}
    (owes : act.notification?.toList ++ stage.owed = (view.stages i).owed ++ news) (j : ι) :
    (Journal.told (journal ++ [(i, act)])).filter (fun news => news.1 = j) ++
        (Function.update view.stages i stage j).owed.map (j, ·) =
      (account.announced ++ news.map (i, ·)).filter fun news => news.1 = j := by
  rw [Journal.told_concat, List.filter_append, List.filter_append, ← holds.owed]
  by_cases same : j = i
  · subst same
    have own (list : List (Notification ν)) :
        (list.map (j, ·)).filter (fun news => news.1 = j) = list.map (j, ·) :=
      List.filter_eq_self.2 fun x mem => by
        obtain ⟨_, -, rfl⟩ := List.mem_map.1 mem
        exact decide_eq_true rfl
    rw [Function.update_self, own, own, List.append_assoc, List.append_assoc, ← List.map_append,
      owes, List.map_append]
  · have others (list : List (Notification ν)) :
        (list.map (i, ·)).filter (fun news => news.1 = j) = [] :=
      List.filter_eq_nil_iff.2 fun x mem => by
        obtain ⟨_, -, rfl⟩ := List.mem_map.1 mem
        simpa using Ne.symm same
    rw [Function.update_of_ne same, others, others, List.append_nil, List.append_nil]

/-- Nothing new is to be told until somebody leaves. -/
theorem owed_kept (holds : account.Holds theme turns start view journal before)
    (owes : act.notification?.toList ++ stage.owed = (view.stages i).owed) (j : ι) :
    (Journal.told (journal ++ [(i, act)])).filter (fun news => news.1 = j) ++
        (Function.update view.stages i stage j).owed.map (j, ·) =
      account.announced.filter fun news => news.1 = j := by
  rw [holds.owed_update (owes.trans (List.append_nil _).symm), List.map_nil, List.append_nil]

/-- **Bystanders.** A thread that does not work, and does not begin to, only tells what it owes. -/
theorem bystand (holds : account.Holds theme turns start view journal before)
    (floor : view.floor.after i stage = view.floor) (alike : before.Alike after)
    (commits : act.commit? = none)
    (owes : act.notification?.toList ++ stage.owed = (view.stages i).owed) :
    account.Holds theme turns start
      ⟨lock, users, Function.update view.stages i stage, view.floor.after i stage⟩
      (journal ++ [(i, act)]) after where
  history := holds.history
  few := holds.few.trans (List.length_append ▸ Nat.le_add_right _ _)
  heard := holds.heard
  commits := by
    rw [Journal.commits_concat, commits, holds.commits]
    exact List.append_nil _
  tells := holds.tells
  floor := by
    show (view.floor.after i stage).Accounts _ _ _ _ _
    rw [floor]
    exact holds.floor.alike alike
  owed := holds.owed_kept owes

/-- Whoever enters begins with nothing committed, and what it will do is accounted for. -/
theorem enters (holds : account.Holds theme turns start view journal before)
    (free : view.floor = .free) (queued : view.stages i = .queued) (request : Request) :
    account.Holds theme turns start
      ⟨lock, users, Function.update view.stages i (.inside request (request.work theme.manager)),
        .taken i request (request.work theme.manager)⟩ (journal ++ [(i, .silent)]) before where
  history := holds.history
  few := holds.few.trans (List.length_append ▸ Nat.le_add_right _ _)
  heard := holds.heard
  commits := by
    rw [Journal.commits_concat, holds.commits]
    exact List.append_nil _
  tells := holds.tells
  floor := by
    have floor := holds.floor
    rw [free] at floor
    obtain ⟨none, alike⟩ := floor
    exact ⟨[], none, fun outcome after yields => Theme.completes_work holds.history alike yields⟩
  owed := holds.owed_kept (by rw [queued]; rfl)

/-- Whoever works may commit, and comes to what was expected of it. -/
theorem works (holds : account.Holds theme turns start view journal before) {request : Request}
    {call : Call ν} {next : call.Reply → Program ν (Response ν × List (Notification ν))}
    {reply : call.Reply} (inside : view.stages i = .inside request (.step call next))
    (taken : view.floor = .taken i request (.step call next)) (work : call.IsWork)
    (answer : World.Answers World.reliable call before reply after) :
    Holds { account with
        underway := account.underway ++ (call.act before).commit?.toList.map (i, ·) }
      theme turns start
      ⟨lock, users, Function.update view.stages i (.inside request (next reply)),
        .taken i request (next reply)⟩ (journal ++ [(i, call.act before)]) after where
  history := holds.history
  few := holds.few.trans (List.length_append ▸ Nat.le_add_right _ _)
  heard := holds.heard
  commits := by
    rw [Journal.commits_concat, holds.commits, List.append_assoc]
  tells := holds.tells
  floor := by
    have floor := holds.floor
    rw [taken] at floor
    obtain ⟨made, same, completes⟩ := floor
    refine ⟨made ++ (call.act before).commit?.toList, ?_, fun outcome last yields => ?_⟩
    · rw [same, List.map_append]
    · refine completes outcome last ⟨reply, ⟨after, _⟩, ⟨answer, ?_⟩, yields⟩
      rw [Call.attempted_eq answer]
  owed := by
    refine holds.owed_kept ?_
    rw [inside]
    cases call with
    | notify => exact work.elim
    | openCore | add | delete | commit | query | getLock | acquire | release | now | freshId => rfl

/-- Whoever leaves has made all its commits, and owes what is to be told of them. -/
theorem leaves (holds : account.Holds theme turns start view journal before) {request : Request}
    {response : Response ν} {news : List (Notification ν)}
    (inside : view.stages i = .inside request (.done (response, news)))
    (taken : view.floor = .taken i request (.done (response, news))) :
    ∃ account' : Account ι ν, account'.Holds theme turns start
      ⟨lock, users, Function.update view.stages i (.told (request, response) news), .free⟩
      (journal ++ [(i, .silent)]) before := by
  have floor := holds.floor
  rw [taken] at floor
  obtain ⟨made, same, completes⟩ := floor
  obtain ⟨told, turn, final, history, alike, heard⟩ := completes (response, news) _ ⟨rfl, rfl⟩
  refine ⟨⟨account.later ++ [turn], final, account.done ++ account.underway,
    account.announced ++ news.map (i, ·), []⟩, ?_⟩
  constructor
  case history => rwa [List.append_assoc] at history
  case few =>
    rw [List.length_append, List.length_append]
    exact Nat.add_le_add_right holds.few 1
  case heard =>
    rw [heard, holds.heard, List.map_append, List.map_map, List.append_assoc]
    exact congrArg _ (congrArg _ (List.map_id _).symm)
  case commits =>
    rw [Journal.commits_concat, holds.commits]
    rfl
  case tells =>
    refine List.rel_append holds.tells ?_
    rw [same, List.forall₂_map_left_iff, List.forall₂_map_right_iff]
    exact told.imp fun _ _ told => ⟨rfl, told⟩
  case floor => exact ⟨rfl, alike⟩
  case owed =>
    refine holds.owed_update ?_
    rw [inside]
    rfl

/-- **Deeds.** An account that holds before a deed can be continued. -/
theorem deed {before after : Commons ν} {decided : List (Exchange ν)}
    (holds : account.Holds theme turns start view journal before.world)
    (rules : view.Rules theme before)
    (deed : Deed theme.manager (lockKey theme.manager.identifier theme.target) theme.ids view.lock
      (view.stages i) before stage after lock decided act) :
    ∃ account' : Account ι ν, account'.Holds theme turns start
      ⟨lock, users, Function.update view.stages i stage, view.floor.after i stage⟩
      (journal ++ [(i, act)]) after.world := by
  generalize here : view.stages i = stage at deed
  cases deed with
  | silent | decides | gets | answers =>
      refine ⟨account, holds.bystand (rules.floor_after here nofun _ nofun) (.refl _) rfl ?_⟩
      rw [here]
      rfl
  | tells =>
      refine ⟨account,
        holds.bystand (rules.floor_after here nofun _ nofun) (World.alike_hear _ _) rfl ?_⟩
      rw [here]
      rfl
  | @enters request _ free =>
      exact ⟨account, holds.enters (rules.enters here free request).1 here request⟩
  | works works answer _ =>
      exact ⟨_, holds.works here (((rules.stands i).inside _ _).1 here) works.1 answer⟩
  | leaves =>
      have taken := ((rules.stands i).inside _ _).1 here
      rw [taken, Floor.after_of_taken]
      exact holds.leaves here taken

/-- Before the first step there is nothing to account for. -/
theorem opening {world : World ν}
    (history : History World.reliable theme.tenants turns world) :
    Holds { now := world } theme turns world ({ lock := lock } : View ι ν) [] world :=
  ⟨by rwa [List.append_nil], Nat.le_refl 0, (List.append_nil _).symm, rfl, .nil,
    ⟨rfl, .refl world⟩, fun _ => rfl⟩

/-- **Courses.** An account that holds before the first step is continued by every course. -/
theorem course {first last : Workshop ι ν} (fits : view.Fits theme first)
    (holds : account.Holds theme turns start view [] first.commons.world)
    (course : Workshop.Course theme.manager first journal last) :
    ∃ view' account', View.Fits theme view' last ∧
      Holds account' theme turns start view' journal last.commons.world := by
  induction course with
  | opening => exact ⟨view, account, fits, holds⟩
  | step _ step ih =>
      obtain ⟨view, account, fits, holds⟩ := ih
      obtain ⟨_, _, _, _, deed, fits', -⟩ := fits.advance step
      obtain ⟨account', holds'⟩ := holds.deed fits.rules deed
      exact ⟨_, account', fits', holds'⟩

/-- Nobody told more than is to be told of its commits. -/
theorem count_le (holds : account.Holds theme turns start view journal before) (i : ι) :
    journal.tellers.count i ≤ journal.committers.count i := by
  calc journal.tellers.count i
      = (journal.told.filter fun news => news.1 = i).length := count_map_fst _ _
    _ ≤ (account.announced.filter fun news => news.1 = i).length := by
        rw [← holds.owed i, List.length_append]
        exact Nat.le_add_right _ _
    _ = (account.done.map Prod.fst).count i := by rw [← count_map_fst, Tells.who_eq holds.tells]
    _ ≤ journal.committers.count i := by
        rw [Journal.committers, holds.commits, List.map_append, List.count_append]
        exact Nat.le_add_right _ _

theorem isHonest {first last : Workshop ι ν} (fits : View.Fits theme view first)
    (holds : account.Holds theme turns start view [] first.commons.world)
    (course : Workshop.Course theme.manager first journal last) : Journal.IsHonest journal := by
  intro earlier sooner i
  obtain ⟨middle, course⟩ := course.exists_of_prefix sooner
  obtain ⟨_, _, -, holds⟩ := holds.course fits course
  exact holds.count_le i

/-- **At the end** every commit was accounted for, and all that is to be told was told. -/
theorem finished (holds : account.Holds theme turns start view journal before)
    (out : ∀ i, view.stages i = .out) (free : view.floor = .free) :
    List.Forall₂ (Tells theme.manager) journal.commits account.announced ∧
      account.now.Alike before ∧
      ∀ i, (journal.told.filter fun news => news.1 = i) =
        account.announced.filter fun news => news.1 = i := by
  have floor := holds.floor
  rw [free] at floor
  obtain ⟨none, alike⟩ := floor
  refine ⟨?_, alike, fun i => ?_⟩
  · rw [holds.commits, none, List.append_nil]
    exact holds.tells
  · have owed := holds.owed i
    rwa [out i, Stage.owed, List.map_nil, List.append_nil] at owed

end Account.Holds

/-! ## 3. What is known of the averages -/

def World.AveragesAreAsTold (world : World ν) (log : List (Notification ν)) : Prop :=
  ∃ averages : List (AverageRank ν),
    (world.core averageCore).documents = averages.map AverageRank.toDocument ∧
    (∀ average ∈ averages, ∃ last,
      lastAboutAverage average.manager average.target log = some last ∧
        last.data = .average average) ∧
    ∀ manager target last, lastAboutAverage manager target log = some last →
      ∃ average ∈ averages, average.manager = manager ∧ average.target = target ∧
        last.data = .average average

/-- After every history in which nothing fails, the averages are as told. -/
theorem History.averagesAreAsTold {tenants : Tenants} {turns : List (Turn ν)} {world : World ν}
    (history : History World.reliable tenants turns world)
    (short : turns.length < 9223372036854775808) : world.AveragesAreAsTold world.heard := by
  obtain ⟨chronicle, kept⟩ := history.bookkeeping (fun _ => id) short fun _ => trivial
  have traced := chronicle.log.2
  refine ⟨_, kept.averages, traced.averages, fun manager target last told => ?_⟩
  -- something was told, so an average is there
  have stored : ∃ average ∈ (Books.replay world.heard).averages,
      average.manager = manager ∧ average.target = target := by
    apply Classical.byContradiction
    intro none
    rw [traced.untold manager target fun average mem own onTarget =>
      none ⟨average, mem, own, onTarget⟩] at told
    cases told
  obtain ⟨average, mem, rfl, rfl⟩ := stored
  obtain ⟨last', told', data⟩ := traced.averages average mem
  rw [told] at told'
  obtain rfl := Option.some_inj.1 told'
  exact ⟨average, mem, rfl, rfl, data⟩

/-! ## 4. Notifications and commits -/

variable [DecidableEq ι]

/-- **Notifications follow commits, thread by thread.** After any history in which nothing fails let
    threads, as many as there are, make requests on one target through one manager, and take turns
    in any way until they are finished.  Then there is one notification to be told for each commit,
    of what it wrote or removed, and by the thread that made it; and in the order of the commits
    these notifications are what would have been heard if requests had been made one after another
    that leave the same index, so that the average that they tell last is the stored one.
    The listeners hear these notifications and nothing else, those of each thread in their order.
    They hear them in the order of the commits exactly if the threads take turns in telling as they
    did in committing, for which it is enough that whoever commits finds that the others have told
    what they committed. -/
theorem Workshop.notifications_follow_commits {tenants : Tenants} {turns : List (Turn ν)}
    {world : World ν} (history : History World.reliable tenants turns world) {manager : Manager}
    (member : manager ∈ tenants.members) {target : EntityReference} {requests : ι → List Request}
    (about : ∀ i, ∀ request ∈ requests i,
      request.IsAbout target ((world.core manager.voteCore).HasOn target))
    {locks : LockService → LockTable} (atRest : (locks manager.locks).IsAtRest)
    {journal : Journal ι ν} {last : Workshop ι ν}
    (course : Course manager (opening requests ⟨world, locks⟩) journal last)
    (finished : last.IsFinished) :
    ∃ announced : List (ι × Notification ν),
      List.Forall₂ (Tells manager) journal.commits announced ∧
      (∃ later final, History World.reliable tenants (turns ++ later) final ∧
        final.heard = world.heard ++ announced.map Prod.snd ∧ final.Alike last.commons.world) ∧
      (turns.length + journal.length < 9223372036854775808 →
        last.commons.world.AveragesAreAsTold (world.heard ++ announced.map Prod.snd)) ∧
      last.commons.world.heard = world.heard ++ journal.told.map Prod.snd ∧
      (∀ i, (journal.told.filter fun news => news.1 = i) =
        announced.filter fun news => news.1 = i) ∧
      (journal.told = announced ↔ journal.tellers = journal.committers) ∧
      (Journal.IsPrompt journal → journal.told = announced) := by
  obtain ⟨votes, settled⟩ := history.settled
  let theme : Theme :=
    { tenants, manager, member, target, ids := (world.core manager.voteCore).HasOn target }
  have fits : View.Fits theme { lock := default } (opening requests ⟨world, locks⟩) :=
    View.fits_opening (settled.isQuiet member target) about atRest
  obtain ⟨view, account, fits', holds⟩ := (Account.Holds.opening history).course fits course
  obtain ⟨out, free⟩ := fits'.rests finished
  obtain ⟨tells, alike, each⟩ := holds.finished out free
  have who : account.announced.map Prod.fst = journal.committers := Tells.who_eq tells
  have order : journal.told = account.announced ↔ journal.tellers = journal.committers := by
    refine ⟨fun same => ?_, fun same => eq_of_filter_eq (same.trans who.symm) each⟩
    rw [Journal.tellers, same, who]
  have honest := (Account.Holds.opening history).isHonest fits course
  refine ⟨account.announced, tells, ⟨_, _, holds.history, holds.heard, alike⟩, fun short => ?_,
    course.heard, each, order, fun prompt => order.2 (prompt.tellers_eq honest fun i => ?_)⟩
  · have few := holds.few
    have short : (turns ++ account.later).length < 9223372036854775808 := by
      rw [List.length_append]
      omega
    obtain ⟨averages, documents, rest⟩ := holds.history.averagesAreAsTold short
    rw [holds.heard] at rest
    exact ⟨averages, alike.core ▸ documents, rest⟩
  · -- each told as much as it committed
    rw [← who, count_map_fst, ← each, Journal.tellers, count_map_fst]

/-! ## 5. Overtaking -/

def Request.twoVotes : Bool → List Request
  | false => [.save ⟨.document, "Main.WebHome"⟩ ⟨"alice"⟩ 4]
  | true => [.save ⟨.document, "Main.WebHome"⟩ ⟨"bob"⟩ 1]

def Workshop.voting (schedule : List Bool) : Journal Bool Rat × Workshop Bool Rat :=
  (opening Request.twoVotes ⟨{}, fun _ => {}⟩).record Manager.stars schedule

def Notification.shown? (n : Notification ν) : Option (ν × Nat) :=
  match n.data with
  | .ranking _ => none
  | .average average => some (average.average, average.number)

/-- Step by step in turn, each tells what it committed before the other one commits; so the
    listeners hear all in the order of the commits, and know the stored average in the end. -/
theorem notifications_of_voting :
    ∃ (turns : List (Turn Rat)) (world : World Rat) (journal : Journal Bool Rat)
      (last : Workshop Bool Rat),
      History World.reliable Tenants.starsAndLikes turns world ∧
      Workshop.Course Manager.stars (Workshop.opening Request.twoVotes ⟨world, fun _ => {}⟩) journal
        last ∧ last.IsFinished ∧
      journal.committers = [false, false, true, true] ∧
      List.Forall₂ (Tells Manager.stars) journal.commits journal.told ∧
      last.commons.world.heard = journal.told.map Prod.snd ∧
      last.commons.world.AveragesAreAsTold last.commons.world.heard := by
  let schedule := (List.replicate 40 [false, true]).flatten
  have stars : Manager.stars ∈ Tenants.starsAndLikes.members := by decide
  have history : History World.reliable Tenants.starsAndLikes [] ({} : World Rat) := .start
  have about : ∀ i, ∀ request ∈ Request.twoVotes i,
      request.IsAbout ⟨.document, "Main.WebHome"⟩
        ((({} : World Rat).core Manager.stars.voteCore).HasOn ⟨.document, "Main.WebHome"⟩) := by
    intro i request mem
    cases i <;> obtain rfl := List.mem_singleton.1 mem <;> rfl
  have course : Workshop.Course Manager.stars (Workshop.opening Request.twoVotes ⟨{}, fun _ => {}⟩)
      (Workshop.voting schedule).1 (Workshop.voting schedule).2 :=
    Workshop.course_record _ _
  have finished : (Workshop.voting schedule).2.IsFinished := by decide +kernel
  have committers : (Workshop.voting schedule).1.committers = [false, false, true, true] := by
    decide +kernel
  have tellers : (Workshop.voting schedule).1.tellers = [false, false, true, true] := by
    decide +kernel
  have length : (Workshop.voting schedule).1.length = 42 := by decide +kernel
  generalize Workshop.voting schedule = recorded at *
  obtain ⟨journal, last⟩ := recorded
  obtain ⟨announced, tells, -, known, heard, -, order, -⟩ :=
    Workshop.notifications_follow_commits history stars about ⟨rfl, rfl⟩ course finished
  obtain rfl := order.2 (tellers.trans committers.symm)
  refine ⟨[], {}, journal, last, history, course, finished, committers, tells, heard, ?_⟩
  rw [heard]
  refine known ?_
  rw [List.length_nil, Nat.zero_add, length]
  decide

/-- One of them is overtaken between giving the lock back and telling what it did.  The listeners
    hear the second average before the first one, and are left with an average of one vote, where
    the average of two votes is stored. -/
theorem last_average_heard_is_stale :
    ∃ (journal : Journal Bool Rat) (last : Workshop Bool Rat),
      Workshop.Course Manager.stars (Workshop.opening Request.twoVotes ⟨{}, fun _ => {}⟩) journal
        last ∧ last.IsFinished ∧
      journal.committers = [false, false, true, true] ∧
      journal.tellers = [true, true, false, false] ∧
      ((lastAboutAverage "stars" ⟨.document, "Main.WebHome"⟩ last.commons.world.heard).bind
        Notification.shown?) = some (4, 1) ∧
      ((last.commons.world.core averageCore).documents.map fun document =>
        (AverageRank.ofDocument document ⟨.document, "Main.WebHome"⟩).toOption.map
          fun average => (average.average, average.number)) = [some (5 / 2, 2)] := by
  let schedule := List.replicate 19 false ++ List.replicate 20 true ++ List.replicate 3 false
  refine ⟨(Workshop.voting schedule).1, (Workshop.voting schedule).2,
    Workshop.course_record _ schedule, ?_, ?_, ?_, ?_, ?_⟩
  · decide +kernel
  · decide +kernel
  · decide +kernel
  · decide +kernel
  · decide +kernel

end RankLedger

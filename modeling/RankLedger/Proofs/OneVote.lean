import RankLedger.Proofs.Backlog
import RankLedger.Proofs.Deployment

/-!
# One vote per voter

A manager looks for the vote of a user before it makes one, so a voter should have at most one vote
on a target.  But it looks among the committed votes only.  If a first vote was accepted and its
commit failed, it waits unseen; if the vote is then saved again, a second first vote is made, and
the next commit of the core makes both visible.

`Turn.Repeats` says that this happens in a turn.  It is the only thing that can go wrong, whichever
calls fail and in whichever order: in every history each voter has at most one vote, now and after
the next commit, exactly if no turn repeated a vote (`History.one_vote_per_voter_iff`).  What else
was promised of votes holds in any case: each is on the scale of its manager, and is no zero if
zeros are not stored.
-/

namespace RankLedger

variable {ν : Type} {faults : Call ν → Prop} {manager : Manager}

/-! ## 1. Cores of votes -/

/-- What a turn of a manager may do to its core: nothing, or an edit, which waits if the commit
    fails, and otherwise is carried out after everything that was waiting. -/
inductive Manager.Advances (faults : Call ν → Prop) (manager : Manager) (votes : List Ranking)
    (given given' : List String) (before : Core ν) : Core ν → Prop
  | rests : Advances faults manager votes given given' before before
  | waits {edit : Edit} : faults (.commit manager.voteCore) →
      manager.MayMake votes given given' edit →
      Advances faults manager votes given given' before (before.push edit.write)
  | settles {edit : Edit} : manager.MayMake votes given given' edit →
      Advances faults manager votes given given' before (before.push edit.write).commit

namespace Manager

variable [Scalar ν] {before after : World ν}

theorem Edited.core_of_ne {edit : Edit} {done : Bool} {news : List (Notification ν)}
    (h : manager.Edited faults edit before done news after) {core : String}
    (apart : core ≠ averageCore) (other : core ≠ manager.voteCore) :
    after.core core = before.core core := by
  cases h with
  | untouched _ idle => rw [idle.core]
  | waiting _ idle => rw [idle.core, World.core_push_of_ne _ _ _ other]
  | torn _ idle => rw [idle.core, World.core_carryOut_of_ne _ _ _ other]
  | tornWaiting _ idle =>
      rw [idle.core, World.core_push_of_ne _ _ _ apart, World.core_carryOut_of_ne _ _ _ other]
  | plain _ idle => rw [idle.core, World.core_carryOut_of_ne _ _ _ other]
  | full _ _ _ idle =>
      rw [idle.core, World.core_carryOut_of_ne _ _ _ apart, World.core_carryOut_of_ne _ _ _ other]

theorem Edited.advances {edit : Edit} {done : Bool} {news : List (Notification ν)}
    (h : manager.Edited faults edit before done news after) (placed : manager.IsPlaced)
    {votes : List Ranking} {given given' : List String}
    (may : manager.MayMake votes given given' edit) :
    manager.Advances faults votes given given' (before.core manager.voteCore)
      (after.core manager.voteCore) := by
  have apart := placed.separate
  cases h with
  | untouched _ idle =>
      rw [idle.core]
      exact .rests
  | waiting fails idle =>
      rw [idle.core, World.core_push_self]
      exact .waits fails may
  | torn _ idle =>
      rw [idle.core, World.core_carryOut_self]
      exact .settles may
  | tornWaiting _ idle =>
      rw [idle.core, World.core_push_of_ne _ _ _ apart, World.core_carryOut_self]
      exact .settles may
  | plain _ idle =>
      rw [idle.core, World.core_carryOut_self]
      exact .settles may
  | full _ _ _ idle =>
      rw [idle.core, World.core_carryOut_of_ne _ _ _ apart, World.core_carryOut_self]
      exact .settles may

/-- Rebuilding an average touches no votes. -/
theorem Rebuilt.core_eq {target : EntityReference} {votes : List Ranking}
    {result : Except RankingError (AverageRank ν)} {news : List (Notification ν)}
    (h : manager.Rebuilt faults target votes before result news after) {core : String}
    (apart : core ≠ averageCore) : after.core core = before.core core := by
  cases h with
  | untouched _ idle => rw [idle.core]
  | waiting _ idle => rw [idle.core, World.core_push_of_ne _ _ _ apart]
  | computed _ idle => rw [idle.core]
  | full _ _ _ _ idle => rw [idle.core, World.core_carryOut_of_ne _ _ _ apart]

/-- **Turns.** A turn advances the core of its manager and leaves the votes in other cores alone. -/
theorem Moves.advances {votes : List Ranking} (placed : manager.IsPlaced)
    (moves : manager.Moves faults votes before after) :
    before.given <+: after.given ∧
      manager.Advances faults votes before.given after.given (before.core manager.voteCore)
        (after.core manager.voteCore) ∧
      ∀ core, core ≠ averageCore → core ≠ manager.voteCore →
        after.core core = before.core core := by
  cases moves with
  | idle idle =>
      rw [idle.core]
      exact ⟨idle.given, .rests, fun _ _ _ => rfl⟩
  | edit may edited =>
      exact ⟨edited.meanwhile.1, edited.advances placed may,
        fun core apart other => edited.core_of_ne apart other⟩
  | @rebuild target result news middle rebuilt =>
      refine ⟨rebuilt.meanwhile.1, ?_, fun core apart _ => rebuilt.core_eq apart⟩
      show manager.Advances faults votes _ _ _ (middle.core manager.voteCore)
      rw [rebuilt.core_eq placed.separate]
      exact .rests

end Manager

/-! ## 2. Repeated votes -/

namespace Core

/-- A vote was added under a new identifier while another vote of the same voter was waiting. -/
def Repeats (before after : Core ν) (given : List String) : Prop :=
  ∃ first again : Ranking, first.key = again.key ∧ before.Awaits first ∧
    after.commit.Keeps again ∧ again.id ∉ given

variable {core next : Core ν} {tenants : Tenants} {given given' : List String}
  {votes : List Ranking} {waiting : List Edit}

/-- Committing twice is committing once. -/
theorem documents_commit_commit : core.commit.commit.documents = core.commit.documents :=
  documents_commit_of_pending _ (pending_commit _)

namespace Backlog

variable (h : core.Backlog tenants manager.voteCore given votes waiting) (later : given <+: given')
  (member : manager ∈ tenants.members) {edit : Edit}
  (may : manager.MayMake votes given given' edit)
  (next_commit : next.commit.documents = (core.push edit.write).commit.documents)
include h later member may next_commit

/-- Once an edit was added, these are the votes that the next commit leaves. -/
theorem holdsVotes_commit : next.commit.HoldsVotes (Edit.onAll (waiting ++ [edit]) votes) := by
  have pushed := (h.push later member rfl may).commit
  exact ⟨next_commit.trans pushed.documents, pushed.order.whole⟩

/-- If the edit repeats no vote, no voter has two first votes in the backlog. -/
theorem oneFirstVoteEach_push (first : OneFirstVoteEach waiting)
    (once : ¬ core.Repeats next given) : OneFirstVoteEach (waiting ++ [edit]) := by
  refine Edit.injOn_push first fun a b waits new same => ?_
  subst new
  have pushed := h.push later member rfl may
  refine once ⟨a, b, same, h.awaits_iff.2 ⟨_, waits, rfl⟩, ?_, ?_⟩
  · rw [(h.holdsVotes_commit later member may next_commit).keeps_iff]
    exact pushed.mem_onAll_of_create (List.mem_append_right _ List.mem_cons_self)
  · cases may with
    | create _ _ _ fresh => exact fresh

/-- If the edit repeats a vote, the next commit leaves a voter with two votes. -/
theorem not_oneVotePerVoter_push (repeats : core.Repeats next given) :
    ¬ next.commit.OneVotePerVoter := by
  obtain ⟨first, again, same, awaits, keeps, new⟩ := repeats
  have pushed := h.push later member rfl may
  have held := h.holdsVotes_commit later member may next_commit
  rw [held.keeps_iff] at keeps
  -- what is new was not waiting before, so it is the first vote that was added
  have added : .create again = edit := by
    obtain created | ⟨old, mem, sameId, -⟩ := pushed.origin keeps
    · obtain waited | created := List.mem_append.1 created
      · exact absurd (h.answer waited rfl).1 new
      · exact List.mem_singleton.1 created
    · exact absurd (sameId ▸ h.order.given old mem) new
  subst added
  have absent : ∀ old ∈ votes, old.key ≠ again.key := by
    cases may with
    | create _ _ absent => exact absent
  obtain ⟨earlier, mem, answer⟩ := h.awaits_iff.1 awaits
  have firstKept : first ∈ Edit.onAll (waiting ++ [.create again]) votes := by
    cases earlier with
    | create _ =>
        cases answer
        exact pushed.mem_onAll_of_create (List.mem_append_left _ mem)
    | revise old _ _ =>
        obtain ⟨_, _, _, may⟩ := h.waits _ mem
        cases answer
        cases may with
        | revise committed => exact absurd same (absent old committed)
    | erase _ => cases answer
  intro one
  obtain rfl := one.eq_of_key (held.keeps_iff.2 firstKept) (held.keeps_iff.2 keeps) same
  exact new (h.answer mem answer).1

omit later member may next_commit in
/-- Where nothing was added no vote was repeated. -/
theorem not_repeats_self : ¬ core.Repeats core given := by
  rintro ⟨_, again, -, -, keeps, new⟩
  rw [h.commit.holds.keeps_iff] at keeps
  exact new (h.commit.order.given again keeps)

end Backlog

end Core

structure Core.Orderly (votes : List Ranking) (waiting : List Edit) : Prop where
  committed : OnePerVoter votes
  first : OneFirstVoteEach waiting

/-- **A core advances.** It is described by votes and a backlog again; only a failing commit leaves
    a backlog; and if no vote was repeated, no voter gets two votes. -/
theorem Manager.Advances.backlog {tenants : Tenants} {given given' : List String}
    {votes : List Ranking} {waiting : List Edit} {core next : Core ν}
    (advances : manager.Advances faults votes given given' core next)
    (h : core.Backlog tenants manager.voteCore given votes waiting) (later : given <+: given')
    (member : manager ∈ tenants.members) :
    ∃ votes' waiting', next.Backlog tenants manager.voteCore given' votes' waiting' ∧
      ((waiting ≠ [] → faults (.commit manager.voteCore)) → waiting' ≠ [] →
        faults (.commit manager.voteCore)) ∧
      (¬ core.Repeats next given → Core.Orderly votes waiting → Core.Orderly votes' waiting') := by
  cases advances with
  | rests => exact ⟨votes, waiting, h.mono later, id, fun _ orderly => orderly⟩
  | @waits edit fails may =>
      refine ⟨votes, waiting ++ [edit], h.push later member rfl may, fun _ _ => fails,
        fun once orderly => ⟨orderly.committed, ?_⟩⟩
      exact h.oneFirstVoteEach_push later member may rfl orderly.first once
  | @settles edit may =>
      have pushed := h.push later member rfl may
      refine ⟨_, [], pushed.commit, fun _ none => absurd rfl none, fun once orderly => ⟨?_, ?_⟩⟩
      · exact pushed.onePerVoter orderly.committed (h.oneFirstVoteEach_push later member may
          Core.documents_commit_commit orderly.first once)
      · intro _ _ mem
        cases mem

/-- A turn that repeats a vote leaves a core whose next commit gives a voter two votes. -/
theorem Manager.Advances.not_oneVotePerVoter {tenants : Tenants} {given given' : List String}
    {votes : List Ranking} {waiting : List Edit} {core next : Core ν}
    (advances : manager.Advances faults votes given given' core next)
    (h : core.Backlog tenants manager.voteCore given votes waiting) (later : given <+: given')
    (member : manager ∈ tenants.members) (repeats : core.Repeats next given) :
    ¬ next.commit.OneVotePerVoter := by
  cases advances with
  | rests => exact absurd repeats h.not_repeats_self
  | waits _ may => exact h.not_oneVotePerVoter_push later member may rfl repeats
  | settles may =>
      exact h.not_oneVotePerVoter_push later member may Core.documents_commit_commit repeats

/-- An orderly core has one vote per voter, and will have after its next commit. -/
theorem Core.Backlog.oneVotePerVoter {core : Core ν} {tenants : Tenants} {name : String}
    {given : List String} {votes : List Ranking} {waiting : List Edit}
    (h : core.Backlog tenants name given votes waiting) (orderly : Core.Orderly votes waiting) :
    core.OneVotePerVoter ∧ core.commit.OneVotePerVoter := by
  have keys {others : List Ranking} (ids : (others.map (·.id)).Nodup) (one : OnePerVoter others) :
      (others.map Ranking.key).Nodup :=
    List.Nodup.map_on (fun a ha b hb same => one a ha b hb same) (List.Nodup.of_map _ ids)
  refine ⟨⟨votes, h.holds, keys h.order.ids orderly.committed⟩, _, h.commit.holds, ?_⟩
  exact keys h.commit.order.ids (h.onePerVoter orderly.committed orderly.first)

/-! ## 3. Histories -/

/-- A vote is repeated in this turn: it is saved as a first vote while another first vote of the
    voter waits for a commit. -/
def Turn.Repeats (turn : Turn ν) : Prop :=
  (turn.before.core turn.manager.voteCore).Repeats (turn.after.core turn.manager.voteCore)
    turn.before.given

/-- No voter has two votes on a target, and none will have after the next commit of a core. -/
def World.OneVotePerVoter (world : World ν) : Prop :=
  ∀ core, core ≠ averageCore →
    (world.core core).OneVotePerVoter ∧ (world.core core).commit.OneVotePerVoter

namespace History

variable [Scalar ν] {tenants : Tenants} {turns : List (Turn ν)} {world : World ν}

/-- Every turn of a history was taken by a tenant, after a history that led there. -/
theorem exists_of_mem (history : History faults tenants turns world) {turn : Turn ν}
    (mem : turn ∈ turns) :
    ∃ earlier later, turns = earlier ++ [turn] ++ later ∧
      History faults tenants earlier turn.before ∧ turn.manager ∈ tenants.members ∧
      (turn.request.program turn.manager).Yields (World.Answers faults) turn.before turn.response
        turn.after := by
  induction history with
  | start => cases mem
  | @turn turns _ _ _ _ _ history member yields ih =>
      obtain mem | mem := List.mem_append.1 mem
      · obtain ⟨earlier, later, rfl, rest⟩ := ih mem
        exact ⟨earlier, later ++ _, by rw [List.append_assoc], rest⟩
      · rw [List.mem_singleton] at mem
        subst mem
        exact ⟨turns, [], (List.append_nil _).symm, history, member, yields⟩

/-- A history leads where its last turn led. -/
theorem exists_last (history : History faults tenants turns world) (some : turns ≠ []) :
    ∃ turn ∈ turns, turn.after = world := by
  cases history with
  | start => exact absurd rfl some
  | turn => exact ⟨_, List.mem_append_right _ List.mem_cons_self, rfl⟩

/-- **Backlogs.** After every history each core of votes is described by its committed votes and a
    backlog. -/
theorem backlog (history : History faults tenants turns world) {core : String}
    (apart : core ≠ averageCore) :
    ∃ votes waiting, (world.core core).Backlog tenants core world.given votes waiting ∧
      (waiting ≠ [] → faults (.commit core)) ∧
      ((∀ turn ∈ turns, ¬ turn.Repeats) → Core.Orderly votes waiting) := by
  induction history generalizing core with
  | start =>
      have nothing : (({} : Core ν)).Backlog tenants core [] [] [] :=
        ⟨rfl, rfl, .nil, List.forall_mem_nil _, List.forall_mem_nil _,
          fun _ _ mem => absurd mem List.not_mem_nil⟩
      exact ⟨[], [], nothing, fun some => absurd rfl some,
        fun _ => ⟨List.forall_mem_nil _, fun _ _ mem => absurd mem List.not_mem_nil⟩⟩
  | @turn turns before after manager request response history member yields ih =>
      have placed := Tenants.isPlaced member
      obtain ⟨votes, waiting, here, reason, orderly⟩ := ih placed.separate
      obtain ⟨later, advances, others⟩ :=
        (Request.moves placed here.holds (fun _ mem => here.order.admits member mem)
          yields).advances placed
      have sooner (once : ∀ turn ∈ turns ++ [⟨manager, request, response, before, after⟩],
          ¬ turn.Repeats) : ∀ turn ∈ turns, ¬ turn.Repeats :=
        fun turn mem => once turn (List.mem_append_left _ mem)
      -- only the core of the manager advances
      by_cases same : core = manager.voteCore
      · subst same
        obtain ⟨votes', waiting', next, reason', orderly'⟩ := advances.backlog here later member
        refine ⟨votes', waiting', next, reason' reason, fun once => orderly' ?_ ?_⟩
        · exact once _ (List.mem_append_right _ List.mem_cons_self)
        · exact orderly (sooner once)
      · obtain ⟨votes, waiting, there, reason, orderly⟩ := ih apart
        rw [others core apart same]
        exact ⟨votes, waiting, there.mono later, reason, fun once => orderly (sooner once)⟩

/-- **One vote per voter, unless a vote is repeated.** Whatever calls fail in a history, each
    committed vote lies in the core of its manager, on the scale of that manager, and is no zero if
    zeros are not stored.  Throughout the history no voter has two votes, now or after the next
    commit, exactly if no turn repeats a vote; and votes are repeated only where commits fail. -/
theorem one_vote_per_voter_iff (history : History faults tenants turns world) :
    (∀ core, core ≠ averageCore → ∃ votes, (world.core core).HoldsVotes votes ∧
      ∀ vote ∈ votes, ∃ manager ∈ tenants.members, vote.manager = manager.identifier ∧
        manager.voteCore = core ∧ vote.rank.toNat ≤ manager.scale.toNat ∧
        (manager.configuration.storeZero = false → 0 < vote.rank.toNat)) ∧
    ((∀ turn ∈ turns, turn.after.OneVotePerVoter) ↔ ∀ turn ∈ turns, ¬ turn.Repeats) ∧
    ((∀ core, ¬ faults (.commit core)) → ∀ turn ∈ turns, ¬ turn.Repeats) := by
  refine ⟨fun core apart => ?_,
    ⟨fun one turn mem repeats => ?_, fun once turn mem core apart => ?_⟩,
    fun steady turn mem repeats => ?_⟩
  · obtain ⟨votes, waiting, here, -⟩ := history.backlog apart
    refine ⟨votes, here.holds, fun vote mem => ?_⟩
    obtain ⟨manager, member, admits⟩ := here.order.admitted vote mem
    refine ⟨manager, member, admits.own,
      (Tenants.keepsIn_iff member admits.own).1 (here.placed vote mem), admits.rank, ?_⟩
    exact admits.rank_pos
  · obtain ⟨earlier, later, rfl, sooner, member, yields⟩ := history.exists_of_mem mem
    have placed := Tenants.isPlaced member
    obtain ⟨votes, waiting, here, -⟩ := sooner.backlog placed.separate
    obtain ⟨given, advances, -⟩ :=
      (Request.moves placed here.holds (fun _ mem => here.order.admits member mem)
        yields).advances placed
    exact advances.not_oneVotePerVoter here given member repeats (one turn mem _ placed.separate).2
  · obtain ⟨earlier, later, rfl, sooner, member, yields⟩ := history.exists_of_mem mem
    obtain ⟨votes, waiting, here, -, orderly⟩ := (sooner.turn member yields).backlog apart
    exact here.oneVotePerVoter
      (orderly fun other among => once other (List.mem_append_left _ among))
  · obtain ⟨earlier, later, rfl, sooner, member, yields⟩ := history.exists_of_mem mem
    obtain ⟨votes, waiting, here, reason, -⟩ :=
      sooner.backlog (Tenants.isPlaced member).separate
    obtain ⟨first, again, -, awaits, -⟩ := repeats
    -- a repeated vote repeats one that waits, and what waits was not committed
    obtain ⟨edit, waits, -⟩ := here.awaits_iff.1 awaits
    exact steady _ (reason (List.ne_nil_of_mem waits))

end History

/-! ## 4. A vote that is retried -/

/-- Commits may fail, and nothing else. -/
def World.onlyCommits (call : Call ν) : Prop :=
  ∃ core, call = .commit core

def Shift.retriedVote : List Shift :=
  let home : EntityReference := ⟨.document, "xwiki:Main.WebHome"⟩
  [{ faults := [⟨rankingCore, .commit, 0, .storage "disk full"⟩]
     visits := [(.stars, .save home ⟨"a"⟩ 3)] },
    { visits := [(.stars, .save home ⟨"a"⟩ 4)] }]

/-- After the retry the voter has two votes. -/
theorem History.exists_retriedVote :
    ∃ (turns : List (Turn Rat)) (world : World Rat),
      History World.onlyCommits Tenants.starsAndLikes turns world ∧
      turns.map Turn.visit = Shift.retriedVote.flatMap (·.visits) ∧
      ∃ first again, (world.core rankingCore).Keeps first ∧ (world.core rankingCore).Keeps again ∧
        first.key = again.key ∧ first ≠ again := by
  have history : History World.onlyCommits Tenants.starsAndLikes [] ({} : World Rat) := .start
  have members : ∀ shift ∈ Shift.retriedVote, ∀ visit ∈ shift.visits,
      visit.1 ∈ Tenants.starsAndLikes.members := by
    decide
  have commits : ∀ shift ∈ Shift.retriedVote, ∀ fault ∈ shift.faults, fault.action = .commit := by
    decide
  have among : ∀ shift ∈ Shift.retriedVote, ∀ fault ∈ shift.faults,
      fault.IsAmong (World.onlyCommits : Call Rat → Prop) := by
    intro shift mem fault planned
    rw [IndexFault.IsAmong, commits shift mem fault planned]
    exact ⟨_, rfl⟩
  obtain ⟨turns, world, shows, history, visits⟩ :=
    history.serveShifts Deployment.Shows.start members among
  let vote (n : Nat) (rank : UInt32) : Ranking :=
    .create (({} : IdSource).nth n) "stars" ⟨.document, "xwiki:Main.WebHome"⟩ ⟨"a"⟩ rank 5
      (Instant.ofMillis 1700000000000)
  have read : ((world.core rankingCore).documents.map fun document =>
      (Ranking.ofDocument document).toOption) = [vote 0 3, vote 2 4].map some := by
    rw [shows.core]
    decide +kernel
  have keeps {again : Ranking} (mem : again ∈ [vote 0 3, vote 2 4]) :
      (world.core rankingCore).Keeps again :=
    Core.keeps_of_read read mem
  exact ⟨turns, world, history, visits, vote 0 3, vote 2 4, keeps List.mem_cons_self,
    keeps (List.mem_cons_of_mem _ List.mem_cons_self), rfl, by decide⟩

/-- So a voter may have two votes, even if nothing fails but commits. -/
theorem not_one_vote_per_voter : ¬ ∀ (tenants : Tenants) (turns : List (Turn Rat))
    (world : World Rat), History World.onlyCommits tenants turns world →
      ∀ core, core ≠ averageCore → (world.core core).OneVotePerVoter := by
  intro always
  obtain ⟨turns, world, history, -, first, again, keeps, keeps', same, differ⟩ :=
    History.exists_retriedVote
  have one := always _ turns world history rankingCore (by decide)
  exact differ (one.eq_of_key keeps keeps' same)

/-- The retry is a turn that repeats a vote. -/
theorem repeats_of_retriedVote :
    ∃ (turns : List (Turn Rat)) (world : World Rat),
      History World.onlyCommits Tenants.starsAndLikes turns world ∧
      turns.map Turn.visit = Shift.retriedVote.flatMap (·.visits) ∧
      ∃ turn ∈ turns, turn.Repeats := by
  obtain ⟨turns, world, history, visits, first, again, keeps, keeps', same, differ⟩ :=
    History.exists_retriedVote
  refine ⟨turns, world, history, visits, ?_⟩
  apply Classical.byContradiction
  intro none
  have one := history.one_vote_per_voter_iff.2.1.2 fun turn mem repeats =>
    none ⟨turn, mem, repeats⟩
  obtain ⟨last, mem, rfl⟩ := history.exists_last (by rintro rfl; cases visits)
  have one := (one last mem rankingCore (by decide)).1
  exact differ (one.eq_of_key keeps keeps' same)

end RankLedger

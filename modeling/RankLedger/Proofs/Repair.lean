import RankLedger.Proofs.Listing
import RankLedger.Proofs.Manager.Committing
import RankLedger.Proofs.Manager.Leading
import RankLedger.Proofs.OneVote

/-!
# Repairing an average

Rebuilding an average stores it with the time of the rebuilding as its date, while reading one takes
the oldest that is stored.  So an average that was rebuilt is the one that is read as long as it is
the only one of its target, or the others are younger (`Manager.Leads`); then later saves go on from
it.  But a write whose commit failed can leave a second average behind, older than the rebuilt one,
and then rebuilding repairs nothing (`not_repaired`).

Nothing is assumed here of the documents that the cores hold, but that a finite double is read back
unchanged from the text that is stored of it, as everywhere (see `Core`).  Without this the mean of
an average may come back off by a unit in the last place.
-/

namespace RankLedger

variable {ν : Type} [Scalar ν] {faults : Call ν → Prop} {before after : World ν}
  {manager : Manager} {target : EntityReference} {average : AverageRank ν}

namespace Manager

/-! ## 1. Rebuilding -/

/-- The average that is read is the manager's own. -/
theorem manager_of_yields (named : manager.voteCore ≠ "")
    (h : (manager.average target).run.Yields (World.Answers faults) before (.ok average) after) :
    average.manager = manager.identifier := by
  have told : ((Inquiry.average target).program manager).Yields (World.Answers faults) before
      (.average (.ok average)) after := Program.yields_map.2 ⟨.ok average, h, rfl⟩
  exact Inquiry.tells_own named told

/-- **Rebuilding** stores the average that it answers with. -/
theorem stores_of_yields_recompute (placed : manager.IsPlaced)
    (keeps : manager.configuration.storeAverage = true)
    (distinct : (before.core averageCore).IsDistinct) (order : (before.core averageCore).IsInOrder)
    (h : (manager.recompute target).run.Yields (World.Answers faults) before (.ok average) after) :
    average.target = target ∧ average.updated.IsWhole ∧
      manager.Stores average (after.core averageCore) := by
  obtain ⟨⟨_, wrong⟩, -⟩ | ⟨news, middle, worked, rfl⟩ := yields_locked h
  · cases wrong
  · obtain ⟨_, -, wrong⟩ | ⟨votes, first, counted, reading⟩ := Change.yields_attemptBind.1 worked
    · cases wrong
    · obtain ⟨_, -, wrong⟩ | ⟨old, second, read, looking⟩ := Change.yields_attemptBind.1 reading
      · cases wrong
      · obtain ⟨instant, -, storing⟩ := World.yields_now_bindChange looking
        rw [if_pos keeps] at storing
        obtain ⟨_, _, -, wrong⟩ | ⟨_, said, last, stored, same, rfl⟩ :=
          Change.yields_bind.1 storing
        · cases wrong
        · cases same
          cases yields_storeAverage instant.isDate_truncated stored with
          | ok right =>
              cases right
              -- counting and reading left the averages as they were
              have idle := (reads_allRankings.idle counted).trans (reads_average.idle read)
              have onTarget : old.target = target := target_of_yields read
              refine ⟨onTarget, instant.isWhole_truncated, ?_⟩
              show manager.Stores _ ((World.carryOut _ averageCore _).core averageCore)
              rw [World.core_carryOut_self, show World.core _ = before.core from idle.core]
              have pushed {write : CoreWrite ν} :
                  ((before.core averageCore).push write).IsDistinct := distinct
              exact ⟨pushed.commit, (order.push _).commit, Core.document?_commit_push_self _ _,
                show old.manager = _ from manager_of_yields placed.named read⟩

/-! ## 2. Saving -/

/-- **Saving**, whatever the cores hold, writes nothing, or makes one edit of the vote that it was
    asked for. -/
theorem edited_of_yields_saveLocked (placed : manager.IsPlaced) {voter : UserReference} {vote : Int}
    {rank : UInt32} (valid : manager.validate vote = .ok rank)
    {outcome : Except RankingError (Option Ranking) × List (Notification ν)}
    (h : ((manager.saveLocked target voter rank).run.run []).Yields (World.Answers faults) before
      outcome after) :
    (before.Idle after ∧ outcome.2 = [] ∧ ∀ saved, outcome.1 ≠ .ok (some saved)) ∨
    ∃ edit done, (Request.save target voter vote).Asks manager edit ∧
      manager.Edited faults edit before done outcome.2 after ∧
      Settles done edit.answer outcome.1 := by
  have bound := (validate_eq_ok valid).1
  -- a vote that is looked up is the one that was looked for
  have isVoteOf {old : Ranking} {first : World ν}
      (looked : (manager.vote? target voter).run.Yields (World.Answers faults) before
        (.ok (some old)) first) : manager.IsVoteOf target voter old := by
    obtain ⟨-, own, matched⟩ := found_of_yields placed.named looked
    have free : (RankingQuery.empty.target target).value? .userReference = none := rfl
    rw [RankingQuery.matches_voter free, RankingQuery.matches_target] at matched
    exact ⟨own, matched⟩
  obtain ⟨_, failed, rfl⟩ | ⟨found, first, looked, decided⟩ :=
    decides_of_yields_saveLocked placed (fun _ _ looked => (isVoteOf looked).2.1) h
  · exact .inl ⟨reads_oldest?.idle failed, rfl, fun _ wrong => by cases wrong⟩
  · have idle : before.Idle first := reads_oldest?.idle looked
    obtain ⟨-, rfl, rfl⟩ | ⟨_, _, -, -, rfl, idle'⟩ | ⟨edit, done, decides, edited, settles⟩ :=
      decided
    · exact .inl ⟨idle, rfl, fun _ wrong => by cases wrong⟩
    · exact .inl ⟨idle.trans idle', rfl, fun _ wrong => by cases wrong⟩
    · refine .inr ⟨edit, done, ?_, edited.of_idle idle, settles⟩
      cases decides with
      | first => exact ⟨⟨rfl, rfl, rfl⟩, fun _ same => by cases same; exact bound⟩
      | @withdrawn old =>
          have own : manager.IsVoteOf target voter old := isVoteOf looked
          exact ⟨own, fun _ same => by cases same⟩
      | @revised old =>
          have own : manager.IsVoteOf target voter old := isVoteOf looked
          exact ⟨own, fun _ same => by cases same; exact bound⟩

/-- What an edit may do to the averages and tell of them if it starts from this average. -/
inductive GoesOn (manager : Manager) (average : AverageRank ν) (edit : Edit) (averages : Core ν) :
    Bool → List (Notification ν) → Core ν → Prop
  /-- The vote was not written. -/
  | unwritten : GoesOn manager average edit averages false [] averages
  /-- The vote was written; nothing was written of the average. -/
  | torn : GoesOn manager average edit averages false [manager.tells edit.event edit.record]
      averages
  /-- The vote was written; the changed average waits for another commit. -/
  | waiting (now : Instant) : GoesOn manager average edit averages false
      [manager.tells edit.event edit.record]
      (averages.push (.add (edit.change average now).toDocument))
  /-- The vote and the changed average were written. -/
  | full (now : Instant) : GoesOn manager average edit averages true
      [manager.tells edit.event edit.record, manager.tellsAverage average (edit.change average now)]
      (averages.push (.add (edit.change average now).toDocument)).commit

section Leading

variable (stores : manager.Stores average (before.core averageCore)) (fits : average.Fits)
  (leads : manager.Leads average (before.core averageCore))
include stores fits leads

/-- No other average is read as long as nothing is written of the averages. -/
theorem ReadWithin.eq_of_leads {old : AverageRank ν}
    (read : manager.ReadWithin average.target before old after) : old = average := by
  obtain ⟨first, last, core, -, reads, -⟩ := read
  have head := stores.head?_search leads
  rw [← core] at head
  obtain ⟨document, found, same, -⟩ | ⟨nothing, -⟩ := reads
  · obtain rfl : average.toDocument = document := Option.some.inj (head.symm.trans found)
    rw [AverageRank.ofDocument_toDocument fits] at same
    exact (Except.ok.inj same).symm
  · rw [nothing] at head
    cases head

/-- **Edits go on** from an average that leads. -/
theorem Edited.goesOn {edit : Edit} {done : Bool} {news : List (Notification ν)}
    (h : manager.Edited faults edit before done news after)
    (onTarget : edit.record.target = average.target) (placed : manager.IsPlaced)
    (keeps : manager.configuration.storeAverage = true) :
    manager.GoesOn average edit (before.core averageCore) done news (after.core averageCore) := by
  have apart := placed.separate.symm
  cases h with
  | untouched _ idle =>
      rw [idle.core]
      exact .unwritten
  | waiting _ idle =>
      rw [idle.core, World.core_push_of_ne _ _ _ apart]
      exact .unwritten
  | torn _ idle =>
      rw [idle.core, World.core_carryOut_of_ne _ _ _ apart]
      exact .torn
  | tornWaiting _ idle read =>
      rw [onTarget] at read
      obtain rfl := read.eq_of_leads stores fits leads
      rw [idle.core, World.core_push_self, World.core_carryOut_of_ne _ _ _ apart]
      exact .waiting _
  | plain off _ =>
      rw [keeps] at off
      cases off
  | full _ _ read idle =>
      rw [onTarget] at read
      obtain rfl := read.eq_of_leads stores fits leads
      rw [idle.core, World.core_carryOut_self, World.core_carryOut_of_ne _ _ _ apart]
      exact .full _

theorem ensures_save_of_leads (faults : Call ν → Prop) (placed : manager.IsPlaced)
    (keeps : manager.configuration.storeAverage = true) (voter : UserReference) (vote : Int) :
    (manager.save average.target voter vote).run.Ensures (World.Answers faults) before
      fun result after =>
        (after.heard = before.heard ∧ after.core averageCore = before.core averageCore ∧
          ∀ saved, result ≠ .ok (some saved)) ∨
        ∃ edit done news, (Request.save average.target voter vote).Asks manager edit ∧
          Settles done edit.answer result ∧ after.heard = before.heard ++ news ∧
          manager.GoesOn average edit (before.core averageCore) done news
            (after.core averageCore) := by
  refine World.ensures_iff.2 fun result after h => ?_
  obtain ⟨error, invalid, rfl⟩ | ⟨rank, first, valid, locking⟩ := yields_exceptBind.1 h
  · obtain ⟨-, rfl⟩ := Attempt.yields_ofExcept.1 invalid
    exact .inl ⟨rfl, rfl, fun _ wrong => by cases wrong⟩
  · obtain ⟨same, rfl⟩ := Attempt.yields_ofExcept.1 valid
    obtain ⟨⟨_, rfl⟩, -, rfl⟩ | ⟨news, middle, worked, rfl⟩ := yields_locked locking
    · exact .inl ⟨rfl, rfl, fun _ wrong => by cases wrong⟩
    · obtain ⟨idle, quiet, unsaved⟩ | ⟨edit, done, asks, edited, settles⟩ :=
        edited_of_yields_saveLocked placed same.symm worked
      · obtain rfl : news = [] := quiet
        exact .inl ⟨(congrArg World.heard (World.hear_nil _)).trans idle.heard,
          congrFun idle.core _, unsaved⟩
      · refine .inr ⟨edit, done, news, asks, settles, ?_, ?_⟩
        · rw [World.hear, edited.meanwhile.2.2]
        · exact edited.goesOn stores fits leads asks.1.2.1 placed keeps

end Leading

/-- **A rebuilt average is read, and changed by later saves, if it leads.** Let the core of averages
    hold any documents that writes can leave there, and let a manager that keeps averages rebuild
    one, whatever calls fail.  Then the average that it answers with is stored.  As long as nothing
    else is written of the averages it is read to the last field, if it leads, and whatever a save
    on its target does to the averages and tells of them starts from it.  And if the averages of the
    target carry dates, it is read only if it leads.

    That the mean is read to the last digit rests on doubles being read back unchanged. -/
theorem rebuilt_average_is_read_of_leads (placed : manager.IsPlaced)
    (keeps : manager.configuration.storeAverage = true)
    (distinct : (before.core averageCore).IsDistinct) (order : (before.core averageCore).IsInOrder)
    (h : (manager.recompute target).run.Yields (World.Answers faults) before (.ok average) after)
    (short : average.number < 9223372036854775808) :
    (after.core averageCore).document? average.id = some average.toDocument ∧
    ∀ later : World ν, later.core averageCore = after.core averageCore →
      (manager.Leads average (after.core averageCore) →
        ((manager.average target).run.Ensures (World.Answers World.reliable) later
          fun result last => result = .ok average ∧ last = later) ∧
        ∀ (faults : Call ν → Prop) (voter : UserReference) (vote : Int),
          (manager.save target voter vote).run.Ensures (World.Answers faults) later
            fun result last =>
              (last.heard = later.heard ∧ last.core averageCore = later.core averageCore ∧
                ∀ saved, result ≠ .ok (some saved)) ∨
              ∃ edit done news, (Request.save target voter vote).Asks manager edit ∧
                Settles done edit.answer result ∧ last.heard = later.heard ++ news ∧
                manager.GoesOn average edit (later.core averageCore) done news
                  (last.core averageCore)) ∧
      (manager.AreDated target (after.core averageCore) →
        ∀ last, (manager.average target).run.Yields (World.Answers World.reliable) later
          (.ok average) last → manager.Leads average (after.core averageCore)) := by
  obtain ⟨rfl, whole, stores⟩ := stores_of_yields_recompute placed keeps distinct order h
  refine ⟨stores.stored, fun later same => ?_⟩
  rw [← same] at stores ⊢
  have fits : average.Fits := ⟨short, whole.isOfWord⟩
  refine ⟨fun leads => ⟨World.ensures_iff.2 fun result last read => ?_, fun faults voter vote =>
    ensures_save_of_leads stores fits leads faults placed keeps voter vote⟩,
    fun dated last read => leads_of_yields stores dated read⟩
  cases yields_average_of_leads stores fits leads read with
  | ok right => exact ⟨congrArg _ right.1, right.2⟩
  | error wrong => exact absurd wrong.1 World.not_unreliable_reliable

end Manager

/-! ## 3. Averages that were left behind -/

def EntityReference.home : EntityReference :=
  ⟨.document, "xwiki:Main.WebHome"⟩

namespace Shift

def tornVote : List Shift :=
  [{ visits := [(.stars, .save .home ⟨"alice"⟩ 4)] },
    { faults := [⟨averageCore, .commit, 0, .storage "disk full"⟩]
      visits := [(.stars, .save .home ⟨"alice"⟩ 2)] },
    { visits := [] }]

def lostAverages : List Shift :=
  [{ faults := [⟨averageCore, .commit, 0, .storage "disk full"⟩]
     visits := [(.stars, .save .home ⟨"alice"⟩ 4), (.stars, .save .home ⟨"alice"⟩ 2)] },
    { visits := [] }]

end Shift

def Deployment.rebuilt (shifts : List Shift) :
    Except RankingError (AverageRank Rat) × Deployment Rat :=
  (({} : Deployment Rat).serveShifts shifts).perform (Manager.stars.recompute .home).run

/-- It is rebuilt where nothing fails any more, after a history in which nothing failed but
    commits. -/
theorem History.exists_rebuilt (shifts : List Shift)
    (members : ∀ shift ∈ shifts, ∀ visit ∈ shift.visits, visit.1 ∈ Tenants.starsAndLikes.members)
    (commits : ∀ shift ∈ shifts, ∀ fault ∈ shift.faults, fault.action = .commit)
    (index : (({} : Deployment Rat).serveShifts shifts).indexFaults = [])
    (locks : (({} : Deployment Rat).serveShifts shifts).lockFaults = []) :
    ∃ (turns : List (Turn Rat)) (before after : World Rat),
      History World.onlyCommits Tenants.starsAndLikes turns before ∧
      turns.map Turn.visit = shifts.flatMap (·.visits) ∧
      (({} : Deployment Rat).serveShifts shifts).Shows World.reliable [] before ∧
      (Manager.stars.recompute .home).run.Yields (World.Answers World.reliable) before
        (Deployment.rebuilt shifts).1 after ∧
      (Deployment.rebuilt shifts).2.Shows World.reliable [] after := by
  have history : History World.onlyCommits Tenants.starsAndLikes [] ({} : World Rat) := .start
  have among : ∀ shift ∈ shifts, ∀ fault ∈ shift.faults,
      fault.IsAmong (World.onlyCommits : Call Rat → Prop) := by
    intro shift mem fault planned
    rw [IndexFault.IsAmong, commits shift mem fault planned]
    exact ⟨_, rfl⟩
  obtain ⟨turns, before, shows, history, visits⟩ :=
    history.serveShifts Deployment.Shows.start members among
  have calm := shows.calm index locks
  obtain ⟨after, yields, shows⟩ := calm.run Manager.isCareful_recompute fun _ => False.elim
  exact ⟨turns, before, after, history, visits, calm, yields, shows⟩

/-- Rebuilding may repair nothing, even if nothing ever failed but commits: it makes the averages
    that were left behind visible, and one of them stands before the average that was rebuilt. -/
theorem not_repaired : ¬ ∀ (tenants : Tenants) (turns : List (Turn Rat)) (before after : World Rat)
    (manager : Manager) (target : EntityReference) (average : AverageRank Rat),
    History World.onlyCommits tenants turns before → manager ∈ tenants.members →
      manager.configuration.storeAverage = true →
      (manager.recompute target).run.Yields (World.Answers World.reliable) before (.ok average)
        after →
      (manager.average target).run.Ensures (World.Answers World.reliable) after
        fun result _ => result = .ok average := by
  intro always
  obtain ⟨turns, before, after, history, -, calm, yields, shows⟩ :=
    History.exists_rebuilt Shift.lostAverages (by decide) (by decide) (by decide +kernel)
      (by decide +kernel)
  have third : (Deployment.rebuilt Shift.lostAverages).1.map (·.id) =
      .ok (({} : IdSource).nth 3) := by
    decide +kernel
  cases same : (Deployment.rebuilt Shift.lostAverages).1 with
  | error error =>
      rw [same] at third
      cases third
  | ok average =>
      rw [same] at yields third
      have id : average.id = ({} : IdSource).nth 3 := Except.ok.inj third
      have distinct : (before.core averageCore).IsDistinct := by
        rw [calm.core, Core.IsDistinct]
        decide +kernel
      have member : Manager.stars ∈ Tenants.starsAndLikes.members := by decide
      obtain ⟨target, -, stores⟩ := Manager.stores_of_yields_recompute
        (Tenants.isPlaced member) rfl distinct (history.isInOrder averageCore) yields
      -- the averages have dates, so what is read would lead
      have dated : Manager.stars.AreDated average.target (after.core averageCore) := by
        rw [target, Manager.AreDated, shows.core]
        decide +kernel
      obtain ⟨⟨result, last, read⟩, only⟩ :=
        always _ turns before after .stars .home average history member rfl yields
      rw [only _ _ read, ← target] at read
      have first := (Manager.leads_of_yields stores dated read).first
      rw [id, target, shows.core] at first
      revert first
      decide +kernel

/-- After one torn vote there is one average; it is rebuilt from the vote, and then it is read. -/
theorem repaired_after_tornVote :
    ∃ (turns : List (Turn Rat)) (before after : World Rat) (average : AverageRank Rat),
      History World.onlyCommits Tenants.starsAndLikes turns before ∧
      turns.map Turn.visit = Shift.tornVote.flatMap (·.visits) ∧
      (Manager.stars.recompute .home).run.Yields (World.Answers World.reliable) before
        (.ok average) after ∧
      average.number = 1 ∧ average.average = 2 ∧
      Manager.stars.Leads average (after.core averageCore) ∧
      (Manager.stars.average .home).run.Ensures (World.Answers World.reliable) after
        fun result last => result = .ok average ∧ last = after := by
  obtain ⟨turns, before, after, history, visits, calm, yields, shows⟩ :=
    History.exists_rebuilt Shift.tornVote (by decide) (by decide) (by decide +kernel)
      (by decide +kernel)
  have counted : (Deployment.rebuilt Shift.tornVote).1.map (fun average =>
      (average.number, average.average)) = .ok (1, 2) := by
    decide +kernel
  cases same : (Deployment.rebuilt Shift.tornVote).1 with
  | error error =>
      rw [same] at counted
      cases counted
  | ok average =>
      rw [same] at yields counted
      obtain ⟨number, mean⟩ := Prod.mk.inj (Except.ok.inj counted)
      have distinct : (before.core averageCore).IsDistinct := by
        rw [calm.core, Core.IsDistinct]
        decide +kernel
      obtain ⟨stored, repairs⟩ := Manager.rebuilt_average_is_read_of_leads
        (Tenants.isPlaced (by decide : Manager.stars ∈ Tenants.starsAndLikes.members)) rfl distinct
        (history.isInOrder averageCore) yields (by omega)
      -- what is stored of the average is all that is stored
      have alone : (after.core averageCore).committed.length = 1 := by
        rw [shows.core]
        decide +kernel
      have readable : (after.core averageCore).isReadable = true := by
        rw [shows.core]
        decide +kernel
      obtain ⟨own, found, -⟩ := Option.map_eq_some_iff.1 stored
      obtain ⟨only, all⟩ := List.length_eq_one_iff.1 alone
      have leads : Manager.stars.Leads average (after.core averageCore) := by
        refine Manager.leads_of_alone readable fun stored mem _ => ?_
        have held : own ∈ (after.core averageCore).committed := List.mem_of_find?_eq_some found
        rw [all, List.mem_singleton] at mem held
        rw [mem, ← held]
        exact Core.id_of_find? found
      exact ⟨turns, before, after, average, history, visits, yields, number, mean, leads,
        ((repairs after rfl).1 leads).1⟩

end RankLedger

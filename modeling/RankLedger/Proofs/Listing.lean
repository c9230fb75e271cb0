import RankLedger.Proofs.Deployment
import RankLedger.Proofs.Index.Sorting
import RankLedger.Proofs.Manager.Inquiry
import RankLedger.Proofs.Record.Meaning
import RankLedger.Proofs.Settled

/-!
# Listings

Where nothing fails, what a manager lists is a matter of its votes alone: those that have what was
asked for, in the order that was asked for, and where this leaves the order open, in the order in
which the votes were created (`History.listings_mean_what_the_votes_say`).  Their number is counted,
and the pages of a listing give them all, each once.

Dates are the one exception to what a query seems to ask.  They are compared as 64-bit numbers of
milliseconds, and two dates that are far enough apart have the same such number
(`a_date_matches_another`).  Where every date asked for fits its number, there is no exception.  And
a date that has no such number cannot be asked for: the manager breaks off.
-/

namespace RankLedger

variable {ν : Type}

/-! ## 1. The order of insertion -/

def World.IsInOrder (world : World ν) : Prop :=
  ∀ core, (world.core core).IsInOrder

theorem World.IsInOrder.change {world : World ν} (order : world.IsInOrder) (name : String)
    {f : Core ν → Core ν} (keeps : ∀ core : Core ν, core.IsInOrder → (f core).IsInOrder) :
    (world.change name f).IsInOrder := by
  intro core
  by_cases same : core = name
  · rw [same, core_change_self]
    exact keeps _ (order name)
  · rw [core_change_of_ne _ _ _ same]
    exact order core

section Order

variable [Scalar ν] {faults : Call ν → Prop} {before after : World ν}

/-- Whatever is answered, the documents stay in order. -/
theorem World.Answers.isInOrder {call : Call ν} {reply : call.Reply}
    (h : World.Answers faults call before reply after) (order : before.IsInOrder) :
    after.IsInOrder := by
  intro name
  obtain same | ⟨pushed, write, same⟩ | ⟨committed, -, same⟩ := h.core_cases
  · rw [same]
    exact order name
  · rw [same]
    exact order.change pushed (fun _ h => h.push write) name
  · rw [same]
    exact order.change committed (fun _ h => h.commit) name

theorem Program.Yields.isInOrder {α : Type} {program : Program ν α} {outcome : α}
    (h : program.Yields (World.Answers faults) before outcome after) (order : before.IsInOrder) :
    after.IsInOrder := by
  induction program generalizing before with
  | done result => exact h.2 ▸ order
  | step call next ih =>
      obtain ⟨reply, middle, answered, rest⟩ := h
      exact ih reply rest (answered.isInOrder order)

theorem History.isInOrder {tenants : Tenants} {turns : List (Turn ν)} {world : World ν}
    (history : History faults tenants turns world) : world.IsInOrder := by
  induction history with
  | start => exact fun _ => Core.IsInOrder.empty
  | turn _ _ yields ih => exact yields.isInOrder ih

end Order

def Notification.createdId? (n : Notification ν) : Option String :=
  match n.event, n.data with
  | .created, .ranking vote => some vote.id
  | _, _ => none

def World.created (world : World ν) : List String :=
  world.heard.filterMap Notification.createdId?

section Created

variable [Scalar ν] {tenants : Tenants} {votes : List Ranking} {before after : World ν}
  {manager : Manager}

omit [Scalar ν] in
/-- A new vote stands behind the others, a revised one stays, and the others close ranks. -/
theorem Manager.MayMake.sublist_created {given given' ids : List String} {edit : Edit}
    (may : manager.MayMake votes given given' edit) (order : VotesInOrder tenants given votes)
    (sub : (votes.map (·.id)).Sublist ids) :
    ((edit.on votes).map (·.id)).Sublist
      (ids ++ [manager.tells edit.event edit.record].filterMap
        (Notification.createdId? (ν := ν))) := by
  cases may with
  | @create vote _ _ _ fresh =>
      have new : vote.id ∉ votes.map (·.id) := by
        intro mem
        obtain ⟨old, mem, same⟩ := List.mem_map.1 mem
        exact fresh (same ▸ order.given old mem)
      rw [Edit.on, Shelf.put_of_notMem new, List.map_append]
      exact sub.append (List.Sublist.refl [vote.id])
  | @revise old rank now mem =>
      have known : (old.revise rank now).id ∈ votes.map (·.id) := List.mem_map.2 ⟨old, mem, rfl⟩
      rw [Edit.on, Shelf.keys_put_of_mem known]
      exact sub.trans (List.sublist_append_left _ _)
  | erase => exact ((List.filter_sublist.map _).trans sub).trans (List.sublist_append_left _ _)

/-- Where nothing fails, the votes stand in the order in which they were told to be new. -/
theorem World.Settled.moves_created (settled : before.Settled tenants votes)
    (member : manager ∈ tenants.members) (sub : (votes.map (·.id)).Sublist before.created)
    {request : Request} {response : Response ν}
    (h : (request.program manager).Yields (World.Answers World.reliable) before response after) :
    ∃ votes', after.Settled tenants votes' ∧ (votes'.map (·.id)).Sublist after.created := by
  -- whatever is told afterwards does not shorten what was told
  have later {world : World ν} {news : List (Notification ν)}
      (heard : world.heard = before.heard ++ news) :
      world.created = before.created ++ news.filterMap Notification.createdId? := by
    rw [created, heard, List.filterMap_append, created]
  have stays {world : World ν} {news : List (Notification ν)}
      (heard : world.heard = before.heard ++ news) :
      (votes.map (·.id)).Sublist world.created := by
    rw [later heard]
    exact sub.trans (List.sublist_append_left _ _)
  cases settled.holds.moves member settled.order h with
  | idle idle =>
      exact ⟨votes, settled.of_core (fun core _ => by rw [idle.core]) idle.given,
        stays (idle.heard.trans (List.append_nil _).symm)⟩
  | @edit edit done news middle may edited =>
      have heard : (middle.hear news).heard = before.heard ++ news := by
        rw [hear, edited.meanwhile.2.2]
      have given := edited.meanwhile.1
      have order := settled.order
      obtain ⟨-, -, same⟩ | ⟨⟨rest, told, -⟩, same⟩ := edited.made
      · exact ⟨votes, settled.of_core (fun core _ => by rw [hear, same]) given, stays heard⟩
      · have settled := settled.of_carryOut member given may same
        refine ⟨edit.on votes, settled.of_core (fun _ _ => rfl) List.prefix_rfl, ?_⟩
        rw [later heard, told, ← List.singleton_append, List.filterMap_append, ← List.append_assoc]
        exact (may.sublist_created order sub).trans (List.sublist_append_left _ _)
  | @rebuild target result news middle rebuilt =>
      have heard : (middle.hear news).heard = before.heard ++ news := by
        rw [hear, rebuilt.meanwhile.2]
      exact ⟨votes, settled.of_core (fun core apart => rebuilt.core_eq apart) rebuilt.meanwhile.1,
        stays heard⟩

theorem History.settled_created {turns : List (Turn ν)} {world : World ν}
    (history : History World.reliable tenants turns world) :
    ∃ votes, world.Settled tenants votes ∧ (votes.map (·.id)).Sublist world.created := by
  induction history with
  | start => exact ⟨[], .start, List.nil_sublist _⟩
  | turn _ member yields ih =>
      obtain ⟨votes, settled, sub⟩ := ih
      exact settled.moves_created member sub yields

end Created

/-! ## 2. Pages -/

section Pages

variable [Scalar ν] {before after : World ν} {manager : Manager} {query : RankingQuery}
  {order : QueryField} {ascending : Bool} {votes answers : List Ranking}

namespace Manager

def cutOut (offset : Nat) (limit : Option Nat) (answers : List Ranking) : List Ranking :=
  match limit with
  | none => answers.drop offset
  | some limit => (answers.drop offset).take limit

/-- The number of votes that answer a query is that of the votes found. -/
theorem yields_count (named : manager.voteCore ≠ "") (fits : query.Fits)
    (holds : (before.core manager.voteCore).HoldsVotes votes) {faults : Call ν → Prop}
    {result : Except RankingError Nat}
    (h : (manager.count query).run.Yields (World.Answers faults) before result after) :
    Ends (fun number after => after = before ∧
        number = (votes.filter (manager.finds ν query)).length)
      (fun after => after = before ∧ World.Unreliable faults) result after := by
  rw [count_eq fits] at h
  obtain ⟨⟨_, rfl⟩, rfl, reason⟩ | ⟨page, middle, ⟨rfl, same⟩, rfl, rfl⟩ :=
    yields_bind_of_ends (yields_readPage named) h
  · rw [holds.isReadable] at reason
    exact .error ⟨rfl, reason.resolve_right nofun⟩
  · refine .ok ⟨rfl, ?_⟩
    rw [same, (Core.search_perm _ _).length_eq, holds.documents, List.filter_map, List.length_map]
    rfl

variable (manager query order ascending) in
/-- Page after page of this length is read, from an offset on, until one is empty. -/
inductive ReadsOn (size : Nat) : Nat → World ν → List (List Ranking) → World ν → Prop
  | last {offset : Nat} {before after : World ν} :
      (manager.rankings query offset (some size) order ascending).run.Yields
        (World.Answers World.reliable) before (.ok []) after →
      ReadsOn size offset before [] after
  | more {offset : Nat} {before middle after : World ν} {page : List Ranking}
      {pages : List (List Ranking)} :
      (manager.rankings query offset (some size) order ascending).run.Yields
        (World.Answers World.reliable) before (.ok page) middle →
      page ≠ [] → ReadsOn size (offset + size) middle pages after →
      ReadsOn size offset before (page :: pages) after

variable (manager query order ascending) in
/-- Asked for a listing, the manager shows these votes: every page is cut out of them. -/
def Lists (world : World ν) (answers : List Ranking) : Prop :=
  ∀ offset limit, (manager.rankings query offset limit order ascending).run.Ensures
    (World.Answers World.reliable) world fun result after => after = world ∧
      result = .ok (cutOut offset limit answers)

namespace Lists

variable {world : World ν} (lists : manager.Lists query order ascending world answers)
  {size : Nat} (positive : 0 < size)
include lists positive

/-- The pages from an offset on are together all that is listed from there on. -/
theorem flatten_pages {offset : Nat} {pages : List (List Ranking)}
    (h : manager.ReadsOn query order ascending size offset before pages after)
    (same : before = world) : after = world ∧ pages.flatten = answers.drop offset := by
  induction h with
  | last yields =>
      subst same
      obtain ⟨rfl, none⟩ := (lists _ _).2 _ _ yields
      refine ⟨rfl, ?_⟩
      -- an empty page has nothing to be cut out of
      obtain wrong | none := List.take_eq_nil_iff.1 (Except.ok.inj none).symm
      · exact absurd wrong positive.ne'
      · rw [none, List.flatten_nil]
  | more yields _ _ ih =>
      subst same
      obtain ⟨rfl, page⟩ := (lists _ _).2 _ _ yields
      obtain ⟨last, rest⟩ := ih rfl
      refine ⟨last, ?_⟩
      rw [List.flatten_cons, rest, Except.ok.inj page, ← List.drop_drop]
      exact List.take_append_drop _ _

theorem exists_pages (offset : Nat) :
    ∃ pages, manager.ReadsOn query order ascending size offset world pages world := by
  induction left : answers.length - offset using Nat.strong_induction_on generalizing offset with
  | _ n ih =>
      obtain ⟨⟨result, after, yields⟩, shows⟩ := lists offset (some size)
      obtain ⟨rfl, rfl⟩ := shows result after yields
      by_cases none : cutOut offset (some size) answers = []
      · rw [none] at yields
        exact ⟨[], .last yields⟩
      · -- what is on this page is not left for the next ones
        have more : offset < answers.length := by
          by_contra past
          refine none ?_
          rw [cutOut, List.drop_of_length_le (Nat.le_of_not_lt past), List.take_nil]
        obtain ⟨pages, reads⟩ := ih _ (by omega) (offset + size) rfl
        exact ⟨_, .more yields none reads⟩

end Lists

end Manager

end Pages

/-! ## 3. Listings -/

section Listing

variable [Scalar ν] {tenants : Tenants} {manager : Manager} {query : RankingQuery}
  {order : QueryField} {ascending : Bool} {votes : List Ranking} {world : World ν}

namespace Manager

/-- What is found in a core is sorted, and ties keep the order of the core. -/
theorem pairwise_found {core : Core ν} (inOrder : core.IsInOrder) (holds : core.HoldsVotes votes) :
    (manager.found query order ascending core).Pairwise fun a b =>
      Ranking.compareIn order ascending a b = .lt ∨
        Ranking.compareIn order ascending a b = .eq ∧ [a, b].Sublist votes := by
  have agrees : ∀ a ∈ votes, ∀ b ∈ votes,
      (manager.listing query order ascending).compareDocuments (a.toDocument : Document ν)
        b.toDocument = Ranking.compareIn order ascending a b := fun a first b second =>
    Ranking.compareDocuments_toDocument rfl (holds.whole a first) (holds.whole b second)
  obtain ⟨sorted, search, perm, pairwise⟩ := Core.search_sorted inOrder holds.documents agrees
  suffices same : manager.found query order ascending core = sorted by
    rw [same]
    exact pairwise
  rw [found, search]
  apply filterMap_ofDocument
  intro vote mem
  exact holds.whole vote (List.mem_filter.1 (perm.subset mem)).1

theorem lists_found (placed : manager.IsPlaced) (fits : query.Fits)
    (holds : (world.core manager.voteCore).HoldsVotes votes) :
    manager.Lists query order ascending world
      (manager.found query order ascending (world.core manager.voteCore)) := by
  intro offset limit
  rw [World.ensures_iff]
  intro result after yields
  cases yields_rankings placed.named fits (holds.isLegible _) yields with
  | ok right =>
      obtain ⟨rfl, rfl⟩ := right
      exact ⟨rfl, rfl⟩
  | error wrong => exact absurd wrong.2 World.not_unreliable_reliable

theorem ensures_count (placed : manager.IsPlaced) (fits : query.Fits)
    (holds : (world.core manager.voteCore).HoldsVotes votes) (order : QueryField)
    (ascending : Bool) :
    (manager.count query).run.Ensures (World.Answers World.reliable) world fun result after =>
      after = world ∧ result =
        .ok (manager.found query order ascending (world.core manager.voteCore)).length := by
  rw [World.ensures_iff]
  intro result after yields
  cases yields_count placed.named fits holds yields with
  | ok right =>
      obtain ⟨rfl, rfl⟩ := right
      rw [(manager.search_listing query order ascending holds).2.length_eq]
      exact ⟨rfl, rfl⟩
  | error wrong => exact absurd wrong.2 World.not_unreliable_reliable

/-- A date without milliseconds is not compared with anything. -/
theorem ensures_overflow (unfit : ¬ query.Fits) (offset : Nat) (limit : Option Nat)
    (order : QueryField) (ascending : Bool) :
    ((manager.rankings query offset limit order ascending).run.Ensures
        (World.Answers World.reliable) world fun result after =>
          after = world ∧ result = .error .overflow) ∧
      (manager.count query).run.Ensures (World.Answers World.reliable) world fun result after =>
        after = world ∧ result = .error .overflow := by
  rw [rankings_of_not_fits unfit, count_of_not_fits unfit, World.ensures_iff, World.ensures_iff]
  exact ⟨fun _ _ yields => yields.symm, fun _ _ yields => yields.symm⟩

end Manager

/-- **Listings mean what the votes say.** After a history in which nothing fails, there are certain
    votes in the index, in the order in which they were told to be new.  Whatever is asked of a
    tenant, in whatever steps, its answers are its own votes that pass, in every field but that of
    the manager, with the value that was asked for last; if every date asked for fits its word,
    these are the votes that have these values.  They are sorted in the direction asked for, and
    where the field does not tell two votes apart, the one that was created first comes first.  A
    listing is the part of the answers from its offset to its limit, the count is the number of the
    answers, and whoever reads page after page until one is empty reads the answers.  But if a date
    asked for has no milliseconds, there is no listing and no count. -/
theorem History.listings_mean_what_the_votes_say {turns : List (Turn ν)}
    (history : History World.reliable tenants turns world) :
    ∃ votes : List Ranking, world.HoldsVotes tenants votes ∧
      (votes.map (·.id)).Sublist world.created ∧
      ∀ manager ∈ tenants.members, ∀ clauses : List RankingQuery.Clause,
        (¬ RankingQuery.ForAsked clauses (fun _ value => value.Fits) →
          (∀ offset limit order ascending,
            (manager.rankings (.build clauses) offset limit order ascending).run.Ensures
              (World.Answers World.reliable) world fun result after =>
                after = world ∧ result = .error .overflow) ∧
          (manager.count (.build clauses)).run.Ensures (World.Answers World.reliable) world
            fun result after => after = world ∧ result = .error .overflow) ∧
        (RankingQuery.ForAsked clauses (fun _ value => value.Fits) →
          ∀ (order : QueryField) (ascending : Bool), ∃ answers : List Ranking,
          answers.Nodup ∧
          (∀ vote, vote ∈ answers ↔ vote ∈ votes ∧ vote.manager = manager.identifier ∧
            RankingQuery.ForAsked clauses vote.Passes) ∧
          (RankingQuery.ForAsked clauses (fun _ value => value.InRange) →
            ∀ vote, vote ∈ answers ↔ vote ∈ votes ∧ vote.manager = manager.identifier ∧
              RankingQuery.ForAsked clauses vote.Has) ∧
          (answers.Pairwise fun a b => Ranking.compareIn order ascending a b = .lt ∨
            Ranking.compareIn order ascending a b = .eq ∧ [a, b].Sublist votes) ∧
          manager.Lists (.build clauses) order ascending world answers ∧
          ((manager.count (.build clauses)).run.Ensures (World.Answers World.reliable) world
            fun result after => after = world ∧ result = .ok answers.length) ∧
          ∀ size, 0 < size →
            (∃ pages, manager.ReadsOn (.build clauses) order ascending size 0 world pages world) ∧
            ∀ pages after,
              manager.ReadsOn (.build clauses) order ascending size 0 world pages after →
                after = world ∧ pages.flatten = answers) := by
  obtain ⟨votes, settled, created⟩ := history.settled_created
  refine ⟨votes, settled.holds, created, fun manager member clauses => ⟨fun unfit => ?_,
    fun fits order ascending => ?_⟩⟩
  · rw [← RankingQuery.fits_build_iff] at unfit
    exact ⟨fun offset limit order ascending =>
      (Manager.ensures_overflow unfit offset limit order ascending).1,
      (Manager.ensures_overflow unfit 0 none .createdDate true).2⟩
  · rw [← RankingQuery.fits_build_iff] at fits
    have placed := Tenants.isPlaced member
    have holds := settled.holds manager.voteCore placed.separate
    have perm := (manager.search_listing (.build clauses) order ascending holds).2
    have lists : manager.Lists (.build clauses) order ascending world _ :=
      Manager.lists_found placed fits holds
    have answers (vote : Ranking) : vote ∈ manager.found (.build clauses) order ascending
        (world.core manager.voteCore) ↔ vote ∈ votes ∧ vote.manager = manager.identifier ∧
          RankingQuery.ForAsked clauses vote.Passes := by
      rw [manager.mem_found (.build clauses) order ascending holds, RankingQuery.matches_build]
      exact and_congr_left fun own => Tenants.mem_filter_keepsIn member own.1
    refine ⟨_, ?_, answers, fun inRange vote => ?_, ?_, lists,
      Manager.ensures_count placed fits holds order ascending, fun size positive =>
        ⟨lists.exists_pages positive 0, fun pages after reads =>
          lists.flatten_pages positive reads rfl⟩⟩
    · exact perm.nodup_iff.2
        (((List.Nodup.of_map _ settled.order.ids).filter _).filter _)
    · rw [answers]
      refine and_congr_right fun mem => and_congr_right fun own => ?_
      -- the vote is one that is stored, so its dates are those of words
      have words : vote.IsOfWords :=
        (holds.whole vote ((Tenants.mem_filter_keepsIn member own).2 mem)).isOfWords
      exact forall₄_congr fun field value other asked =>
        Ranking.passes_iff_has words (inRange field value other asked)
    · exact (Manager.pairwise_found (history.isInOrder _) holds).imp fun before =>
        before.imp_right fun tie => ⟨tie.1, tie.2.trans List.filter_sublist⟩

end Listing

/-- After a busy day, asked for the votes of the second user by rank, the stars list one vote of
    rank 3. -/
theorem listings_of_busyDay :
    ∃ (turns : List (Turn Rat)) (world : World Rat) (answers : List Ranking),
      History World.reliable Tenants.starsAndLikes turns world ∧
      turns.map Turn.visit = Deployment.busyDay ∧
      Manager.stars.Lists (.build [.target ⟨.document, "Main.WebHome"⟩, .voter ⟨"bob"⟩]) .vote false
        world answers ∧
      answers.map (·.rank) = [3] := by
  obtain ⟨turns, world, shows, history, visits⟩ := History.exists_busyDay
  obtain ⟨votes, -, -, listings⟩ := history.listings_mean_what_the_votes_say
  have fits : (RankingQuery.build
      [.target ⟨.document, "Main.WebHome"⟩, .voter ⟨"bob"⟩]).Fits :=
    (RankingQuery.fits_target _).voter _
  obtain ⟨answers, -, -, -, -, lists, -⟩ := (listings Manager.stars (by decide) _).2
    (RankingQuery.fits_build_iff.1 fits) .vote false
  refine ⟨turns, world, answers, history, visits, lists, ?_⟩
  -- what the stars list at the end of the day
  have listing : ((Manager.stars.rankings
      (.build [.target ⟨.document, "Main.WebHome"⟩, .voter ⟨"bob"⟩]) 0 none .vote false :
        Attempt Rat _).run).IsCareful := Manager.reads_rankings.isCareful
  obtain ⟨_, yields, -⟩ := shows.run listing fun _ => False.elim
  obtain ⟨-, right⟩ := (lists 0 none).2 _ _ yields
  have served : ((({} : Deployment Rat).serveAll Deployment.busyDay).perform
      (Manager.stars.rankings (.build [.target ⟨.document, "Main.WebHome"⟩, .voter ⟨"bob"⟩]) 0 none
        .vote false).run).1.toOption.map (fun votes => votes.map (·.rank)) = some [3] := by
    decide +kernel
  rw [right] at served
  exact Option.some_inj.1 served

/-! ## 4. Dates that are far apart -/

def Instant.beyondWords : Instant :=
  .ofMillisAndNanos 9223372036854775807 1000000000

/-- **A date matches another.** A vote that was created one 64-bit word of milliseconds earlier is
    listed and counted, though its date is not the one that was asked for. -/
theorem a_date_matches_another :
    ∃ (turns : List (Turn Rat)) (world : World Rat) (vote : Ranking),
      History World.reliable Tenants.starsAndLikes turns world ∧
      turns.map Turn.visit = [(.stars, .save ⟨.document, "Main.WebHome"⟩ ⟨"alice"⟩ 4)] ∧
      (Manager.stars.rankings (.build [.filter .createdDate (.date .beyondWords)]) 0 none
        .createdDate true).run.Yields (World.Answers World.reliable) world (.ok [vote]) world ∧
      (Manager.stars.count (.build [.filter .createdDate (.date .beyondWords)])).run.Yields
        (World.Answers World.reliable) world (.ok 1) world ∧
      vote.created.wholeMillis = -9223372036854774809 ∧
      Instant.beyondWords.wholeMillis = 9223372036854776807 := by
  -- a deployment whose clock stands that far before the epoch
  let early : Deployment Rat := { clock := .ofMillis (-9223372036854774809) }
  have start : early.Shows World.reliable [] {} :=
    Deployment.Shows.start.congr rfl rfl rfl Deployment.Shows.start.planned
      (Instant.isDate_ofMillis.2 (by decide)) rfl rfl
  have history : History World.reliable Tenants.starsAndLikes [] ({} : World Rat) := .start
  have members : ∀ visit ∈ [(Manager.stars, Request.save ⟨.document, "Main.WebHome"⟩ ⟨"alice"⟩ 4)],
      visit.1 ∈ Tenants.starsAndLikes.members := by
    decide
  obtain ⟨turns, world, shows, history, visits⟩ := history.serveAll start members
  obtain ⟨votes, settled⟩ := history.settled
  have placed : Manager.stars.IsPlaced :=
    Tenants.isPlaced (by decide : Manager.stars ∈ Tenants.starsAndLikes.members)
  have holds := settled.holds Manager.stars.voteCore placed.separate
  have fits : (RankingQuery.build [.filter .createdDate (.date .beyondWords)]).Fits :=
    RankingQuery.fits_empty.filter .createdDate (.date .beyondWords) (by decide)
  -- what the stars list and count then
  have listing : ((Manager.stars.rankings
      (.build [.filter .createdDate (.date .beyondWords)]) 0 none .createdDate true :
        Attempt Rat _).run).IsCareful := Manager.reads_rankings.isCareful
  have counting : ((Manager.stars.count
      (.build [.filter .createdDate (.date .beyondWords)]) : Attempt Rat _).run).IsCareful :=
    Manager.reads_count.isCareful
  obtain ⟨_, listed, -⟩ := shows.run listing fun _ => False.elim
  obtain ⟨rfl, -⟩ := (Manager.lists_found placed fits holds 0 none).2 _ _ listed
  obtain ⟨_, counted, -⟩ := shows.run counting fun _ => False.elim
  obtain ⟨rfl, -⟩ := (Manager.ensures_count placed fits holds .createdDate true).2 _ _ counted
  refine ⟨turns, _, Ranking.create (({} : IdSource).nth 0) "stars" ⟨.document, "Main.WebHome"⟩
    ⟨"alice"⟩ 4 5 (.ofMillis (-9223372036854774809)), history, visits, ?_, ?_, by decide, by decide⟩
  · convert listed using 1
    decide +kernel
  · convert counted using 1
    decide +kernel

end RankLedger

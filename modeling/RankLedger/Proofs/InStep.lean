import RankLedger.Proofs.AverageOf
import RankLedger.Proofs.Ledger

/-!
# Averages keep step with the votes

Votes and averages are two collections, written by two commits, and an average is changed without
a look at the votes.  Still they never fall out of step where no call fails: after every turn the
average of a target is the average of the votes on it (`Books.InStep`).  What carries this through
a turn is that a tenant takes the right vote out of the right average: the vote it looked up is one
of those that are counted, and the average it looked up is the one that counts them.

So the cases for an average without votes, which `AverageRank.removeVote` and
`AverageRank.exchangeVote` provide for, never arise (`Chronicle.neverEmpty`).
-/

namespace RankLedger

variable {ν : Type} [Scalar ν]

/-! ## 1. Edits and counted votes -/

section Edits

variable {tenants : Tenants} {manager : Manager} {given given' : List String}
  {votes : List Ranking} {edit : Edit}

/-- **Edits** change the average as they change the votes that it counts. -/
theorem Edit.isAverageOf_change (order : VotesInOrder tenants given votes)
    (may : manager.MayMake votes given given' edit) {average : AverageRank ν} {now : Instant}
    (h : average.IsAverageOf (votes.filter (manager.counts edit.record.target))) :
    (edit.change average now).IsAverageOf
      ((edit.on votes).filter (manager.counts edit.record.target)) := by
  have counted : manager.counts edit.record.target edit.record = true :=
    Manager.counts_iff.2 ⟨may.own, rfl⟩
  cases may with
  | @create vote _ _ _ fresh =>
      -- a first vote is one vote more to count
      have absent : vote.id ∉ votes.map (·.id) := by
        intro mem
        obtain ⟨other, mem, same⟩ := List.mem_map.1 mem
        exact fresh (same ▸ order.given other mem)
      have perm : ((Shelf.put (·.id) vote votes).filter (manager.counts vote.target)).Perm _ :=
        Shelf.filter_put_perm order.ids counted
      rw [Shelf.erase_of_notMem absent] at perm
      exact h.addVote.perm perm.symm
  | @revise old rank now mem admits =>
      -- the old vote is one of those counted, and the new one comes in its place
      have before : (votes.filter (manager.counts old.target)).Perm _ :=
        Shelf.filter_perm_cons_erase order.ids mem counted
      have after : ((Shelf.put (·.id) (old.revise rank now) votes).filter
          (manager.counts old.target)).Perm _ := Shelf.filter_put_perm order.ids counted
      exact ((h.perm before).exchangeVote (old.revise rank now)).perm after.symm
  | @erase old mem own =>
      -- the vote that goes is one of those counted
      have before : (votes.filter (manager.counts old.target)).Perm _ :=
        Shelf.filter_perm_cons_erase order.ids mem counted
      exact (h.perm before).removeVote

/-- The votes on other targets stay as they are. -/
theorem Edit.filter_counts_of_ne (order : VotesInOrder tenants given votes)
    (may : manager.MayMake votes given given' edit) {other : Manager} {target : EntityReference}
    (elsewhere : ¬ (other.identifier = manager.identifier ∧ target = edit.record.target)) :
    (edit.on votes).filter (other.counts target) = votes.filter (other.counts target) := by
  have uncounted {vote : Ranking} (own : vote.manager = manager.identifier)
      (onTarget : vote.target = edit.record.target) : other.counts target vote = false := by
    rw [Bool.eq_false_iff]
    intro counted
    obtain ⟨byOther, onOther⟩ := Manager.counts_iff.1 counted
    exact elsewhere ⟨byOther.symm.trans own, onOther.symm.trans onTarget⟩
  exact filter_on_of_neg (uncounted may.own rfl) fun old mem same =>
    uncounted (may.place_of_id order mem same).1 (may.place_of_id order mem same).2

end Edits

/-! ## 2. Books in step -/

variable {tenants : Tenants} {books : Books ν} {manager : Manager} {target : EntityReference}
  {given given' : List String}

structure Books.InStep (books : Books ν) (tenants : Tenants) : Prop where
  counted : ∀ average ∈ books.averages, ∀ manager ∈ tenants.members,
    average.manager = manager.identifier →
      average.IsAverageOf (books.votes.filter (manager.counts average.target))
  uncounted : ∀ manager ∈ tenants.members, manager.configuration.storeAverage = true →
    ∀ target, (∀ average ∈ books.averages, average.manager = manager.identifier →
      average.target ≠ target) → books.votes.filter (manager.counts target) = []

namespace Books.InStep

/-- What a tenant looks up is the average of its votes on the target. -/
theorem looked (h : books.InStep tenants) (member : manager ∈ tenants.members)
    (keeps : manager.configuration.storeAverage = true) {old : AverageRank ν}
    (looked : manager.LooksUp target books.averages given given' old) :
    old.IsAverageOf (books.votes.filter (manager.counts target)) := by
  obtain held | ⟨absent, -, -, -, number, zero⟩ := looked.found
  · have := h.counted old held manager member looked.own
    rwa [looked.onTarget] at this
  · rw [h.uncounted manager member keeps target absent]
    exact .nil number zero

/-- **Averages.** An average of the votes, written in the place of the one that was looked up, is in
    step if no vote on another target was touched. -/
theorem put (h : books.InStep tenants) (order : AveragesInOrder tenants given books.averages)
    (member : manager ∈ tenants.members) {old new : AverageRank ν}
    (looked : manager.LooksUp target books.averages given given' old)
    (continues : new.Continues old) {votes : List Ranking}
    (average : new.IsAverageOf (votes.filter (manager.counts target)))
    (others : ∀ (other : Manager) (entity : EntityReference),
      ¬ (other.identifier = manager.identifier ∧ entity = target) →
        votes.filter (other.counts entity) = books.votes.filter (other.counts entity)) :
    ({ votes, averages := Shelf.put (·.id) new books.averages } : Books ν).InStep tenants := by
  have own : new.manager = manager.identifier := continues.manager.trans looked.own
  have onTarget : new.target = target := continues.target.trans looked.onTarget
  constructor
  · intro found mem other member' byOther
    obtain rfl | ⟨mem, elsewhere⟩ := (order.mem_put_iff looked continues).1 mem
    · obtain rfl := Tenants.eq_of_identifier member' member (byOther.symm.trans own)
      show found.IsAverageOf (votes.filter _)
      rwa [onTarget]
    · show found.IsAverageOf (votes.filter _)
      rw [others other found.target fun same => elsewhere ⟨byOther.trans same.1, same.2⟩]
      exact h.counted found mem other member' byOther
  · intro other member' keeps entity absent
    -- where there is no average now, there was none before, and no vote was touched
    have elsewhere : ¬ (other.identifier = manager.identifier ∧ entity = target) := by
      rintro ⟨same, rfl⟩
      exact absent new (Shelf.mem_put.2 (.inl rfl)) (own.trans same.symm) onTarget
    show votes.filter _ = []
    rw [others other entity elsewhere]
    apply h.uncounted other member' keeps
    intro found mem byOther onEntity
    refine absent found ((order.mem_put_iff looked continues).2 (.inr ⟨mem, ?_⟩)) byOther onEntity
    rintro ⟨sameManager, sameTarget⟩
    exact elsewhere ⟨byOther.symm.trans sameManager, onEntity.symm.trans sameTarget⟩

/-- **News.** Books in step stay in step, if nobody who keeps averages was torn from them. -/
theorem noteAll {news : List (Notification ν)} {bound : Nat} (h : books.InStep tenants)
    (sound : books.Sound tenants given bound)
    (told : books.News False tenants given given' news) : (books.noteAll news).InStep tenants := by
  cases told with
  | nothing => exact h
  | @vote manager edit member may alone =>
      have off : manager.configuration.storeAverage = false := alone.resolve_right id
      rw [noteAll_cons, noteAll_nil, note_tells]
      -- the votes of those who keep averages are other votes
      have others {other : Manager} (member' : other ∈ tenants.members)
          (keeps : other.configuration.storeAverage = true) (entity : EntityReference) :
          (edit.on books.votes).filter (other.counts entity) =
            books.votes.filter (other.counts entity) := by
        apply Edit.filter_counts_of_ne sound.votes may
        rintro ⟨same, -⟩
        rw [Tenants.eq_of_identifier member' member same, off] at keeps
        cases keeps
      constructor
      · intro average mem other member' byOther
        obtain ⟨owner, ownerMember, byOwner, keeps, -⟩ := sound.averages.owned average mem
        rw [Tenants.eq_of_identifier ownerMember member' (byOwner.symm.trans byOther)] at keeps
        show average.IsAverageOf ((edit.on books.votes).filter _)
        rw [others member' keeps]
        exact h.counted average mem other member' byOther
      · intro other member' keeps entity absent
        show (edit.on books.votes).filter _ = []
        rw [others member' keeps]
        exact h.uncounted other member' keeps entity absent
  | @both manager edit old now member may on looked whole =>
      rw [noteAll_cons, noteAll_cons, noteAll_nil, note_tells, note_tellsAverage]
      exact h.put sound.averages member looked (edit.change_continues old now)
        (edit.isAverageOf_change sound.votes may (h.looked member on looked))
        fun other entity elsewhere => Edit.filter_counts_of_ne sound.votes may elsewhere
  | @rebuilt manager target old counted now member on looked whole perm =>
      rw [noteAll_cons, noteAll_nil, note_tellsAverage]
      exact h.put sound.averages member looked (old.reset_continues ..)
        ((AverageRank.IsAverageOf.reset old counted now).perm perm) fun _ _ _ => rfl

end Books.InStep

theorem Chronicle.inStep {turns : Nat} {log : List (Notification ν)}
    (h : Chronicle False tenants turns given log) : (Books.replay log).InStep tenants := by
  induction h with
  | start => exact ⟨List.forall_mem_nil _, fun _ _ _ _ _ => rfl⟩
  | turn before later news ih =>
      rw [Books.replay_append]
      exact ih.noteAll before.sound news

/-! ## 3. Averages without votes -/

def RankingEvent.TakesOut (event : RankingEvent ν) (vote : Ranking) (old new : AverageRank ν) :
    Prop :=
  ∃ now, match event with
    | .updated oldRank => new = old.exchangeVote oldRank vote.rank now
    | .deleted => new = old.removeVote vote.rank now
    | _ => False

/-- Wherever a tenant that keeps averages tells that a vote was revised or taken away, it tells at
    once which average it took the old rank out of, and that average had votes. -/
def NeverEmpty (tenants : Tenants) (log : List (Notification ν)) : Prop :=
  ∀ earlier n later, log = earlier ++ n :: later →
    (n.event = .deleted ∨ ∃ oldRank, n.event = .updated oldRank) →
    ∀ manager ∈ tenants.members, manager.identifier = n.source →
      manager.configuration.storeAverage = true →
      ∃ vote old new rest, n.data = .ranking vote ∧
        later = manager.tellsAverage old new :: rest ∧ old.target = vote.target ∧
        n.event.TakesOut vote old new ∧ 0 < old.number

/-- An average is looked up for a vote that it counts. -/
theorem Books.InStep.number_pos {books : Books ν} (h : books.InStep tenants)
    (member : manager ∈ tenants.members) (keeps : manager.configuration.storeAverage = true)
    {old : AverageRank ν} {vote : Ranking} (held : vote ∈ books.votes)
    (own : vote.manager = manager.identifier)
    (looked : manager.LooksUp vote.target books.averages given given' old) : 0 < old.number := by
  rw [(h.looked member keeps looked).number]
  exact List.length_pos_of_mem (List.mem_filter.2 ⟨held, Manager.counts_iff.2 ⟨own, rfl⟩⟩)

theorem Books.News.neverEmpty {news : List (Notification ν)} (h : books.InStep tenants)
    (told : books.News False tenants given given' news) : NeverEmpty tenants news := by
  intro earlier n later split takes other member' byOther keeps
  -- the news of an average is about no vote
  have average {manager : Manager} {old new : AverageRank ν}
      (same : n = manager.tellsAverage old new) : False := by
    subst same
    obtain wrong | ⟨_, wrong⟩ := takes
    · cases wrong
    · cases wrong
  cases told with
  | nothing => exact absurd split.symm (by simp)
  | @vote manager edit member may alone =>
      obtain ⟨rfl, same⟩ | ⟨rest, rfl, wrong⟩ := List.cons_eq_append_iff.1 split
      · cases same
        obtain rfl := Tenants.eq_of_identifier member' member byOther
        exact absurd keeps (Bool.eq_false_iff.1 (alone.resolve_right id))
      · exact absurd wrong (by simp)
  | @both manager edit old now member may on looked whole =>
      obtain ⟨rfl, same⟩ | ⟨rest, rfl, same⟩ := List.cons_eq_append_iff.1 split
      · cases same
        obtain rfl := Tenants.eq_of_identifier member' member byOther
        cases may with
        | create =>
            obtain wrong | ⟨_, wrong⟩ := takes
            · cases wrong
            · cases wrong
        | revise held admits =>
            exact ⟨_, old, _, [], rfl, rfl, looked.onTarget, ⟨now, rfl⟩,
              h.number_pos member on held admits.own looked⟩
        | erase held own =>
            exact ⟨_, old, _, [], rfl, rfl, looked.onTarget, ⟨now, rfl⟩,
              h.number_pos member on held own looked⟩
      · obtain ⟨rfl, same⟩ | ⟨rest, rfl, wrong⟩ := List.cons_eq_append_iff.1 same
        · cases same
          exact (average rfl).elim
        · exact absurd wrong (by simp)
  | rebuilt member on looked whole perm =>
      obtain ⟨rfl, same⟩ | ⟨rest, rfl, wrong⟩ := List.cons_eq_append_iff.1 split
      · cases same
        exact (average rfl).elim
      · exact absurd wrong (by simp)

/-- What holds of two logs holds of one after the other. -/
theorem NeverEmpty.append {log news : List (Notification ν)} (h : NeverEmpty tenants log)
    (h' : NeverEmpty tenants news) : NeverEmpty tenants (log ++ news) := by
  intro earlier n later split takes manager member source keeps
  -- a notification of both logs together is one of the first or one of the second
  obtain ⟨rest, -, inNews⟩ | ⟨rest, rfl, inLog⟩ := List.append_eq_append_iff.1 split
  · exact h' rest n later inNews takes manager member source keeps
  · cases rest with
    | nil => exact h' [] n later inLog.symm takes manager member source keeps
    | cons _ rest =>
        cases inLog
        obtain ⟨vote, old, new, others, data, rfl, onTarget, takesOut, number⟩ :=
          h earlier n rest rfl takes manager member source keeps
        exact ⟨vote, old, new, others ++ news, data, rfl, onTarget, takesOut, number⟩

/-- **No average without votes** is ever asked to give one up or to exchange one. -/
theorem Chronicle.neverEmpty {turns : Nat} {log : List (Notification ν)}
    (h : Chronicle False tenants turns given log) : NeverEmpty tenants log := by
  induction h with
  | start =>
      intro earlier n later split
      cases earlier <;> cases split
  | turn before _ news ih => exact ih.append (news.neverEmpty before.inStep)

/-- Whoever tells of an average keeps averages. -/
theorem Chronicle.keeps_of_average {torn : Prop} {turns : Nat} {log : List (Notification ν)}
    (h : Chronicle torn tenants turns given log) {n : Notification ν} (mem : n ∈ log)
    {average : AverageRank ν} (data : n.data = .average average) :
    ∃ manager ∈ tenants.members, manager.configuration.storeAverage = true ∧
      n.source = manager.identifier := by
  induction h with
  | start => cases mem
  | turn before _ news ih =>
      obtain mem | mem := List.mem_append.1 mem
      · exact ih mem
      · cases news with
        | nothing => cases mem
        | vote member may alone =>
            rw [List.mem_singleton] at mem
            subst mem
            cases data
        | both member may on looked whole =>
            obtain rfl | mem := List.mem_cons.1 mem
            · cases data
            · rw [List.mem_singleton] at mem
              exact ⟨_, member, on, mem ▸ rfl⟩
        | rebuilt member on looked whole perm =>
            rw [List.mem_singleton] at mem
            exact ⟨_, member, on, mem ▸ rfl⟩

/-! ## 4. Averages after a history -/

variable {turns : List (Turn ν)} {world : World ν}

/-- **Reading an average.** Where nothing fails, what a tenant reads as the average of a target is
    the average of its votes on it, whether it is stored or made up. -/
theorem Books.InStep.ensures_average {bound : Nat} (h : books.InStep tenants)
    (kept : books.Kept tenants world) (sound : books.Sound tenants world.given bound)
    (short : bound < 9223372036854775808)
    (finite : ∀ average ∈ books.averages, Scalar.isFinite average.average = true)
    (member : manager ∈ tenants.members) (keeps : manager.configuration.storeAverage = true) :
    (manager.average target).run.Ensures (World.Answers World.reliable) world
      fun result after => world.Idle after ∧ ∃ average, result = .ok average ∧
        average.IsAverageOf (books.votes.filter (manager.counts target)) := by
  have holds := kept.holdsAverages sound short
  have readable : ¬ manager.Unread World.reliable target (world.core averageCore) :=
    Manager.not_unread holds finite World.not_unreliable_reliable
  rw [World.ensures_iff]
  intro result after yields
  cases Manager.yields_average yields with
  | ok reads =>
      refine ⟨reads.idle, _, rfl, ?_⟩
      have read : manager.ReadWithin target world _ after :=
        ⟨world, after, rfl, List.prefix_rfl, reads, List.prefix_rfl⟩
      exact h.looked member keeps (read.looksUp holds)
  | error unread => exact absurd unread.1 readable

omit [Scalar ν] in
/-- No two averages in the books are of one manager and one target. -/
theorem AveragesInOrder.nodup_places {averages : List (AverageRank ν)}
    (order : AveragesInOrder tenants given averages) :
    (averages.map fun average => (average.manager, average.target)).Nodup := by
  apply List.Nodup.map_on _ (List.Nodup.of_map _ order.ids)
  intro a ha b hb same
  exact order.one a ha b hb (congrArg Prod.fst same) (congrArg Prod.snd same)

namespace Manager

/-- Asked for its votes on a target, in whatever order, the manager shows these, each once. -/
def ShowsVotes (manager : Manager) (world : World ν) (target : EntityReference)
    (votes : List Ranking) : Prop :=
  ∀ order ascending,
    (manager.rankings (RankingQuery.empty.target target) 0 none order ascending).run.Ensures
      (World.Answers World.reliable) world fun result after => after = world ∧
        ∃ shown, result = .ok shown ∧ shown.Perm votes

/-- Asked for its average of a target, the manager shows one that has the number of these votes, is
    zero if there are none, and, in exact arithmetic, gives their sum when multiplied by their
    number and lies on the scale of the manager. -/
def ShowsAverageOf (manager : Manager) (world : World ν) (target : EntityReference)
    (votes : List Ranking) : Prop :=
  (manager.average target).run.Ensures (World.Answers World.reliable) world
    fun result after => world.Idle after ∧ ∃ average, result = .ok average ∧
      average.number = votes.length ∧ (votes = [] → average.average = Scalar.zero) ∧
      ∀ value : ν → Rat, Scalar.IsExact value →
        value average.average * average.number = Ranking.rankSum votes ∧
          0 ≤ value average.average ∧ value average.average ≤ manager.scale.toNat

end Manager

/-- **The stored average is the average of the votes.** Whatever tenants do in a history in which
    no call fails, and as long as the averages are finite, no target has two averages of one tenant;
    whoever keeps no averages never wrote or told of one; no vote was ever taken out of an average
    without votes; and whoever keeps averages shows, for each target, the average of the votes that
    it shows. -/
theorem History.averages_are_of_visible_votes
    (history : History World.reliable tenants turns world)
    (short : turns.length < 9223372036854775808) (finite : world.AveragesFinite) :
    (∃ averages : List (AverageRank ν),
      (world.core averageCore).documents = averages.map AverageRank.toDocument ∧
      (averages.map fun average => (average.manager, average.target)).Nodup ∧
      ∀ average ∈ averages, ∃ manager ∈ tenants.members,
        manager.configuration.storeAverage = true ∧ average.manager = manager.identifier) ∧
    (∀ n ∈ world.heard, ∀ average, n.data = .average average → ∃ manager ∈ tenants.members,
      manager.configuration.storeAverage = true ∧ n.source = manager.identifier) ∧
    NeverEmpty tenants world.heard ∧
    ∀ manager ∈ tenants.members, manager.configuration.storeAverage = true → ∀ target,
      ∃ votes, manager.ShowsVotes world target votes ∧
        manager.ShowsAverageOf world target votes := by
  -- where nothing fails and all averages are finite, no vote is torn from its average
  have whole : ¬ (World.Unreliable (World.reliable : Call ν → Prop) ∨ ∃ n ∈ world.heard,
      ∃ average, n.data = .average average ∧ Scalar.isFinite average.average = false) := by
    rintro (fails | ⟨n, mem, average, data, infinite⟩)
    · exact World.not_unreliable_reliable fails
    · rw [finite n mem average data] at infinite
      cases infinite
  obtain ⟨chronicle, kept⟩ := history.bookkeeping (fun _ fails => fails) short whole
  have sound := chronicle.sound
  have inStep := chronicle.inStep
  refine ⟨⟨_, kept.averages, sound.averages.nodup_places, fun average mem => ?_⟩,
    fun n mem average data => chronicle.keeps_of_average mem data, chronicle.neverEmpty,
    fun manager member keeps target => ?_⟩
  · obtain ⟨manager, member, own, keeps, -⟩ := sound.averages.owned average mem
    exact ⟨manager, member, keeps, own⟩
  · have bounds : ∀ vote ∈ (Books.replay world.heard).votes.filter (manager.counts target),
        vote.rank.toNat ≤ manager.scale.toNat := by
      intro vote mem
      obtain ⟨mem, counted⟩ := List.mem_filter.1 mem
      exact (sound.votes.admits member mem (Manager.counts_iff.1 counted).1).rank
    refine ⟨(Books.replay world.heard).votes.filter (manager.counts target),
      fun order ascending => ?_, ?_⟩
    · have listed := kept.votes.ensures_rankings member (RankingQuery.fits_target target) order
        ascending
      rwa [Manager.finds_target] at listed
    · obtain ⟨exists_outcome, read⟩ :=
        inStep.ensures_average kept sound short finite.books member keeps
      refine ⟨exists_outcome, fun result after yields => ?_⟩
      obtain ⟨idle, average, right, isAverage⟩ := read result after yields
      refine ⟨idle, average, right, isAverage.number, isAverage.zero, fun value exact => ?_⟩
      refine ⟨?_, isAverage.bounds bounds exact⟩
      rw [isAverage.number]
      exact isAverage.exact value exact

/-- After a busy day the stars show one vote, and its rank as the average. -/
theorem average_of_busyDay :
    ∃ (turns : List (Turn Rat)) (world : World Rat) (votes : List Ranking),
      History World.reliable Tenants.starsAndLikes turns world ∧
      turns.map Turn.visit = Deployment.busyDay ∧
      turns.length < 9223372036854775808 ∧ world.AveragesFinite ∧
      NeverEmpty Tenants.starsAndLikes world.heard ∧
      Manager.stars.ShowsVotes world ⟨.document, "Main.WebHome"⟩ votes ∧
      votes.length = 1 ∧ Ranking.rankSum votes = 3 := by
  obtain ⟨turns, world, shows, history, visits⟩ := History.exists_busyDay
  have short : turns.length < 9223372036854775808 := by
    rw [← List.length_map Turn.visit, visits]
    decide
  have finite : world.AveragesFinite := fun _ _ _ _ => rfl
  obtain ⟨-, -, neverEmpty, averages⟩ := history.averages_are_of_visible_votes short finite
  obtain ⟨votes, shown, average⟩ :=
    averages Manager.stars (by decide) rfl ⟨.document, "Main.WebHome"⟩
  refine ⟨turns, world, votes, history, visits, short, finite, neverEmpty, shown, ?_⟩
  -- what the stars read as the average at the end of the day
  have reading : ((Manager.stars.average ⟨.document, "Main.WebHome"⟩ :
      Attempt Rat _).run).IsCareful := Manager.reads_average.isCareful
  obtain ⟨after, yields, -⟩ := shows.run reading fun _ => False.elim
  obtain ⟨-, read, right, number, -, exact⟩ := average.2 _ _ yields
  have served : ((({} : Deployment Rat).serveAll Deployment.busyDay).perform
      (Manager.stars.average ⟨.document, "Main.WebHome"⟩).run).1.toOption.map
        (fun average => (average.number, average.average)) = some (1, 3) := by
    decide +kernel
  rw [right] at served
  obtain ⟨one, three⟩ := Prod.mk.inj (Option.some_inj.1 served)
  refine ⟨number.symm.trans one, ?_⟩
  have sum := (exact id Scalar.isExact_rat).1
  rw [one, id, three, Nat.cast_one, mul_one] at sum
  exact_mod_cast sum.symm

end RankLedger

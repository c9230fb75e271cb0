import RankLedger.Proofs.Bookkeeping
import RankLedger.Proofs.Deployment

/-!
# The notifications are a log

A listener that hears everything can rebuild the index: its books are what is committed
(`History.notifications_are_a_log`).  And what it hears hangs together (`Coherent`): each
notification takes up what the last one about the same record said.  A first vote has an
identifier that was never mentioned, a revised vote names the rank it had, a vote that is gone is
shown as it was last shown, and an average names the value and the count it had, or zero if it was
never mentioned.

Two things tie a log to its books: the last notification about a vote in the books shows this
vote, and the last one about an average in the books shows this average (`Traced`).
-/

namespace RankLedger

variable {ν : Type}

/-! ## 1. What was last said -/

namespace Notification

def isAbout (id : String) (n : Notification ν) : Bool :=
  match n.data with
  | .ranking vote => vote.id == id
  | .average _ => false

def isAboutAverage (manager : String) (target : EntityReference) (n : Notification ν) : Bool :=
  match n.data with
  | .ranking _ => false
  | .average average => decide (average.manager = manager ∧ average.target = target)

def Shows (n : Notification ν) (vote : Ranking) : Prop :=
  (n.event = .created ∨ ∃ oldRank, n.event = .updated oldRank) ∧ n.data = .ranking vote

end Notification

def lastAbout (id : String) (log : List (Notification ν)) : Option (Notification ν) :=
  (log.filter (·.isAbout id)).getLast?

def lastAboutAverage (manager : String) (target : EntityReference)
    (log : List (Notification ν)) : Option (Notification ν) :=
  (log.filter (·.isAboutAverage manager target)).getLast?

section Last

variable {log : List (Notification ν)} {n : Notification ν} {id manager : String}
  {target : EntityReference}

theorem lastAbout_append_of_pos (h : n.isAbout id = true) :
    lastAbout id (log ++ [n]) = some n := by
  rw [lastAbout, List.filter_append, List.filter_cons_of_pos h, List.filter_nil,
    List.getLast?_concat]

theorem lastAbout_append_of_neg (h : n.isAbout id = false) :
    lastAbout id (log ++ [n]) = lastAbout id log := by
  rw [lastAbout, List.filter_append, List.filter_cons_of_neg (by rw [h]; exact Bool.false_ne_true),
    List.filter_nil, List.append_nil, lastAbout]

theorem lastAboutAverage_append_of_pos (h : n.isAboutAverage manager target = true) :
    lastAboutAverage manager target (log ++ [n]) = some n := by
  rw [lastAboutAverage, List.filter_append, List.filter_cons_of_pos h, List.filter_nil,
    List.getLast?_concat]

theorem lastAboutAverage_append_of_neg (h : n.isAboutAverage manager target = false) :
    lastAboutAverage manager target (log ++ [n]) = lastAboutAverage manager target log := by
  rw [lastAboutAverage, List.filter_append,
    List.filter_cons_of_neg (by rw [h]; exact Bool.false_ne_true), List.filter_nil,
    List.append_nil, lastAboutAverage]

end Last

/-! ## 2. Coherent logs -/

variable [Scalar ν]

def Notification.Follows (earlier : List (Notification ν)) (n : Notification ν) : Prop :=
  match n.event, n.data with
  | .created, .ranking vote => lastAbout vote.id earlier = none
  | .updated oldRank, .ranking vote =>
      ∃ last old, lastAbout vote.id earlier = some last ∧ last.Shows old ∧ oldRank = old.rank
  | .deleted, .ranking vote =>
      ∃ last, lastAbout vote.id earlier = some last ∧ last.Shows vote
  | .averageUpdated oldAverage oldCount, .average average =>
      match lastAboutAverage average.manager average.target earlier with
      | none => oldAverage = Scalar.zero ∧ oldCount = 0
      | some last => ∃ old, last.data = .average old ∧ oldAverage = old.average ∧
          oldCount = old.number
  | _, _ => False

def Coherent (log : List (Notification ν)) : Prop :=
  ∀ earlier n later, log = earlier ++ n :: later → n.Follows earlier

theorem Coherent.nil : Coherent ([] : List (Notification ν)) := by
  intro earlier n later h
  cases earlier <;> cases h

/-- A log stays coherent if what is said next takes it up. -/
theorem Coherent.concat {log : List (Notification ν)} (h : Coherent log) {n : Notification ν}
    (follows : n.Follows log) : Coherent (log ++ [n]) := by
  intro earlier other later split
  -- what was said last takes up the rest, and the rest was coherent
  rcases List.eq_nil_or_concat later with rfl | ⟨rest, last, rfl⟩
  · obtain ⟨rfl, same⟩ := List.append_inj' split rfl
    cases same
    exact follows
  · rw [List.concat_eq_append, ← List.cons_append, ← List.append_assoc] at split
    obtain ⟨rfl, -⟩ := List.append_inj' split rfl
    exact h earlier other rest rfl

/-- The log and the books of it: the last notification about a record in the books shows the
    record.  What is not in the books was never mentioned, if it is an average, and has an
    identifier that was handed out, if it is a vote. -/
structure Traced (given : List String) (log : List (Notification ν)) : Prop where
  votes : ∀ vote ∈ (Books.replay log).votes,
    ∃ last, lastAbout vote.id log = some last ∧ last.Shows vote
  known : ∀ id, lastAbout id log ≠ none → id ∈ given
  averages : ∀ average ∈ (Books.replay log).averages,
    ∃ last, lastAboutAverage average.manager average.target log = some last ∧
      last.data = .average average
  untold : ∀ manager target, (∀ average ∈ (Books.replay log).averages,
    average.manager = manager → average.target ≠ target) →
      lastAboutAverage manager target log = none

namespace Traced

variable {tenants : Tenants} {given given' : List String} {log : List (Notification ν)}
  {manager : Manager}

omit [Scalar ν] in
theorem start : Traced [] ([] : List (Notification ν)) :=
  ⟨List.forall_mem_nil _, fun _ told => absurd rfl told, List.forall_mem_nil _, fun _ _ _ => rfl⟩

omit [Scalar ν] in
theorem mono (traced : Traced given log) (later : given <+: given') : Traced given' log :=
  ⟨traced.votes, fun id told => later.subset (traced.known id told), traced.averages,
    traced.untold⟩

/-- **Votes.** The announcement of an edit takes up what was said about the vote. -/
theorem edit (traced : Traced given log)
    (order : VotesInOrder tenants given (Books.replay log).votes) (later : given <+: given')
    {edit : Edit} (may : manager.MayMake (Books.replay log).votes given given' edit) :
    (manager.tells edit.event edit.record : Notification ν).Follows log ∧
      Traced given' (log ++ [manager.tells edit.event edit.record]) := by
  have about : (manager.tells edit.event edit.record : Notification ν).isAbout edit.record.id =
      true := beq_self_eq_true edit.record.id
  have others {id : String} (h : id ≠ edit.record.id) :
      (manager.tells edit.event edit.record : Notification ν).isAbout id = false :=
    beq_eq_false_iff_ne.2 h.symm
  constructor
  · cases may with
    | @create vote _ _ _ fresh =>
        show lastAbout vote.id log = none
        apply Classical.byContradiction
        intro told
        exact fresh (traced.known vote.id told)
    | @revise old rank now mem =>
        obtain ⟨last, told, shows⟩ := traced.votes old mem
        exact ⟨last, old, told, shows, rfl⟩
    | @erase old mem => exact traced.votes old mem
  · have replayed : Books.replay (log ++ [manager.tells edit.event edit.record]) =
        { Books.replay log with votes := edit.on (Books.replay log).votes } := by
      rw [Books.replay_append, Books.noteAll_cons, Books.noteAll_nil, Books.note_tells]
    -- a vote was told last by this announcement, or is another one and was told before
    refine ⟨fun vote mem => ?_, fun id told => ?_, fun average mem => ?_, fun _ _ none => ?_⟩
    · rw [replayed] at mem
      obtain answer | ⟨mem, differs⟩ := Edit.mem_on.1 mem
      · obtain rfl := Edit.record_of_answer answer
        refine ⟨_, lastAbout_append_of_pos about, ?_, rfl⟩
        cases edit with
        | create _ => exact .inl rfl
        | revise old _ _ => exact .inr ⟨old.rank, rfl⟩
        | erase _ => cases answer
      · rw [lastAbout_append_of_neg (others differs)]
        exact traced.votes vote mem
    · by_cases same : id = edit.record.id
      · subst same
        cases may with
        | create _ _ _ _ made => exact made
        | @revise old _ _ mem => exact later.subset (order.given old mem)
        | @erase old mem => exact later.subset (order.given old mem)
      · rw [lastAbout_append_of_neg (others same)] at told
        exact later.subset (traced.known id told)
    · rw [replayed] at mem
      rw [lastAboutAverage_append_of_neg rfl]
      exact traced.averages average mem
    · rw [replayed] at none
      rw [lastAboutAverage_append_of_neg rfl]
      exact traced.untold _ _ none

/-- **Averages.** The announcement of an average takes up what was said about it. -/
theorem average {known : List String} (traced : Traced known log)
    (order : AveragesInOrder tenants given (Books.replay log).averages)
    {target : EntityReference} {old new : AverageRank ν}
    (looked : manager.LooksUp target (Books.replay log).averages given given' old)
    (continues : new.Continues old) :
    (manager.tellsAverage old new).Follows log ∧
      Traced known (log ++ [manager.tellsAverage old new]) := by
  have own : new.manager = manager.identifier := continues.manager.trans looked.own
  have onTarget : new.target = target := continues.target.trans looked.onTarget
  constructor
  · show match lastAboutAverage new.manager new.target log with
      | none => old.average = Scalar.zero ∧ old.number = 0
      | some last => ∃ other, last.data = .average other ∧ old.average = other.average ∧
          old.number = other.number
    -- an average in the books was told of, and one that was made up never was
    obtain held | ⟨absent, -, -, -, number, zero⟩ := looked.found
    · obtain ⟨last, told, data⟩ := traced.averages old held
      rw [continues.manager, continues.target, told]
      exact ⟨old, data, rfl, rfl⟩
    · rw [own, onTarget, traced.untold _ _ absent]
      exact ⟨zero, number⟩
  · have replayed : Books.replay (log ++ [manager.tellsAverage old new]) =
        { Books.replay log with
          averages := Shelf.put (·.id) new (Books.replay log).averages } := by
      rw [Books.replay_append, Books.noteAll_cons, Books.noteAll_nil, Books.note_tellsAverage]
    have about {identifier : String} {entity : EntityReference} :
        (manager.tellsAverage old new).isAboutAverage identifier entity =
          decide (new.manager = identifier ∧ new.target = entity) := rfl
    refine ⟨fun vote mem => ?_, fun id told => ?_, fun average mem => ?_,
      fun identifier entity none => ?_⟩
    · rw [replayed] at mem
      rw [lastAbout_append_of_neg rfl]
      exact traced.votes vote mem
    · rw [lastAbout_append_of_neg rfl] at told
      exact traced.known id told
    · rw [replayed] at mem
      obtain rfl | ⟨mem, other⟩ := (order.mem_put_iff looked continues).1 mem
      · exact ⟨_, lastAboutAverage_append_of_pos (about.trans (decide_eq_true ⟨rfl, rfl⟩)), rfl⟩
      · rw [lastAboutAverage_append_of_neg]
        · exact traced.averages average mem
        · rw [about, decide_eq_false_iff_not, own, onTarget]
          rintro ⟨sameManager, sameTarget⟩
          exact other ⟨sameManager.symm, sameTarget.symm⟩
    · rw [replayed] at none
      -- if no average is there now, the new one is of something else
      have elsewhere := none new (Shelf.mem_put.2 (.inl rfl))
      rw [lastAboutAverage_append_of_neg]
      · apply traced.untold
        intro average mem sameManager sameTarget
        refine none average ((order.mem_put_iff looked continues).2 (.inr ⟨mem, ?_⟩)) sameManager
          sameTarget
        rintro ⟨byManager, byTarget⟩
        exact elsewhere (own.trans (byManager.symm.trans sameManager))
          (onTarget.trans (byTarget.symm.trans sameTarget))
      · rw [about, decide_eq_false_iff_not]
        rintro ⟨sameManager, sameTarget⟩
        exact elsewhere sameManager sameTarget

end Traced

/-! ## 3. What is heard in a history -/

/-- **News.** What a turn tells takes up what was said before. -/
theorem Books.News.log {tenants : Tenants} {torn : Prop} {given given' : List String}
    {log news : List (Notification ν)} {bound : Nat}
    (h : (Books.replay log).News torn tenants given given' news) (later : given <+: given')
    (sound : (Books.replay log).Sound tenants given bound) (traced : Traced given log)
    (coherent : Coherent log) : Coherent (log ++ news) ∧ Traced given' (log ++ news) := by
  cases h with
  | nothing =>
      rw [List.append_nil]
      exact ⟨coherent, traced.mono later⟩
  | vote member may alone =>
      obtain ⟨follows, traced⟩ := traced.edit sound.votes later may
      exact ⟨coherent.concat follows, traced⟩
  | @both manager edit old now member may on looked whole =>
      obtain ⟨follows, traced⟩ := traced.edit sound.votes later may
      -- telling of the vote leaves the averages in the books alone
      have averages : (Books.replay (log ++ [manager.tells edit.event edit.record])).averages =
          (Books.replay log).averages := by
        rw [replay_append, noteAll_cons, noteAll_nil, note_tells]
      have order := sound.averages
      rw [← averages] at order looked
      obtain ⟨follows', traced⟩ :=
        traced.average order looked (edit.change_continues old now)
      rw [List.append_cons]
      exact ⟨(coherent.concat follows).concat follows', traced⟩
  | rebuilt member on looked whole perm =>
      obtain ⟨follows, traced⟩ :=
        (traced.mono later).average sound.averages looked (AverageRank.reset_continues ..)
      exact ⟨coherent.concat follows, traced⟩

theorem Chronicle.log {torn : Prop} {tenants : Tenants} {turns : Nat} {given : List String}
    {log : List (Notification ν)} (h : Chronicle torn tenants turns given log) :
    Coherent log ∧ Traced given log := by
  induction h with
  | start => exact ⟨Coherent.nil, Traced.start⟩
  | turn before later news ih => exact news.log later before.sound ih.2 ih.1

/-- **The notifications are a log of the index.** Whatever calls fail in a history, as long as no
    commit does, replaying what was heard gives exactly the votes and the averages that are
    committed, and every notification takes up what was last said about the same record.  (A count
    of votes is stored as a signed 64-bit number, which is why there must be fewer turns than
    that.) -/
theorem History.notifications_are_a_log {faults : Call ν → Prop} {tenants : Tenants}
    {turns : List (Turn ν)} {world : World ν} (history : History faults tenants turns world)
    (steady : ∀ core, ¬ faults (.commit core)) (short : turns.length < 9223372036854775808) :
    world.HoldsVotes tenants (Books.replay world.heard).votes ∧
    (∀ vote ∈ (Books.replay world.heard).votes, ∃ manager ∈ tenants.members,
      vote.manager = manager.identifier) ∧
    (world.core averageCore).HoldsAverages (Books.replay world.heard).averages ∧
    Coherent world.heard := by
  obtain ⟨chronicle, kept⟩ := history.bookkeeping steady short fun _ => trivial
  have sound := chronicle.sound
  refine ⟨kept.votes, fun vote mem => ?_, kept.holdsAverages sound short, chronicle.log.1⟩
  obtain ⟨manager, member, admits⟩ := sound.votes.admitted vote mem
  exact ⟨manager, member, admits.own⟩

def Shift.tornDay : List Shift :=
  let home : EntityReference := ⟨.document, "Main.WebHome"⟩
  [{ visits := [(.stars, .save home ⟨"alice"⟩ 4)] },
    { faults := [⟨averageCore, .add, 0, .storage "disk full"⟩]
      visits := [(.stars, .save home ⟨"bob"⟩ 5)] },
    { visits := [(.stars, .save home ⟨"bob"⟩ 3), (.stars, .save home ⟨"alice"⟩ 5)] }]

/-- A torn day is a history in which no commit fails. -/
theorem History.exists_tornDay :
    ∃ (faults : Call Rat → Prop) (turns : List (Turn Rat)) (world : World Rat),
      (({} : Deployment Rat).serveShifts Shift.tornDay).Shows faults [] world ∧
      History faults Tenants.starsAndLikes turns world ∧ (∀ core, ¬ faults (.commit core)) ∧
      turns.map Turn.visit = Shift.tornDay.flatMap (·.visits) := by
  let faults : Call Rat → Prop := fun call => ∀ core, call ≠ .commit core
  have steady : ∀ core, ¬ faults (.commit core) := fun core uncommitted => uncommitted core rfl
  have history : History faults Tenants.starsAndLikes [] ({} : World Rat) := .start
  have members : ∀ shift ∈ Shift.tornDay, ∀ visit ∈ shift.visits,
      visit.1 ∈ Tenants.starsAndLikes.members := by
    decide
  have adds : ∀ shift ∈ Shift.tornDay, ∀ fault ∈ shift.faults, fault.action = .add := by decide
  have among : ∀ shift ∈ Shift.tornDay, ∀ fault ∈ shift.faults, fault.IsAmong faults := by
    intro shift mem fault planned
    rw [IndexFault.IsAmong, adds shift mem fault planned]
    intro document core same
    cases same
  obtain ⟨turns, world, shows, history, visits⟩ :=
    history.serveShifts Deployment.Shows.start members among
  exact ⟨faults, turns, world, shows, history, steady, visits⟩

/-- A torn day is a history in which no commit fails.  Its log tells the average as it was written,
    without the vote whose average was not. -/
theorem log_of_tornDay :
    ∃ (faults : Call Rat → Prop) (turns : List (Turn Rat)) (world : World Rat),
      History faults Tenants.starsAndLikes turns world ∧ (∀ core, ¬ faults (.commit core)) ∧
      turns.map Turn.visit = Shift.tornDay.flatMap (·.visits) ∧
      turns.length < 9223372036854775808 ∧ Coherent world.heard ∧
      (world.core averageCore).HoldsAverages (Books.replay world.heard).averages ∧
      (Books.replay world.heard).averages.map (fun average => (average.average, average.number)) =
        [(3, 1)] ∧
      (Books.replay world.heard).votes.map (fun vote => vote.rank) = [5, 3] := by
  obtain ⟨faults, turns, world, shows, history, steady, visits⟩ := History.exists_tornDay
  have short : turns.length < 9223372036854775808 := by
    rw [← List.length_map Turn.visit, visits]
    decide
  obtain ⟨-, -, averages, coherent⟩ := history.notifications_are_a_log steady short
  refine ⟨faults, turns, world, history, steady, visits, short, coherent, averages, ?_⟩
  have heard : world.heard = (({} : Deployment Rat).serveShifts Shift.tornDay).heard := shows.heard
  rw [heard]
  decide +kernel

end RankLedger

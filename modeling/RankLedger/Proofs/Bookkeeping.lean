import RankLedger.Proofs.History

/-!
# The books are kept

As long as every write that was accepted is also committed, the index holds what the books of a
listener say (`Books.Kept`): the documents of each core are those of the votes that tenants keep
there, the documents of the core of averages are those of the averages, in the same order, and no
write waits.  Calls that fail before anything was accepted do no harm.

What a turn tells the listeners takes one of four forms (`Books.News`).  Each of them keeps the
votes and the averages in order, and so they are in order after every history
(`History.bookkeeping`).
-/

namespace RankLedger

variable {ν : Type}

/-! ## 1. Part of the votes -/

section Part

variable {tenants : Tenants} {manager : Manager} {given given' : List String}
  {votes : List Ranking} {edit : Edit}

/-- A vote under the identifier that an edit is about is a vote of the manager that makes it, on the
    target of the edit. -/
theorem Manager.MayMake.place_of_id (order : VotesInOrder tenants given votes)
    (may : manager.MayMake votes given given' edit) {old : Ranking} (mem : old ∈ votes)
    (same : old.id = edit.record.id) :
    old.manager = manager.identifier ∧ old.target = edit.record.target := by
  cases may with
  | create _ _ _ fresh => exact absurd (same ▸ order.given old mem) fresh
  | revise held admits => rw [order.eq_of_id mem held same]; exact ⟨admits.own, rfl⟩
  | erase held own => rw [order.eq_of_id mem held same]; exact ⟨own, rfl⟩

variable (member : manager ∈ tenants.members) (order : VotesInOrder tenants given votes)
  (may : manager.MayMake votes given given' edit)
include member order may

/-- The core of the manager sees the edit. -/
theorem Edit.filter_on_self :
    (edit.on votes).filter (tenants.keepsIn manager.voteCore) =
      edit.on (votes.filter (tenants.keepsIn manager.voteCore)) := by
  have keeps {vote : Ranking} (own : vote.manager = manager.identifier) :
      tenants.keepsIn manager.voteCore vote = true :=
    (Tenants.keepsIn_iff member own).2 rfl
  exact filter_on_of_pos (keeps may.own) fun old mem same =>
    keeps (may.place_of_id order mem same).1

/-- Other cores do not see the edit. -/
theorem Edit.filter_on_of_ne {core : String} (h : manager.voteCore ≠ core) :
    (edit.on votes).filter (tenants.keepsIn core) = votes.filter (tenants.keepsIn core) := by
  have keeps {vote : Ranking} (own : vote.manager = manager.identifier) :
      tenants.keepsIn core vote = false :=
    Bool.eq_false_iff.2 fun kept => h ((Tenants.keepsIn_iff member own).1 kept)
  exact filter_on_of_neg (keeps may.own) fun old mem same =>
    keeps (may.place_of_id order mem same).1

/-- **Votes.** An edit that is carried out where nothing waits is made of the votes. -/
theorem World.HoldsVotes.carryOut {world : World ν} (holds : world.HoldsVotes tenants votes)
    (settled : (world.core manager.voteCore).pending = []) (later : given <+: given') :
    (world.carryOut manager.voteCore edit.write).HoldsVotes tenants (edit.on votes) := by
  have order' := order.on member later may
  intro core apart
  refine ⟨?_, fun vote mem => order'.whole vote (List.mem_filter.1 mem).1⟩
  by_cases same : manager.voteCore = core
  · subst same
    rw [World.core_carryOut_self, Core.documents_commit_push,
      Core.documents_commit_of_pending _ settled, (holds _ apart).documents,
      Edit.write_on, Edit.filter_on_self member order may]
  · rw [World.core_carryOut_of_ne _ _ _ (Ne.symm same), (holds _ apart).documents,
      Edit.filter_on_of_ne member order may same]

end Part

/-! ## 2. Books and the index -/

structure Books.Sound (books : Books ν) (tenants : Tenants) (given : List String) (bound : Nat) :
    Prop where
  votes : VotesInOrder tenants given books.votes
  one : OnePerVoter books.votes
  averages : AveragesInOrder tenants given books.averages
  few : books.votes.length ≤ bound
  numbers : ∀ average ∈ books.averages, average.number ≤ bound

structure Books.Kept (books : Books ν) (tenants : Tenants) (world : World ν) : Prop where
  votes : world.HoldsVotes tenants books.votes
  averages : (world.core averageCore).documents = books.averages.map AverageRank.toDocument
  settled : ∀ core, (world.core core).pending = []

namespace Books.Kept

variable {tenants : Tenants} {books : Books ν} {before after : World ν}

theorem start : ({} : Books ν).Kept tenants {} :=
  ⟨fun _ _ => ⟨rfl, List.forall_mem_nil _⟩, rfl, fun _ => rfl⟩

theorem idle (kept : books.Kept tenants before) (h : before.Idle after) :
    books.Kept tenants after := by
  constructor
  · intro core other
    rw [h.core]
    exact kept.votes core other
  · rw [h.core]
    exact kept.averages
  · intro core
    rw [h.core]
    exact kept.settled core

theorem hear (kept : books.Kept tenants before) (news : List (Notification ν)) :
    books.Kept tenants (before.hear news) :=
  ⟨kept.votes, kept.averages, kept.settled⟩

/-- An edit that is carried out is made in the books. -/
theorem edit (kept : books.Kept tenants before)
    (order : VotesInOrder tenants before.given books.votes) {manager : Manager}
    (member : manager ∈ tenants.members) {given : List String} (later : before.given <+: given)
    {edit : Edit} (may : manager.MayMake books.votes before.given given edit) :
    ({ books with votes := edit.on books.votes } : Books ν).Kept tenants
      (before.carryOut manager.voteCore edit.write) := by
  have placed := Tenants.isPlaced member
  refine ⟨kept.votes.carryOut member order may (kept.settled _) later, ?_, fun core => ?_⟩
  · rw [World.core_carryOut_of_ne _ _ _ placed.separate.symm]
    exact kept.averages
  · by_cases same : core = manager.voteCore
    · subst same
      rw [World.core_carryOut_self, Core.pending_commit]
    · rw [World.core_carryOut_of_ne _ _ _ same]
      exact kept.settled core

/-- **Averages.** An average that is written is noted in the books. -/
theorem put (kept : books.Kept tenants before) (average : AverageRank ν) :
    ({ books with averages := Shelf.put (·.id) average books.averages } : Books ν).Kept tenants
      (before.carryOut averageCore (.add average.toDocument)) := by
  constructor
  · intro core apart
    rw [World.core_carryOut_of_ne _ _ _ apart]
    exact kept.votes core apart
  · rw [World.core_carryOut_self, Core.documents_commit_push,
      Core.documents_commit_of_pending _ (kept.settled _), kept.averages]
    exact (Shelf.map_put AverageRank.id_toDocument).symm
  · intro core
    by_cases same : core = averageCore
    · subst same
      rw [World.core_carryOut_self, Core.pending_commit]
    · rw [World.core_carryOut_of_ne _ _ _ same]
      exact kept.settled core

theorem holdsAverages [Scalar ν] {bound : Nat} (kept : books.Kept tenants before)
    (sound : books.Sound tenants before.given bound) (short : bound < 9223372036854775808) :
    (before.core averageCore).HoldsAverages books.averages :=
  ⟨kept.averages, fun average mem =>
    ⟨Nat.lt_of_le_of_lt (sound.numbers average mem) short, (sound.averages.whole average mem).isOfWord⟩⟩

end Books.Kept

/-! ## 3. News -/

variable [Scalar ν]

/-- What a turn may tell the listeners: nothing; an edit; an edit and the average it changed; or an
    average that was rebuilt.  A tenant that keeps averages tells of an edit alone only if it was
    `torn` from its average. -/
inductive Books.News (torn : Prop) (tenants : Tenants) (books : Books ν)
    (before after : List String) : List (Notification ν) → Prop
  | nothing : News torn tenants books before after []
  | vote {manager : Manager} {edit : Edit} : manager ∈ tenants.members →
      manager.MayMake books.votes before after edit →
      (manager.configuration.storeAverage = false ∨ torn) →
      News torn tenants books before after [manager.tells edit.event edit.record]
  | both {manager : Manager} {edit : Edit} {old : AverageRank ν} {now : Instant} :
      manager ∈ tenants.members → manager.MayMake books.votes before after edit →
      manager.configuration.storeAverage = true →
      manager.LooksUp edit.record.target books.averages before after old → now.IsWhole →
      News torn tenants books before after
        [manager.tells edit.event edit.record, manager.tellsAverage old (edit.change old now)]
  | rebuilt {manager : Manager} {target : EntityReference} {old : AverageRank ν}
      {counted : List Ranking} {now : Instant} :
      manager ∈ tenants.members → manager.configuration.storeAverage = true →
      manager.LooksUp target books.averages before after old → now.IsWhole →
      counted.Perm (books.votes.filter (manager.counts target)) →
      News torn tenants books before after
        [manager.tellsAverage old (old.reset (Ranking.rankSum counted) counted.length now)]

namespace Books

variable {tenants : Tenants} {books : Books ν} {given given' : List String} {bound : Nat}
  {torn : Prop} {news : List (Notification ν)}

theorem News.mono {torn' : Prop} (imp : torn → torn')
    (h : books.News torn tenants given given' news) :
    books.News torn' tenants given given' news := by
  cases h with
  | nothing => exact .nothing
  | vote member may alone => exact .vote member may (alone.imp_right imp)
  | both member may on looked whole => exact .both member may on looked whole
  | rebuilt member on looked whole perm => exact .rebuilt member on looked whole perm

omit [Scalar ν] in
theorem length_on_le (edit : Edit) (votes : List Ranking) :
    (edit.on votes).length ≤ votes.length + 1 := by
  cases edit with
  | create vote => exact Shelf.length_put_le
  | revise old rank now => exact Shelf.length_put_le
  | erase old => exact Nat.le_succ_of_le (List.length_filter_le ..)

theorem number_change_le (edit : Edit) (old : AverageRank ν) (now : Instant) :
    (edit.change old now).number ≤ old.number + 1 := by
  cases edit with
  | create vote => exact Nat.le_refl _
  | revise vote rank date =>
      show (old.exchangeVote _ _ now).number ≤ _
      unfold AverageRank.exchangeVote
      split <;> exact Nat.le_succ _
  | erase vote =>
      show (old.removeVote _ now).number ≤ _
      unfold AverageRank.removeVote
      split <;> dsimp only <;> omega

/-- **News keeps the books sound.** Each turn has at most one vote more to count. -/
theorem News.sound (h : books.News torn tenants given given' news) (later : given <+: given')
    (sound : books.Sound tenants given bound) :
    (books.noteAll news).Sound tenants given' (bound + 1) := by
  -- an average that was looked up counts no more votes than there were turns
  have number {old : AverageRank ν} {manager : Manager} {target : EntityReference}
      (looked : manager.LooksUp target books.averages given given' old) : old.number ≤ bound := by
    obtain held | ⟨-, -, -, -, none, -⟩ := looked.found
    · exact sound.numbers old held
    · omega
  have numbers {new : AverageRank ν} (le : new.number ≤ bound + 1) :
      ∀ average ∈ Shelf.put (·.id) new books.averages, average.number ≤ bound + 1 := by
    intro average mem
    obtain rfl | ⟨mem, -⟩ := Shelf.mem_put.1 mem
    · exact le
    · exact Nat.le_succ_of_le (sound.numbers average mem)
  have few (edit : Edit) : (edit.on books.votes).length ≤ bound + 1 := by
    have := length_on_le edit books.votes
    have := sound.few
    omega
  cases h with
  | nothing =>
      exact ⟨sound.votes.mono later, sound.one, sound.averages.mono later,
        Nat.le_succ_of_le sound.few,
        fun average mem => Nat.le_succ_of_le (sound.numbers average mem)⟩
  | @vote manager edit member may alone =>
      rw [noteAll_cons, noteAll_nil, note_tells]
      exact ⟨sound.votes.on member later may, sound.one.on may, sound.averages.mono later,
        few edit, fun average mem => Nat.le_succ_of_le (sound.numbers average mem)⟩
  | @both manager edit old now member may on looked whole =>
      rw [noteAll_cons, noteAll_cons, noteAll_nil, note_tells, note_tellsAverage]
      have continues := edit.change_continues old now
      have dated : (edit.change old now).updated.IsWhole := by rwa [edit.updated_change]
      refine ⟨sound.votes.on member later may, sound.one.on may,
        sound.averages.put member on later looked continues dated, few edit,
        numbers ?_⟩
      have := number_change_le edit old now
      have := number looked
      omega
  | @rebuilt manager target old counted now member on looked whole perm =>
      rw [noteAll_cons, noteAll_nil, note_tellsAverage]
      have continues := old.reset_continues (Ranking.rankSum counted) counted.length now
      refine ⟨sound.votes.mono later, sound.one,
        sound.averages.put member on later looked continues whole,
        Nat.le_succ_of_le sound.few, numbers ?_⟩
      show counted.length ≤ bound + 1
      have := sound.few
      -- what is counted is part of the votes
      have := List.length_filter_le (manager.counts target) books.votes
      rw [perm.length_eq]
      omega

end Books

inductive Chronicle (torn : Prop) (tenants : Tenants) :
    Nat → List String → List (Notification ν) → Prop
  | start : Chronicle torn tenants 0 [] []
  | turn {turns : Nat} {given given' : List String} {log news : List (Notification ν)} :
      Chronicle torn tenants turns given log → given <+: given' →
      (Books.replay log).News torn tenants given given' news →
      Chronicle torn tenants (turns + 1) given' (log ++ news)

theorem Chronicle.sound {torn : Prop} {tenants : Tenants} {turns : Nat} {given : List String}
    {log : List (Notification ν)} (h : Chronicle torn tenants turns given log) :
    (Books.replay log).Sound tenants given turns := by
  induction h with
  | start =>
      exact ⟨.nil, List.forall_mem_nil _, .nil, Nat.le_refl 0, List.forall_mem_nil _⟩
  | turn _ later news ih =>
      rw [Books.replay_append]
      exact news.sound later ih

/-! ## 4. From turns to news -/

variable {faults : Call ν → Prop} {before after : World ν} {manager : Manager}
  {target : EntityReference} {tenants : Tenants} {books : Books ν} {bound : Nat}

namespace Manager

/-- What was read between two moments was looked up among the averages that are held. -/
theorem ReadWithin.looksUp {old : AverageRank ν} {averages : List (AverageRank ν)}
    (holds : (before.core averageCore).HoldsAverages averages)
    (read : manager.ReadWithin target before old after) :
    manager.LooksUp target averages before.given after.given old := by
  obtain ⟨first, last, core, sooner, reads, later⟩ := read
  -- the averages were still the same when it was read
  rw [← core] at holds
  obtain ⟨mem, own, onTarget⟩ | ⟨absent, made⟩ := reads.of_holds holds
  · exact ⟨own, onTarget, .inl mem⟩
  · obtain ⟨fresh, instant, -, rfl, new⟩ := made
    have given : old.id ∈ after.given :=
      later.subset (List.mem_append_right _ List.mem_cons_self)
    refine ⟨?_, ?_, .inr ⟨absent, fun used => fresh (sooner.subset used), given, ?_, ?_, ?_⟩⟩ <;>
      rw [new] <;> rfl

/-- An average in sound books is unread only if calls fail or a number is not finite. -/
theorem Unread.reason (kept : books.Kept tenants before)
    (sound : books.Sound tenants before.given bound) (short : bound < 9223372036854775808)
    (unread : manager.Unread faults target (before.core averageCore)) :
    World.Unreliable faults ∨
      ∃ average ∈ books.averages, Scalar.isFinite average.average = false := by
  by_cases steady : World.Unreliable faults
  · exact .inl steady
  · right
    apply Classical.byContradiction
    intro finite
    refine not_unread (kept.holdsAverages sound short) ?_ steady unread
    intro average mem
    cases h : Scalar.isFinite average.average with
    | true => rfl
    | false => exact absurd ⟨average, mem, h⟩ finite

/-- **Turns and news.** Whatever a tenant does in a turn, it tells it, and the books it is noted in
    are kept. -/
theorem Moves.news (steady : ∀ core, ¬ faults (.commit core))
    (member : manager ∈ tenants.members) (kept : books.Kept tenants before)
    (sound : books.Sound tenants before.given bound) (short : bound < 9223372036854775808)
    (moves : manager.Moves faults books.votes before after) :
    ∃ news, after.heard = before.heard ++ news ∧ before.given <+: after.given ∧
      books.News (World.Unreliable faults ∨
          ∃ average ∈ books.averages, Scalar.isFinite average.average = false)
        tenants before.given after.given news ∧
      (books.noteAll news).Kept tenants after := by
  have holds := kept.holdsAverages sound short
  cases moves with
  | idle idle =>
      refine ⟨[], ?_, idle.given, .nothing, kept.idle idle⟩
      rw [idle.heard, List.append_nil]
  | @edit edit done news middle may edited =>
      obtain ⟨later, -, quiet⟩ := edited.meanwhile
      have written := kept.edit sound.votes member later may
      refine ⟨news, ?_, later, ?_⟩
      · rw [World.hear, quiet]
      · cases edited with
        | untouched _ idle => exact ⟨.nothing, (kept.idle idle).hear _⟩
        | waiting fails => exact absurd fails (steady _)
        -- the vote is told but not its average, because it could not be read
        | torn unread idle =>
            rw [Books.noteAll_cons, Books.noteAll_nil, Books.note_tells]
            exact ⟨.vote member may (.inr (unread.reason kept sound short)),
              (written.idle idle).hear _⟩
        | tornWaiting fails => exact absurd fails (steady _)
        | plain off idle =>
            rw [Books.noteAll_cons, Books.noteAll_nil, Books.note_tells]
            exact ⟨.vote member may (.inl off), (written.idle idle).hear _⟩
        | full on whole read idle =>
            rw [Books.noteAll_cons, Books.noteAll_cons, Books.noteAll_nil, Books.note_tells,
              Books.note_tellsAverage]
            exact ⟨.both member may on (read.looksUp holds) whole,
              ((written.put _).idle idle).hear _⟩
  | @rebuild target result news middle rebuilt =>
      obtain ⟨later, quiet⟩ := rebuilt.meanwhile
      refine ⟨news, ?_, later, ?_⟩
      · rw [World.hear, quiet]
      · cases rebuilt with
        | untouched _ idle => exact ⟨.nothing, (kept.idle idle).hear _⟩
        | waiting fails => exact absurd fails (steady _)
        | computed _ idle => exact ⟨.nothing, (kept.idle idle).hear _⟩
        | full on whole perm read idle =>
            rw [Books.noteAll_cons, Books.noteAll_nil, Books.note_tellsAverage]
            exact ⟨.rebuilt member on (read.looksUp holds) whole perm,
              ((kept.put _).idle idle).hear _⟩

end Manager

omit [Scalar ν] in
theorem Books.mem_averages_note {n : Notification ν} {average : AverageRank ν}
    (mem : average ∈ (books.note n).averages) :
    average ∈ books.averages ∨ n.data = .average average := by
  unfold note at mem
  split at mem
  · exact .inl mem
  · exact .inl mem
  · exact .inl mem
  · rename_i other _ data
    obtain rfl | ⟨mem, -⟩ := Shelf.mem_put.1 mem
    · exact .inr data
    · exact .inl mem
  · exact .inl mem

omit [Scalar ν] in
/-- Every average in the books was announced. -/
theorem Books.mem_averages_noteAll {log : List (Notification ν)} {average : AverageRank ν}
    (mem : average ∈ (books.noteAll log).averages) :
    average ∈ books.averages ∨ ∃ n ∈ log, n.data = .average average := by
  induction log generalizing books with
  | nil => exact .inl mem
  | cons n rest ih =>
      obtain mem | ⟨other, later, data⟩ := ih mem
      · obtain mem | data := mem_averages_note mem
        · exact .inl mem
        · exact .inr ⟨n, List.mem_cons_self, data⟩
      · exact .inr ⟨other, List.mem_cons_of_mem _ later, data⟩

/-- **The books are kept.** If no commit fails, what was heard is a chronicle, and the index holds
    what the books of it say. -/
theorem History.bookkeeping {turns : List (Turn ν)} {world : World ν}
    (history : History faults tenants turns world) (steady : ∀ core, ¬ faults (.commit core))
    (short : turns.length < 9223372036854775808) {torn : Prop}
    (tears : (World.Unreliable faults ∨ ∃ n ∈ world.heard, ∃ average, n.data = .average average ∧
      Scalar.isFinite average.average = false) → torn) :
    Chronicle torn tenants turns.length world.given world.heard ∧
      (Books.replay world.heard).Kept tenants world := by
  induction history generalizing torn with
  | start => exact ⟨.start, Books.Kept.start⟩
  | @turn turns before after manager request response history member yields ih =>
      rw [List.length_append, List.length_singleton] at short ⊢
      have short : turns.length < 9223372036854775808 := by omega
      -- the books before this turn are kept whatever tore them, and that they are sound does not
      -- depend on it
      obtain ⟨chronicle, kept⟩ := ih short fun _ => trivial
      have sound := chronicle.sound
      have moves := kept.votes.moves member sound.votes yields
      obtain ⟨news, heard, later, told, kept'⟩ := moves.news steady member kept sound short
      rw [heard, Books.replay_append]
      refine ⟨.turn (ih short fun reason => tears ?_).1 later (told.mono fun reason => tears ?_),
        kept'⟩
      · refine reason.imp_right fun ⟨n, mem, rest⟩ => ⟨n, ?_, rest⟩
        rw [heard]
        exact List.mem_append_left _ mem
      · refine reason.imp_right fun ⟨average, mem, infinite⟩ => ?_
        -- an average in the books was heard of before
        obtain wrong | ⟨n, mem, data⟩ := Books.mem_averages_noteAll mem
        · cases wrong
        · rw [heard]
          exact ⟨n, List.mem_append_left _ mem, average, data, infinite⟩

end RankLedger

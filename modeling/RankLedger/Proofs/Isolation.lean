import RankLedger.Proofs.Manager.Inquiry
import RankLedger.Proofs.OneVote

/-!
# Tenants do not see each other

Tenants share an index, and some of them share a core for their votes; all of them share the core
of the averages.  Still no tenant can tell what another one does.  The reason is the same for every
core: a tenant only writes documents of its own, under identifiers that are its own or new, so the
documents of the others stay in their places (`Core.Takes`); and every query of a tenant is
restricted to its own documents.

The states that tenants can reach are described by two facts: the votes of each core are described
by votes and a backlog, whatever failed, and no identifier of an average occurs twice or is yet to
be handed out (`World.Tidy`).
-/

namespace RankLedger

variable {ν : Type}

/-! ## 1. Writing in one's own part of a core -/

namespace Core

/-- A write of this manager among these documents: it leaves a document of the manager, if any, and
    what it replaces or deletes is the manager's too. -/
structure OwnWrite (core : Core ν) (identifier : String) (write : CoreWrite ν) : Prop where
  leaves : ∀ document, write.leaves = some document → document.isOf identifier = true
  replaces : ∀ document ∈ core.documents, document.id = write.id →
    document.isOf identifier = true

/-- What may become of a core in a turn of this manager: nothing, or one write of its own under an
    identifier that was handed out, which may be left waiting. -/
inductive Takes (identifier : String) (given : List String) (before : Core ν) : Core ν → Prop
  | rests : Takes identifier given before before
  | waits {write : CoreWrite ν} : before.OwnWrite identifier write → write.id ∈ given →
      Takes identifier given before (before.push write)
  | settles {write : CoreWrite ν} : before.OwnWrite identifier write → write.id ∈ given →
      Takes identifier given before (before.push write).commit

variable {core next : Core ν} {identifier other : String} {given : List String}

/-- The documents of another manager stay as they are, and where they are. -/
theorem OwnWrite.part_carryOut {write : CoreWrite ν} (own : core.OwnWrite identifier write)
    (differs : identifier ≠ other) :
    (core.carryOut write).part (·.isOf other) = core.part (·.isOf other) :=
  Core.part_carryOut (fun document left => Document.not_isOf (own.leaves document left) differs)
    fun document mem same => Document.not_isOf (own.replaces document mem same) differs

/-- Where nothing was waiting a commit carries out the last write alone. -/
theorem commit_push (quiet : core.pending = []) (write : CoreWrite ν) :
    (core.push write).commit = core.carryOut write := by
  obtain ⟨pending, committed, place⟩ := core
  cases quiet
  rfl

theorem Takes.part (h : core.Takes identifier given next) (quiet : core.pending = [])
    (differs : identifier ≠ other) : next.part (·.isOf other) = core.part (·.isOf other) := by
  cases h with
  | rests => rfl
  | waits => rfl
  | @settles write own _ =>
      rw [commit_push quiet]
      exact own.part_carryOut differs

structure Tidy (core : Core ν) (given : List String) : Prop where
  distinct : core.IsDistinct
  committed : ∀ document ∈ core.documents, document.id ∈ given
  waiting : ∀ write ∈ core.pending, write.id ∈ given

theorem Tidy.mono {given' : List String} (h : core.Tidy given) (later : given <+: given') :
    core.Tidy given' :=
  ⟨h.distinct, fun document mem => later.subset (h.committed document mem),
    fun write mem => later.subset (h.waiting write mem)⟩

theorem Tidy.push (h : core.Tidy given) {write : CoreWrite ν} (made : write.id ∈ given) :
    (core.push write).Tidy given := by
  refine ⟨h.distinct, h.committed, fun other mem => ?_⟩
  obtain mem | mem := List.mem_append.1 mem
  · exact h.waiting other mem
  · rwa [List.mem_singleton.1 mem]

theorem Tidy.commit (h : core.Tidy given) : core.commit.Tidy given := by
  refine ⟨h.distinct.commit, fun document mem => ?_, fun write mem => ?_⟩
  · obtain mem | ⟨write, mem, left⟩ := mem_documents_apply mem
    · exact h.committed document mem
    · rw [← write.id_of_leaves left]
      exact h.waiting write mem
  · rw [pending_commit] at mem
    cases mem

theorem Tidy.takes {given' : List String} (h : core.Tidy given) (later : given <+: given')
    (takes : core.Takes identifier given' next) : next.Tidy given' := by
  cases takes with
  | rests => exact h.mono later
  | waits _ made => exact (h.mono later).push made
  | settles _ made => exact ((h.mono later).push made).commit

end Core

/-! ## 2. What tenants write -/

theorem Ranking.isOf_toDocument (vote : Ranking) :
    (vote.toDocument : Document ν).isOf vote.manager = true := by
  rw [Document.isOf, vote.get?_toDocument (by decide)]
  exact beq_self_eq_true _

theorem AverageRank.isOf_toDocument (average : AverageRank ν) :
    average.toDocument.isOf average.manager = true := by
  rw [Document.isOf, show QueryField.managerId.storedName = AverageField.managerId.storedName from
    rfl, average.get?_toDocument]
  exact beq_self_eq_true _

variable {tenants : Tenants} {manager : Manager} {faults : Call ν → Prop} {before after : World ν}

namespace Core

variable {core next : Core ν} {given given' : List String} {votes : List Ranking}
  {waiting : List Edit}

/-- An edit that a manager may make writes a vote of its own. -/
theorem Backlog.ownWrite (h : core.Backlog tenants manager.voteCore given votes waiting)
    {edit : Edit} (may : manager.MayMake votes given given' edit) :
    core.OwnWrite manager.identifier edit.write := by
  constructor
  · intro document left
    cases hanswer : edit.answer with
    | none => cases edit <;> cases hanswer; cases left
    | some vote =>
        rw [Edit.write_of_answer hanswer] at left
        cases left
        rw [← (may.admits hanswer).own]
        exact vote.isOf_toDocument
  · intro document mem same
    rw [h.documents] at mem
    obtain ⟨vote, held, rfl⟩ := List.mem_map.1 mem
    suffices own : vote.manager = manager.identifier by
      rw [← own]
      exact vote.isOf_toDocument
    rw [Ranking.id_toDocument] at same
    cases may with
    | create _ _ _ fresh _ =>
        -- a new identifier is of no committed vote
        refine absurd (h.order.given vote held) fun used => fresh ?_
        rwa [same, show (Edit.write (.create _) : CoreWrite ν).id = _ from Ranking.id_toDocument _]
          at used
    | revise old admits _ =>
        rw [h.order.eq_of_id held old same]
        exact admits.own
    | erase old own =>
        rw [h.order.eq_of_id held old same]
        exact own

/-- The identifier that an edit writes under was handed out. -/
theorem Backlog.id_write (h : core.Backlog tenants manager.voteCore given votes waiting)
    (later : given <+: given') {edit : Edit} (may : manager.MayMake votes given given' edit) :
    (edit.write : CoreWrite ν).id ∈ given' := by
  cases may with
  | @create vote _ _ _ _ made =>
      show vote.toDocument.id ∈ given'
      rwa [Ranking.id_toDocument]
  | @revise old rank now held =>
      show (old.revise rank now).toDocument.id ∈ given'
      rw [Ranking.id_toDocument]
      exact later.subset (h.order.given old held)
  | erase held => exact later.subset (h.order.given _ held)

/-- A core of votes only ever takes writes of the manager. -/
theorem Backlog.takes (h : core.Backlog tenants manager.voteCore given votes waiting)
    (later : given <+: given') (advances : manager.Advances faults votes given given' core next) :
    core.Takes manager.identifier given' next := by
  cases advances with
  | rests => exact .rests
  | waits _ may => exact .waits (h.ownWrite may) (h.id_write later may)
  | settles may => exact .settles (h.ownWrite may) (h.id_write later may)

end Core

namespace Manager

variable [Scalar ν] {target : EntityReference}

/-- An average that continues the one that was read is the manager's own, and replaces no other. -/
theorem ReadWithin.ownWrite {old new : AverageRank ν}
    (h : manager.ReadWithin target before old after)
    (tidy : (before.core averageCore).Tidy before.given) (continues : new.Continues old) :
    (before.core averageCore).OwnWrite manager.identifier (.add new.toDocument) ∧
      (CoreWrite.add new.toDocument).id ∈ after.given := by
  have id : (CoreWrite.add new.toDocument).id = old.id :=
    new.id_toDocument.trans continues.id
  obtain ⟨first, last, core, given, reads, given'⟩ := h
  suffices old.manager = manager.identifier ∧ old.id ∈ last.given ∧
      ∀ document ∈ (before.core averageCore).documents, document.id = old.id →
        document.isOf manager.identifier = true by
    obtain ⟨own, made, replaces⟩ := this
    refine ⟨⟨fun document left => ?_, fun document mem same => ?_⟩, id ▸ given'.subset made⟩
    · cases left
      rw [← own, ← continues.manager]
      exact new.isOf_toDocument
    · exact replaces document mem (same.trans id)
  obtain ⟨document, found, read, rfl⟩ | ⟨-, made⟩ := reads
  · rw [core] at found
    obtain ⟨mem, accepted⟩ :=
      List.mem_filter.1 ((Core.search_perm _ _).subset (List.mem_of_mem_head? found))
    have mine := isOf_of_accepts_averageQuery accepted
    obtain ⟨same, own⟩ := AverageRank.of_ofDocument mine read
    refine ⟨own, ?_, fun other mem' equal => ?_⟩
    · rw [same]
      exact given.subset (tidy.committed document mem)
    · rwa [List.inj_on_of_nodup_map tidy.distinct mem' mem (equal.trans same)]
  · obtain ⟨instant, -, rfl, created⟩ := made.made
    refine ⟨?_, List.mem_append_right _ List.mem_cons_self, fun other mem equal => ?_⟩
    · rw [created]
      rfl
    · -- an identifier that was just made up is of no committed document
      exact absurd (given.subset (equal ▸ tidy.committed other mem)) made.fresh

variable (tidy : (before.core averageCore).Tidy before.given)
include tidy

theorem Edited.takes_average {edit : Edit} {done : Bool} {news : List (Notification ν)}
    (h : manager.Edited faults edit before done news after) (placed : manager.IsPlaced) :
    (before.core averageCore).Takes manager.identifier after.given (after.core averageCore) := by
  have apart := placed.separate.symm
  cases h with
  | untouched _ idle =>
      rw [idle.core]
      exact .rests
  | waiting _ idle =>
      rw [idle.core, World.core_push_of_ne _ _ _ apart]
      exact .rests
  | torn _ idle =>
      rw [idle.core, World.core_carryOut_of_ne _ _ _ apart]
      exact .rests
  | tornWaiting _ idle read =>
      obtain ⟨own, made⟩ := read.ownWrite tidy (edit.change_continues _ _)
      rw [idle.core, World.core_push_self, World.core_carryOut_of_ne _ _ _ apart]
      exact .waits own made
  | plain _ idle =>
      rw [idle.core, World.core_carryOut_of_ne _ _ _ apart]
      exact .rests
  | full _ _ read idle =>
      obtain ⟨own, made⟩ := read.ownWrite tidy (edit.change_continues _ _)
      rw [idle.core, World.core_carryOut_self, World.core_carryOut_of_ne _ _ _ apart]
      exact .settles own made

theorem Rebuilt.takes_average {votes : List Ranking} {result : Except RankingError (AverageRank ν)}
    {news : List (Notification ν)}
    (h : manager.Rebuilt faults target votes before result news after) :
    (before.core averageCore).Takes manager.identifier after.given (after.core averageCore) := by
  cases h with
  | untouched _ idle =>
      rw [idle.core]
      exact .rests
  | waiting _ idle read =>
      obtain ⟨own, made⟩ := read.ownWrite tidy (AverageRank.reset_continues _ _ _ _)
      rw [idle.core, World.core_push_self]
      exact .waits own made
  | computed _ idle =>
      rw [idle.core]
      exact .rests
  | full _ _ _ read idle =>
      obtain ⟨own, made⟩ := read.ownWrite tidy (AverageRank.reset_continues _ _ _ _)
      rw [idle.core, World.core_carryOut_self]
      exact .settles own made

theorem Moves.takes_average {votes : List Ranking} (placed : manager.IsPlaced)
    (moves : manager.Moves faults votes before after) :
    (before.core averageCore).Takes manager.identifier after.given (after.core averageCore) := by
  cases moves with
  | idle idle =>
      rw [idle.core]
      exact .rests
  | edit _ edited =>
      have takes := edited.takes_average tidy placed
      exact takes
  | rebuild rebuilt =>
      have takes := rebuilt.takes_average tidy
      exact takes

end Manager

/-! ## 3. Worlds that tenants reach -/

variable [Scalar ν]

inductive Operation where
  | request (request : Request)
  | inquiry (inquiry : Inquiry)

/-- An operation of a manager leads from one world to another, if these calls may fail. -/
def Operation.Leads (manager : Manager) (faults : Call ν → Prop) (before after : World ν) :
    Operation → Prop
  | .request asked => ∃ response,
      (asked.program manager).Yields (World.Answers faults) before response after
  | .inquiry asked => ∃ finding,
      (asked.program manager).Yields (World.Answers faults) before finding after

/-- The worlds that operations of tenants lead to, one after another, from the empty one. -/
inductive World.IsReached (faults : Call ν → Prop) (tenants : Tenants) : World ν → Prop
  | start : IsReached faults tenants {}
  | operation {before after : World ν} {manager : Manager} {operation : Operation} :
      IsReached faults tenants before → manager ∈ tenants.members →
      operation.Leads manager faults before after → IsReached faults tenants after

structure World.Tidy (tenants : Tenants) (world : World ν) : Prop where
  votes : ∀ core, core ≠ averageCore →
    ∃ votes waiting, (world.core core).Backlog tenants core world.given votes waiting
  averages : (world.core averageCore).Tidy world.given

/-- **One operation.** A tenant writes nothing but its own, and leaves the world tidy. -/
theorem Operation.Leads.takes {operation : Operation}
    (leads : operation.Leads manager faults before after) (tidy : before.Tidy tenants)
    (member : manager ∈ tenants.members) :
    after.Tidy tenants ∧ ∀ core,
      (before.core core).Takes manager.identifier after.given (after.core core) := by
  have placed := Tenants.isPlaced member
  cases operation with
  | inquiry inquiry =>
      obtain ⟨_, h⟩ := leads
      -- whoever inquires writes nothing
      have idle := Inquiry.idle h
      refine ⟨⟨fun core apart => ?_, ?_⟩, fun core => ?_⟩
      · obtain ⟨votes, waiting, here⟩ := tidy.votes core apart
        rw [idle.core]
        exact ⟨votes, waiting, here.mono idle.given⟩
      · rw [idle.core]
        exact tidy.averages.mono idle.given
      · rw [idle.core]
        exact .rests
  | request request =>
      obtain ⟨_, h⟩ := leads
      obtain ⟨votes, waiting, here⟩ := tidy.votes _ placed.separate
      have moves := Request.moves placed here.holds (fun _ mem => here.order.admits member mem) h
      -- a request writes to the core of averages and to that of the manager only
      have averages := moves.takes_average tidy.averages placed
      obtain ⟨later, advances, others⟩ := moves.advances placed
      refine ⟨⟨fun core apart => ?_, tidy.averages.takes later averages⟩, fun core => ?_⟩
      · by_cases same : core = manager.voteCore
        · subst same
          obtain ⟨votes, waiting, next, -⟩ := advances.backlog here later member
          exact ⟨votes, waiting, next⟩
        · obtain ⟨votes, waiting, there⟩ := tidy.votes core apart
          rw [others core apart same]
          exact ⟨votes, waiting, there.mono later⟩
      · by_cases average : core = averageCore
        · rw [average]
          exact averages
        · by_cases same : core = manager.voteCore
          · rw [same]
            exact here.takes later advances
          · rw [others core average same]
            exact .rests

theorem World.IsReached.tidy {world : World ν} (reached : world.IsReached faults tenants) :
    world.Tidy tenants := by
  induction reached with
  | start =>
      refine ⟨fun core _ => ⟨[], [], rfl, rfl, .nil, List.forall_mem_nil _, List.forall_mem_nil _,
        fun _ _ mem => absurd mem List.not_mem_nil⟩, List.nodup_nil, ?_, ?_⟩
      · rintro _ ⟨⟩
      · rintro _ ⟨⟩
  | operation _ member leads tidy => exact (leads.takes tidy member).1

/-! ## 4. Isolation -/

/-- An inquiry can have the same findings in both worlds, up to the identifiers of averages that are
    made up. -/
def Inquiry.SameFindings (manager : Manager) (inquiry : Inquiry) (faults : Call ν → Prop)
    (before after : World ν) : Prop :=
  (∀ finding last, (inquiry.program manager).Yields (World.Answers faults) before finding last →
    ∃ finding' last', (inquiry.program manager).Yields (World.Answers faults) after finding'
      last' ∧ finding.Agrees before.given after.given finding') ∧
  ∀ finding' last', (inquiry.program manager).Yields (World.Answers faults) after finding' last' →
    ∃ finding last, (inquiry.program manager).Yields (World.Answers faults) before finding last ∧
      finding.Agrees before.given after.given finding'

omit [Scalar ν] in
theorem Finding.Agrees.symm {given given' : List String} {finding finding' : Finding ν}
    (h : finding.Agrees given given' finding') : finding'.Agrees given' given finding := by
  cases h with
  | same => exact .same _
  | madeUp fresh fresh' => exact .madeUp fresh' fresh

/-- **Tenants do not see each other.** Let a tenant do anything, whatever calls fail, in a world
    that tenants reached and in which nothing waits for a commit.  Then every inquiry of every
    other tenant has the same findings before and after, as long as the stored averages are
    finite; and it never tells of a record that is not the tenant's own. -/
theorem World.IsReached.isolated (reached : before.IsReached faults tenants)
    (quiet : ∀ core, (before.core core).pending = []) {other : Manager}
    (member : manager ∈ tenants.members) (member' : other ∈ tenants.members)
    (differs : manager.identifier ≠ other.identifier) {operation : Operation}
    (leads : operation.Leads manager faults before after)
    (finite : (before.core averageCore).isReadable = true)
    (finite' : (after.core averageCore).isReadable = true) :
    (∀ inquiry failing, Inquiry.SameFindings other inquiry failing before after) ∧
      ∀ (inquiry : Inquiry) (failing : Call ν → Prop) (world last : World ν) (finding : Finding ν),
        (inquiry.program other).Yields (World.Answers failing) world finding last →
          finding.IsOf other.identifier := by
  have placed := Tenants.isPlaced member'
  obtain ⟨tidy, takes⟩ := leads.takes reached.tidy member
  have parts (core : String) := (takes core).part (quiet core) differs
  have readable : (after.core other.voteCore).isReadable =
      (before.core other.voteCore).isReadable := by
    obtain ⟨_, _, here⟩ := reached.tidy.votes _ placed.separate
    obtain ⟨_, _, there⟩ := tidy.votes _ placed.separate
    rw [here.holds.isReadable, there.holds.isReadable]
  have alike : World.AlikeFor other before after :=
    ⟨fun _ own => Core.query_congr own (parts _) readable,
      fun _ own => Core.query_congr own (parts _) (finite'.trans finite.symm)⟩
  have alike' : World.AlikeFor other after before :=
    ⟨fun query own => (alike.votes query own).symm,
      fun query own => (alike.averages query own).symm⟩
  refine ⟨fun inquiry failing => ⟨fun _ _ h => Inquiry.yields_congr alike h, fun _ _ h => ?_⟩,
    fun inquiry failing world last finding h => Inquiry.tells_own placed.named h⟩
  obtain ⟨finding, last, told, agrees⟩ := Inquiry.yields_congr alike' h
  exact ⟨finding, last, told, agrees.symm⟩

/-- Histories reach worlds. -/
theorem History.isReached {turns : List (Turn ν)} {world : World ν}
    (history : History faults tenants turns world) : world.IsReached faults tenants := by
  induction history with
  | start => exact .start
  | @turn _ before after manager request _ _ member yields ih =>
      have leads : Operation.Leads manager faults before after (.request request) := ⟨_, yields⟩
      exact .operation ih member leads

/-- After a busy day one tenant tries to remove a vote of the other, who notices nothing. -/
theorem World.isolated_of_busyDay :
    ∃ before after : World Rat, before.IsReached World.reliable Tenants.starsAndLikes ∧
      (∀ core, (before.core core).pending = []) ∧
      Operation.Leads .likes World.reliable before after
        (.request (.remove (({} : IdSource).nth 3))) ∧
      ∀ inquiry, Inquiry.SameFindings .stars inquiry World.reliable before after := by
  obtain ⟨_, before, shows, history, -⟩ := History.exists_busyDay
  have quiet : ∀ core, (before.core core).pending = [] := by
    have empty : ∀ entry ∈ (({} : Deployment Rat).serveAll Deployment.busyDay).index.cores,
        entry.2.pending.isEmpty = true := by
      decide +kernel
    intro core
    rw [shows.core, Index.core?]
    cases found : List.lookup core _ with
    | none => rfl
    | some core =>
        obtain ⟨_, _, split, -⟩ := List.lookup_eq_some_iff.1 found
        exact List.isEmpty_iff.1 (empty _ (split ▸ List.mem_append_right _ List.mem_cons_self))
  -- rationals are finite
  have readable (core : Core Rat) : core.isReadable = true := by
    rw [Core.isReadable_iff]
    intro document _
    rw [Document.isStorable, List.all_eq_true]
    intro field _
    cases field.2 <;> rfl
  let request : Request := .remove (({} : IdSource).nth 3)
  obtain ⟨response, after, yields⟩ := Program.exists_yields
    (World.exists_answers (World.reliable : Call Rat → Prop)) (request.program .likes) before
  have leads : Operation.Leads .likes World.reliable before after (.request request) :=
    ⟨response, yields⟩
  have likes : Manager.likes ∈ Tenants.starsAndLikes.members := by decide
  have stars : Manager.stars ∈ Tenants.starsAndLikes.members := by decide
  have isolated := history.isReached.isolated quiet likes stars (by decide) leads (readable _)
    (readable _)
  exact ⟨before, after, history.isReached, quiet, leads, fun inquiry => isolated.1 inquiry _⟩

end RankLedger

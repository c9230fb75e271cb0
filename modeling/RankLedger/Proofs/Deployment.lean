import RankLedger.Deployment.Basic
import RankLedger.Proofs.History
import RankLedger.Proofs.Manager.Opening

/-!
# Deployments run histories

What is proved of histories is proved of everything that a deployment runs: each answer of
`Deployment.answer` is one that the rules of worlds allow, a world being all that can be observed of
a deployment (`Deployment.Shows`).  The calls that may fail are those that a planned fault can
strike.  Rivals and bots are left out, because they act between the calls of a program, and so no
turn would be a turn of one tenant.

The clock has to show a date that can be stored, as the rules say of it.  The rules let every write
wait in its core, even if the core was never opened, and an index does not.  The programs of managers cannot tell the difference (`Manager.isCareful_save`).
-/

namespace RankLedger

variable {ν : Type}

/-! ## 1. Planned faults -/

namespace IndexFault

variable {core : String} {action : IndexAction} {plan : List IndexFault}

/-- What strikes was planned. -/
theorem exists_of_strike {error : IndexError} (h : (strike core action plan).1 = some error) :
    ∃ fault ∈ plan, fault.core = core ∧ fault.action = action := by
  induction plan with
  | nil => cases h
  | cons fault rest ih =>
      by_cases concerned : fault.core = core ∧ fault.action = action
      · exact ⟨fault, List.mem_cons_self, concerned⟩
      · unfold strike at h
        rw [if_neg concerned] at h
        obtain ⟨planned, mem, same⟩ := ih h
        exact ⟨planned, List.mem_cons_of_mem _ mem, same⟩

/-- Afterwards nothing else is planned than before. -/
theorem exists_of_mem_strike {fault : IndexFault} (mem : fault ∈ (strike core action plan).2) :
    ∃ planned ∈ plan, planned.core = fault.core ∧ planned.action = fault.action := by
  induction plan with
  | nil => cases mem
  | cons first rest ih =>
      have later (mem : fault ∈ (strike core action rest).2) : ∃ planned ∈ first :: rest,
          planned.core = fault.core ∧ planned.action = fault.action := by
        obtain ⟨planned, mem, same⟩ := ih mem
        exact ⟨planned, List.mem_cons_of_mem _ mem, same⟩
      unfold strike at mem
      split at mem
      · split at mem
        · exact ⟨fault, mem, rfl, rfl⟩
        · obtain rfl | mem := List.mem_cons.1 mem
          · exact ⟨first, List.mem_cons_self, rfl, rfl⟩
          · exact later mem
      · obtain rfl | mem := List.mem_cons.1 mem
        · exact ⟨fault, List.mem_cons_self, rfl, rfl⟩
        · exact later mem

def IsAmong (fault : IndexFault) (faults : Call ν → Prop) : Prop :=
  match fault.action with
  | .openCore => faults (.openCore fault.core)
  | .add => ∀ document, faults (.add fault.core document)
  | .delete => ∀ id, faults (.delete fault.core id)
  | .commit => faults (.commit fault.core)
  | .query => ∀ query, faults (.query fault.core query)

end IndexFault

namespace Deployment

def Plans (deployment : Deployment ν) (core : String) (action : IndexAction) : Prop :=
  ∃ fault ∈ deployment.indexFaults, fault.core = core ∧ fault.action = action

def plan (deployment : Deployment ν) (faults : List IndexFault) : Deployment ν :=
  { deployment with indexFaults := faults }

def MayFail (deployment : Deployment ν) : Call ν → Prop
  | .openCore core => deployment.Plans core .openCore
  | .add core _ => deployment.Plans core .add
  | .delete core _ => deployment.Plans core .delete
  | .commit core => deployment.Plans core .commit
  | .query core _ => deployment.Plans core .query
  | .getLock service _ => deployment.failsLock service .get = true
  | .acquire service _ => deployment.failsLock service .take = true
  | _ => False

/-! ## 2. Worlds and deployments -/

/-- This is what can be observed of the deployment, if the listeners had heard `past` before; the
    calls that `faults` holds of may fail. -/
structure Shows (deployment : Deployment ν) (faults : Call ν → Prop)
    (past : List (Notification ν)) (world : World ν) : Prop where
  core : ∀ name, world.core name = (deployment.index.core? name).getD {}
  heard : world.heard = past ++ deployment.heard
  given : ∀ id ∈ world.given, deployment.ids.hasMade id = true
  planned : ∀ call, deployment.MayFail call → faults call
  clock : deployment.clock.IsDate
  noRival : deployment.rival = none
  noBot : deployment.bot = none

variable {deployment : Deployment ν} {faults : Call ν → Prop} {past : List (Notification ν)}
  {world : World ν}

namespace Shows

/-- Two deployments that differ in their locks, or in the plan for the index, show the same. -/
theorem congr (shows : deployment.Shows faults past world) {other : Deployment ν}
    (index : other.index = deployment.index) (heard : other.heard = deployment.heard)
    (ids : other.ids = deployment.ids) (planned : ∀ call, other.MayFail call → faults call)
    (clock : other.clock.IsDate) (rival : other.rival = deployment.rival)
    (bot : other.bot = deployment.bot) : other.Shows faults past world := by
  refine ⟨?_, ?_, ?_, planned, clock, rival.trans shows.noRival, bot.trans shows.noBot⟩
  · rw [index]
    exact shows.core
  · rw [heard]
    exact shows.heard
  · rw [ids]
    exact shows.given

/-- Faults can be planned for the index at any time, if they may strike. -/
theorem plan (shows : deployment.Shows faults past world) {plan : List IndexFault}
    (planned : ∀ fault ∈ plan, fault.IsAmong faults) :
    (deployment.plan plan).Shows faults past world := by
  refine shows.congr rfl rfl rfl (fun call may => ?_) shows.clock rfl rfl
  have among {core : String} {action : IndexAction}
      (plans : (deployment.plan plan).Plans core action) :
      ∃ fault : IndexFault, fault.core = core ∧ fault.action = action ∧ fault.IsAmong faults := by
    obtain ⟨fault, mem, same, acts⟩ := plans
    exact ⟨fault, same, acts, planned fault mem⟩
  cases call with
  | openCore | commit =>
      obtain ⟨fault, rfl, acts, among⟩ := among may
      rwa [IndexFault.IsAmong, acts] at among
  | add | delete | query =>
      obtain ⟨fault, rfl, acts, among⟩ := among may
      rw [IndexFault.IsAmong, acts] at among
      exact among _
  | getLock | acquire => exact shows.planned _ may
  | release | now | freshId | notify => exact may.elim

theorem setLockTable (shows : deployment.Shows faults past world) (service : LockService)
    (table : LockTable) : (deployment.setLockTable service table).Shows faults past world :=
  shows.congr rfl rfl rfl shows.planned shows.clock rfl rfl

/-- A change of one core is seen in the world, if the core was opened or an empty one does not
    change. -/
theorem update (shows : deployment.Shows faults past world) {name : String}
    {change : Core ν → Core ν}
    (isOpen : (deployment.index.core? name).isSome ∨ change {} = {}) :
    ({ deployment with index := deployment.index.update name change } : Deployment ν).Shows faults
      past (world.change name change) := by
  refine ⟨fun other => ?_, shows.heard, shows.given, shows.planned, shows.clock, shows.noRival,
    shows.noBot⟩
  show _ = ((deployment.index.update name change).core? other).getD {}
  rw [Index.core?_update]
  by_cases same : other = name
  · subst same
    rw [World.core_change_self, shows.core]
    cases h : deployment.index.core? other with
    | some core => simp
    | none =>
        rw [h] at isOpen
        exact isOpen.resolve_left Bool.false_ne_true
  · rw [World.core_change_of_ne _ _ _ same, shows.core]
    simp [same]

theorem openCore (shows : deployment.Shows faults past world) {name : String} {index : Index ν}
    (opened : deployment.index.openCore name = .ok index) :
    ({ deployment with index } : Deployment ν).Shows faults past world := by
  refine ⟨fun other => ?_, shows.heard, shows.given, shows.planned, shows.clock, shows.noRival,
    shows.noBot⟩
  by_cases same : other = name
  · subst same
    rw [shows.core, Index.core?_openCore opened]
    rfl
  · rw [shows.core, Index.core?_openCore_of_ne opened same]

/-- The planned faults are asked first.  Either one strikes, or the action is carried out, with what
    is left of the plan. -/
theorem attempt (shows : deployment.Shows faults past world) {α : Type} {core : String}
    {action : IndexAction} {carryOut : Deployment ν → Except IndexError α × Deployment ν}
    {motive : Except IndexError α × Deployment ν → Prop}
    (fails : ∀ (left : Deployment ν) (error : IndexError), left.Shows faults past world →
      left.index = deployment.index → deployment.Plans core action → motive (.error error, left))
    (works : ∀ left : Deployment ν, left.Shows faults past world →
      left.index = deployment.index → motive (carryOut left)) :
    motive (deployment.attempt core action carryOut) := by
  have kept {plan : List IndexFault}
      (h : (IndexFault.strike core action deployment.indexFaults).2 = plan) :
      ({ deployment with indexFaults := plan } : Deployment ν).Shows faults past world := by
    -- a fault that strikes is taken out of the plan, and none comes in
    have fewer {other : String} {action : IndexAction}
        (plans : ({ deployment with indexFaults := plan } : Deployment ν).Plans other action) :
        deployment.Plans other action := by
      obtain ⟨fault, mem, rfl, rfl⟩ := plans
      exact IndexFault.exists_of_mem_strike (h ▸ mem)
    refine shows.congr rfl rfl rfl (fun call may => shows.planned call ?_) shows.clock rfl rfl
    cases call with
    | openCore | add | delete | commit | query => exact fewer may
    | getLock | acquire => exact may
    | release | now | freshId | notify => exact may
  unfold Deployment.attempt
  split
  · rename_i error plan struck
    exact fails _ error (kept (by rw [struck])) rfl
      (IndexFault.exists_of_strike (by rw [struck]))
  · rename_i plan struck
    exact works _ (kept (by rw [struck])) rfl

/-! ## 3. Answers -/

variable [Scalar ν]

def Allowed (faults : Call ν → Prop) (past : List (Notification ν)) (deployment : Deployment ν)
    (world : World ν) (call : Call ν) (outcome : call.Reply × Deployment ν) : Prop :=
  ∃ after, World.Answers faults call world outcome.1 after ∧ outcome.2.Shows faults past after ∧
    ∀ core, (deployment.index.core? core).isSome ∨ call.Opens outcome.1 core →
      (outcome.2.index.core? core).isSome

section Cases

variable (shows : deployment.Shows faults past world)

omit [Scalar ν] in
/-- No answer but that of `openCore` opens a core, and none closes one. -/
theorem stays_open {name : String} {index : Index ν} (same : index = deployment.index)
    (isOpen : (deployment.index.core? name).isSome ∨ False) : (index.core? name).isSome := by
  rw [same]
  exact isOpen.resolve_right id

omit [Scalar ν] in
theorem stays_open_update {name core : String} {change : Core ν → Core ν} {index : Index ν}
    (same : index = deployment.index) (isOpen : (deployment.index.core? core).isSome ∨ False) :
    ((index.update name change).core? core).isSome := by
  rw [Index.core?_update, Option.isSome_map]
  exact stays_open same isOpen

include shows

theorem answer_openCore (name : String) :
    Allowed faults past deployment world (.openCore name)
      (Deployment.answer listen (.openCore name) deployment) := by
  refine shows.attempt (motive := Allowed faults past deployment world (.openCore name))
    (fun left error shows' same plans => ?_) (fun left shows' same => ?_)
  · exact ⟨world, ⟨.inr (shows.planned _ plans), rfl⟩, shows', fun core => stays_open same⟩
  · split
    · rename_i index opened
      refine ⟨world, ⟨?_, rfl⟩, shows'.openCore opened, fun core isOpen => ?_⟩
      · rintro rfl
        cases opened
      · show (index.core? core).isSome
        by_cases here : core = name
        · rw [here, Index.core?_openCore opened]
          rfl
        · rw [Index.core?_openCore_of_ne opened here, same]
          exact isOpen.resolve_right (Ne.symm here)
    · rename_i error refused
      refine ⟨world, ⟨.inl ?_, rfl⟩, shows', fun core => stays_open same⟩
      unfold Index.openCore at refused
      split at refused
      · assumption
      · split at refused <;> cases refused

theorem answer_add (name : String) (document : Document ν)
    (isOpen : (deployment.index.core? name).isSome) :
    Allowed faults past deployment world (.add name document)
      (Deployment.answer listen (.add name document) deployment) := by
  refine shows.attempt (motive := Allowed faults past deployment world (.add name document))
    (fun left error shows' same plans => ?_) (fun left shows' same => ?_)
  · exact ⟨world, ⟨shows.planned (.add name document) plans, rfl⟩, shows',
      fun core => stays_open same⟩
  · exact ⟨_, rfl, shows'.update (.inl (same ▸ isOpen)), fun core => stays_open_update same⟩

theorem answer_delete (name id : String) (isOpen : (deployment.index.core? name).isSome) :
    Allowed faults past deployment world (.delete name id)
      (Deployment.answer listen (.delete name id) deployment) := by
  refine shows.attempt (motive := Allowed faults past deployment world (.delete name id))
    (fun left error shows' same plans => ?_) (fun left shows' same => ?_)
  · exact ⟨world, ⟨shows.planned (.delete name id) plans, rfl⟩, shows',
      fun core => stays_open same⟩
  · exact ⟨_, rfl, shows'.update (.inl (same ▸ isOpen)), fun core => stays_open_update same⟩

theorem answer_commit (name : String) :
    Allowed faults past deployment world (.commit name)
      (Deployment.answer listen (.commit name) deployment) := by
  refine shows.attempt (motive := Allowed faults past deployment world (.commit name))
    (fun left error shows' same plans => ?_) (fun left shows' same => ?_)
  · exact ⟨world, ⟨shows.planned (.commit name) plans, rfl⟩, shows',
      fun core => stays_open same⟩
  · exact ⟨_, rfl, shows'.update (.inr rfl), fun core => stays_open_update same⟩

/-- An index answers for a core that was never opened like for an empty one. -/
theorem answer_query (name : String) (query : IndexQuery ν) :
    Allowed faults past deployment world (.query name query)
      (Deployment.answer listen (.query name query) deployment) := by
  refine shows.attempt (motive := Allowed faults past deployment world (.query name query))
    (fun left error shows' same plans => ?_) (fun left shows' same => ?_)
  · exact ⟨world, ⟨.inr (shows.planned (.query name query) plans), rfl⟩, shows',
      fun core => stays_open same⟩
  · have asked : left.index.query name query = (world.core name).query query := by
      rw [shows'.core]
      rfl
    refine ⟨world, ?_, shows', fun core => stays_open same⟩
    show World.Answers faults (.query name query) world (left.index.query name query) world
    cases h : (world.core name).query query with
    | ok page =>
        rw [asked, h]
        exact ⟨h, rfl⟩
    | error error =>
        rw [asked, h]
        exact ⟨.inl h, rfl⟩

theorem answer_getLock (service : LockService) (key : String) :
    Allowed faults past deployment world (.getLock service key)
      (Deployment.answer listen (.getLock service key) deployment) := by
  show Allowed faults past deployment world (.getLock service key) (deployment.getLock service key)
  dsimp only [Deployment.getLock]
  -- that a key was asked for is noted, but nobody else can see it
  generalize hnoted : (if service = sharedLocks then
      { deployment with keysAsked := deployment.keysAsked ++ [key] }
    else deployment : Deployment ν) = noted
  have index : noted.index = deployment.index := by
    subst hnoted
    split <;> rfl
  have shows' : noted.Shows faults past world := by
    subst hnoted
    split
    · exact shows.congr rfl rfl rfl shows.planned shows.clock rfl rfl
    · exact shows
  split
  · rename_i fails
    exact ⟨world, ⟨shows'.planned (.getLock service key) fails, rfl⟩, shows',
      fun core => stays_open index⟩
  · exact ⟨world, rfl, shows'.setLockTable _ _, fun core => stays_open index⟩

theorem answer_acquire (service : LockService) (lock : LockId) :
    Allowed faults past deployment world (.acquire service lock)
      (Deployment.answer listen (.acquire service lock) deployment) := by
  show Allowed faults past deployment world (.acquire service lock)
    (deployment.acquire service lock)
  dsimp only [Deployment.acquire]
  split
  · rename_i fails
    exact ⟨world, ⟨shows.planned (.acquire service lock) fails, rfl⟩, shows.setLockTable _ _,
      fun core => stays_open rfl⟩
  · split
    · have taken := shows.setLockTable service ((deployment.lockTable service).take lock)
      rw [taken.noRival]
      exact ⟨world, rfl, shows.setLockTable _ _, fun core => stays_open rfl⟩
    · exact ⟨world, rfl, shows.setLockTable _ _, fun core => stays_open rfl⟩

theorem answer_now :
    Allowed faults past deployment world .now (Deployment.answer listen .now deployment) :=
  ⟨_, ⟨shows.clock, rfl⟩, ⟨shows.core, shows.heard, shows.given, shows.planned, shows.clock,
    shows.noRival, shows.noBot⟩, fun _ => stays_open rfl⟩

/-- Whatever was handed out was made before, so the next identifier is new. -/
theorem answer_freshId :
    Allowed faults past deployment world .freshId
      (Deployment.answer listen .freshId deployment) := by
  have fresh : deployment.ids.next.1 ∉ world.given := by
    intro used
    obtain ⟨n, made, same⟩ := (IdSource.hasMade_iff _ _).1 (shows.given _ used)
    rw [IdSource.next, IdSource.nth_inj] at same
    omega
  refine ⟨_, ⟨fresh, rfl⟩, ⟨shows.core, shows.heard, fun id mem => ?_, shows.planned,
    shows.clock, shows.noRival, shows.noBot⟩, fun core => stays_open rfl⟩
  apply (IdSource.hasMade_next _ _).2
  obtain mem | mem := List.mem_append.1 mem
  · exact .inr (shows.given id mem)
  · exact .inl (List.mem_singleton.1 mem)

/-- Without a bot, nobody answers a notification with calls of their own. -/
theorem answer_notify (notification : Notification ν) :
    Allowed faults past deployment world (.notify notification)
      (Deployment.answer listen (.notify notification) deployment) := by
  have heard : (deployment.hear notification).Shows faults past (world.hear [notification]) := by
    refine ⟨shows.core, ?_, shows.given, shows.planned, shows.clock, shows.noRival, shows.noBot⟩
    rw [World.hear, shows.heard, List.append_assoc]
    rfl
  have quiet : listen notification deployment = deployment.hear notification := by
    dsimp only [listen]
    rw [heard.noBot]
  refine ⟨_, rfl, ?_, fun core => stays_open ?_⟩
  · show (listen notification deployment).Shows _ _ _
    rw [quiet]
    exact heard
  · show (listen notification deployment).index = _
    rw [quiet]
    rfl

/-- **Answers.** Every call is answered as the rules allow, if cores are opened before they are
    written to. -/
theorem answer (call : Call ν)
    (written : ∀ core, call.WritesTo core → (deployment.index.core? core).isSome) :
    Allowed faults past deployment world call (Deployment.answer listen call deployment) := by
  cases call with
  | openCore name => exact shows.answer_openCore name
  | add name document => exact shows.answer_add name document (written name rfl)
  | delete name id => exact shows.answer_delete name id (written name rfl)
  | commit name => exact shows.answer_commit name
  | query name query => exact shows.answer_query name query
  | getLock service key => exact shows.answer_getLock service key
  | acquire service lock => exact shows.answer_acquire service lock
  | release service lock => exact ⟨world, rfl, shows.setLockTable _ _, fun _ => stays_open rfl⟩
  | now => exact shows.answer_now
  | freshId => exact shows.answer_freshId
  | notify notification => exact shows.answer_notify notification

end Cases

/-! ## 4. Programs -/

/-- What a deployment makes of a careful program is one of its outcomes. -/
theorem run (shows : deployment.Shows faults past world) {α : Type} {program : Program ν α}
    {opened : String → Prop} (careful : program.OpensFirst opened)
    (isOpen : ∀ core, opened core → (deployment.index.core? core).isSome) :
    ∃ after, program.Yields (World.Answers faults) world (deployment.perform program).1 after ∧
      (deployment.perform program).2.Shows faults past after := by
  induction program generalizing deployment world opened with
  | done result => exact ⟨world, ⟨rfl, rfl⟩, shows⟩
  | step call next ih =>
      obtain ⟨written, rest⟩ := careful
      obtain ⟨middle, answered, shows', stays⟩ :=
        shows.answer call fun core writes => isOpen core (written core writes)
      obtain ⟨after, yields, shows''⟩ := ih _ shows' (rest _) fun core open_ =>
        stays core (open_.imp_left (isOpen core))
      exact ⟨after, ⟨_, middle, answered, yields⟩, shows''⟩

omit [Scalar ν] in
/-- Where nothing is planned to fail, nothing may. -/
theorem calm (shows : deployment.Shows faults past world) (index : deployment.indexFaults = [])
    (locks : deployment.lockFaults = []) : deployment.Shows World.reliable past world := by
  refine ⟨shows.core, shows.heard, shows.given, fun call may => ?_, shows.clock, shows.noRival,
    shows.noBot⟩
  have unplanned {core : String} {action : IndexAction}
      (plans : deployment.Plans core action) : False := by
    obtain ⟨_, mem, -⟩ := plans
    rw [index] at mem
    cases mem
  have unfailing {service : LockService} {action : LockAction}
      (fails : deployment.failsLock service action = true) : False := by
    rw [failsLock, locks, Bool.and_eq_true] at fails
    cases fails.2
  cases call with
  | openCore | add | delete | commit | query => exact (unplanned may).elim
  | getLock | acquire => exact (unfailing may).elim
  | release | now | freshId | notify => exact may.elim

omit [Scalar ν] in
/-- Before anything happened nothing can be observed. -/
theorem start : ({} : Deployment ν).Shows faults [] {} := by
  have shows : ({} : Deployment ν).Shows (fun _ => True) [] {} :=
    ⟨fun _ => rfl, rfl, fun _ mem => absurd mem List.not_mem_nil, fun _ _ => trivial,
      Instant.isDate_ofMillis.2 (by decide), rfl, rfl⟩
  have calm := shows.calm rfl rfl
  exact { calm with planned := fun call may => (calm.planned call may).elim }

end Shows

end Deployment

variable [Scalar ν]

theorem Request.isCareful (manager : Manager) (request : Request) :
    (request.program manager : Program ν (Response ν)).IsCareful := by
  cases request with
  | save => exact Manager.isCareful_save.bind fun _ => trivial
  | remove => exact Manager.isCareful_remove.bind fun _ => trivial
  | recompute => exact Manager.isCareful_recompute.bind fun _ => trivial

/-- **Histories.** A request that a deployment serves is one more turn of the history that led to
    it. -/
theorem History.perform {faults : Call ν → Prop} {tenants : Tenants} {turns : List (Turn ν)}
    {world : World ν} (history : History faults tenants turns world) {deployment : Deployment ν}
    {past : List (Notification ν)} (shows : deployment.Shows faults past world)
    {manager : Manager} (member : manager ∈ tenants.members) (request : Request) :
    ∃ after, (deployment.perform (request.program manager)).2.Shows faults past after ∧
      History faults tenants (turns ++ [⟨manager, request,
        (deployment.perform (request.program manager)).1, world, after⟩]) after := by
  obtain ⟨after, yields, shows⟩ := shows.run (request.isCareful manager) fun _ => False.elim
  exact ⟨after, shows, history.turn member yields⟩

def Turn.visit (turn : Turn ν) : Manager × Request :=
  (turn.manager, turn.request)

def Deployment.serveAll (deployment : Deployment ν) (visits : List (Manager × Request)) :
    Deployment ν :=
  visits.foldl (fun deployment visit => (deployment.perform (visit.2.program visit.1)).2) deployment

theorem History.serveAll {faults : Call ν → Prop} {tenants : Tenants} {turns : List (Turn ν)}
    {world : World ν} (history : History faults tenants turns world) {deployment : Deployment ν}
    {past : List (Notification ν)} (shows : deployment.Shows faults past world)
    {visits : List (Manager × Request)} (members : ∀ visit ∈ visits, visit.1 ∈ tenants.members) :
    ∃ later after, (deployment.serveAll visits).Shows faults past after ∧
      History faults tenants (turns ++ later) after ∧
      later.map Turn.visit = visits := by
  induction visits generalizing turns world deployment with
  | nil => exact ⟨[], world, shows, by rwa [List.append_nil], rfl⟩
  | cons visit rest ih =>
      obtain ⟨middle, shows, history⟩ :=
        history.perform shows (members visit List.mem_cons_self) visit.2
      obtain ⟨later, after, shows, history, visits⟩ :=
        ih history shows fun other mem => members other (List.mem_cons_of_mem _ mem)
      rw [List.append_assoc] at history
      refine ⟨_ :: later, after, shows, history, ?_⟩
      rw [List.map_cons, visits]
      rfl

structure Shift where
  faults : List IndexFault := []
  visits : List (Manager × Request)

def Deployment.serveShifts (deployment : Deployment ν) (shifts : List Shift) : Deployment ν :=
  shifts.foldl (fun deployment shift => (deployment.plan shift.faults).serveAll shift.visits)
    deployment

/-- Shifts make a history, if nothing is planned to fail that may not. -/
theorem History.serveShifts {faults : Call ν → Prop} {tenants : Tenants} {turns : List (Turn ν)}
    {world : World ν} (history : History faults tenants turns world) {deployment : Deployment ν}
    {past : List (Notification ν)} (shows : deployment.Shows faults past world)
    {shifts : List Shift}
    (members : ∀ shift ∈ shifts, ∀ visit ∈ shift.visits, visit.1 ∈ tenants.members)
    (planned : ∀ shift ∈ shifts, ∀ fault ∈ shift.faults, fault.IsAmong faults) :
    ∃ later after, (deployment.serveShifts shifts).Shows faults past after ∧
      History faults tenants (turns ++ later) after ∧
      later.map Turn.visit = shifts.flatMap (·.visits) := by
  induction shifts generalizing turns world deployment with
  | nil => exact ⟨[], world, shows, by rwa [List.append_nil], rfl⟩
  | cons shift rest ih =>
      obtain ⟨served, middle, shows, history, first⟩ :=
        history.serveAll (shows.plan (planned shift List.mem_cons_self))
          (members shift List.mem_cons_self)
      obtain ⟨later, after, shows, history, visits⟩ :=
        ih history shows (fun other mem => members other (List.mem_cons_of_mem _ mem))
          fun other mem => planned other (List.mem_cons_of_mem _ mem)
      rw [List.append_assoc] at history
      refine ⟨served ++ later, after, shows, history, ?_⟩
      rw [List.map_append, first, visits, List.flatMap_cons]

/-! ## 5. Two tenants -/

def Manager.stars : Manager :=
  { identifier := "stars", configuration := {}, locks := Deployment.sharedLocks }

def Manager.likes : Manager :=
  { identifier := "likes"
    configuration :=
      { scale := 1, storeZero := false, storeAverage := false, dedicatedStore := true }
    locks := Deployment.sharedLocks }

def Tenants.starsAndLikes : Tenants where
  members := [.stars, .likes]
  valid := by
    intro manager mem
    simp only [List.mem_cons, List.not_mem_nil, or_false] at mem
    rcases mem with rfl | rfl <;> rfl
  distinct := by decide

/-- Two users vote, one of them twice, and one takes a vote back; one vote is beyond the scale, and
    one is removed by the identifier that was handed out first. -/
def Deployment.busyDay : List (Manager × Request) :=
  let home : EntityReference := ⟨.document, "Main.WebHome"⟩
  [(.stars, .save home ⟨"alice"⟩ 4), (.likes, .save home ⟨"alice"⟩ 1),
    (.stars, .save home ⟨"bob"⟩ 5), (.stars, .save home ⟨"bob"⟩ 3),
    (.likes, .save home ⟨"alice"⟩ 0), (.stars, .save home ⟨"alice"⟩ 9),
    (.stars, .remove (({} : IdSource).nth 0)), (.stars, .recompute home)]

theorem History.exists_busyDay :
    ∃ (turns : List (Turn Rat)) (world : World Rat),
      (({} : Deployment Rat).serveAll Deployment.busyDay).Shows World.reliable [] world ∧
      History World.reliable Tenants.starsAndLikes turns world ∧
      turns.map Turn.visit = Deployment.busyDay := by
  have members : ∀ visit ∈ Deployment.busyDay, visit.1 ∈ Tenants.starsAndLikes.members := by
    decide
  have history : History World.reliable Tenants.starsAndLikes [] ({} : World Rat) := .start
  obtain ⟨turns, world, shows, history, visits⟩ :=
    history.serveAll Deployment.Shows.start members
  exact ⟨turns, world, shows, history, visits⟩

end RankLedger

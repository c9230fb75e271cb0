import RankLedger.Proofs.Merge
import RankLedger.Proofs.Threads.Deeds
import RankLedger.Proofs.Threads.Locks

/-!
# Threads around one lock

Threads whose requests are about one target all refer to one lock, and one of them at most works
under it.  `View` says who stands where, and `View.Rules` what holds of a view at any moment: when
nobody works it is quiet, and otherwise it will be quiet as soon as the work at hand is over.

What the threads will have answered is told from the end (`Serial`): from now on it is what they
answer one after another in some order.  A deed of a thread puts at most one request before the
others: work when it begins, and a removal that finds no vote right after the work that was going
on then.
-/

namespace RankLedger

variable {ν ι : Type} [Scalar ν] [DecidableEq ι]

/-! ## 1. Who works -/

inductive Floor (ι ν : Type) where
  | free
  | taken (thread : ι) (request : Request)
      (rest : Program ν (Response ν × List (Notification ν)))

namespace Floor

def isTaken : Floor ι ν → Bool
  | free => false
  | taken _ _ _ => true

def after (floor : Floor ι ν) (i : ι) (stage : Stage ν) : Floor ι ν :=
  match stage, floor with
  | .inside request rest, _ => taken i request rest
  | .out, free | .queued, free | .told _ _, free => free
  | .out, taken j request rest | .queued, taken j request rest | .told _ _, taken j request rest =>
      if j = i then free else taken j request rest

def program : Floor ι ν → Program ν (ι → List (Exchange ν))
  | free => .done fun _ => []
  | taken thread request rest =>
      rest.bind fun outcome => .done (Function.update (fun _ => []) thread [(request, outcome.1)])

variable {floor : Floor ι ν} {world after : World ν} {entries : ι → List (Exchange ν)}

omit [Scalar ν] in
/-- Somebody else who does not begin to work changes nothing. -/
theorem after_of_idle {i : ι} {stage : Stage ν}
    (idle : ∀ request rest, floor ≠ .taken i request rest)
    (out : ∀ request rest, stage ≠ .inside request rest) : floor.after i stage = floor := by
  cases floor with
  | free =>
      cases stage with
      | inside request rest => exact absurd rfl (out request rest)
      | out | queued | told => rfl
  | taken j request rest =>
      have other : j ≠ i := by
        rintro rfl
        exact idle request rest rfl
      cases stage with
      | inside request rest => exact absurd rfl (out request rest)
      | out | queued | told => exact if_neg other

omit [Scalar ν] in
/-- Whoever stops working leaves nobody at work. -/
theorem after_of_taken {i : ι} {request : Request}
    {rest : Program ν (Response ν × List (Notification ν))} {exchange : Exchange ν}
    {news : List (Notification ν)} :
    (taken i request rest).after i (.told exchange news) = free :=
  if_pos rfl

omit [Scalar ν] [DecidableEq ι] in
/-- At most one thread works. -/
theorem taken_ne {i j : ι} (other : j ≠ i) {request : Request}
    {rest : Program ν (Response ν × List (Notification ν))} (request' : Request)
    (rest' : Program ν (Response ν × List (Notification ν))) :
    taken i request rest ≠ taken j request' rest' := by
  rintro ⟨⟩
  exact other rfl

/-- Only who works will have answered. -/
theorem entries_eq_nil (h : floor.program.Yields (World.Answers World.reliable) world entries after)
    {i : ι} (idle : ∀ request rest, floor ≠ .taken i request rest) : entries i = [] := by
  cases floor with
  | free => rw [h.1]
  | taken thread request rest =>
      obtain ⟨outcome, -, rfl⟩ := Program.yields_map.1 h
      apply Function.update_of_ne
      rintro rfl
      exact idle request rest rfl

end Floor

structure View (ι ν : Type) where
  lock : LockId
  users : List ι := []
  stages : ι → Stage ν := fun _ => .out
  floor : Floor ι ν := .free

structure Theme where
  tenants : Tenants
  manager : Manager
  member : manager ∈ tenants.members
  target : EntityReference
  ids : String → Prop

structure Stage.Stands (users : List ι) (floor : Floor ι ν) (i : ι) (stage : Stage ν) : Prop where
  users : i ∈ users ↔ stage.IsUser
  inside : ∀ request rest, stage = .inside request rest ↔ floor = .taken i request rest

structure View.Rules (theme : Theme) (view : View ι ν) (commons : Commons ν) : Prop where
  distinct : view.users.Nodup
  stands : ∀ i, (view.stages i).Stands view.users view.floor i
  guards : (commons.locks theme.manager.locks).Guards
    (lockKey theme.manager.identifier theme.target) view.lock view.users.length view.floor.isTaken
  ends : commons.world.EndsQuietly theme.tenants theme.manager theme.ids theme.target
    view.floor.program

/-! ## 2. One after another -/

section Serial

variable (tenants : Tenants) (manager : Manager) (answered : ι → List (Exchange ν))
  (final : World ν)

/-- From a world like this one, in which the threads have settled so much, the manager can come to
    the final world by taking requests one after another, so that in the end the threads have
    answered what they did. -/
def Serial (settled : ι → List (Exchange ν)) (world : World ν) : Prop :=
  ∀ turns now, History World.reliable tenants turns now → now.Alike world →
    ∃ later last rest, History World.reliable tenants (turns ++ later) last ∧
      (∀ turn ∈ later, turn.manager = manager) ∧ last.Alike final ∧
      (∀ i, answered i = settled i ++ rest i) ∧ Merges rest (later.map Turn.exchange)

variable {tenants manager answered final} {settled : ι → List (Exchange ν)} {world after : World ν}

/-- At the end nothing is left to take. -/
theorem Serial.done : Serial tenants manager answered final answered final := by
  intro turns now history alike
  refine ⟨[], now, fun _ => [], by rwa [List.append_nil], List.forall_mem_nil _, alike,
    fun i => (List.append_nil _).symm, .done fun _ => rfl⟩

theorem Serial.alike (serial : Serial tenants manager answered final settled world)
    (alike : world.Alike after) : Serial tenants manager answered final settled after :=
  fun turns now history likewise => serial turns now history (likewise.trans alike.symm)

/-- **One request first.** What is left can be taken after a request that leads there. -/
theorem Serial.before {i : ι} {exchange : Exchange ν}
    (serial : Serial tenants manager answered final
      (Function.update settled i (settled i ++ [exchange])) after)
    (member : manager ∈ tenants.members)
    (leads : ∀ now, World.Alike now world → ∃ next, next.Alike after ∧
      (exchange.1.program manager).Yields (World.Answers World.reliable) now exchange.2 next) :
    Serial tenants manager answered final settled world := by
  intro turns now history alike
  obtain ⟨next, alike', yields⟩ := leads now alike
  obtain ⟨later, last, rest, history', own, ends, split, merges⟩ :=
    serial _ next (history.turn member yields) alike'
  refine ⟨⟨manager, exchange.1, exchange.2, now, next⟩ :: later, last,
    Function.update rest i (exchange :: rest i), ?_, ?_, ends, fun j => ?_, ?_⟩
  · rwa [List.append_assoc] at history'
  · exact List.forall_mem_cons.2 ⟨rfl, own⟩
  · by_cases same : j = i
    · subst same
      rw [split, Function.update_self, Function.update_self, List.append_assoc]
      rfl
    · rw [split, Function.update_of_ne same, Function.update_of_ne same]
  · refine @Merges.next ι _ _ _ i exchange (rest i) _ (Function.update_self ..) ?_
    rwa [Function.update_idem, Function.update_eq_self]

end Serial

/-! ## 3. Deeds and what threads will have answered -/

namespace Floor

/-- What the threads will have answered: the work at hand is done first, and then one request after
    another. -/
def Leads (theme : Theme) (answered : ι → List (Exchange ν)) (final : World ν) (floor : Floor ι ν)
    (settled : ι → List (Exchange ν)) (world : World ν) : Prop :=
  ∃ entries after, floor.program.Yields (World.Answers World.reliable) world entries after ∧
    Serial theme.tenants theme.manager answered final (fun i => settled i ++ entries i) after

namespace Leads

variable {theme : Theme} {answered : ι → List (Exchange ν)} {final : World ν} {floor : Floor ι ν}
  {settled : ι → List (Exchange ν)} {before after : World ν} {i : ι}

omit [Scalar ν] in
/-- Adding to what one thread settled. -/
theorem append_update (exchange : Exchange ν) :
    (fun j => settled j ++ Function.update (fun _ => []) i [exchange] j) =
      Function.update settled i (settled i ++ [exchange]) := by
  funext j
  rw [Function.apply_update fun j list => settled j ++ list]
  simp only [List.append_nil]

theorem free_iff : (free : Floor ι ν).Leads theme answered final settled before ↔
    Serial theme.tenants theme.manager answered final settled before := by
  unfold Leads
  constructor
  · rintro ⟨_, _, ⟨rfl, rfl⟩, serial⟩
    simpa only [List.append_nil] using serial
  · intro serial
    exact ⟨_, _, ⟨rfl, rfl⟩, by simpa only [List.append_nil] using serial⟩

theorem taken_iff {request : Request}
    {rest : Program ν (Response ν × List (Notification ν))} :
    (taken i request rest).Leads theme answered final settled before ↔
      ∃ outcome after, rest.Yields (World.Answers World.reliable) before outcome after ∧
        Serial theme.tenants theme.manager answered final
          (Function.update settled i (settled i ++ [(request, outcome.1)])) after := by
  unfold Leads
  constructor
  · rintro ⟨_, after, yields, serial⟩
    obtain ⟨outcome, worked, rfl⟩ := Program.yields_map.1 yields
    rw [append_update] at serial
    exact ⟨outcome, after, worked, serial⟩
  · rintro ⟨outcome, after, yields, serial⟩
    rw [← append_update] at serial
    exact ⟨_, after, Program.yields_map.2 ⟨outcome, yields, rfl⟩, serial⟩

theorem alike (leads : floor.Leads theme answered final settled after)
    (alike : before.Alike after) : floor.Leads theme answered final settled before := by
  obtain ⟨entries, last, yields, serial⟩ := leads
  obtain ⟨last', yields', alike'⟩ := yields.alike alike.symm
  exact ⟨entries, last', yields', serial.alike alike'⟩

/-- What is decided while others work comes after their work. -/
theorem decides {exchange : Exchange ν}
    (leads : floor.Leads theme answered final
      (Function.update settled i (settled i ++ [exchange])) before)
    (barren : exchange.IsBarren theme.manager theme.ids before)
    (ends : before.EndsQuietly theme.tenants theme.manager theme.ids theme.target floor.program)
    (idle : ∀ request rest, floor ≠ .taken i request rest) :
    floor.Leads theme answered final settled before := by
  obtain ⟨entries, last, yields, serial⟩ := leads
  have none := entries_eq_nil yields idle
  have split : (fun j => Function.update settled i (settled i ++ [exchange]) j ++ entries j) =
      Function.update (fun j => settled j ++ entries j) i
        (settled i ++ entries i ++ [exchange]) := by
    funext j
    rw [Function.apply_update fun j list => list ++ entries j, none, List.append_nil,
      List.append_nil]
  rw [split] at serial
  exact ⟨entries, last, yields, serial.before theme.member fun now alike =>
    ⟨now, alike, barren.yields ends theme.member yields alike⟩⟩

/-- Work that begins comes before everything else. -/
theorem enters {request : Request}
    (leads : (taken i request (request.work theme.manager)).Leads theme answered final settled
      before)
    (quiet : before.IsQuiet theme.tenants theme.ids theme.target) :
    (free : Floor ι ν).Leads theme answered final settled before := by
  obtain ⟨outcome, last, worked, serial⟩ := taken_iff.1 leads
  refine free_iff.2 (serial.before theme.member fun now alike => ?_)
  obtain ⟨votes, holds, -⟩ := quiet.places theme.member
  rw [← alike.core] at holds
  obtain ⟨last', worked', alike'⟩ := worked.alike alike.symm
  exact ⟨last'.hear outcome.2, (World.alike_hear _ _).symm.trans alike'.symm,
    Request.yields_of_work (Tenants.isPlaced theme.member) holds worked'⟩

theorem works {request : Request} {call : Call ν}
    {next : call.Reply → Program ν (Response ν × List (Notification ν))} {reply : call.Reply}
    (leads : (taken i request (next reply)).Leads theme answered final settled after)
    (answer : World.Answers World.reliable call before reply after) :
    (taken i request (.step call next)).Leads theme answered final settled before := by
  obtain ⟨entries, last, yields, serial⟩ := leads
  exact ⟨entries, last, ⟨reply, after, answer, yields⟩, serial⟩

/-- Whoever leaves has answered what the work came to. -/
theorem leaves {request : Request} {response : Response ν} {news : List (Notification ν)}
    (leads : (free : Floor ι ν).Leads theme answered final
      (Function.update settled i (settled i ++ [(request, response)])) before) :
    (taken i request (.done (response, news))).Leads theme answered final settled before :=
  taken_iff.2 ⟨_, _, ⟨rfl, rfl⟩, free_iff.1 leads⟩

end Leads

end Floor

/-! ## 4. Deeds and the lock -/

namespace Stage.Stands

variable {users : List ι} {floor : Floor ι ν} {i j : ι} {stage : Stage ν}

omit [Scalar ν] [DecidableEq ι] in
/-- Whoever does not refer to the lock does not work. -/
theorem idle (h : stage.Stands users floor i) (out : ¬ stage.IsUser) (request : Request)
    (rest : Program ν (Response ν × List (Notification ν))) : floor ≠ .taken i request rest := by
  intro taken
  rw [(h.inside request rest).2 taken] at out
  exact out trivial

omit [Scalar ν] [DecidableEq ι] in
/-- Whoever works refers to the lock. -/
theorem mem (h : stage.Stands users floor i) {request : Request}
    {rest : Program ν (Response ν × List (Notification ν))}
    (taken : floor = .taken i request rest) : i ∈ users := by
  rw [h.users, (h.inside request rest).2 taken]
  trivial

omit [Scalar ν] [DecidableEq ι] in
theorem out (absent : i ∉ users) (out : ¬ stage.IsUser)
    (idle : ∀ request rest, floor ≠ .taken i request rest) : stage.Stands users floor i := by
  refine ⟨iff_of_false absent out, fun request rest => iff_of_false ?_ (idle request rest)⟩
  rintro rfl
  exact out trivial

omit [Scalar ν] [DecidableEq ι] in
theorem working (mem : i ∈ users) {request : Request}
    {rest : Program ν (Response ν × List (Notification ν))} :
    (Stage.inside request rest).Stands users (.taken i request rest) i := by
  refine ⟨iff_of_true mem trivial, fun request' rest' => ?_⟩
  rw [Stage.inside.injEq, Floor.taken.injEq]
  exact (and_iff_right rfl).symm

omit [Scalar ν] [DecidableEq ι] in
/-- Others stand as they did when somebody else begins, goes on or ends. -/
theorem others {users' : List ι} {floor' : Floor ι ν} (h : stage.Stands users floor j)
    (same : j ∈ users' ↔ j ∈ users) (idle : ∀ request rest, floor ≠ .taken j request rest)
    (idle' : ∀ request rest, floor' ≠ .taken j request rest) : stage.Stands users' floor' j :=
  ⟨same.trans h.users, fun request rest => (h.inside request rest).trans
    (iff_of_false (idle request rest) (idle' request rest))⟩

omit [Scalar ν] in
theorem update {stages : ι → Stage ν} (here : stage.Stands users floor i)
    (others : ∀ j, j ≠ i → (stages j).Stands users floor j) :
    ∀ j, (Function.update stages i stage j).Stands users floor j :=
  (Function.forall_update_iff _ fun j stage => Stage.Stands users floor j stage).2 ⟨here, others⟩

end Stage.Stands

namespace View.Rules

variable {theme : Theme} {view : View ι ν} {before after : Commons ν} {i : ι} {stage : Stage ν}

/-- Who does not work, and does not begin to, leaves the floor to whoever has it. -/
theorem floor_after (rules : view.Rules theme before) {now : Stage ν} (here : view.stages i = now)
    (out : ∀ request rest, now ≠ .inside request rest) (stage : Stage ν)
    (out' : ∀ request rest, stage ≠ .inside request rest) :
    view.floor.after i stage = view.floor :=
  Floor.after_of_idle (fun request rest taken =>
    out request rest (here ▸ ((rules.stands i).inside _ _).2 taken)) out'

/-- A thread that does not refer to the lock, and will not, is a bystander. -/
theorem bystand (rules : view.Rules theme before) (out : ¬ (view.stages i).IsUser)
    (out' : ¬ stage.IsUser) (locks : after.locks = before.locks)
    (alike : before.world.Alike after.world) :
    Rules theme { view with stages := Function.update view.stages i stage } after := by
  refine ⟨rules.distinct, .update ?_ fun j _ => rules.stands j, locks ▸ rules.guards,
    rules.ends.alike alike⟩
  refine .out ?_ out' ((rules.stands i).idle out)
  rwa [(rules.stands i).users]

/-- Whoever gets the lock gets the one that the others refer to. -/
theorem gets (rules : view.Rules theme before) (out : view.stages i = .out) :
    let table := before.locks theme.manager.locks
    let key := lockKey theme.manager.identifier theme.target
    Rules theme ⟨(table.get key).1, i :: view.users, Function.update view.stages i .queued,
      view.floor⟩ (before.setLocks theme.manager.locks (table.get key).2) ∧
      (0 < view.users.length → (table.get key).1 = view.lock) := by
  intro table key
  have standing := rules.stands i
  rw [out] at standing
  have idle := standing.idle nofun
  have free : view.users.length = 0 → view.floor.isTaken = false := by
    intro none
    cases taken : view.floor with
    | free => rfl
    | taken j request rest =>
        have mem := (rules.stands j).mem taken
        rw [List.length_eq_zero_iff.1 none] at mem
        cases mem
  obtain ⟨guards, same⟩ := rules.guards.get free
  refine ⟨⟨List.nodup_cons.2 ⟨standing.users.not.2 nofun, rules.distinct⟩,
    .update ⟨?_, fun request rest => ?_⟩ fun j other => ⟨?_, (rules.stands j).inside⟩, ?_,
    rules.ends⟩, same⟩
  · exact iff_of_true List.mem_cons_self trivial
  · exact iff_of_false nofun (idle request rest)
  · rw [List.mem_cons, or_iff_right other]
    exact (rules.stands j).users
  · rw [Commons.locks_setLocks]
    exact guards

/-- Whoever enters finds it quiet. -/
theorem enters (rules : view.Rules theme before) (queued : view.stages i = .queued)
    (free : (before.locks theme.manager.locks).isHeld view.lock = false) (request : Request) :
    view.floor = .free ∧ Rules theme { view with
      stages := Function.update view.stages i (.inside request (request.work theme.manager))
      floor := .taken i request (request.work theme.manager) }
      (before.setLocks theme.manager.locks
        ((before.locks theme.manager.locks).take view.lock)) := by
  have guards := rules.guards
  have ends := rules.ends
  cases floor : view.floor with
  | taken j request rest =>
      rw [floor] at guards
      rw [guards.isHeld_of_taken] at free
      cases free
  | free =>
      rw [floor] at guards ends
      have mem : i ∈ view.users := (rules.stands i).users.2 (queued ▸ trivial)
      refine ⟨rfl, rules.distinct, .update (.working mem) fun j other =>
        (rules.stands j).others Iff.rfl ?_ (Floor.taken_ne other), ?_,
        (World.EndsQuietly.enter ends.quiet theme.member request).map⟩
      · rw [floor]
        exact nofun
      · rw [Commons.locks_setLocks]
        exact guards.take.2

/-- Whoever works goes on, and nobody else does. -/
theorem works (rules : view.Rules theme before) {request : Request} {call : Call ν}
    {next : call.Reply → Program ν (Response ν × List (Notification ν))} {reply : call.Reply}
    (inside : view.stages i = .inside request (.step call next))
    (works : (Program.step call next).Works theme.manager.voteCore 1)
    (answer : World.Answers World.reliable call before.world reply after.world)
    (locks : after.locks = before.locks) :
    Rules theme { view with
      stages := Function.update view.stages i (.inside request (next reply))
      floor := .taken i request (next reply) } after := by
  have taken := ((rules.stands i).inside _ _).1 inside
  have guards := rules.guards
  have ends := rules.ends
  rw [taken] at guards ends
  refine ⟨rules.distinct, .update (.working ((rules.stands i).mem taken)) fun j other =>
    (rules.stands j).others Iff.rfl ?_ (Floor.taken_ne other), locks ▸ guards, ?_⟩
  · rw [taken]
    exact Floor.taken_ne other
  · exact ends.work (works.bind (m := 0) fun _ => Program.works_done _) theme.member answer

/-- When the work is over, it is quiet. -/
theorem leaves (rules : view.Rules theme before) {request : Request} {response : Response ν}
    {news : List (Notification ν)}
    (inside : view.stages i = .inside request (.done (response, news))) :
    Rules theme { view with
      users := view.users.erase i
      stages := Function.update view.stages i (.told (request, response) news)
      floor := .free }
      (before.setLocks theme.manager.locks
        ((before.locks theme.manager.locks).dismiss view.lock)) := by
  have taken := ((rules.stands i).inside _ _).1 inside
  have mem := (rules.stands i).mem taken
  have guards := rules.guards
  have ends := rules.ends
  rw [taken] at guards ends
  refine ⟨rules.distinct.erase i, .update (.out rules.distinct.not_mem_erase nofun nofun)
    fun j other => (rules.stands j).others (List.mem_erase_of_ne other) ?_ nofun, ?_,
    .done ends.quiet theme.member _⟩
  · rw [taken]
    exact Floor.taken_ne other
  · rw [← List.length_erase_add_one mem] at guards
    rw [Commons.locks_setLocks]
    exact guards.dismiss

/-- **Deeds.** After every deed the rules hold of another view, and what the threads will have
    answered from there on they will have answered from here on. -/
theorem deed (rules : view.Rules theme before) {lock : LockId} {decided : List (Exchange ν)}
    {act : Act ν} (deed : Deed theme.manager (lockKey theme.manager.identifier theme.target)
      theme.ids view.lock (view.stages i) before stage after lock decided act) :
    ∃ users, Rules theme
        ⟨lock, users, Function.update view.stages i stage, view.floor.after i stage⟩ after ∧
      (∀ j, j ≠ i → (view.stages j).IsUser → lock = view.lock) ∧
      ∀ {answered : ι → List (Exchange ν)} {final : World ν} {settled : ι → List (Exchange ν)},
        (view.floor.after i stage).Leads theme answered final
          (Function.update settled i (settled i ++ decided)) after.world →
        view.floor.Leads theme answered final settled before.world := by
  have unchanged (settled : ι → List (Exchange ν)) :
      Function.update settled i (settled i ++ []) = settled := by
    rw [List.append_nil, Function.update_eq_self]
  -- only a deed that is made under the lock, or about it, changes the floor
  generalize here : view.stages i = stage at deed
  cases deed with
  | silent =>
      rw [rules.floor_after here nofun .out nofun]
      refine ⟨_, rules.bystand (here ▸ nofun) nofun rfl (.refl _), fun _ _ _ => rfl,
        fun leads => ?_⟩
      rwa [unchanged] at leads
  | decides barren =>
      have out : ¬ (view.stages i).IsUser := here ▸ nofun
      rw [rules.floor_after here nofun (.told _ _) nofun]
      exact ⟨_, rules.bystand out nofun rfl (.refl _), fun _ _ _ => rfl,
        fun leads => leads.decides barren rules.ends ((rules.stands i).idle out)⟩
  | gets =>
      obtain ⟨got, same⟩ := rules.gets here
      rw [rules.floor_after here nofun .queued nofun]
      refine ⟨_, got, fun j _ user => same ?_, fun leads => ?_⟩
      · exact List.length_pos_of_mem ((rules.stands j).users.2 user)
      · rwa [unchanged] at leads
  | enters free =>
      obtain ⟨floor, entered⟩ := rules.enters here free _
      have ends := rules.ends
      rw [floor] at ends ⊢
      refine ⟨_, entered, fun _ _ _ => rfl, fun leads => ?_⟩
      rw [unchanged] at leads
      exact leads.enters ends.quiet
  | works works answer locks =>
      refine ⟨_, rules.works here works answer locks, fun _ _ _ => rfl, fun leads => ?_⟩
      rw [unchanged] at leads
      rw [((rules.stands i).inside _ _).1 here]
      exact leads.works answer
  | leaves =>
      have taken := ((rules.stands i).inside _ _).1 here
      rw [taken, Floor.after_of_taken]
      refine ⟨_, rules.leaves here, fun _ _ _ => rfl, fun leads => ?_⟩
      exact leads.leaves
  | tells =>
      have alike := World.alike_hear before.world
      rw [rules.floor_after here nofun (.told _ _) nofun]
      refine ⟨_, rules.bystand (here ▸ nofun) nofun rfl (alike _), fun _ _ _ => rfl,
        fun leads => ?_⟩
      rw [unchanged] at leads
      exact leads.alike (alike _)
  | answers =>
      rw [rules.floor_after here nofun .out nofun]
      refine ⟨_, rules.bystand (here ▸ nofun) nofun rfl (.refl _), fun _ _ _ => rfl,
        fun leads => ?_⟩
      rwa [unchanged] at leads

end View.Rules

/-! ## 5. Steps -/

/-- The threads stand as the view says, and their requests are about the theme. -/
structure View.Fits (theme : Theme) (view : View ι ν) (workshop : Workshop ι ν) : Prop where
  places : ∀ i, (workshop.threads i).IsAt theme.manager theme.target theme.ids view.lock
    (view.stages i)
  about : ∀ i, ∀ request ∈ (workshop.threads i).waiting, request.IsAbout theme.target theme.ids
  rules : view.Rules theme workshop.commons

def View.settled (view : View ι ν) (workshop : Workshop ι ν) (i : ι) : List (Exchange ν) :=
  (workshop.threads i).answered ++ (view.stages i).decided

namespace View.Fits

variable {theme : Theme} {view : View ι ν} {before after last : Workshop ι ν}

/-- **Steps.** Every step of a thread is a deed that leads to another view that fits. -/
theorem advance (fits : view.Fits theme before) {i : ι} {thread : Thread ν} {commons : Commons ν}
    (step : Thread.Step theme.manager (before.threads i) before.commons thread commons) :
    ∃ stage lock users decided,
      Deed theme.manager (lockKey theme.manager.identifier theme.target) theme.ids view.lock
        (view.stages i) before.commons stage commons lock decided
        ((before.threads i).act before.commons.world) ∧
      let view' : View ι ν :=
        ⟨lock, users, Function.update view.stages i stage, view.floor.after i stage⟩
      let after : Workshop ι ν := ⟨Function.update before.threads i thread, commons⟩
      Fits theme view' after ∧ ∀ {answered : ι → List (Exchange ν)} {final : World ν},
        view'.floor.Leads theme answered final (view'.settled after) commons.world →
        view.floor.Leads theme answered final (view.settled before) before.commons.world := by
  have placed := Tenants.isPlaced theme.member
  obtain ⟨stage, lock, decided, deed, place, adds, fewer⟩ :=
    (fits.places i).deed (fits.about i) placed fits.rules.ends.places step
  obtain ⟨users, rules, same, leads⟩ := fits.rules.deed deed
  refine ⟨stage, lock, users, decided, deed,
    ⟨fun j => ?_, fun j => ?_, rules⟩, fun {answered final} later => leads ?_⟩
  · by_cases here : j = i
    · subst here
      simpa only [Function.update_self] using place
    · simp only [Function.update_of_ne here]
      by_cases user : (view.stages j).IsUser
      · rw [same j here user]
        exact fits.places j
      · exact (fits.places j).of_not_isUser user
  · by_cases here : j = i
    · subst here
      simp only [Function.update_self]
      exact fun request mem => fits.about j request (fewer.subset mem)
    · simp only [Function.update_of_ne here]
      exact fits.about j
  -- what is decided by the step has been answered or is still to be answered after it
  · convert later using 1
    funext j
    unfold View.settled
    by_cases here : j = i
    · subst here
      simp only [Function.update_self]
      exact adds.symm
    · simp only [Function.update_of_ne here]

theorem step (fits : view.Fits theme before) (step : Workshop.Step theme.manager before after) :
    ∃ view', Fits theme view' after ∧
      ∀ {answered : ι → List (Exchange ν)} {final : World ν},
        view'.floor.Leads theme answered final (view'.settled after) after.commons.world →
        view.floor.Leads theme answered final (view.settled before) before.commons.world := by
  obtain @⟨i, thread, commons, stepped⟩ := step
  obtain ⟨_, _, _, _, -, fits', leads⟩ := fits.advance stepped
  exact ⟨_, fits', leads⟩

theorem run (fits : view.Fits theme before) (run : Workshop.Run theme.manager before after) :
    ∃ view', Fits theme view' after := by
  induction run with
  | refl => exact ⟨view, fits⟩
  | tail _ step ih =>
      obtain ⟨view, fits⟩ := ih
      obtain ⟨view', fits', -⟩ := fits.step step
      exact ⟨view', fits'⟩

/-- **Progress.** As long as a thread has something to do, some thread can take a step. -/
theorem exists_step (fits : view.Fits theme before) (unfinished : ¬ before.IsFinished) :
    ∃ after, Workshop.Step theme.manager before after := by
  have named := (Tenants.isPlaced theme.member).named
  have guards := fits.rules.guards
  cases floor : view.floor with
  | free =>
      -- nobody works, so whoever waits can enter
      rw [floor] at guards
      obtain ⟨i, unfinished⟩ := not_forall.1 unfinished
      obtain ⟨thread, commons, step⟩ := (fits.places i).exists_step named unfinished fun _ =>
        guards.not_isHeld_of_free _
      exact ⟨_, .thread step⟩
  | taken i request rest =>
      -- whoever works can go on
      have inside := ((fits.rules.stands i).inside request rest).2 floor
      have place := fits.places i
      rw [inside] at place
      obtain ⟨thread, commons, step⟩ := place.exists_step named
        (fun finished => absurd (place.eq_out finished.1) nofun) nofun
      exact ⟨_, .thread step⟩

/-- At the end nobody has to do with the lock. -/
theorem rests (fits : view.Fits theme last) (finished : last.IsFinished) :
    (∀ i, view.stages i = .out) ∧ view.floor = .free := by
  have out (i : ι) : view.stages i = .out := (fits.places i).eq_out (finished i).1
  refine ⟨out, ?_⟩
  cases floor : view.floor with
  | free => rfl
  | taken i request rest =>
      have inside := ((fits.rules.stands i).inside request rest).2 floor
      rw [out i] at inside
      cases inside

/-- **At the end** everything is answered, and nothing is left to do. -/
theorem leads_of_finished (fits : view.Fits theme last) (finished : last.IsFinished) :
    view.floor.Leads theme (fun i => (last.threads i).answered) last.commons.world
      (view.settled last) last.commons.world := by
  obtain ⟨out, free⟩ := fits.rests finished
  have settled : view.settled last = fun i => (last.threads i).answered := by
    funext i
    rw [View.settled, out i]
    exact List.append_nil _
  rw [free, settled]
  exact Floor.Leads.free_iff.2 .done

/-- **Runs.** What the threads have answered at the end of a run they will have answered from its
    beginning. -/
theorem leads (fits : view.Fits theme before) (run : Workshop.Run theme.manager before last)
    (finished : last.IsFinished) :
    view.floor.Leads theme (fun i => (last.threads i).answered) last.commons.world
      (view.settled before) before.commons.world := by
  induction run using Relation.ReflTransGen.head_induction_on generalizing view with
  | refl => exact fits.leads_of_finished finished
  | head step _ ih =>
      obtain ⟨view', fits', earlier⟩ := fits.step step
      exact earlier (ih fits')

end View.Fits

end RankLedger

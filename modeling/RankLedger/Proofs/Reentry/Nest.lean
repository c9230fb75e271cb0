import RankLedger.Proofs.Reentry.Orderly
import RankLedger.Proofs.Repair
import RankLedger.Proofs.Threads.Schedule

/-!
# Listeners that call back

A listener that is told something may run errands through the manager that tells it, before it
returns; what those errands have to tell it is told meanwhile, and it may run further errands then.
A *nest* is the state of such calls: the errands that are under way, the last one first, all of
which but the first are waiting for their listener to return.

Nothing is assumed of listeners.  Whatever they call for, no errand waits for another, and what they
leave behind is what the same errands leave that are run one after another in the order in which
they were called for (`Nest.listeners_may_call_back`).
-/

namespace RankLedger

variable {ν : Type} [Scalar ν]

/-! ## 1. Nests -/

/-- An errand that is under way: its place among all errands, what is left of its program, and what
    the listener is being told and did not return from. -/
structure Ongoing (ν : Type) where
  place : Nat
  rest : Program ν (Errand.Answer ν)
  telling : Option (Notification ν) := none

/-- Errands that are under way, the innermost first; all errands that were called for, in order;
    what came of those that are over; and the minutes of all. -/
structure Nest (ν : Type) where
  ongoing : List (Ongoing ν)
  made : List Errand
  answered : List (Nat × Errand.Answer ν)
  minutes : Minutes ν

namespace Nest

variable (manager : Manager) (faults : Call ν → Prop)

def opening (errand : Errand) (start : Minutes ν) : Nest ν :=
  ⟨[{ place := 0, rest := errand.program manager }], [errand], [], start⟩

/-- The innermost errand takes a step: a call is answered, the listener is told something or
    returns, or the errand is over. -/
inductive Step : Nest ν → Nest ν → Prop
  | call {place : Nat} {call : Call ν} {next : call.Reply → Program ν (Errand.Answer ν)}
      {outer : List (Ongoing ν)} {made : List Errand} {answered : List (Nat × Errand.Answer ν)}
      {reply : call.Reply} {before after : Minutes ν} :
      call.tells = false → Minutes.MayAnswer faults call before reply after →
      Step ⟨⟨place, .step call next, none⟩ :: outer, made, answered, before⟩
        ⟨⟨place, next reply, none⟩ :: outer, made, answered, after⟩
  | tell {place : Nat} {notification : Notification ν} {next : Unit → Program ν (Errand.Answer ν)}
      {outer : List (Ongoing ν)} {made : List Errand} {answered : List (Nat × Errand.Answer ν)}
      {before after : Minutes ν} :
      Minutes.MayAnswer faults (.notify notification) before () after →
      Step ⟨⟨place, .step (.notify notification) next, none⟩ :: outer, made, answered, before⟩
        ⟨⟨place, next (), some notification⟩ :: outer, made, answered, after⟩
  | heard {place : Nat} {rest : Program ν (Errand.Answer ν)} {notification : Notification ν}
      {outer : List (Ongoing ν)} {made : List Errand} {answered : List (Nat × Errand.Answer ν)}
      {minutes : Minutes ν} :
      Step ⟨⟨place, rest, some notification⟩ :: outer, made, answered, minutes⟩
        ⟨⟨place, rest, none⟩ :: outer, made, answered, minutes⟩
  | ended {place : Nat} {answer : Errand.Answer ν} {outer : List (Ongoing ν)} {made : List Errand}
      {answered : List (Nat × Errand.Answer ν)} {minutes : Minutes ν} :
      Step ⟨⟨place, .done answer, none⟩ :: outer, made, answered, minutes⟩
        ⟨outer, made, answered ++ [(place, answer)], minutes⟩

inductive CallsBack : Nest ν → Nest ν → Prop
  | callBack {place : Nat} {rest : Program ν (Errand.Answer ν)} {notification : Notification ν}
      {outer : List (Ongoing ν)} {made : List Errand} {answered : List (Nat × Errand.Answer ν)}
      {minutes : Minutes ν} (errand : Errand) :
      CallsBack ⟨⟨place, rest, some notification⟩ :: outer, made, answered, minutes⟩
        ⟨⟨made.length, errand.program manager, none⟩ :: ⟨place, rest, some notification⟩ :: outer,
          made ++ [errand], answered, minutes⟩

abbrev Run : Nest ν → Nest ν → Prop :=
  Relation.ReflTransGen fun before after =>
    Step faults before after ∨ CallsBack manager before after

end Nest

/-- Errands that are run one after another, listeners only listening: what comes of them, and the
    minutes of all. -/
inductive Errand.InTurn (manager : Manager) (faults : Call ν → Prop) (start : Minutes ν) :
    List Errand → List (Errand.Answer ν) → Minutes ν → Prop
  | start : InTurn manager faults start [] [] start
  | next {errands : List Errand} {answers : List (Errand.Answer ν)} {before after : Minutes ν}
      {errand : Errand} {answer : Errand.Answer ν} :
      InTurn manager faults start errands answers before →
      (errand.program manager).Yields (Minutes.MayAnswer faults) before answer after →
      InTurn manager faults start (errands ++ [errand]) (answers ++ [answer]) after

omit [Scalar ν] in
def Ongoing.Concludes (answers : List (Errand.Answer ν)) (errand : Ongoing ν) : Prop :=
  ∃ answer, errand.rest.conclusion? = some answer ∧ answers[errand.place]? = some answer

omit [Scalar ν] in
/-- What concludes makes no call but to tell. -/
theorem Ongoing.Concludes.tells {place : Nat} {call : Call ν} {telling : Option (Notification ν)}
    {next : call.Reply → Program ν (Errand.Answer ν)} {answers : List (Errand.Answer ν)}
    (h : Concludes answers ⟨place, .step call next, telling⟩) : call.tells = true := by
  obtain ⟨_, concludes, -⟩ := h
  by_contra silent
  rw [Program.conclusion?_step (Bool.eq_false_iff.2 silent)] at concludes
  cases concludes

namespace Nest

variable {manager : Manager} {faults : Call ν → Prop} {start : Minutes ν} {nest next : Nest ν}

theorem length_eq_of_inTurn {errands : List Errand} {answers : List (Errand.Answer ν)}
    {last : Minutes ν} (h : Errand.InTurn manager faults start errands answers last) :
    answers.length = errands.length := by
  induction h with
  | start => rfl
  | next _ _ ih => rw [List.length_append, List.length_append, ih]; rfl

/-! ## 2. What holds of a nest -/

def Recorded (answers : List (Errand.Answer ν)) (answered : List (Nat × Errand.Answer ν)) : Prop :=
  ∀ entry ∈ answered, answers[entry.1]? = some entry.2

/-- Nobody works: every errand that was called for is as good as over, and so far everything is as
    if the errands had been run in turn. -/
inductive Settled (manager : Manager) (faults : Call ν → Prop) (start : Minutes ν) : Nest ν → Prop
  | intro {ongoing : List (Ongoing ν)} {made : List Errand}
      {answered : List (Nat × Errand.Answer ν)} {minutes plain : Minutes ν}
      {answers : List (Errand.Answer ν)} :
      Errand.InTurn manager faults start made answers plain → plain.Alike minutes →
      Hold.free.Agrees minutes.commons.locks → (∀ errand ∈ ongoing, errand.Concludes answers) →
      Recorded answers answered → Settled manager faults start ⟨ongoing, made, answered, minutes⟩

inductive Working (manager : Manager) (faults : Call ν → Prop) (start : Minutes ν) : Nest ν → Prop
  | intro {rest : Program ν (Errand.Answer ν)} {outer : List (Ongoing ν)} {made : List Errand}
      {errand : Errand} {answered : List (Nat × Errand.Answer ν)} {minutes before plain : Minutes ν}
      {answers : List (Errand.Answer ν)} {hold : Hold} :
      Errand.InTurn manager faults start made answers before →
      (∀ answer last, rest.Yields (Minutes.MayAnswer faults) plain answer last →
        (errand.program manager).Yields (Minutes.MayAnswer faults) before answer last) →
      plain.Alike minutes → rest.IsOrderly hold → hold.Agrees minutes.commons.locks →
      (∀ errand ∈ outer, errand.Concludes answers) → Recorded answers answered →
      Working manager faults start
        ⟨⟨made.length, rest, none⟩ :: outer, made ++ [errand], answered, minutes⟩

def Sound (manager : Manager) (faults : Call ν → Prop) (start : Minutes ν) (nest : Nest ν) : Prop :=
  Settled manager faults start nest ∨ Working manager faults start nest

omit [Scalar ν] in
theorem getElem?_append_of_some {answers later : List (Errand.Answer ν)} {place : Nat}
    {answer : Errand.Answer ν} (h : answers[place]? = some answer) :
    (answers ++ later)[place]? = some answer := by
  rw [List.getElem?_append_left (List.getElem?_eq_some_iff.1 h).1, h]

section Working

variable {rest : Program ν (Errand.Answer ν)} {outer : List (Ongoing ν)} {made : List Errand}
  {errand : Errand} {answered : List (Nat × Errand.Answer ν)} {before plain : Minutes ν}
  {answers : List (Errand.Answer ν)}
  (inTurn : Errand.InTurn manager faults start made answers before)
  (others : ∀ errand ∈ outer, errand.Concludes answers) (recorded : Recorded answers answered)
include inTurn others recorded

/-- Work is over when only telling is left. -/
theorem settled_of_conclusion? {minutes : Minutes ν} {result : Errand.Answer ν}
    (comes : ∀ answer last, rest.Yields (Minutes.MayAnswer faults) plain answer last →
      (errand.program manager).Yields (Minutes.MayAnswer faults) before answer last)
    (alike : plain.Alike minutes) (free : Hold.free.Agrees minutes.commons.locks)
    (concludes : rest.conclusion? = some result) :
    Settled manager faults start
      ⟨⟨made.length, rest, none⟩ :: outer, made ++ [errand], answered, minutes⟩ := by
  -- in turn, the errand goes on to the end at once
  obtain ⟨last, yields, told⟩ := Minutes.exists_yields_of_conclusion? concludes plain
  refine .intro (inTurn.next (comes _ _ yields)) (told.symm.trans alike) free ?_ ?_
  · rintro ongoing (_ | ⟨_, mem⟩)
    · refine ⟨result, concludes, ?_⟩
      rw [← length_eq_of_inTurn inTurn, List.getElem?_concat_length]
    · obtain ⟨answer, concludes, found⟩ := others ongoing mem
      exact ⟨answer, concludes, getElem?_append_of_some found⟩
  · exact fun entry mem => getElem?_append_of_some (recorded entry mem)

/-- Work goes on when a call is answered. -/
theorem working_of_call {call : Call ν} {next : call.Reply → Program ν (Errand.Answer ν)}
    {minutes after : Minutes ν} {reply : call.Reply} {hold : Hold}
    (comes : ∀ answer last, (Program.step call next).Yields (Minutes.MayAnswer faults) plain answer
      last → (errand.program manager).Yields (Minutes.MayAnswer faults) before answer last)
    (alike : plain.Alike minutes) (answers : Minutes.MayAnswer faults call minutes reply after)
    (orderly : (next reply).IsOrderly hold) (agrees : hold.Agrees after.commons.locks) :
    Working manager faults start
      ⟨⟨made.length, next reply, none⟩ :: outer, made ++ [errand], answered, after⟩ := by
  obtain ⟨plainly, answered, alike⟩ := answers.alike alike.symm
  refine .intro inTurn (fun answer last yields => ?_) alike.symm orderly agrees others recorded
  exact comes answer last ⟨reply, plainly, answered, yields⟩

end Working

/-! ## 3. Steps -/

theorem Settled.step (h : Settled manager faults start nest) (step : Step faults nest next) :
    Settled manager faults start next := by
  obtain ⟨inTurn, alike, free, concludes, recorded⟩ := h
  have others {top : Ongoing ν} {outer : List (Ongoing ν)} {answers : List (Errand.Answer ν)}
      (all : ∀ errand ∈ top :: outer, errand.Concludes answers) (errand : Ongoing ν)
      (first : errand.Concludes answers) : ∀ other ∈ errand :: outer, other.Concludes answers :=
    List.forall_mem_cons.2 ⟨first, fun other mem => all other (List.mem_cons_of_mem _ mem)⟩
  cases step with
  | call silent answered =>
      -- errands that only tell make no other call
      have := (concludes _ List.mem_cons_self).tells
      rw [silent] at this
      cases this
  | tell told =>
      have same := told.alike_of_notify
      refine .intro inTurn (alike.trans same) (same.locks ▸ free) (others concludes _ ?_) recorded
      obtain ⟨answer, first, found⟩ := concludes _ List.mem_cons_self
      exact ⟨answer, first, found⟩
  | heard =>
      refine .intro inTurn alike free (others concludes _ ?_) recorded
      obtain ⟨answer, first, found⟩ := concludes _ List.mem_cons_self
      exact ⟨answer, first, found⟩
  | ended =>
      obtain ⟨answer, first, found⟩ := concludes _ List.mem_cons_self
      cases first
      refine .intro inTurn alike free
        (fun other mem => concludes other (List.mem_cons_of_mem _ mem)) fun entry mem => ?_
      obtain mem | mem := List.mem_append.1 mem
      · exact recorded entry mem
      · rw [List.mem_singleton.1 mem]
        exact found

theorem Working.step (h : Working manager faults start nest) (step : Step faults nest next) :
    Sound manager faults start next := by
  obtain ⟨inTurn, comes, alike, orderly, agrees, others, recorded⟩ := h
  cases orderly with
  | tells concludes =>
      exact .inl ((settled_of_conclusion? inTurn others recorded comes alike agrees concludes).step
        step)
  | work work rest =>
      cases step with
      | call silent answered =>
          refine .inr (working_of_call inTurn others recorded comes alike answered (rest _) ?_)
          rw [answered.1.locks_of_isWork work]
          exact agrees
      | tell => exact work.elim
  -- a call about the lock is answered by the table, which says how the program stands to it
  | getLock got refused =>
      cases step with
      | @call _ _ _ _ _ _ reply _ _ _ answered =>
          have agrees := answered.1.agrees_getLock agrees
          cases reply with
          | ok lock =>
              exact .inr (working_of_call inTurn others recorded comes alike answered (got lock)
                agrees)
          | error error =>
              exact .inr (working_of_call inTurn others recorded comes alike answered
                (refused error) agrees)
  | acquire taken refused =>
      cases step with
      | @call _ _ _ _ _ _ reply _ _ _ answered =>
          cases reply with
          | ok _ =>
              exact .inr (working_of_call inTurn others recorded comes alike answered taken
                (answered.1.agrees_acquire agrees))
          | error error =>
              exact .inr (working_of_call inTurn others recorded comes alike answered
                (refused error) (answered.1.agrees_acquire_error agrees))
  | release freed =>
      cases step with
      | call _ answered =>
          exact .inr (working_of_call inTurn others recorded comes alike answered freed
            (answered.1.agrees_release agrees))

/-- A listener only calls back when nobody works. -/
theorem Sound.callsBack (apart : manager.voteCore ≠ averageCore)
    (h : Sound manager faults start nest) (calls : CallsBack manager nest next) :
    Working manager faults start next := by
  obtain ⟨errand⟩ := calls
  obtain h | h := h
  · obtain ⟨inTurn, alike, free, concludes, recorded⟩ := h
    exact .intro inTurn (fun _ _ yields => yields) alike (errand.isOrderly apart) free concludes
      recorded
  · cases h

theorem Run.sound (apart : manager.voteCore ≠ averageCore)
    (free : ∀ service, (start.commons.locks service).held = []) {errand : Errand}
    (run : Run manager faults (opening manager errand start) nest) :
    Sound manager faults start nest := by
  induction run with
  | refl =>
      have none : Errand.InTurn manager faults start [] [] start := .start
      exact .inr (.intro none (fun _ _ yields => yields) (.refl _) (errand.isOrderly apart) free
        (List.forall_mem_nil _) (List.forall_mem_nil _))
  | tail _ moves ih =>
      obtain step | calls := moves
      · obtain settled | working := ih
        · exact .inl (settled.step step)
        · exact working.step step
      · exact .inr (ih.callsBack apart calls)

/-! ## 4. No errand waits for another -/

/-- Where nobody works, no lock is taken. -/
theorem Sound.free_of_telling (h : Sound manager faults start nest) {place : Nat}
    {rest : Program ν (Errand.Answer ν)} {notification : Notification ν} {outer : List (Ongoing ν)}
    (telling : nest.ongoing = ⟨place, rest, some notification⟩ :: outer) :
    ∀ service, (nest.minutes.commons.locks service).held = [] := by
  obtain ⟨-, -, free, -, -⟩ | ⟨-, -, -, -, -, -, -⟩ := h
  · exact free
  · cases telling

theorem Sound.free_of_acquire (h : Sound manager faults start nest) {place : Nat}
    {service : LockService} {lock : LockId} {outer : List (Ongoing ν)}
    {next : Except LockError Unit → Program ν (Errand.Answer ν)}
    (waits : nest.ongoing = ⟨place, .step (.acquire service lock) next, none⟩ :: outer) :
    (nest.minutes.commons.locks service).isHeld lock = false := by
  obtain ⟨-, -, -, concludes, -⟩ | ⟨-, -, -, orderly, agrees, -, -⟩ := h
  · cases waits
    have := (concludes _ List.mem_cons_self).tells
    cases this
  · cases waits
    cases orderly with
    | tells concludes => cases concludes
    | work work _ => exact work.elim
    | acquire _ _ =>
        show (LockTable.held _).contains lock = false
        rw [agrees service]
        rfl

theorem Sound.exists_step (h : Sound manager faults start nest) (busy : nest.ongoing ≠ []) :
    ∃ next, Step faults nest next := by
  obtain ⟨ongoing, made, answered, minutes⟩ := nest
  cases ongoing with
  | nil => exact absurd rfl busy
  | cons top outer =>
      obtain ⟨place, rest, _ | notification⟩ := top
      · cases rest with
        | done answer => exact ⟨_, .ended⟩
        | step call next =>
            cases tells : call.tells with
            | true =>
                cases call with
                | notify notification =>
                    obtain ⟨told, answers⟩ :
                        ∃ told, Minutes.MayAnswer faults (.notify notification) minutes () told :=
                      Minutes.exists_mayAnswer_notify notification minutes
                    exact ⟨_, .tell answers⟩
                | _ => cases tells
            | false =>
                obtain ⟨reply, after, answers⟩ :
                    ∃ reply after, Minutes.MayAnswer faults call minutes reply after :=
                  Minutes.exists_mayAnswer call minutes fun service lock same => by
                    subst same
                    exact h.free_of_acquire rfl
                exact ⟨_, .call tells answers⟩
      · exact ⟨_, .heard⟩

/-- **No nest goes on for ever** whose listeners call back no more. -/
theorem wellFounded_step : WellFounded fun after before : Nest ν => Step faults before after := by
  let Ends (ongoing : List (Ongoing ν)) : Prop := ∀ made answered minutes,
    Acc (fun after before => Step faults before after) (⟨ongoing, made, answered, minutes⟩ : Nest ν)
  -- a listener that is told something returns
  have heard {place : Nat} {rest : Program ν (Errand.Answer ν)} {outer : List (Ongoing ν)}
      (silent : Ends (⟨place, rest, none⟩ :: outer)) (telling : Option (Notification ν)) :
      Ends (⟨place, rest, telling⟩ :: outer) := by
    cases telling with
    | none => exact silent
    | some notification =>
        refine fun made answered minutes => ⟨_, ?_⟩
        rintro _ ⟨⟩
        exact silent _ _ _
  have ends (ongoing : List (Ongoing ν)) : Ends ongoing := by
    induction ongoing with
    | nil =>
        refine fun made answered minutes => ⟨_, ?_⟩
        rintro _ ⟨⟩
    | cons top outer outside =>
        obtain ⟨place, program, telling⟩ := top
        -- by induction on what is left of the innermost errand
        induction program generalizing telling with
        | done answer =>
            refine heard (fun made answered minutes => ⟨_, ?_⟩) telling
            rintro _ ⟨⟩
            exact outside _ _ _
        | step call next inside =>
            refine heard (fun made answered minutes => ⟨_, ?_⟩) telling
            rintro _ (_ | _)
            · exact inside _ _ _ _ _
            · exact inside _ _ _ _ _
  exact ⟨fun nest => ends nest.ongoing nest.made nest.answered nest.minutes⟩

/-! ## 5. In turn -/

/-- Every errand that was called for is under way or over. -/
theorem Run.places_perm {errand : Errand}
    (run : Run manager faults (opening manager errand start) nest) :
    (nest.ongoing.map (·.place) ++ nest.answered.map Prod.fst).Perm
      (List.range nest.made.length) := by
  induction run with
  | refl => exact .refl _
  | tail _ moves ih =>
      obtain step | calls := moves
      · cases step with
        | call | tell | heard => exact ih
        | ended =>
            rw [List.map_append, ← List.append_assoc]
            exact (List.perm_append_singleton _ _).trans ih
      · obtain ⟨errand⟩ := calls
        rw [List.length_append, List.length_singleton, List.range_succ]
        exact (List.Perm.cons _ ih).trans (List.perm_append_singleton _ _).symm

/-- **Listeners may call back.** Let an errand be run through a manager where no lock is taken, any
    calls of it fail, and listeners run errands through the manager whenever they are told
    something.  No such nest goes on for ever whose listeners call back no more, and none is stuck:
    a lock that an errand waits for is free, and so are all locks while a listener is being told
    something.  When the first errand is over, no lock is taken, and everything but what was heard
    is as if the errands had been run one after another in the order in which they were called for:
    the same calls were answered the same, and the same came of every errand. -/
theorem listeners_may_call_back (placed : manager.IsPlaced)
    (free : ∀ service, (start.commons.locks service).held = []) (errand : Errand) :
    (WellFounded fun after before : Nest ν => Step faults before after) ∧
    ∀ nest, Run manager faults (opening manager errand start) nest →
      (nest.ongoing ≠ [] → ∃ next, Step faults nest next) ∧
      (∀ place service lock next outer,
        nest.ongoing = ⟨place, .step (.acquire service lock) next, none⟩ :: outer →
          (nest.minutes.commons.locks service).isHeld lock = false) ∧
      (∀ place rest notification outer, nest.ongoing = ⟨place, rest, some notification⟩ :: outer →
        ∀ service, (nest.minutes.commons.locks service).held = []) ∧
      (nest.ongoing = [] → (∀ service, (nest.minutes.commons.locks service).held = []) ∧
        ∃ (answers : List (Errand.Answer ν)) (plain : Minutes ν),
          Errand.InTurn manager faults start nest.made answers plain ∧
          plain.Alike nest.minutes ∧
          ∀ place answer, (place, answer) ∈ nest.answered ↔ answers[place]? = some answer) := by
  refine ⟨wellFounded_step, fun nest run => ?_⟩
  have sound := run.sound placed.separate free
  refine ⟨sound.exists_step, fun place service lock next outer => sound.free_of_acquire,
    fun place rest notification outer => sound.free_of_telling, fun ended => ?_⟩
  have places := run.places_perm
  rw [ended, List.map_nil, List.nil_append] at places
  obtain ⟨inTurn, alike, locks, -, recorded⟩ | ⟨-, -, -, -, -, -, -⟩ := sound
  · refine ⟨locks, _, _, inTurn, alike, fun place answer => ⟨recorded _, fun found => ?_⟩⟩
    -- the errand of that place is over, so something came of it
    have called : place < _ := (List.getElem?_eq_some_iff.1 found).1
    rw [length_eq_of_inTurn inTurn, ← List.mem_range] at called
    obtain ⟨⟨_, other⟩, mem, rfl⟩ := List.mem_map.1 (places.symm.subset called)
    have same := recorded _ mem
    rw [found] at same
    cases same
    exact mem
  · cases ended

/-! ### A commit that is made up for -/

inductive Move where
  | goOn
  /-- The index does not take a document. -/
  | fail
  | callBack (errand : Errand)

def after? (manager : Manager) : Nest ν → Move → Option (Nest ν)
  | ⟨⟨place, rest, some notification⟩ :: outer, made, answered, minutes⟩, .callBack errand =>
      some
        ⟨⟨made.length, errand.program manager, none⟩ :: ⟨place, rest, some notification⟩ :: outer,
          made ++ [errand], answered, minutes⟩
  | ⟨⟨place, rest, some _⟩ :: outer, made, answered, minutes⟩, .goOn =>
      some ⟨⟨place, rest, none⟩ :: outer, made, answered, minutes⟩
  | ⟨⟨place, .done answer, none⟩ :: outer, made, answered, minutes⟩, .goOn =>
      some ⟨outer, made, answered ++ [(place, answer)], minutes⟩
  | ⟨⟨place, .step (.add core document) next, none⟩ :: outer, made, answered, minutes⟩, .fail =>
      let error : Except IndexError Unit := .error (.storage "disk full")
      some ⟨⟨place, next error, none⟩ :: outer, made, answered,
        ⟨minutes.commons, minutes.calls ++ [⟨.add core document, error⟩]⟩⟩
  | ⟨⟨place, .step (.notify notification) next, none⟩ :: outer, made, answered, minutes⟩, .goOn =>
      some ⟨⟨place, next (), some notification⟩ :: outer, made, answered,
        ⟨⟨minutes.commons.world.hear [notification], minutes.commons.locks⟩, minutes.calls⟩⟩
  | ⟨⟨place, .step call next, none⟩ :: outer, made, answered, minutes⟩, .goOn =>
      if call.tells then none
      else (minutes.commons.reply? call).map fun (reply, commons) =>
        ⟨⟨place, next reply, none⟩ :: outer, made, answered,
          ⟨commons, minutes.calls ++ call.noted reply⟩⟩
  | _, _ => none

/-- Moves are steps, or errands of the listener. -/
theorem moves_of_after? {move : Move} (h : nest.after? manager move = some next) :
    Step (fun _ => True) nest next ∨ CallsBack manager nest next := by
  unfold after? at h
  split at h
  · cases h
    exact .inr (.callBack _)
  · cases h
    exact .inl .heard
  · cases h
    exact .inl .ended
  · cases h
    exact .inl (.call rfl ⟨⟨⟨trivial, rfl⟩, rfl⟩, rfl⟩)
  · cases h
    exact .inl (.tell ⟨⟨rfl, rfl⟩, (List.append_nil _).symm⟩)
  · split at h
    · cases h
    · obtain ⟨⟨reply, commons⟩, answered, same⟩ := Option.map_eq_some_iff.1 h
      cases same
      exact .inl (.call (Bool.eq_false_iff.2 ‹_›)
        ⟨(Commons.answers_of_reply? answered).mayAnswer _, rfl⟩)
  · cases h

def follow? (manager : Manager) (nest : Nest ν) (moves : List Move) : Option (Nest ν) :=
  moves.foldlM (after? manager) nest

theorem run_of_follow? {moves : List Move} (h : nest.follow? manager moves = some next) :
    Run manager (fun _ => True) nest next := by
  induction moves generalizing nest with
  | nil =>
      cases h
      exact .refl
  | cons move rest ih =>
      obtain ⟨middle, moved, h⟩ := Option.bind_eq_some_iff.1 h
      exact .head (moves_of_after? moved) (ih h)

def makingUp : List Move :=
  List.replicate 15 .goOn ++ [.fail] ++ List.replicate 2 .goOn ++
    [.callBack (.request (.recompute .home))] ++ List.replicate 18 .goOn

/-- The average is stored when the nest is over, as it is if the vote is saved first and the average
    rebuilt then; of the two errands the second was over first. -/
theorem listener_makes_up :
    ∃ (nest : Nest Rat) (answers : List (Errand.Answer Rat)) (plain : Minutes Rat),
      Run .stars (fun _ => True) (opening .stars (.request (.save .home ⟨"alice"⟩ 4)) {}) nest ∧
      nest.ongoing = [] ∧ nest.answered.map Prod.fst = [1, 0] ∧
      Errand.InTurn .stars (fun _ => True) {} nest.made answers plain ∧ answers.length = 2 ∧
      (plain.commons.world.core averageCore).documents.length = 1 := by
  have ends : (((opening .stars (.request (.save .home ⟨"alice"⟩ 4)) {} : Nest Rat).follow? .stars
      makingUp).map fun nest => (nest.ongoing.length, nest.answered.map Prod.fst, nest.made.length,
        (nest.minutes.commons.world.core averageCore).documents.length)) =
      some (0, [1, 0], 2, 1) := by
    decide +kernel
  obtain ⟨nest, followed, counts⟩ := Option.map_eq_some_iff.1 ends
  obtain ⟨ongoing, counts⟩ := Prod.mk.inj counts
  obtain ⟨answered, counts⟩ := Prod.mk.inj counts
  obtain ⟨made, documents⟩ := Prod.mk.inj counts
  have run := run_of_follow? followed
  have ended := List.length_eq_zero_iff.1 ongoing
  have placed := Tenants.isPlaced (by decide : Manager.stars ∈ Tenants.starsAndLikes.members)
  have free : ∀ service, (({} : Minutes Rat).commons.locks service).held = [] := fun _ => rfl
  obtain ⟨-, nests⟩ := listeners_may_call_back placed free
    (.request (.save .home ⟨"alice"⟩ 4))
  obtain ⟨-, -, -, last⟩ := nests nest run
  obtain ⟨-, answers, plain, inTurn, alike, -⟩ := last ended
  refine ⟨nest, answers, plain, run, ended, answered, inTurn, ?_, ?_⟩
  · rw [length_eq_of_inTurn inTurn, made]
  · rw [alike.world.core, documents]

end Nest

end RankLedger

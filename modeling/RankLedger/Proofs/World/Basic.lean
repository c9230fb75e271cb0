import RankLedger.Deployment.IdSource
import RankLedger.Index.Core
import RankLedger.Manager.Basic
import RankLedger.Proofs.Outcome

/-!
# Worlds

What managers act on, as an observer sees it: the contents of the cores, what the listeners were
told, which identifiers were handed out and what the clock showed.  `World.Answers` are the rules
by which a world answers calls.  They leave open what nobody can foresee: the time, which new
identifier comes next, and which calls fail.  A call that fails leaves no trace; which calls may
fail at all is a parameter, so that one theorem can speak of reliable worlds and another of worlds
in which anything can go wrong.
-/

namespace RankLedger

structure World (ν : Type) where
  /-- The cores by name; one that nobody has opened is empty. -/
  core : String → Core ν := fun _ => {}
  /-- What the listeners were told, in order. -/
  heard : List (Notification ν) := []
  /-- The identifiers that were handed out, in order. -/
  given : List String := []
  /-- What the clock showed each time somebody looked, in order. -/
  shown : List Instant := []

namespace World

variable {ν : Type}

/-! ## 1. Changing a world -/

def change (world : World ν) (name : String) (f : Core ν → Core ν) : World ν :=
  { world with
    core := fun other => if other = name then f (world.core other) else world.core other }

def push (world : World ν) (name : String) (write : CoreWrite ν) : World ν :=
  world.change name (·.push write)

def commit (world : World ν) (name : String) : World ν :=
  world.change name Core.commit

def carryOut (world : World ν) (name : String) (write : CoreWrite ν) : World ν :=
  (world.push name write).commit name

def hear (world : World ν) (news : List (Notification ν)) : World ν :=
  { world with heard := world.heard ++ news }

variable (world : World ν) (name : String) (f : Core ν → Core ν) (write : CoreWrite ν)

@[simp] theorem core_change_self : (world.change name f).core name = f (world.core name) := by
  simp [change]

@[simp] theorem core_change_of_ne {other : String} (h : other ≠ name) :
    (world.change name f).core other = world.core other := by
  simp [change, h]

@[simp] theorem core_carryOut_self :
    (world.carryOut name write).core name = ((world.core name).push write).commit := by
  simp [carryOut, commit, push]

@[simp] theorem core_carryOut_of_ne {other : String} (h : other ≠ name) :
    (world.carryOut name write).core other = world.core other := by
  simp [carryOut, commit, push, h]

@[simp] theorem core_push_self :
    (world.push name write).core name = (world.core name).push write := by
  simp [push]

@[simp] theorem core_push_of_ne {other : String} (h : other ≠ name) :
    (world.push name write).core other = world.core other := by
  simp [push, h]

@[simp] theorem hear_nil : world.hear [] = world := by
  simp [hear]

/-! ## 2. Moments without a change -/

/-- From one moment to a later one nothing was written and nobody was told anything; identifiers
    may have been handed out and the clock may have been looked at. -/
structure Idle (before after : World ν) : Prop where
  core : after.core = before.core
  heard : after.heard = before.heard
  given : before.given <+: after.given
  shown : before.shown <+: after.shown

namespace Idle

variable {before middle after : World ν}

theorem refl (world : World ν) : world.Idle world :=
  ⟨rfl, rfl, List.prefix_rfl, List.prefix_rfl⟩

theorem trans (first : before.Idle middle) (second : middle.Idle after) : before.Idle after :=
  ⟨second.core.trans first.core, second.heard.trans first.heard,
    first.given.trans second.given, first.shown.trans second.shown⟩

theorem change (h : before.Idle after) (name : String) (f : Core ν → Core ν) :
    (before.change name f).Idle (after.change name f) := by
  refine ⟨?_, h.heard, h.given, h.shown⟩
  simp only [World.change, h.core]

theorem push (h : before.Idle after) (name : String) (write : CoreWrite ν) :
    (before.push name write).Idle (after.push name write) :=
  h.change name _

theorem carryOut (h : before.Idle after) (name : String) (write : CoreWrite ν) :
    (before.carryOut name write).Idle (after.carryOut name write) :=
  (h.push name write).change name _

end Idle

/-! ## 3. How calls are answered -/

variable [Scalar ν]

/-- The answers of a world in which the calls that `faults` holds of may fail.  No core has the
    empty name; a core with an unreadable document fails every query; an identifier is never
    handed out twice; and the clock shows dates that can be stored. -/
def Answers (faults : Call ν → Prop) : Program.Rules ν (World ν)
  -- opening leaves no trace, since a core that was never opened is an empty one
  | .openCore core, before, .ok _, after => core ≠ "" ∧ after = before
  | .openCore core, before, .error _, after =>
      (core = "" ∨ faults (.openCore core)) ∧ after = before
  -- writes wait, and are carried out by the next commit of their core
  | .add core document, before, .ok _, after => after = before.push core (.add document)
  | .add core document, before, .error _, after => faults (.add core document) ∧ after = before
  | .delete core id, before, .ok _, after => after = before.push core (.delete id)
  | .delete core id, before, .error _, after => faults (.delete core id) ∧ after = before
  | .commit core, before, .ok _, after => after = before.commit core
  | .commit core, before, .error _, after => faults (.commit core) ∧ after = before
  -- queries see what is committed
  | .query core query, before, .ok page, after =>
      (before.core core).query query = .ok page ∧ after = before
  | .query core query, before, .error error, after =>
      ((before.core core).query query = .error error ∨ faults (.query core query)) ∧
        after = before
  -- one program at a time runs, so it never has to wait for a lock
  | .getLock _ _, before, .ok _, after => after = before
  | .getLock service key, before, .error _, after =>
      faults (.getLock service key) ∧ after = before
  | .acquire _ _, before, .ok _, after => after = before
  | .acquire service lock, before, .error _, after =>
      faults (.acquire service lock) ∧ after = before
  | .release _ _, before, _, after => after = before
  -- the clock may show any date, and goes backwards if it likes
  | .now, before, instant, after =>
      Instant.IsDate instant ∧ after = { before with shown := before.shown ++ [instant] }
  | .freshId, before, id, after =>
      id ∉ before.given ∧ after = { before with given := before.given ++ [id] }
  | .notify notification, before, _, after => after = before.hear [notification]

/-- Nothing fails. -/
def reliable : Call ν → Prop := fun _ => False

/-- What may be answered may be answered where more calls may fail. -/
theorem Answers.mono {faults others : Call ν → Prop} (le : ∀ call, faults call → others call)
    {call : Call ν} {before after : World ν} {reply : call.Reply}
    (h : Answers faults call before reply after) : Answers others call before reply after := by
  cases call with
  | openCore core | query core query =>
      cases reply with
      | ok _ => exact h
      | error error => exact ⟨h.1.imp_right (le _), h.2⟩
  | add | delete | commit | getLock | acquire =>
      cases reply with
      | ok _ => exact h
      | error error => exact ⟨le _ h.1, h.2⟩
  | release | now | freshId | notify => exact h

/-- Every call has an answer, even if nothing may fail. -/
theorem exists_answers (faults : Call ν → Prop) (call : Call ν) (before : World ν) :
    ∃ reply after, Answers faults call before reply after := by
  cases call with
  | openCore core =>
      by_cases h : core = ""
      · exact ⟨.error (.unknownCore core), before, .inl h, rfl⟩
      · exact ⟨.ok (), before, h, rfl⟩
  | add core document => exact ⟨.ok (), _, rfl⟩
  | delete core id => exact ⟨.ok (), _, rfl⟩
  | commit core => exact ⟨.ok (), _, rfl⟩
  | query core query =>
      cases h : (before.core core).query query with
      | ok page => exact ⟨.ok page, before, h, rfl⟩
      | error error => exact ⟨.error error, before, .inl h, rfl⟩
  | getLock service key => exact ⟨.ok default, before, rfl⟩
  | acquire service lock => exact ⟨.ok (), before, rfl⟩
  | release service lock => exact ⟨(), before, rfl⟩
  | now => exact ⟨Instant.epoch, _, by decide, rfl⟩
  | freshId =>
      exact ⟨_, _, IdSource.nth_keepClear_notMem {} before.given 0, rfl⟩
  | notify notification => exact ⟨(), _, rfl⟩

/-- **Cores.** A call leaves the cores as they were, lets a write wait, or commits what waits. -/
theorem Answers.core_cases {faults : Call ν → Prop} {call : Call ν} {before after : World ν}
    {reply : call.Reply} (h : Answers faults call before reply after) :
    after.core = before.core ∨ (∃ name write, after.core = (before.push name write).core) ∨
      ∃ name, call = .commit name ∧ after.core = (before.commit name).core := by
  cases call with
  | openCore name | query name query => cases reply <;> exact .inl (congrArg core h.2)
  | add name document | delete name id =>
      cases reply with
      | ok _ => exact .inr (.inl ⟨_, _, congrArg core (show after = before.push _ _ from h)⟩)
      | error error => exact .inl (congrArg core h.2)
  | commit name =>
      cases reply with
      | ok _ => exact .inr (.inr ⟨_, rfl, congrArg core (show after = before.commit _ from h)⟩)
      | error error => exact .inl (congrArg core h.2)
  | getLock service key | acquire service lock =>
      cases reply with
      | ok _ => exact .inl (congrArg core (show after = before from h))
      | error error => exact .inl (congrArg core h.2)
  | release | notify =>
      obtain rfl : after = _ := h
      exact .inl rfl
  | now | freshId =>
      rw [h.2]
      exact .inl rfl

/-- Every program ends, so it ensures whatever holds of all its outcomes. -/
theorem ensures_iff {α : Type} {faults : Call ν → Prop} {program : Program ν α} {before : World ν}
    {post : α → World ν → Prop} :
    program.Ensures (Answers faults) before post ↔
      ∀ outcome after, program.Yields (Answers faults) before outcome after → post outcome after :=
  ⟨And.right, fun h => ⟨Program.exists_yields (exists_answers faults) program before, h⟩⟩

/-! ## 4. Looking at the clock and making identifiers -/

variable {faults : Call ν → Prop} {before after : World ν}

theorem yields_now {result : Except RankingError Instant}
    (h : (Attempt.now : Attempt ν Instant).run.Yields (Answers faults) before result after) :
    Ends (fun value after => ∃ instant : Instant, instant.IsDate ∧ value = instant.truncated ∧
      after = { before with shown := before.shown ++ [instant] }) (fun _ => False)
      result after := by
  obtain ⟨instant, _, looked, converted⟩ := yields_liftBind.1 h
  obtain ⟨date, rfl⟩ := Program.yields_request.1 looked
  rw [Instant.truncated?_of_isDate date] at converted
  obtain ⟨rfl, rfl⟩ := converted
  exact .ok ⟨instant, date, rfl, rfl⟩

theorem yields_freshId {result : Except RankingError String}
    (h : (Attempt.freshId : Attempt ν String).run.Yields (Answers faults) before result after) :
    Ends (fun id after => id ∉ before.given ∧
      after = { before with given := before.given ++ [id] }) (fun _ => False) result after := by
  rw [Attempt.freshId, yields_exceptLift] at h
  obtain ⟨id, made, rfl⟩ := h
  exact .ok (Program.yields_request.1 made)

/-! The two never fail, so what follows them in a program or in a change always runs. -/

section Bind

variable {β : Type} {outcome : Except RankingError β}
  {announced : List (Notification ν)} {said : Except RankingError β × List (Notification ν)}

theorem yields_now_bind {f : Instant → Attempt ν β}
    (h : (Attempt.now >>= f).run.Yields (Answers faults) before outcome after) :
    ∃ instant : Instant, instant.IsDate ∧ (f instant.truncated).run.Yields (Answers faults)
      { before with shown := before.shown ++ [instant] } outcome after := by
  obtain ⟨-, never⟩ | ⟨_, _, ⟨instant, date, rfl, rfl⟩, rest⟩ := yields_bind_of_ends yields_now h
  · exact never.elim
  · exact ⟨instant, date, rest⟩

theorem yields_freshId_bind {f : String → Attempt ν β}
    (h : (Attempt.freshId >>= f).run.Yields (Answers faults) before outcome after) :
    ∃ id, id ∉ before.given ∧ (f id).run.Yields (Answers faults)
      { before with given := before.given ++ [id] } outcome after := by
  obtain ⟨-, never⟩ | ⟨id, _, ⟨fresh, rfl⟩, rest⟩ := yields_bind_of_ends yields_freshId h
  · exact never.elim
  · exact ⟨id, fresh, rest⟩

theorem yields_now_bindChange {f : Instant → Change ν β}
    (h : ((Change.attempt Attempt.now >>= f).run.run announced).Yields (Answers faults) before said
      after) :
    ∃ instant : Instant, instant.IsDate ∧
      ((f instant.truncated).run.run announced).Yields (Answers faults)
        { before with shown := before.shown ++ [instant] } said after := by
  obtain ⟨-, never⟩ | ⟨_, _, ⟨instant, date, rfl, rfl⟩, rest⟩ :=
    Change.yields_attemptBind_of_ends yields_now h
  · exact never.elim
  · exact ⟨instant, date, rest⟩

theorem yields_freshId_bindChange {f : String → Change ν β}
    (h : ((Change.attempt Attempt.freshId >>= f).run.run announced).Yields (Answers faults) before
      said after) :
    ∃ id, id ∉ before.given ∧ ((f id).run.run announced).Yields (Answers faults)
      { before with given := before.given ++ [id] } said after := by
  obtain ⟨-, never⟩ | ⟨id, _, ⟨fresh, rfl⟩, rest⟩ :=
    Change.yields_attemptBind_of_ends yields_freshId h
  · exact never.elim
  · exact ⟨id, fresh, rest⟩

end Bind

/-- Delivered announcements are heard in order, and nothing else happens. -/
theorem yields_deliver {news : List (Notification ν)} {result : Unit} :
    (Manager.deliver news).Yields (Answers faults) before result after ↔
      after = before.hear news := by
  induction news generalizing before with
  | nil =>
      rw [Manager.deliver, Program.yields_done]
      simp [hear]
  | cons notification rest ih =>
      rw [Manager.deliver, Program.yields_step]
      constructor
      · rintro ⟨_, middle, told, delivered⟩
        -- the rest is heard in a world that heard the first one already
        rw [show middle = before.hear [notification] from told] at delivered
        rw [ih.1 delivered]
        simp [hear]
      · rintro rfl
        refine ⟨(), before.hear [notification], rfl, ih.2 ?_⟩
        simp [hear]

end World

end RankLedger

import RankLedger.Manager.Basic

/-!
# Outcomes of programs

A program alone does not say how its calls are answered.  *Rules* say which answers a call may get
in a state and which state it leaves, and `Program.Yields` follows a program through all of its
calls: one program may have many outcomes, and it has at least one as long as every call has an
answer (`Program.exists_yields`).

The laws come in the shape in which they are used: what it means that a step, a sequence, an
attempt or a change has a given outcome.  A part of a program that can fail either ends well or
ends the whole (`Ends`, `yields_bind_of_ends`).
-/

namespace RankLedger

/-! ## 1. Programs -/

namespace Program

variable {ν α β σ : Type}

abbrev Rules (ν σ : Type) := (call : Call ν) → σ → call.Reply → σ → Prop

/-- A program can end with this result and in this state, each call answered by the rules. -/
def Yields (rules : Rules ν σ) : Program ν α → σ → α → σ → Prop
  | .done result, before, outcome, after => outcome = result ∧ after = before
  | .step call next, before, outcome, after =>
      ∃ reply middle, rules call before reply middle ∧
        (next reply).Yields rules middle outcome after

variable {rules : Rules ν σ} {before after : σ}

@[simp] theorem yields_done {result outcome : α} :
    (done result).Yields rules before outcome after ↔ outcome = result ∧ after = before :=
  Iff.rfl

theorem yields_step {call : Call ν} {next : call.Reply → Program ν α} {outcome : α} :
    (step call next).Yields rules before outcome after ↔
      ∃ reply middle, rules call before reply middle ∧
        (next reply).Yields rules middle outcome after :=
  Iff.rfl

@[simp] theorem yields_request {call : Call ν} {reply : call.Reply} :
    (request call).Yields rules before reply after ↔ rules call before reply after := by
  simp only [request, yields_step, yields_done]
  constructor
  · rintro ⟨_, _, h, rfl, rfl⟩
    exact h
  · intro h
    exact ⟨_, _, h, rfl, rfl⟩

theorem yields_bind {program : Program ν α} {f : α → Program ν β} {outcome : β} :
    (program.bind f).Yields rules before outcome after ↔
      ∃ result middle, program.Yields rules before result middle ∧
        (f result).Yields rules middle outcome after := by
  induction program generalizing before with
  | done result =>
      rw [done_bind]
      constructor
      · intro h
        exact ⟨result, before, ⟨rfl, rfl⟩, h⟩
      · rintro ⟨_, _, ⟨rfl, rfl⟩, h⟩
        exact h
  | step call next ih =>
      -- both sides make the same calls; only the order of the witnesses differs
      simp only [step_bind, yields_step, ih]
      constructor
      · rintro ⟨reply, first, answered, result, middle, yields, rest⟩
        exact ⟨result, middle, ⟨reply, first, answered, yields⟩, rest⟩
      · rintro ⟨result, middle, ⟨reply, first, answered, yields⟩, rest⟩
        exact ⟨reply, first, answered, result, middle, yields, rest⟩

/-- A last step that turns the result into another one. -/
theorem yields_map {program : Program ν α} {f : α → β} {outcome : β} :
    (program.bind fun result => done (f result)).Yields rules before outcome after ↔
      ∃ result, program.Yields rules before result after ∧ outcome = f result := by
  rw [yields_bind]
  constructor
  · rintro ⟨result, _, first, rfl, rfl⟩
    exact ⟨result, first, rfl⟩
  · rintro ⟨result, first, rfl⟩
    exact ⟨result, after, first, rfl, rfl⟩

/-- A program has an outcome if every call has an answer. -/
theorem exists_yields (total : ∀ call before, ∃ reply after, rules call before reply after)
    (program : Program ν α) (before : σ) :
    ∃ outcome after, program.Yields rules before outcome after := by
  induction program generalizing before with
  | done result => exact ⟨result, before, rfl, rfl⟩
  | step call next ih =>
      -- the reply decides which program is left, so the induction hypothesis is about that one
      obtain ⟨reply, middle, answered⟩ := total call before
      obtain ⟨outcome, after, yields⟩ := ih reply middle
      exact ⟨outcome, after, reply, middle, answered, yields⟩

/-- A program ends, and however it ends, this holds of its result and of the state it leaves. -/
def Ensures (rules : Rules ν σ) (program : Program ν α) (before : σ) (post : α → σ → Prop) :
    Prop :=
  (∃ outcome after, program.Yields rules before outcome after) ∧
    ∀ outcome after, program.Yields rules before outcome after → post outcome after

end Program

/-! ## 2. Programs that may fail -/

variable {ν α β σ ε : Type} {rules : Program.Rules ν σ} {before after : σ}

theorem yields_exceptPure {result : α} {outcome : Except ε α} :
    (pure result : ExceptT ε (Program ν) α).run.Yields rules before outcome after ↔
      outcome = .ok result ∧ after = before :=
  Iff.rfl

/-- The second part runs where the first one ended, or not at all. -/
theorem yields_exceptBind {program : ExceptT ε (Program ν) α} {f : α → ExceptT ε (Program ν) β}
    {outcome : Except ε β} :
    (program >>= f).run.Yields rules before outcome after ↔
      (∃ error, program.run.Yields rules before (.error error) after ∧
        outcome = .error error) ∨
      ∃ result middle, program.run.Yields rules before (.ok result) middle ∧
        (f result).run.Yields rules middle outcome after := by
  show (Program.bind _ _).Yields rules before outcome after ↔ _
  rw [Program.yields_bind]
  constructor
  · rintro ⟨error | result, middle, first, rest⟩
    · obtain ⟨rfl, rfl⟩ := Program.yields_done.1 rest
      exact .inl ⟨_, first, rfl⟩
    · exact .inr ⟨result, middle, first, rest⟩
  · rintro (⟨error, first, rfl⟩ | ⟨result, middle, first, rest⟩)
    · exact ⟨_, _, first, rfl, rfl⟩
    · exact ⟨_, _, first, rest⟩

/-- Two programs that begin alike have the same outcomes if they go on alike. -/
theorem yields_exceptBind_congr {program : ExceptT ε (Program ν) α}
    {f g : α → ExceptT ε (Program ν) β} {outcome : Except ε β}
    (alike : ∀ result middle, program.run.Yields rules before (.ok result) middle →
      ((f result).run.Yields rules middle outcome after ↔
        (g result).run.Yields rules middle outcome after)) :
    (program >>= f).run.Yields rules before outcome after ↔
      (program >>= g).run.Yields rules before outcome after := by
  rw [yields_exceptBind, yields_exceptBind]
  refine or_congr Iff.rfl (exists_congr fun result => exists_congr fun middle => ?_)
  exact and_congr_right (alike result middle)

/-- A part that cannot fail. -/
theorem yields_exceptLift {program : Program ν α} {outcome : Except ε α} :
    (ExceptT.lift program : ExceptT ε (Program ν) α).run.Yields rules before outcome after ↔
      ∃ result, program.Yields rules before result after ∧ outcome = .ok result :=
  Program.yields_map

/-- What follows a part that cannot fail always runs. -/
theorem yields_liftBind {program : Program ν α} {f : α → ExceptT ε (Program ν) β}
    {outcome : Except ε β} :
    ((ExceptT.lift program : ExceptT ε (Program ν) α) >>= f).run.Yields rules before outcome
        after ↔
      ∃ result middle, program.Yields rules before result middle ∧
        (f result).run.Yields rules middle outcome after := by
  rw [yields_exceptBind]
  constructor
  · rintro (⟨_, lifted, _⟩ | ⟨result, middle, lifted, rest⟩)
    · obtain ⟨_, _, wrong⟩ := yields_exceptLift.1 lifted
      cases wrong
    · obtain ⟨_, first, right⟩ := yields_exceptLift.1 lifted
      cases right
      exact ⟨result, middle, first, rest⟩
  · rintro ⟨result, middle, first, rest⟩
    exact .inr ⟨result, middle, yields_exceptLift.2 ⟨result, first, rfl⟩, rest⟩

/-- How a part ends: with a value and in a state that go together, or with some error and in a state
    that an error may leave. -/
inductive Ends (good : α → σ → Prop) (bad : σ → Prop) : Except ε α → σ → Prop
  | ok {value : α} {after : σ} : good value after → Ends good bad (.ok value) after
  | error {error : ε} {after : σ} : bad after → Ends good bad (.error error) after

/-- **Sequences.** What follows a part starts from a value and a state that go together. -/
theorem yields_bind_of_ends {program : ExceptT ε (Program ν) α} {good : α → σ → Prop}
    {bad : σ → Prop}
    (ends : ∀ {result : Except ε α} {middle : σ}, program.run.Yields rules before result middle →
      Ends good bad result middle)
    {f : α → ExceptT ε (Program ν) β} {outcome : Except ε β}
    (h : (program >>= f).run.Yields rules before outcome after) :
    ((∃ error, outcome = .error error) ∧ bad after) ∨
      ∃ value middle, good value middle ∧ (f value).run.Yields rules middle outcome after := by
  -- of the two ends of the part only one fits what happened next
  obtain ⟨error, failed, rfl⟩ | ⟨value, middle, worked, rest⟩ := yields_exceptBind.1 h
  · cases ends failed with
    | error reason => exact .inl ⟨⟨error, rfl⟩, reason⟩
  · cases ends worked with
    | ok right => exact .inr ⟨value, middle, right, rest⟩

namespace Attempt

/-- The kind of an error depends on who failed; whether there was one does not. -/
theorem yields_inContext {context : String} {program : ExceptT IndexError (Program ν) α}
    {outcome : Except RankingError α} :
    (inContext context program).run.Yields rules before outcome after ↔
      ∃ result, program.run.Yields rules before result after ∧
        outcome = result.mapError (.index context) :=
  Program.yields_map

theorem yields_locking {program : Program ν (Except LockError α)}
    {outcome : Except RankingError α} :
    (locking program).run.Yields rules before outcome after ↔
      ∃ result, program.Yields rules before result after ∧
        outcome = result.mapError .lock :=
  Program.yields_map

theorem yields_ofExcept {result outcome : Except RankingError α} :
    (ofExcept result : Attempt ν α).run.Yields rules before outcome after ↔
      outcome = result ∧ after = before :=
  Iff.rfl

end Attempt

/-! ## 3. Programs that announce what they did -/

namespace Change

variable {announced : List (Notification ν)}
  {outcome : Except RankingError β × List (Notification ν)}

/-- A failure ends the change and keeps what was announced before it. -/
theorem yields_bind {change : Change ν α} {f : α → Change ν β} :
    ((change >>= f).run.run announced).Yields rules before outcome after ↔
      (∃ error said, (change.run.run announced).Yields rules before (.error error, said) after ∧
        outcome = (.error error, said)) ∨
      ∃ result said middle,
        (change.run.run announced).Yields rules before (.ok result, said) middle ∧
          ((f result).run.run said).Yields rules middle outcome after := by
  rw [Change.run_bind, Program.yields_bind]
  constructor
  · rintro ⟨⟨error | result, said⟩, middle, first, rest⟩
    · obtain ⟨rfl, rfl⟩ := Program.yields_done.1 rest
      exact .inl ⟨_, _, first, rfl⟩
    · exact .inr ⟨result, said, middle, first, rest⟩
  · rintro (⟨error, said, first, rfl⟩ | ⟨result, said, middle, first, rest⟩)
    · exact ⟨_, _, first, rfl, rfl⟩
    · exact ⟨_, _, first, rest⟩

/-- The same for a change that ends in one of two ways, which says what was announced by then. -/
theorem yields_bind_of_ends {change : Change ν α} {good : α → List (Notification ν) × σ → Prop}
    {bad : List (Notification ν) × σ → Prop}
    (ends : ∀ {result : Except RankingError α} {said : List (Notification ν)} {middle : σ},
      (change.run.run announced).Yields rules before (result, said) middle →
        Ends good bad result (said, middle))
    {f : α → Change ν β} (h : ((change >>= f).run.run announced).Yields rules before outcome
      after) :
    (∃ error said, outcome = (.error error, said) ∧ bad (said, after)) ∨
      ∃ value said middle, good value (said, middle) ∧
        ((f value).run.run said).Yields rules middle outcome after := by
  obtain ⟨error, said, failed, rfl⟩ | ⟨value, said, middle, worked, rest⟩ := yields_bind.1 h
  · cases ends failed with
    | error reason => exact .inl ⟨error, said, rfl, reason⟩
  · cases ends worked with
    | ok right => exact .inr ⟨value, said, middle, right, rest⟩

theorem yields_attempt {program : Attempt ν β} :
    ((attempt program).run.run announced).Yields rules before outcome after ↔
      ∃ result, program.run.Yields rules before result after ∧ outcome = (result, announced) := by
  rw [Change.run_attempt]
  exact Program.yields_map

/-- What follows a part without announcements. -/
theorem yields_attemptBind {program : Attempt ν α} {f : α → Change ν β} :
    ((attempt program >>= f).run.run announced).Yields rules before outcome after ↔
      (∃ error, program.run.Yields rules before (.error error) after ∧
        outcome = (.error error, announced)) ∨
      ∃ result middle, program.run.Yields rules before (.ok result) middle ∧
        ((f result).run.run announced).Yields rules middle outcome after := by
  rw [yields_bind]
  constructor
  · rintro (⟨error, said, failed, rfl⟩ | ⟨result, said, middle, worked, rest⟩)
    · obtain ⟨_, first, same⟩ := yields_attempt.1 failed
      cases same
      exact .inl ⟨error, first, rfl⟩
    · obtain ⟨_, first, same⟩ := yields_attempt.1 worked
      cases same
      exact .inr ⟨result, middle, first, rest⟩
  · rintro (⟨error, failed, rfl⟩ | ⟨result, middle, worked, rest⟩)
    · exact .inl ⟨error, announced, yields_attempt.2 ⟨_, failed, rfl⟩, rfl⟩
    · exact .inr ⟨result, announced, middle, yields_attempt.2 ⟨_, worked, rfl⟩, rest⟩

/-- The same for a part that ends in one of two ways. -/
theorem yields_attemptBind_of_ends {program : Attempt ν α} {good : α → σ → Prop} {bad : σ → Prop}
    (ends : ∀ {result : Except RankingError α} {middle : σ},
      program.run.Yields rules before result middle → Ends good bad result middle)
    {f : α → Change ν β} (h : ((attempt program >>= f).run.run announced).Yields rules before
      outcome after) :
    ((∃ error, outcome = (.error error, announced)) ∧ bad after) ∨
      ∃ value middle, good value middle ∧
        ((f value).run.run announced).Yields rules middle outcome after := by
  obtain ⟨error, failed, rfl⟩ | ⟨value, middle, worked, rest⟩ := yields_attemptBind.1 h
  · cases ends failed with
    | error reason => exact .inl ⟨⟨error, rfl⟩, reason⟩
  · cases ends worked with
    | ok right => exact .inr ⟨value, middle, right, rest⟩

/-- A last step that only gives the answer. -/
theorem yields_bindPure {change : Change ν α} {answer : β} :
    ((change >>= fun _ => pure answer).run.run announced).Yields rules before outcome after ↔
      ∃ result, (change.run.run announced).Yields rules before (result, outcome.2) after ∧
        outcome.1 = result.map fun _ => answer := by
  rw [yields_bind]
  constructor
  · rintro (⟨error, said, failed, rfl⟩ | ⟨value, said, _, worked, rfl, rfl⟩)
    · exact ⟨_, failed, rfl⟩
    · exact ⟨_, worked, rfl⟩
  · obtain ⟨result, said⟩ := outcome
    rintro ⟨error | value, first, rfl⟩
    · exact .inl ⟨error, said, first, rfl⟩
    · exact .inr ⟨value, said, after, first, rfl, rfl⟩

theorem yields_announce {notification : Notification ν}
    {outcome : Except RankingError PUnit × List (Notification ν)} :
    ((announce notification).run.run announced).Yields rules before outcome after ↔
      outcome = (.ok ⟨⟩, announced ++ [notification]) ∧ after = before :=
  Iff.rfl

end Change

end RankLedger

import RankLedger.Proofs.Index.Shelf
import RankLedger.Proofs.Manager.Working
import RankLedger.Proofs.World.Basic

/-!
# What a program cannot tell

No call asks what the listeners were told.  So two worlds that differ in this alone are alike to
every program (`Program.Yields.alike`).

A core that a program does not commit keeps its documents, whatever else the program does
(`Program.Works.documents`).
-/

namespace RankLedger

variable {ν α : Type}

namespace World

structure Alike (a b : World ν) : Prop where
  core : a.core = b.core
  given : a.given = b.given
  shown : a.shown = b.shown

variable {a b c a' : World ν}

theorem Alike.refl (a : World ν) : a.Alike a := ⟨rfl, rfl, rfl⟩

theorem Alike.symm (h : a.Alike b) : b.Alike a := ⟨h.core.symm, h.given.symm, h.shown.symm⟩

theorem Alike.trans (h : a.Alike b) (h' : b.Alike c) : a.Alike c :=
  ⟨h.core.trans h'.core, h.given.trans h'.given, h.shown.trans h'.shown⟩

theorem alike_hear (a : World ν) (news : List (Notification ν)) : a.Alike (a.hear news) :=
  ⟨rfl, rfl, rfl⟩

theorem Alike.change (h : a.Alike b) (name : String) (f : Core ν → Core ν) :
    (a.change name f).Alike (b.change name f) := by
  refine ⟨?_, h.given, h.shown⟩
  simp only [World.change, h.core]

variable [Scalar ν] {faults : Call ν → Prop}

/-- What a call is answered in one world it can be answered in the other. -/
theorem Answers.alike {call : Call ν} {reply : call.Reply} (h : Answers faults call a reply a')
    (alike : a.Alike b) : ∃ b', Answers faults call b reply b' ∧ a'.Alike b' := by
  cases call with
  | openCore core =>
      cases reply with
      | ok _ => exact ⟨b, ⟨h.1, rfl⟩, h.2 ▸ alike⟩
      | error error => exact ⟨b, ⟨h.1, rfl⟩, h.2 ▸ alike⟩
  | add core document =>
      cases reply with
      | ok _ =>
          obtain rfl : a' = a.push core (.add document) := h
          exact ⟨_, rfl, alike.change _ _⟩
      | error error => exact ⟨b, ⟨h.1, rfl⟩, h.2 ▸ alike⟩
  | delete core id =>
      cases reply with
      | ok _ =>
          obtain rfl : a' = a.push core (.delete id) := h
          exact ⟨_, rfl, alike.change _ _⟩
      | error error => exact ⟨b, ⟨h.1, rfl⟩, h.2 ▸ alike⟩
  | commit core =>
      cases reply with
      | ok _ =>
          obtain rfl : a' = a.commit core := h
          exact ⟨_, rfl, alike.change _ _⟩
      | error error => exact ⟨b, ⟨h.1, rfl⟩, h.2 ▸ alike⟩
  | query core query =>
      cases reply with
      | ok page => exact ⟨b, ⟨alike.core ▸ h.1, rfl⟩, h.2 ▸ alike⟩
      | error error => exact ⟨b, ⟨alike.core ▸ h.1, rfl⟩, h.2 ▸ alike⟩
  | getLock service key =>
      cases reply with
      | ok lock => exact ⟨b, rfl, (show a' = a from h) ▸ alike⟩
      | error error => exact ⟨b, ⟨h.1, rfl⟩, h.2 ▸ alike⟩
  | acquire service lock =>
      cases reply with
      | ok _ => exact ⟨b, rfl, (show a' = a from h) ▸ alike⟩
      | error error => exact ⟨b, ⟨h.1, rfl⟩, h.2 ▸ alike⟩
  | release service lock => exact ⟨b, rfl, (show a' = a from h) ▸ alike⟩
  -- what was shown of the clock and what was handed out is the same in both worlds
  | now =>
      obtain ⟨date, rfl⟩ := h
      exact ⟨_, ⟨date, rfl⟩, alike.core, alike.given, by rw [alike.shown]⟩
  | freshId =>
      obtain ⟨fresh, rfl⟩ : reply ∉ a.given ∧ a' = { a with given := a.given ++ [reply] } := h
      exact ⟨_, ⟨alike.given ▸ fresh, rfl⟩, alike.core, by rw [alike.given], alike.shown⟩
  | notify notification =>
      obtain rfl : a' = a.hear [notification] := h
      exact ⟨_, rfl, alike.core, alike.given, alike.shown⟩

end World

variable [Scalar ν] {faults : Call ν → Prop} {a b a' : World ν} {program : Program ν α}
  {outcome : α}

/-- **No program can tell** what was heard. -/
theorem Program.Yields.alike (h : program.Yields (World.Answers faults) a outcome a')
    (alike : a.Alike b) :
    ∃ b', program.Yields (World.Answers faults) b outcome b' ∧ a'.Alike b' := by
  induction program generalizing a b with
  | done result =>
      obtain ⟨rfl, rfl⟩ := h
      exact ⟨b, ⟨rfl, rfl⟩, alike⟩
  | step call next ih =>
      obtain ⟨reply, middle, answered, rest⟩ := h
      obtain ⟨middle', answered', alike'⟩ := answered.alike alike
      obtain ⟨b', yields, last⟩ := ih reply rest alike'
      exact ⟨b', ⟨reply, middle', answered', yields⟩, last⟩

/-! ## Documents -/

variable {core : String}

omit [Scalar ν] in
/-- A write that waits is not seen yet. -/
theorem World.documents_push (world : World ν) (name : String) (write : CoreWrite ν) :
    ((world.push name write).core core).documents = (world.core core).documents := by
  by_cases same : core = name
  · rw [same, World.core_push_self]
    rfl
  · rw [World.core_push_of_ne _ _ _ same]

theorem World.Answers.documents {call : Call ν} {reply : call.Reply}
    (h : World.Answers faults call a reply a') (stays : call.commits core = 0) :
    (a'.core core).documents = (a.core core).documents := by
  obtain same | ⟨name, write, pushed⟩ | ⟨name, rfl, committed⟩ := h.core_cases
  · rw [same]
  · rw [pushed, World.documents_push]
  · have other : core ≠ name := by
      rintro rfl
      simp [Call.commits] at stays
    rw [committed, World.commit, World.core_change_of_ne _ _ _ other]

theorem Program.Works.documents (works : program.Works core 0)
    (h : program.Yields (World.Answers faults) a outcome a') :
    (a'.core core).documents = (a.core core).documents := by
  induction program generalizing a with
  | done result => rw [h.2]
  | step call next ih =>
      obtain ⟨-, le, rest⟩ := works
      obtain ⟨reply, middle, answered, yields⟩ := h
      have stays : call.commits core = 0 := Nat.le_zero.1 le
      rw [ih reply ((rest reply).mono (Nat.sub_le _ _)) yields, answered.documents stays]

end RankLedger

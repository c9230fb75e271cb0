import RankLedger.Index.Traffic
import RankLedger.Proofs.Index.Writes

/-!
# The promise of a commit

A commit promises that the writes buffered before it are visible when it returns.  On a core that
several threads use it keeps this promise if no batch that writes the same document is in the air
when the write is drained, and the write itself is not in the air when its own thread drains for the
last time (`Traffic.Course.isVisible`).  Otherwise a commit may return while its writes are still in
the hands of another thread, and an old batch may even bury a newer one: see section 4.
-/

namespace RankLedger

variable {ν : Type}

namespace Traffic

variable {ι : Type} [DecidableEq ι]

/-! ## 1. Courses -/

/-- A write that is not yet visible: it waits in the buffer or lies in a batch in the air. -/
def Underway (traffic : Traffic ι ν) (write : CoreWrite ν) : Prop :=
  write ∈ traffic.core.pending ∨ ∃ thread, write ∈ (traffic.flying thread).getD []

/-- No batch in the air writes this document. -/
def IsClear (traffic : Traffic ι ν) (id : String) : Prop :=
  ∀ thread, ∀ write ∈ (traffic.flying thread).getD [], write.id ≠ id

/-- No batch in the air holds this write. -/
def IsGrounded (traffic : Traffic ι ν) (write : CoreWrite ν) : Prop :=
  ∀ thread, write ∉ (traffic.flying thread).getD []

/-- Whoever drains the write in these steps finds no batch in the air that writes the same document,
    and when the thread itself drains for the last time, the write is not in the air. -/
def DrainsClear (thread : ι) (write : CoreWrite ν) : Traffic ι ν → List (ι × Access ν) → Prop
  | _, [] => True
  | traffic, (other, access) :: rest =>
      (access = .drain → (write ∈ traffic.core.pending → traffic.IsClear write.id) ∧
        (other = thread → (thread, .drain) ∉ rest → traffic.IsGrounded write)) ∧
        ∀ next, traffic.take other access = some next → DrainsClear thread write next rest

/-- A thread buffers a write and later returns from a commit, and the threads go on. -/
structure Course (ι ν : Type) [DecidableEq ι] where
  thread : ι
  write : CoreWrite ν
  before : List (ι × Access ν)
  during : List (ι × Access ν)
  ending : Access ν
  after : List (ι × Access ν)
  /-- Before the write is buffered. -/
  early : Traffic ι ν
  /-- After it was buffered. -/
  begun : Traffic ι ν
  /-- Before the last step of the commit. -/
  called : Traffic ι ν
  /-- After the commit has returned. -/
  returned : Traffic ι ν
  now : Traffic ι ν
  starts : run {} before = some early
  begins : early.take thread (.buffer write) = some begun
  calls : begun.run during = some called
  returns : called.take thread ending = some returned
  /-- The commit returns after its second step, or after the first one if it drains nothing. -/
  ends : ending = .apply ∨ ending = .drain ∧ called.core.pending = []
  continues : returned.run after = some now

def Course.later (course : Course ι ν) : List (CoreWrite ν) :=
  buffered course.during ++ buffered course.after

/-- **The promise of a commit**, at the end of a course: every query reflects the write, or one
    that was buffered later under the same identifier. -/
def Course.IsVisible [Scalar ν] (course : Course ι ν) : Prop :=
  ∃ last, last ∈ course.write :: course.later ∧ last.id = course.write.id ∧
    course.now.core.Reflects last

variable {traffic next : Traffic ι ν} {thread : ι} {access : Access ν}

/-! ## 2. What every step keeps -/

/-- All that a step can do, guards included. -/
theorem take_cases (h : traffic.take thread access = some next) :
    (∃ write, access = .buffer write ∧ traffic.flying thread = none ∧
      next = { traffic with core := traffic.core.push write }) ∨
    (access = .drain ∧ traffic.flying thread = none ∧ traffic.core.pending = [] ∧
      next = traffic) ∨
    (access = .drain ∧ traffic.flying thread = none ∧ traffic.core.pending ≠ [] ∧
      next = { core := traffic.core.drain.2
               flying := Function.update traffic.flying thread (some traffic.core.pending) }) ∨
    (∃ batch, access = .apply ∧ traffic.flying thread = some batch ∧
      next = { core := traffic.core.apply batch
               flying := Function.update traffic.flying thread none }) ∨
    ∃ query, access = .query query ∧ traffic.flying thread = none ∧ next = traffic := by
  cases hfly : traffic.flying thread with
  | none =>
      cases access with
      | buffer write =>
          simp only [take, hfly, Option.some.injEq] at h
          exact .inl ⟨write, rfl, rfl, h.symm⟩
      | drain =>
          cases hpending : traffic.core.pending with
          | nil =>
              simp only [take, hfly, Core.drain, hpending, Option.some.injEq] at h
              exact .inr (.inl ⟨rfl, rfl, rfl, h.symm⟩)
          | cons first rest =>
              simp only [take, hfly, Core.drain, hpending, Option.some.injEq] at h
              exact .inr (.inr (.inl ⟨rfl, rfl, List.cons_ne_nil _ _, h.symm⟩))
      | apply =>
          simp only [take, hfly, Option.map_none, reduceCtorEq] at h
      | query query =>
          simp only [take, hfly, Option.some.injEq] at h
          exact .inr (.inr (.inr (.inr ⟨query, rfl, rfl, h.symm⟩)))
  | some batch =>
      cases access with
      | apply =>
          simp only [take, hfly, Option.map_some, Option.some.injEq] at h
          exact .inr (.inr (.inr (.inl ⟨batch, rfl, rfl, h.symm⟩)))
      | _ => simp only [take, hfly, reduceCtorEq] at h

theorem mem_flying_update {flying : ι → Option (List (CoreWrite ν))}
    {batch : Option (List (CoreWrite ν))} {write : CoreWrite ν} {other : ι}
    (mem : write ∈ (Function.update flying thread batch other).getD []) :
    other = thread ∧ write ∈ batch.getD [] ∨ other ≠ thread ∧ write ∈ (flying other).getD [] := by
  by_cases same : other = thread
  · subst same
    rw [Function.update_self] at mem
    exact .inl ⟨rfl, mem⟩
  · rw [Function.update_of_ne same] at mem
    exact .inr ⟨same, mem⟩

/-- Nothing gets underway but what a step buffers. -/
theorem Underway.of_take {write : CoreWrite ν} (step : traffic.take thread access = some next)
    (h : next.Underway write) : traffic.Underway write ∨ write ∈ access.written := by
  obtain ⟨new, rfl, -, rfl⟩ | ⟨rfl, -, -, rfl⟩ | ⟨rfl, -, -, rfl⟩ | ⟨batch, rfl, -, rfl⟩ |
    ⟨query, rfl, -, rfl⟩ := take_cases step
  · rcases h with waits | flies
    · exact (List.mem_append.1 waits).imp_left .inl
    · exact .inl (.inr flies)
  · exact .inl h
  · rcases h with waits | ⟨other, flies⟩
    · cases waits
    · rcases mem_flying_update flies with ⟨-, drained⟩ | ⟨-, flies⟩
      · exact .inl (.inl drained)
      · exact .inl (.inr ⟨other, flies⟩)
  · rcases h with waits | ⟨other, flies⟩
    · rw [Core.pending_apply] at waits
      exact .inl (.inl waits)
    · rcases mem_flying_update flies with ⟨-, none⟩ | ⟨-, flies⟩
      · cases none
      · exact .inl (.inr ⟨other, flies⟩)
  · exact .inl h

omit [DecidableEq ι] in
/-- A batch in the air is underway. -/
theorem underway_of_flying {batch : List (CoreWrite ν)} {write : CoreWrite ν}
    (flies : traffic.flying thread = some batch) (mem : write ∈ batch) :
    traffic.Underway write :=
  .inr ⟨thread, by rwa [flies]⟩

structure Sound [Scalar ν] (traffic : Traffic ι ν) : Prop where
  distinct : traffic.core.IsDistinct
  committed : ∀ document ∈ traffic.core.documents, document.isStorable = true
  underway : ∀ write, traffic.Underway write → ∀ document, write.leaves = some document →
    document.isStorable = true

/-- What each of these steps keeps is kept by all of them. -/
theorem run_keeps {Keeps : Traffic ι ν → Prop} {steps : List (ι × Access ν)}
    (kept : ∀ step ∈ steps, ∀ traffic next : Traffic ι ν,
      traffic.take step.1 step.2 = some next → Keeps traffic → Keeps next)
    (run : traffic.run steps = some next) (h : Keeps traffic) : Keeps next := by
  induction steps generalizing traffic with
  | nil =>
      cases run
      exact h
  | cons step rest ih =>
      obtain ⟨middle, first, run⟩ := Option.bind_eq_some_iff.1 run
      exact ih (fun other mem => kept other (List.mem_cons_of_mem _ mem)) run
        (kept step List.mem_cons_self _ _ first h)

section

variable [Scalar ν]

omit [DecidableEq ι] in
theorem Sound.start : Sound ({} : Traffic ι ν) where
  distinct := List.nodup_nil
  committed := by rintro _ ⟨⟩
  underway := by rintro write (waits | ⟨_, flies⟩) <;> contradiction

theorem Sound.take (sound : traffic.Sound) (step : traffic.take thread access = some next)
    (fine : ∀ document, .add document ∈ access.written → document.isStorable = true) :
    next.Sound := by
  have underway : ∀ write, next.Underway write → ∀ document, write.leaves = some document →
      document.isStorable = true := by
    intro write h document left
    rcases h.of_take step with h | written
    · exact sound.underway write h document left
    · cases write with
      | add new =>
          cases left
          exact fine document written
      | delete gone => cases left
  -- only the second step of a commit changes what is committed
  obtain ⟨new, rfl, -, rfl⟩ | ⟨rfl, -, -, rfl⟩ | ⟨rfl, -, -, rfl⟩ | ⟨batch, rfl, flies, rfl⟩ |
    ⟨query, rfl, -, rfl⟩ := take_cases step
  · exact ⟨sound.distinct, sound.committed, underway⟩
  · exact sound
  · exact ⟨sound.distinct, sound.committed, underway⟩
  · refine ⟨sound.distinct.apply batch, fun document mem => ?_, underway⟩
    rcases Core.mem_documents_apply mem with mem | ⟨write, mem, left⟩
    · exact sound.committed document mem
    · exact sound.underway write (underway_of_flying flies mem) document left
  · exact sound

theorem Sound.run {steps : List (ι × Access ν)} (sound : traffic.Sound)
    (run : traffic.run steps = some next)
    (fine : ∀ document, .add document ∈ buffered steps → document.isStorable = true) : next.Sound :=
  run_keeps (fun step mem _ _ taken sound => sound.take taken fun document written =>
    fine document (List.mem_flatMap.2 ⟨step, mem, written⟩)) run sound

end

/-! ## 3. The way of a write -/

variable {write : CoreWrite ν} {later : List (CoreWrite ν)}

structure Settled (write : CoreWrite ν) (later : List (CoreWrite ν)) (traffic : Traffic ι ν) :
    Prop where
  kept : ∃ last, last ∈ write :: later ∧ last.id = write.id ∧
    traffic.core.document? write.id = last.leaves
  fresh : ∀ other, traffic.Underway other → other.id = write.id → other ∈ write :: later

def IsBefore (write : CoreWrite ν) (later writes : List (CoreWrite ν)) : Prop :=
  ∃ older newer, writes = older ++ write :: newer ∧
    ∀ other ∈ newer, other.id = write.id → other ∈ write :: later

/-- Where a write is before the rest of the steps: in the buffer, in the air, or settled.  While
    somebody else carries it, the thread that buffered it carries nothing unless it is to drain
    again. -/
inductive OnItsWay (thread : ι) (write : CoreWrite ν) (later : List (CoreWrite ν))
    (rest : List (ι × Access ν)) (traffic : Traffic ι ν) : Prop
  | waits (here : IsBefore write later traffic.core.pending)
      (free : traffic.flying thread = none)
  | flies (carrier : ι) (batch : List (CoreWrite ν)) (here : traffic.flying carrier = some batch)
      (before : IsBefore write later batch)
      (alone : ∀ other, other ≠ carrier → ∀ rival ∈ (traffic.flying other).getD [],
        rival.id = write.id → rival ∈ write :: later)
      (fresh : ∀ rival ∈ traffic.core.pending, rival.id = write.id → rival ∈ write :: later)
      (free : carrier ≠ thread → (thread, .drain) ∉ rest → traffic.flying thread = none)
  | settled (settled : Settled write later traffic)

theorem IsBefore.mem {writes : List (CoreWrite ν)} (h : IsBefore write later writes) :
    write ∈ writes := by
  obtain ⟨older, newer, rfl, -⟩ := h
  simp

theorem IsBefore.append {writes more : List (CoreWrite ν)} (h : IsBefore write later writes)
    (fresh : ∀ other ∈ more, other ∈ later) : IsBefore write later (writes ++ more) := by
  obtain ⟨older, newer, rfl, rest⟩ := h
  refine ⟨older, newer ++ more, by simp, fun other mem same => ?_⟩
  rcases List.mem_append.1 mem with mem | mem
  · exact rest other mem same
  · exact List.mem_cons_of_mem _ (fresh other mem)

/-- Once the batch is applied, what is left comes from the write or from a later one. -/
theorem IsBefore.kept {core : Core ν} {batch : List (CoreWrite ν)}
    (h : IsBefore write later batch) :
    ∃ last, last ∈ write :: later ∧ last.id = write.id ∧
      (core.apply batch).document? write.id = last.leaves := by
  obtain ⟨older, newer, rfl, rest⟩ := h
  rw [Core.apply, List.foldl_append, List.foldl_cons]
  exact Core.document?_apply
    ⟨write, List.mem_cons_self, rfl, Core.document?_carryOut_self _ write⟩ rest

theorem Settled.take (settled : Settled write later traffic)
    (step : traffic.take thread access = some next)
    (fresh : ∀ other ∈ access.written, other ∈ later) : Settled write later next := by
  have underway : ∀ other, next.Underway other → other.id = write.id → other ∈ write :: later := by
    intro other h same
    rcases h.of_take step with h | written
    · exact settled.fresh other h same
    · exact List.mem_cons_of_mem _ (fresh other written)
  obtain ⟨new, rfl, -, rfl⟩ | ⟨rfl, -, -, rfl⟩ | ⟨rfl, -, -, rfl⟩ | ⟨batch, rfl, flies, rfl⟩ |
    ⟨query, rfl, -, rfl⟩ := take_cases step
  · exact ⟨settled.kept, underway⟩
  · exact settled
  · exact ⟨settled.kept, underway⟩
  · exact ⟨Core.document?_apply settled.kept fun other mem =>
      settled.fresh other (underway_of_flying flies mem), underway⟩
  · exact settled

theorem Settled.run {steps : List (ι × Access ν)} (settled : Settled write later traffic)
    (run : traffic.run steps = some next) (fresh : ∀ other ∈ buffered steps, other ∈ later) :
    Settled write later next :=
  run_keeps (fun step mem _ _ taken settled => settled.take taken fun other written =>
    fresh other (List.mem_flatMap.2 ⟨step, mem, written⟩)) run settled

/-- The batch with the write lands: nothing older is left anywhere. -/
theorem Settled.of_lands {batch : List (CoreWrite ν)} (before : IsBefore write later batch)
    (alone : ∀ other, other ≠ thread → ∀ rival ∈ (traffic.flying other).getD [],
      rival.id = write.id → rival ∈ write :: later)
    (fresh : ∀ rival ∈ traffic.core.pending, rival.id = write.id → rival ∈ write :: later) :
    Settled write later
      { core := traffic.core.apply batch
        flying := Function.update traffic.flying thread none } where
  kept := before.kept
  fresh := by
    rintro rival (waits | ⟨other, flies⟩) same
    · rw [Core.pending_apply] at waits
      exact fresh rival waits same
    · rcases mem_flying_update flies with ⟨-, none⟩ | ⟨apart, flies⟩
      · cases none
      · exact alone other apart rival flies same

/-- Whatever somebody else carries from now on, the batch with the write stays in the air. -/
theorem OnItsWay.of_update {core : Core ν} {carrier other : ι} {rest : List (ι × Access ν)}
    {batch : List (CoreWrite ν)} {carried : Option (List (CoreWrite ν))}
    (here : traffic.flying carrier = some batch) (before : IsBefore write later batch)
    (alone : ∀ third, third ≠ carrier → ∀ rival ∈ (traffic.flying third).getD [],
      rival.id = write.id → rival ∈ write :: later)
    (apart : other ≠ carrier)
    (taken : ∀ rival ∈ carried.getD [], rival.id = write.id → rival ∈ write :: later)
    (rivals : ∀ rival ∈ core.pending, rival.id = write.id → rival ∈ write :: later)
    (free : carrier ≠ thread → (thread, .drain) ∉ rest →
      Function.update traffic.flying other carried thread = none) :
    OnItsWay thread write later rest
      { core, flying := Function.update traffic.flying other carried } := by
  refine .flies carrier batch ?_ before ?_ rivals free
  · show Function.update traffic.flying other _ carrier = _
    rwa [Function.update_of_ne (Ne.symm apart)]
  · intro third elsewhere rival mem
    rcases mem_flying_update mem with ⟨-, mem⟩ | ⟨-, mem⟩
    · exact taken rival mem
    · exact alone third elsewhere rival mem

/-- Whoever drains takes the write along, if no older one is in the air. -/
theorem OnItsWay.take_of_waits {other : ι} {rest : List (ι × Access ν)}
    (here : IsBefore write later traffic.core.pending) (free : traffic.flying thread = none)
    (step : traffic.take other access = some next)
    (clear : access = .drain → traffic.IsClear write.id)
    (fresh : ∀ rival ∈ access.written, rival ∈ later) :
    OnItsWay thread write later rest next := by
  obtain ⟨new, rfl, -, rfl⟩ | ⟨rfl, -, empty, -⟩ | ⟨rfl, idle, -, rfl⟩ |
    ⟨batch, rfl, flies, rfl⟩ | ⟨query, rfl, -, rfl⟩ := take_cases step
  · exact .waits (here.append fresh) free
  · have mem := here.mem
    rw [empty] at mem
    cases mem
  · refine .flies other traffic.core.pending (Function.update_self ..) here ?_ ?_ ?_
    · intro third apart rival mem
      rcases mem_flying_update mem with ⟨same, -⟩ | ⟨-, mem⟩
      · exact absurd same apart
      · exact fun same => absurd same (clear rfl third rival mem)
    · rintro rival ⟨⟩
    · intro apart _
      show Function.update traffic.flying other _ thread = none
      rwa [Function.update_of_ne (Ne.symm apart)]
  · have apart : thread ≠ other := by
      rintro rfl
      rw [free] at flies
      cases flies
    refine .waits (by rwa [Core.pending_apply]) ?_
    show Function.update traffic.flying other _ thread = none
    rwa [Function.update_of_ne apart]
  · exact .waits here free

/-- What is buffered and drained while the write is in the air is younger, and the write settles
    when its batch lands. -/
theorem OnItsWay.take_of_flies {other carrier : ι} {rest : List (ι × Access ν)}
    {batch : List (CoreWrite ν)} (here : traffic.flying carrier = some batch)
    (before : IsBefore write later batch)
    (alone : ∀ third, third ≠ carrier → ∀ rival ∈ (traffic.flying third).getD [],
      rival.id = write.id → rival ∈ write :: later)
    (rivals : ∀ rival ∈ traffic.core.pending, rival.id = write.id → rival ∈ write :: later)
    (free : carrier ≠ thread → (thread, .drain) ∉ (other, access) :: rest →
      traffic.flying thread = none)
    (step : traffic.take other access = some next)
    (clear : access = .drain → other = thread → (thread, .drain) ∉ rest →
      traffic.IsGrounded write)
    (fresh : ∀ rival ∈ access.written, rival ∈ later) :
    OnItsWay thread write later rest next := by
  -- a step that is no drain of the thread leaves its drains to come
  have still (passes : (thread, .drain) ≠ (other, access)) (elsewhere : carrier ≠ thread)
      (last : (thread, .drain) ∉ rest) : traffic.flying thread = none :=
    free elsewhere (List.not_mem_cons_of_ne_of_not_mem passes last)
  obtain ⟨new, rfl, -, rfl⟩ | ⟨rfl, idle, -, rfl⟩ | ⟨rfl, idle, -, rfl⟩ |
    ⟨landed, rfl, flies, rfl⟩ | ⟨query, rfl, -, rfl⟩ := take_cases step
  · refine .flies carrier batch here before alone (fun rival mem same => ?_) (still nofun)
    rcases List.mem_append.1 mem with mem | mem
    · exact rivals rival mem same
    · exact List.mem_cons_of_mem _ (fresh rival mem)
  · refine .flies carrier batch here before alone rivals fun elsewhere last => ?_
    by_cases own : other = thread
    · rwa [← own]
    · exact still (fun same => own (Prod.mk.inj same).1.symm) elsewhere last
  · have apart : other ≠ carrier := by
      rintro rfl
      rw [idle] at here
      cases here
    refine .of_update here before alone apart rivals (by rintro rival ⟨⟩) fun elsewhere last => ?_
    have foreign : other ≠ thread := by
      intro own
      refine absurd ?_ (clear rfl own last carrier)
      rw [here]
      exact before.mem
    rw [Function.update_of_ne (Ne.symm foreign)]
    exact still (fun same => foreign (Prod.mk.inj same).1.symm) elsewhere last
  · by_cases same : other = carrier
    · subst same
      rw [here] at flies
      cases flies
      exact .settled (.of_lands before alone rivals)
    · refine .of_update here before alone same (by rintro rival ⟨⟩)
        (by rwa [Core.pending_apply]) fun apart last => ?_
      by_cases own : thread = other
      · rw [own, Function.update_self]
      · rw [Function.update_of_ne own]
        exact still nofun apart last
  · exact .flies carrier batch here before alone rivals (still nofun)

theorem OnItsWay.take {other : ι} {rest : List (ι × Access ν)}
    (way : OnItsWay thread write later ((other, access) :: rest) traffic)
    (step : traffic.take other access = some next)
    (clear : access = .drain → (write ∈ traffic.core.pending → traffic.IsClear write.id) ∧
      (other = thread → (thread, .drain) ∉ rest → traffic.IsGrounded write))
    (fresh : ∀ rival ∈ access.written, rival ∈ later) :
    OnItsWay thread write later rest next := by
  cases way with
  | waits here free =>
      exact take_of_waits here free step (fun drains => (clear drains).1 here.mem) fresh
  | flies carrier batch here before alone rivals free =>
      exact take_of_flies here before alone rivals free step (fun drains => (clear drains).2) fresh
  | settled settled => exact .settled (settled.take step fresh)

theorem OnItsWay.run {steps rest : List (ι × Access ν)}
    (way : OnItsWay thread write later (steps ++ rest) traffic)
    (run : traffic.run steps = some next)
    (clear : DrainsClear thread write traffic (steps ++ rest))
    (fresh : ∀ rival ∈ buffered steps, rival ∈ later) :
    OnItsWay thread write later rest next ∧ DrainsClear thread write next rest := by
  induction steps generalizing traffic with
  | nil =>
      cases run
      exact ⟨way, clear⟩
  | cons step others ih =>
      obtain ⟨middle, step, run⟩ := Option.bind_eq_some_iff.1 run
      exact ih (way.take step clear.1 fun rival mem => fresh rival (List.mem_append_left _ mem))
        run (clear.2 _ step) fun rival mem => fresh rival (List.mem_append_right _ mem)

/-- A thread that returns from a commit leaves its write settled. -/
theorem OnItsWay.returns (way : OnItsWay thread write later [(thread, access)] traffic)
    (step : traffic.take thread access = some next)
    (ends : access = .apply ∨ access = .drain ∧ traffic.core.pending = [])
    (clear : access = .drain → traffic.IsGrounded write) : Settled write later next := by
  rcases ends with rfl | ⟨rfl, empty⟩
  · obtain ⟨_, ⟨⟩, -⟩ | ⟨⟨⟩, -⟩ | ⟨⟨⟩, -⟩ | ⟨landed, -, flies, rfl⟩ | ⟨_, ⟨⟩, -⟩ :=
      take_cases step
    cases way with
    | waits here free =>
        rw [free] at flies
        cases flies
    | flies carrier batch here before alone rivals free =>
        by_cases same : carrier = thread
        · subst same
          rw [here] at flies
          cases flies
          exact .of_lands before alone rivals
        · -- it lands its batch now and does not drain again
          rw [free same (by simp)] at flies
          cases flies
    | settled settled => exact settled.take step (by rintro _ ⟨⟩)
  · cases way with
    | waits here free =>
        have mem := here.mem
        rw [empty] at mem
        cases mem
    | flies carrier batch here before alone rivals free =>
        refine absurd ?_ (clear rfl carrier)
        rw [here]
        exact before.mem
    | settled settled => exact settled.take step (by rintro _ ⟨⟩)

/-- Right after it was buffered, the write waits, and its thread is not in the middle of a
    commit. -/
theorem OnItsWay.start {rest : List (ι × Access ν)}
    (step : traffic.take thread (.buffer write) = some next) :
    OnItsWay thread write later rest next := by
  obtain ⟨_, ⟨⟩, free, rfl⟩ | ⟨⟨⟩, -⟩ | ⟨⟨⟩, -⟩ | ⟨_, ⟨⟩, -⟩ | ⟨_, ⟨⟩, -⟩ := take_cases step
  exact .waits ⟨traffic.core.pending, [], rfl, by rintro _ ⟨⟩⟩ free

variable [Scalar ν]

def Course.IsStorable (course : Course ι ν) : Prop :=
  ∀ document, .add document ∈ buffered course.before ++ course.write :: course.later →
    document.isStorable = true

/-- **A returned commit is visible**, as long as all documents can be read back, no batch with the
    same document is in the air when the write is drained, and the write is not in the air when the
    thread itself drains for the last time. -/
theorem Course.isVisible (course : Course ι ν) (storable : course.IsStorable)
    (clear : DrainsClear course.thread course.write course.begun
      (course.during ++ [(course.thread, course.ending)])) : course.IsVisible := by
  have soon : ∀ write ∈ buffered course.during, write ∈ course.later := fun _ mem =>
    List.mem_append_left _ mem
  have still : ∀ write ∈ buffered course.after, write ∈ course.later := fun _ mem =>
    List.mem_append_right _ mem
  -- the write settles before the commit returns, and what is settled stays so
  obtain ⟨way, clear⟩ := (OnItsWay.start course.begins).run course.calls clear soon
  have settled := (way.returns course.returns course.ends fun drains =>
      (clear.1 drains).2 rfl List.not_mem_nil).run
    course.continues still
  have sound : course.now.Sound := by
    have fine : ∀ document, .add document ∈ course.write :: course.later →
        document.isStorable = true := fun document mem =>
      storable document (List.mem_append_right _ mem)
    have early := Sound.start.run course.starts fun document mem =>
      storable document (List.mem_append_left _ mem)
    have begun := early.take course.begins fun document mem =>
      fine document (List.mem_singleton.1 mem ▸ List.mem_cons_self)
    have called := begun.run course.calls fun document mem =>
      fine document (List.mem_cons_of_mem _ (soon _ mem))
    have returned := called.take course.returns fun document mem => by
      rcases course.ends with ends | ⟨ends, -⟩ <;> rw [ends] at mem <;> cases mem
    exact returned.run course.continues fun document mem =>
      fine document (List.mem_cons_of_mem _ (still _ mem))
  obtain ⟨newest, mem, same, left⟩ := settled.kept
  refine ⟨newest, mem, same, Core.reflects_of_document? sound.distinct ?_ (by rwa [same])⟩
  exact (Core.isReadable_iff _).2 sound.committed

def Course.relayed : Course (Fin 2) Rat where
  thread := 0
  write := .add { id := "vote" }
  before := []
  during := [(1, .buffer (.add { id := "other" })), (1, .drain), (1, .apply)]
  ending := .drain
  after := [(0, .query {})]
  early := _
  begun := _
  called := _
  returned := _
  now := _
  starts := rfl
  begins := rfl
  calls := rfl
  returns := rfl
  ends := .inr ⟨rfl, rfl⟩
  continues := rfl

/-- Relayed writes are visible. -/
theorem Course.isVisible_relayed :
    relayed.IsStorable ∧
    DrainsClear relayed.thread relayed.write relayed.begun
      (relayed.during ++ [(relayed.thread, relayed.ending)]) ∧
    relayed.IsVisible := by
  have storable : relayed.IsStorable := by
    rintro document mem
    rcases List.mem_cons.1 mem with same | mem
    · cases same
      rfl
    · cases List.mem_singleton.1 mem
      rfl
  have clear : DrainsClear relayed.thread relayed.write relayed.begun
      (relayed.during ++ [(relayed.thread, relayed.ending)]) := by
    refine ⟨by rintro ⟨⟩, ?_⟩
    rintro _ ⟨⟩
    refine ⟨fun _ => ⟨by rintro - _ _ ⟨⟩, by rintro ⟨⟩⟩, ?_⟩
    rintro _ ⟨⟩
    refine ⟨by rintro ⟨⟩, ?_⟩
    rintro _ ⟨⟩
    refine ⟨?_, by rintro _ ⟨⟩; trivial⟩
    -- by now the second thread has applied its batch, and nothing waits
    refine fun _ => ⟨by rintro ⟨⟩, fun _ _ thread mem => ?_⟩
    match thread with
    | 0 => exact absurd mem List.not_mem_nil
    | 1 => exact absurd mem List.not_mem_nil
  exact ⟨storable, clear, relayed.isVisible storable clear⟩

/-! ## 4. Commits that break their promise -/

/-- The second thread drains the write of the first one, and has not yet applied it when the
    commit of the first thread finds nothing to drain and returns. -/
def Course.overtaken : Course (Fin 2) Rat where
  thread := 0
  write := .add { id := "vote" }
  before := []
  during := [(1, .drain)]
  ending := .drain
  after := []
  early := _
  begun := _
  called := _
  returned := _
  now := _
  starts := rfl
  begins := rfl
  calls := rfl
  returns := rfl
  ends := .inr ⟨rfl, rfl⟩
  continues := rfl

def Course.buried : Course (Fin 2) Rat where
  thread := 0
  write := .add { id := "vote", fields := [("rank", .integer 4)] }
  before := [(1, .buffer (.add { id := "vote" })), (1, .drain)]
  during := [(0, .drain)]
  ending := .apply
  after := [(1, .apply)]
  early := _
  begun := _
  called := _
  returned := _
  now := _
  starts := rfl
  begins := rfl
  calls := rfl
  returns := rfl
  ends := .inl rfl
  continues := rfl

def Course.unreadable : Course Unit Float where
  thread := ()
  write := .add { id := "average", fields := [("average", .double (0.0 / 0.0))] }
  before := []
  during := [((), .drain)]
  ending := .apply
  after := []
  early := _
  begun := _
  called := _
  returned := _
  now := _
  starts := rfl
  begins := rfl
  calls := rfl
  returns := rfl
  ends := .inl rfl
  continues := rfl

/-- So a commit may return before its writes are visible, an older write may bury a newer one
    after its commit has returned, and a number that is not finite spoils every query. -/
theorem Course.not_isVisible :
    (Course.overtaken.IsStorable ∧ ¬ Course.overtaken.IsVisible) ∧
    (Course.buried.IsStorable ∧ ¬ Course.buried.IsVisible) ∧
    ¬ Course.unreadable.IsVisible := by
  refine ⟨⟨?_, ?_⟩, ⟨?_, ?_⟩, ?_⟩
  · rintro document mem
    cases List.mem_singleton.1 mem
    rfl
  · rintro ⟨last, mem, -, reflects⟩
    cases List.mem_singleton.1 mem
    cases reflects.mem_documents rfl
  · rintro document mem
    rcases List.mem_cons.1 mem with same | mem
    · cases same
      rfl
    · cases List.mem_singleton.1 mem
      rfl
  · rintro ⟨last, mem, -, reflects⟩
    cases List.mem_singleton.1 mem
    cases List.mem_singleton.1 (reflects.mem_documents rfl)
  · rintro ⟨last, mem, -, reflects⟩
    cases List.mem_singleton.1 mem
    have readable := reflects.isReadable
    rw [show Course.unreadable.now.core.isReadable = false by decide +kernel] at readable
    cases readable

end Traffic

end RankLedger

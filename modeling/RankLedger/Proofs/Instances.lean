import Mathlib.Data.String.Basic
import RankLedger.Factory.Session
import RankLedger.Proofs.Entries

/-!
# One manager for each hint

What a session with a factory has seen says what the factory holds (`Agrees`): under each storage
hint the builder that was brought first, and for each hint the manager that was given out.  So a
hint keeps its manager for good, a build that failed is tried again, and it is always the same
builder that is asked (`one_manager_per_hint`).
-/

namespace RankLedger

variable {β μ σ : Type}

/-! ## 1. What a session has seen -/

/-- The builder that a call brings for a storage hint.  Nobody builds for the empty one. -/
def FactoryCall.brings? (storageHint : String) : FactoryCall β → Option β
  | .registerBuilder other builder =>
      if other = storageHint ∧ storageHint ≠ "" then some builder else none
  | _ => none

def FactoryCall.firstBuilder? (calls : List (FactoryCall β)) (storageHint : String) : Option β :=
  calls.findSome? (brings? storageHint)

def FactoryEvent.Gave (events : List (FactoryEvent β μ)) (hint : String) (manager : μ) : Prop :=
  ∃ event ∈ events, event.call = .getInstance hint ∧ event.reply = .manager (.ok manager)

theorem FactoryCall.firstBuilder?_concat (calls : List (FactoryCall β)) (call : FactoryCall β)
    (storageHint : String) : firstBuilder? (calls ++ [call]) storageHint =
      (firstBuilder? calls storageHint).or (call.brings? storageHint) := by
  rw [firstBuilder?, List.findSome?_append, List.findSome?_singleton]
  rfl

theorem FactoryEvent.gave_concat {events : List (FactoryEvent β μ)} {event : FactoryEvent β μ}
    {hint : String} {manager : μ} : Gave (events ++ [event]) hint manager ↔
      Gave events hint manager ∨
        event.call = .getInstance hint ∧ event.reply = .manager (.ok manager) := by
  simp only [Gave, List.mem_append, List.mem_singleton, or_and_right, exists_or, exists_eq_left]

namespace Factory

/-! ## 2. What the factory holds -/

structure Agrees (registry : ConfigurationRegistry) (events : List (FactoryEvent β μ))
    (factory : Factory β μ) : Prop where
  registry : factory.registry = registry
  builders : ∀ storageHint, factory.builders.lookup storageHint =
    FactoryCall.firstBuilder? (events.map (·.call)) storageHint
  instances : ∀ hint manager, factory.instances.lookup hint = some manager ↔
    FactoryEvent.Gave events hint manager
  distinct : (factory.instances.map (·.1)).Nodup

inductive Follows (registry : ConfigurationRegistry) (events : List (FactoryEvent β μ))
    (factory : Factory β μ) : FactoryEvent β μ → Prop
  | refused {storageHint : String} {builder : β} {error : RankingError} :
      (storageHint = "" ∨
        (FactoryCall.firstBuilder? (events.map (·.call)) storageHint).isSome = true) →
      Follows registry events factory ⟨.registerBuilder storageHint builder,
        .registered (.error error), [], factory, factory⟩
  | registered {storageHint : String} {builder : β} : storageHint ≠ "" →
      FactoryCall.firstBuilder? (events.map (·.call)) storageHint = none →
      Follows registry events factory ⟨.registerBuilder storageHint builder, .registered (.ok ()),
        [], factory, { factory with builders := factory.builders ++ [(storageHint, builder)] }⟩
  | kept {hint : String} {manager : μ} : FactoryEvent.Gave events hint manager →
      Follows registry events factory
        ⟨.getInstance hint, .manager (.ok manager), [], factory, factory⟩
  | missed {hint : String} : (∀ manager, ¬ FactoryEvent.Gave events hint manager) →
      FactoryCall.firstBuilder? (events.map (·.call)) (registry.resolve hint).storageHint = none →
      Follows registry events factory ⟨.getInstance hint, .manager (.error
        (.managerLookup hint (.noBuilder (registry.resolve hint).storageHint))), [], factory,
        factory⟩
  | failed {hint : String} {builder : β} {error : RankingError} :
      (∀ manager, ¬ FactoryEvent.Gave events hint manager) →
      FactoryCall.firstBuilder? (events.map (·.call)) (registry.resolve hint).storageHint =
        some builder →
      Follows registry events factory ⟨.getInstance hint, .manager (.error error),
        [⟨builder, hint, registry.resolve hint, .error error⟩], factory, factory⟩
  | built {hint : String} {builder : β} {manager : μ} :
      (∀ manager, ¬ FactoryEvent.Gave events hint manager) →
      FactoryCall.firstBuilder? (events.map (·.call)) (registry.resolve hint).storageHint =
        some builder →
      Follows registry events factory ⟨.getInstance hint, .manager (.ok manager),
        [⟨builder, hint, registry.resolve hint, .ok manager⟩], factory,
        { factory with instances := factory.instances ++ [(hint, manager)] }⟩
  | hints : Follows registry events factory
      ⟨.cachedHints, .hints factory.cachedHints, [], factory, factory⟩

namespace Agrees

variable {registry : ConfigurationRegistry} {events : List (FactoryEvent β μ)}
  {factory : Factory β μ} {event : FactoryEvent β μ}

theorem start : Agrees registry ([] : List (FactoryEvent β μ)) { registry } :=
  ⟨rfl, fun _ => rfl, fun _ _ => ⟨nofun, by simp [FactoryEvent.Gave]⟩, List.nodup_nil⟩

section Holds

variable (agrees : Agrees registry events factory)
include agrees

theorem lookup_eq_none {hint : String} : factory.instances.lookup hint = none ↔
    ∀ manager, ¬ FactoryEvent.Gave events hint manager := by
  simp only [Option.eq_none_iff_forall_ne_some, ne_eq, agrees.instances]

/-- The hints that have a manager, each once, in order. -/
theorem cachedHints_eq : factory.cachedHints.Pairwise (· < ·) ∧ ∀ hint,
    hint ∈ factory.cachedHints ↔ ∃ manager, FactoryEvent.Gave events hint manager := by
  have perm : factory.cachedHints.Perm (factory.instances.map (·.1)) := List.mergeSort_perm _ _
  constructor
  · have sorted : factory.cachedHints.Pairwise (· ≤ ·) := by
      refine (List.pairwise_mergeSort ?_ ?_ _).imp of_decide_eq_true
      · simp only [decide_eq_true_eq]
        exact fun _ _ _ => le_trans
      · simp only [Bool.or_eq_true, decide_eq_true_eq]
        exact le_total
    have distinct : factory.cachedHints.Nodup := perm.nodup_iff.2 agrees.distinct
    exact (sorted.and distinct).imp fun {a b} order => lt_of_le_of_ne order.1 order.2
  · intro hint
    rw [perm.mem_iff, List.mem_map]
    constructor
    · rintro ⟨⟨_, manager⟩, mem, rfl⟩
      exact ⟨manager, (agrees.instances _ _).1 (lookup_of_mem agrees.distinct mem)⟩
    · rintro ⟨manager, gave⟩
      exact ⟨(hint, manager), mem_of_lookup ((agrees.instances _ _).2 gave), rfl⟩

/-! ## 3. One call -/

/-- Every answer follows from what was seen. -/
theorem answer_follows (run : Build β μ σ) (world : σ) (call : FactoryCall β) :
    Follows registry events factory (factory.answer run world call).1 := by
  cases call with
  | registerBuilder storageHint builder =>
      by_cases empty : storageHint = ""
      · simp only [answer, registerBuilder, if_pos empty]
        exact .refused (.inl empty)
      · simp only [answer, registerBuilder, if_neg empty, agrees.builders]
        cases first : FactoryCall.firstBuilder? (events.map (·.call)) storageHint with
        | some other => exact .refused (.inr (by rw [first]; rfl))
        | none => exact .registered empty first
  | getInstance hint =>
      cases known : factory.instances.lookup hint with
      | some manager =>
          rw [answer, getInstance_of_lookup run.noted _ known]
          exact .kept ((agrees.instances _ _).1 known)
      | none =>
          have absent := agrees.lookup_eq_none.1 known
          obtain rfl := agrees.registry
          have registered := agrees.builders (factory.registry.resolve hint).storageHint
          cases first : FactoryCall.firstBuilder? (events.map (·.call))
              (factory.registry.resolve hint).storageHint with
          | none =>
              have failed := build_of_lookup_eq_none run.noted (world, []) (registered.trans first)
              rw [answer, getInstance_of_build_error _ known failed]
              exact .missed absent first
          | some builder =>
              have asked := build_of_lookup run.noted (world, []) (registered.trans first)
              simp only [Build.noted, List.nil_append] at asked
              cases given : run builder hint (factory.registry.resolve hint) world with
              | mk result left =>
                  rw [given] at asked
                  cases result with
                  | error error =>
                      rw [answer, getInstance_of_build_error _ known asked]
                      exact .failed absent first
                  | ok manager =>
                      rw [answer, getInstance_of_build_ok _ known asked]
                      exact .built absent first
  | cachedHints => exact .hints

/-- A call that leaves the factory as it was is in line with it. -/
theorem unchanged (builders : ∀ storageHint, (FactoryCall.firstBuilder? (events.map (·.call))
      storageHint).or (event.call.brings? storageHint) =
        FactoryCall.firstBuilder? (events.map (·.call)) storageHint)
    (instances : ∀ hint manager, event.call = .getInstance hint →
      event.reply = .manager (.ok manager) → FactoryEvent.Gave events hint manager) :
    Agrees registry (events ++ [event]) factory := by
  refine ⟨agrees.registry, fun storageHint => ?_, fun hint manager => ?_, agrees.distinct⟩
  · rw [List.map_append, List.map_singleton, FactoryCall.firstBuilder?_concat, builders,
      agrees.builders]
  · rw [agrees.instances, FactoryEvent.gave_concat, iff_self_or]
    rintro ⟨call, reply⟩
    exact instances hint manager call reply

/-- **One call.** What follows from what was seen keeps the factory in line with it. -/
theorem of_follows (h : Follows registry events factory event) :
    Agrees registry (events ++ [event]) event.after := by
  cases h with
  | @refused storageHint builder error taken =>
      refine agrees.unchanged (fun other => ?_) nofun
      simp only [FactoryCall.brings?]
      split
      · rename_i same
        obtain ⟨rfl, named⟩ := same
        -- a builder that comes second changes nothing
        obtain ⟨first, taken⟩ := Option.isSome_iff_exists.1 (taken.resolve_left named)
        rw [taken]
        rfl
      · exact Option.or_none
  | @registered storageHint builder named free =>
      refine ⟨agrees.registry, fun other => ?_, fun hint manager => ?_, agrees.distinct⟩
      · rw [List.map_append, List.map_singleton, FactoryCall.firstBuilder?_concat,
          List.lookup_append, agrees.builders]
        congr 1
        by_cases same : other = storageHint
        · subst same
          simp [FactoryCall.brings?, named]
        · simp [FactoryCall.brings?, List.lookup_cons, beq_eq_false_iff_ne.2 same, Ne.symm same]
      · rw [agrees.instances, FactoryEvent.gave_concat, iff_self_or]
        rintro ⟨⟨⟩, -⟩
  | kept gave =>
      refine agrees.unchanged (fun _ => Option.or_none) ?_
      rintro hint manager ⟨⟩ ⟨⟩
      exact gave
  | missed | failed => exact agrees.unchanged (fun _ => Option.or_none) nofun
  | hints => exact agrees.unchanged (fun _ => Option.or_none) nofun
  | @built hint builder manager absent first =>
      -- the new instance is found under its own hint, which had none, and hides no other one
      have unknown := agrees.lookup_eq_none.2 absent
      refine ⟨agrees.registry, fun other => ?_, fun other given => ?_, ?_⟩
      · rw [List.map_append, List.map_singleton, FactoryCall.firstBuilder?_concat,
          agrees.builders]
        exact Option.or_none.symm
      · rw [FactoryEvent.gave_concat, List.lookup_append]
        by_cases same : other = hint
        · subst same
          rw [unknown, List.lookup_cons_self]
          constructor
          · rintro ⟨⟩
            exact .inr ⟨rfl, rfl⟩
          · rintro (gave | ⟨-, ⟨⟩⟩)
            · exact absurd gave (absent given)
            · rfl
        · rw [List.lookup_cons, beq_eq_false_iff_ne.2 same, ← agrees.instances]
          simp [Ne.symm same]
      · rw [List.map_append, List.nodup_append]
        refine ⟨agrees.distinct, List.nodup_singleton _, ?_⟩
        rintro other mem added new rfl
        obtain ⟨entry, held, rfl⟩ := List.mem_map.1 mem
        obtain rfl : entry.1 = hint := List.mem_singleton.1 new
        rw [lookup_of_mem agrees.distinct held] at unknown
        cases unknown

end Holds

/-! ## 4. Sessions -/

/-- What is answered at any moment follows from what was seen before. -/
theorem serve_follows (agrees : Agrees registry events factory) (run : Build β μ σ) (world : σ)
    (calls : List (FactoryCall β)) {earlier later : List (FactoryEvent β μ)}
    (h : factory.serve run world calls = earlier ++ event :: later) :
    ∃ now : Factory β μ, Agrees registry (events ++ earlier) now ∧
      Follows registry (events ++ earlier) now event := by
  induction calls generalizing events factory world earlier with
  | nil => cases earlier <;> cases h
  | cons call rest ih =>
      have first := agrees.answer_follows run world call
      rw [serve_cons] at h
      cases earlier with
      | nil =>
          rw [← (List.cons.inj h).1, List.append_nil]
          exact ⟨factory, agrees, first⟩
      | cons head tail =>
          obtain ⟨now, agrees, follows⟩ := ih (agrees.of_follows first) _ (List.cons.inj h).2
          rw [(List.cons.inj h).1, List.append_assoc] at agrees follows
          exact ⟨now, agrees, follows⟩

end Agrees

/-- **One manager for each hint.** Whatever is called through a factory, and whatever its builders
    do each time they are asked: a hint that was given a manager is given this manager ever after, and
    nobody is asked to build.  A hint that was not is built with the configuration of the hint, by
    the builder that was first registered under its storage hint, and a build that fails changes
    nothing, so the next call tries again.  The hints listed are those that were given a manager, in
    order and each once.  A builder is refused exactly for an empty storage hint, or one that has a
    builder, and then nothing changes. -/
theorem one_manager_per_hint (registry : ConfigurationRegistry) (run : Build β μ σ) (world : σ)
    (calls : List (FactoryCall β)) {earlier later : List (FactoryEvent β μ)}
    {event : FactoryEvent β μ}
    (h : ({ registry } : Factory β μ).serve run world calls = earlier ++ event :: later) :
    (∀ hint, event.call = .getInstance hint →
      (∀ manager, FactoryEvent.Gave earlier hint manager →
        event.reply = .manager (.ok manager) ∧ event.buildings = []) ∧
      ((∀ manager, ¬ FactoryEvent.Gave earlier hint manager) →
        match FactoryCall.firstBuilder? (earlier.map (·.call))
          (registry.resolve hint).storageHint with
        | none => event.buildings = [] ∧ event.reply = .manager (.error
            (.managerLookup hint (.noBuilder (registry.resolve hint).storageHint)))
        | some builder => ∃ result, event.reply = .manager result ∧
            event.buildings = [⟨builder, hint, registry.resolve hint, result⟩]) ∧
      ∀ error, event.reply = .manager (.error error) → event.after = event.before) ∧
    (∀ building ∈ event.buildings, event.call = .getInstance building.hint ∧
      building.configuration = registry.resolve building.hint ∧
      FactoryCall.firstBuilder? (earlier.map (·.call)) building.configuration.storageHint =
        some building.builder) ∧
    (event.call = .cachedHints → ∃ hints, event.reply = .hints hints ∧ hints.Pairwise (· < ·) ∧
      ∀ hint, hint ∈ hints ↔ ∃ manager, FactoryEvent.Gave earlier hint manager) ∧
    ∀ storageHint builder, event.call = .registerBuilder storageHint builder →
      ∃ result, event.reply = .registered result ∧
        ((∃ error, result = .error error) ↔ storageHint = "" ∨
          (FactoryCall.firstBuilder? (earlier.map (·.call)) storageHint).isSome = true) ∧
        ((∃ error, result = .error error) → event.after = event.before) := by
  obtain ⟨now, agrees, follows⟩ := Agrees.start.serve_follows run world calls h
  rw [List.nil_append] at agrees follows
  cases follows with
  | @refused storageHint builder error taken =>
      refine ⟨nofun, List.forall_mem_nil _, nofun, ?_⟩
      rintro _ _ ⟨⟩
      exact ⟨_, rfl, iff_of_true ⟨error, rfl⟩ taken, fun _ => rfl⟩
  | @registered storageHint builder named free =>
      refine ⟨nofun, List.forall_mem_nil _, nofun, ?_⟩
      rintro _ _ ⟨⟩
      refine ⟨_, rfl, iff_of_false nofun ?_, nofun⟩
      rw [free]
      simpa using named
  | @kept hint manager gave =>
      refine ⟨?_, List.forall_mem_nil _, nofun, nofun⟩
      rintro _ ⟨⟩
      refine ⟨fun other given => ⟨?_, rfl⟩, fun absent => absurd gave (absent manager), nofun⟩
      -- no hint was given two managers
      have := (agrees.instances _ _).2 gave
      rw [(agrees.instances _ _).2 given] at this
      rw [Option.some.inj this]
  | @missed hint absent none =>
      refine ⟨?_, List.forall_mem_nil _, nofun, nofun⟩
      rintro _ ⟨⟩
      refine ⟨fun manager gave => absurd gave (absent manager), fun _ => ?_, fun _ _ => rfl⟩
      rw [none]
      exact ⟨rfl, rfl⟩
  | @failed hint builder error absent first =>
      refine ⟨?_, ?_, nofun, nofun⟩
      · rintro _ ⟨⟩
        refine ⟨fun manager gave => absurd gave (absent manager), fun _ => ?_, fun _ _ => rfl⟩
        rw [first]
        exact ⟨_, rfl, rfl⟩
      · exact List.forall_mem_singleton.2 ⟨rfl, rfl, first⟩
  | @built hint builder manager absent first =>
      refine ⟨?_, ?_, nofun, nofun⟩
      · rintro _ ⟨⟩
        refine ⟨fun manager gave => absurd gave (absent manager), fun _ => ?_, nofun⟩
        rw [first]
        exact ⟨_, rfl, rfl⟩
      · exact List.forall_mem_singleton.2 ⟨rfl, rfl, first⟩
  | hints =>
      refine ⟨nofun, List.forall_mem_nil _, fun _ => ?_, nofun⟩
      exact ⟨_, rfl, agrees.cachedHints_eq⟩

def numbering : Build String Nat Nat
  | _, _, _, 0 => (.error (.configuration (.other "no store yet")), 1)
  | _, _, _, asked + 1 => (.ok asked, asked + 2)

def twoHints : List (FactoryCall String) :=
  [.registerBuilder "index" "first", .registerBuilder "index" "second", .getInstance "stars",
    .getInstance "stars", .getInstance "likes", .getInstance "stars", .cachedHints]

/-- The second call for the hint asks the first builder again, and gives a manager; the last call
    gives the same one, although another manager was built meanwhile. -/
theorem one_manager_for_stars :
    ∃ (earlier between later : List (FactoryEvent String Nat))
      (built kept : FactoryEvent String Nat),
      ({} : Factory String Nat).serve numbering 0 twoHints =
        earlier ++ built :: between ++ kept :: later ∧
      earlier.map (·.call) = twoHints.take 3 ∧ between.map (·.call) = [.getInstance "likes"] ∧
      built.call = .getInstance "stars" ∧ built.reply = .manager (.ok 0) ∧
      built.buildings = [⟨"first", "stars", {}, .ok 0⟩] ∧
      kept.call = .getInstance "stars" ∧ kept.reply = .manager (.ok 0) ∧ kept.buildings = [] := by
  have served : ∃ earlier between later built kept,
      ({} : Factory String Nat).serve numbering 0 twoHints =
        (earlier ++ built :: between) ++ kept :: later ∧
      earlier.map (·.call) = twoHints.take 3 ∧ between.map (·.call) = [.getInstance "likes"] ∧
      built.call = .getInstance "stars" ∧ built.reply = .manager (.ok 0) ∧
      built.buildings = [⟨"first", "stars", {}, .ok 0⟩] ∧ kept.call = .getInstance "stars" :=
    ⟨_ :: _ :: _ :: [], [_], [_], _, _, rfl, rfl, rfl, rfl, rfl, rfl, rfl⟩
  obtain ⟨earlier, between, later, built, kept, served, calls, one, call, reply, asked, again⟩ :=
    served
  have given : FactoryEvent.Gave (earlier ++ built :: between) "stars" 0 :=
    ⟨built, List.mem_append_right _ List.mem_cons_self, call, reply⟩
  obtain ⟨instances, -⟩ := one_manager_per_hint {} numbering 0 twoHints served
  obtain ⟨same, quiet⟩ := (instances _ again).1 _ given
  exact ⟨earlier, between, later, built, kept, served, calls, one, call, reply, asked, again, same,
    quiet⟩

end Factory

end RankLedger

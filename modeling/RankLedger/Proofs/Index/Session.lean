import RankLedger.Index.Session
import RankLedger.Proofs.Entries
import RankLedger.Proofs.Index.Maps

/-!
# An index is a family of maps

Each core that is looked up in a session is an ordered map of its own.  Which one a reference leads
to is settled by the name of the lookup, whatever handle it went through; what the core shows is
settled by the calls made with the reference: the writes that were buffered before its last commit
are what the map was made of (`visible`), and the later ones wait.  Every call keeps this
(`Agrees.answer`), so it holds after any calls whatsoever.
-/

namespace RankLedger

variable {ν : Type}

/-! ## 1. Calls on one core -/

namespace IndexCall

def changed? : IndexCall ν → Option CoreReference
  | .add core _ | .delete core _ | .commit core => some core
  | _ => none

def write? : IndexCall ν → Option (CoreWrite ν)
  | .add _ document => some (.add document)
  | .delete _ id => some (.delete id)
  | _ => none

def commits (core : CoreReference) : IndexCall ν → Bool
  | .commit other => other == core
  | _ => false

def buffered (core : CoreReference) (calls : List (IndexCall ν)) : List (CoreWrite ν) :=
  calls.filterMap fun call => if call.changed? = some core then call.write? else none

def visible (core : CoreReference) (calls : List (IndexCall ν)) : List (CoreWrite ν) :=
  buffered core (calls.rdropWhile fun call => !call.commits core)

variable {core : CoreReference} {calls : List (IndexCall ν)} {call : IndexCall ν}

theorem buffered_concat : buffered core (calls ++ [call]) =
    buffered core calls ++ (if call.changed? = some core then call.write? else none).toList := by
  rw [buffered, List.filterMap_append, ← buffered, List.filterMap_cons, List.filterMap_nil]
  cases (if call.changed? = some core then call.write? else none) <;> rfl

theorem visible_concat : visible core (calls ++ [call]) =
    if call.commits core then buffered core calls else visible core calls := by
  unfold visible
  by_cases commits : call.commits core = true
  · rw [List.rdropWhile_concat_neg _ _ _ (by simp [commits]), if_pos commits, buffered_concat]
    cases call with
    | commit other => simp [write?]
    | _ => cases commits
  · rw [List.rdropWhile_concat_pos _ _ _ (by simpa using commits), if_neg commits]

/-- What is buffered on a core, and what is visible of it, depends on calls that change it only. -/
theorem buffered_concat_of_ne (other : call.changed? ≠ some core) :
    buffered core (calls ++ [call]) = buffered core calls := by
  rw [buffered_concat, if_neg other]
  exact List.append_nil _

theorem visible_concat_of_ne (other : call.changed? ≠ some core) :
    visible core (calls ++ [call]) = visible core calls := by
  rw [visible_concat]
  cases call with
  | commit reference =>
      have : reference ≠ core := fun same => other (congrArg some same)
      simp [commits, this]
  | _ => rfl

theorem visible_of_buffered (none : buffered core calls = []) : visible core calls = [] := by
  have pre : visible core calls <+: buffered core calls :=
    (List.rdropWhile_prefix _ _).filterMap _
  rwa [none, List.prefix_nil] at pre

end IndexCall

/-! ## 2. One core -/

namespace Core

def after (writes waiting : List (CoreWrite ν)) : Core ν :=
  { ({} : Core ν).apply writes with pending := waiting }

variable {writes waiting : List (CoreWrite ν)}

theorem isInOrder_after : (after writes waiting).IsInOrder :=
  have order := (IsInOrder.empty (ν := ν)).apply writes
  ⟨order.ascending, order.below⟩

theorem push_after (write : CoreWrite ν) :
    (after writes waiting).push write = after writes (waiting ++ [write]) := rfl

/-- Carrying writes out has nothing to do with those that wait. -/
theorem apply_pending (core : Core ν) (batch : List (CoreWrite ν)) :
    ({ core with pending := waiting } : Core ν).apply batch =
      { core.apply batch with pending := waiting } := by
  induction batch generalizing core with
  | nil => rfl
  | cons write rest ih =>
      have one : ({ core with pending := waiting } : Core ν).carryOut write =
          { core.carryOut write with pending := waiting } := by
        cases write with
        | add document =>
            show put _ _ = { core.put document with pending := waiting }
            unfold put
            rw [show contains { core with pending := waiting } document.id =
              core.contains document.id from rfl]
            split <;> rfl
        | delete id => rfl
      show apply (carryOut _ _) rest = { (core.carryOut write).apply rest with pending := waiting }
      rw [one, ih]

theorem commit_after :
    (after writes waiting).commit = after (writes ++ waiting) [] := by
  show apply { ({} : Core ν).apply writes with pending := [] } waiting = _
  rw [apply_pending, after]
  unfold apply
  rw [List.foldl_append]

def Follows (core : Core ν) (reference : CoreReference) (calls : List (IndexCall ν)) : Prop :=
  ∃ waiting, core = after (IndexCall.visible reference calls) waiting ∧
    IndexCall.visible reference calls ++ waiting = IndexCall.buffered reference calls

namespace Follows

variable {core : Core ν} {reference : CoreReference} {calls : List (IndexCall ν)}
  {call : IndexCall ν}

theorem of_ne (follows : core.Follows reference calls) (other : call.changed? ≠ some reference) :
    core.Follows reference (calls ++ [call]) := by
  unfold Follows
  rw [IndexCall.visible_concat_of_ne other, IndexCall.buffered_concat_of_ne other]
  exact follows

theorem write (follows : core.Follows reference calls) {write : CoreWrite ν}
    (own : call.changed? = some reference) (writes : call.write? = some write) :
    (core.push write).Follows reference (calls ++ [call]) := by
  obtain ⟨waiting, rfl, split⟩ := follows
  have visible : IndexCall.visible reference (calls ++ [call]) =
      IndexCall.visible reference calls := by
    rw [IndexCall.visible_concat]
    cases call with
    | commit => cases writes
    | _ => rfl
  refine ⟨waiting ++ [write], ?_, ?_⟩
  · rw [visible, push_after]
  · rw [visible, IndexCall.buffered_concat, if_pos own, writes, ← split, List.append_assoc]
    rfl

theorem commit (follows : core.Follows reference calls) :
    core.commit.Follows reference (calls ++ [.commit reference]) := by
  obtain ⟨waiting, rfl, split⟩ := follows
  have visible : IndexCall.visible reference (calls ++ [.commit reference]) =
      IndexCall.buffered reference calls := by
    rw [IndexCall.visible_concat]
    exact if_pos (beq_self_eq_true reference)
  refine ⟨[], ?_, ?_⟩
  · rw [visible, commit_after, split]
  · rw [visible, IndexCall.buffered_concat]
    simp [IndexCall.write?]

end Follows

end Core

/-! ## 3. Sessions -/

namespace IndexSession

def Found (session : IndexSession ν) (name : String) (reply : IndexReply ν) : Prop :=
  if name = "" then reply = .core (.error (.unknownCore ""))
  else ∃ reference, reply = .core (.ok reference) ∧ session.name? reference = some name

structure Agrees (log : List (IndexCall ν × IndexReply ν)) (session : IndexSession ν) : Prop where
  names : (session.index.cores.map (·.1)).Nodup
  follows : ∀ reference name core, session.opened? reference = some (name, core) →
    core.Follows reference (log.map (·.1))
  /-- What was not looked up yet was not written to. -/
  untouched : ∀ reference, session.name? reference = none →
    IndexCall.buffered reference (log.map (·.1)) = []
  found : ∀ handle name reply, (.lookUp handle name, reply) ∈ log → session.Found name reply
  numbered : 0 < session.handles
  cloned : ∀ other handle, (.clone other, .handle handle) ∈ log → handle.number < session.handles

variable {log : List (IndexCall ν × IndexReply ν)} {session next : IndexSession ν}
  {call : IndexCall ν} {reply : IndexReply ν}

theorem Found.mono {name : String} (found : session.Found name reply)
    (kept : ∀ reference name, session.name? reference = some name →
      next.name? reference = some name) : next.Found name reply := by
  unfold Found at found ⊢
  split
  · rwa [if_pos ‹_›] at found
  · rw [if_neg ‹_›] at found
    obtain ⟨reference, replied, named⟩ := found
    exact ⟨reference, replied, kept _ _ named⟩

/-- A lookup is refused, leads to a core that is there, or makes one. -/
theorem lookUp_cases (session : IndexSession ν) (name : String) :
    (name = "" ∧ session.lookUp name = (.error (.unknownCore ""), session)) ∨
    (name ≠ "" ∧ ∃ reference, session.name? reference = some name ∧
      session.lookUp name = (.ok reference, session)) ∨
    (name ≠ "" ∧ name ∉ session.index.cores.map (·.1) ∧
      session.lookUp name = (.ok ⟨session.index.cores.length⟩,
        { session with index := { cores := session.index.cores ++ [(name, {})] } })) := by
  unfold lookUp Index.openCore
  by_cases empty : name = ""
  · rw [if_pos empty, empty]
    exact .inl ⟨rfl, rfl⟩
  · rw [if_neg empty]
    cases known : session.index.core? name with
    | some core =>
        have mem : name ∈ session.index.cores.map (·.1) :=
          List.mem_map_of_mem (mem_of_lookup known)
        refine .inr (.inl ⟨empty, _, ?_, rfl⟩)
        rw [name?, opened?, ← List.getElem?_map]
        exact List.getElem?_idxOf mem
    | none =>
        have new : name ∉ session.index.cores.map (·.1) := fun mem => by
          obtain ⟨entry, held, rfl⟩ := List.mem_map.1 mem
          simpa using List.lookup_eq_none_iff.1 known entry held
        refine .inr (.inr ⟨empty, new, ?_⟩)
        dsimp only
        rw [List.map_append, List.idxOf_append_of_notMem new, List.map_singleton,
          List.idxOf_cons_self, Nat.add_zero, List.length_map]

/-- A core that changes keeps its reference and its name. -/
theorem opened?_update (session : IndexSession ν) (name : String) (change : Core ν → Core ν)
    (reference : CoreReference) :
    opened? { session with index := session.index.update name change } reference =
      (session.opened? reference).map fun entry =>
        if entry.1 = name then (entry.1, change entry.2) else entry :=
  List.getElem?_map

theorem name?_update (session : IndexSession ν) (name : String) (change : Core ν → Core ν)
    (reference : CoreReference) :
    name? { session with index := session.index.update name change } reference =
      session.name? reference := by
  rw [name?, opened?_update, Option.map_map, name?]
  congr 1
  funext entry
  rw [Function.comp_apply, apply_ite Prod.fst]
  exact ite_self _

/-- A core that is made has the next reference, and the others keep theirs. -/
theorem opened?_create (session : IndexSession ν) (name : String) (reference : CoreReference) :
    opened? { session with index := { cores := session.index.cores ++ [(name, {})] } } reference =
      if reference = ⟨session.index.cores.length⟩ then some (name, {})
      else session.opened? reference := by
  unfold opened?
  split
  · rename_i last
    rw [last]
    exact List.getElem?_concat_length
  · rename_i differs
    have differs : reference.position ≠ session.index.cores.length := fun same =>
      differs (congrArg CoreReference.mk same)
    obtain inside | beyond := Nat.lt_or_ge reference.position session.index.cores.length
    · exact List.getElem?_append_left inside
    · rw [List.getElem?_eq_none beyond, List.getElem?_eq_none]
      rw [List.length_append, List.length_singleton]
      omega

theorem name?_length (session : IndexSession ν) :
    session.name? ⟨session.index.cores.length⟩ = none :=
  congrArg (Option.map Prod.fst) (List.getElem?_eq_none (Nat.le_refl _))

namespace Agrees

theorem start : Agrees [] ({} : IndexSession ν) where
  names := .nil
  follows := fun _ _ _ stands => nomatch stands
  untouched := fun _ _ => rfl
  found := fun _ _ _ mem => nomatch mem
  numbered := Nat.one_pos
  cloned := fun _ _ mem => nomatch mem

/-- No two references lead to one name. -/
theorem reference_eq (agrees : Agrees log session) {a b : CoreReference} {name : String}
    (first : session.name? a = some name) (second : session.name? b = some name) : a = b := by
  rw [name?, opened?, ← List.getElem?_map] at first second
  obtain ⟨inside, -⟩ := List.getElem?_eq_some_iff.1 first
  have same := (List.getElem?_inj inside agrees.names).1 (first.trans second.symm)
  exact congrArg CoreReference.mk same

/-- A call that changes no core and makes none. -/
theorem still (agrees : Agrees log session) (cores : next.index = session.index)
    (changes : call.changed? = none) (handles : session.handles ≤ next.handles)
    (found : ∀ handle name, call = .lookUp handle name → next.Found name reply)
    (cloned : ∀ other handle, call = .clone other → reply = .handle handle →
      handle.number < next.handles) : Agrees (log ++ [(call, reply)]) next := by
  have other (reference : CoreReference) : call.changed? ≠ some reference := by
    rw [changes]
    exact Option.some_ne_none _ |>.symm
  constructor
  · rw [cores]
    exact agrees.names
  · intro reference name core stands
    rw [opened?, cores] at stands
    rw [List.map_append]
    exact (agrees.follows reference name core stands).of_ne (other _)
  · intro reference absent
    rw [List.map_append, List.map_singleton, IndexCall.buffered_concat_of_ne (other _)]
    refine agrees.untouched reference ?_
    rwa [name?, opened?, cores] at absent
  · intro handle name answered mem
    obtain mem | mem := List.mem_append.1 mem
    · refine (agrees.found handle name answered mem).mono fun reference name named => ?_
      rwa [name?, opened?, cores]
    · cases List.mem_singleton.1 mem
      exact found handle name rfl
  · exact agrees.numbered.trans_le handles
  · intro source handle mem
    obtain mem | mem := List.mem_append.1 mem
    · exact (agrees.cloned source handle mem).trans_le handles
    · cases List.mem_singleton.1 mem
      exact cloned source handle rfl rfl

/-- A call that changes the core it is made on. -/
theorem update (agrees : Agrees log session) {reference : CoreReference} {name : String}
    {change : Core ν → Core ν} (named : session.name? reference = some name)
    (changes : call.changed? = some reference)
    (step : ∀ core : Core ν, core.Follows reference (log.map (·.1)) →
      (change core).Follows reference (log.map (·.1) ++ [call])) :
    Agrees (log ++ [(call, .done)]) { session with index := session.index.update name change } := by
  constructor
  · show ((session.index.cores.map _).map _).Nodup
    rw [List.map_map]
    refine (congrArg List.Nodup (List.map_congr_left fun entry _ => ?_)).mpr agrees.names
    rw [Function.comp_apply, apply_ite Prod.fst]
    exact ite_self _
  · intro other known core stands
    rw [opened?_update] at stands
    obtain ⟨⟨key, old⟩, stood, renewed⟩ := Option.map_eq_some_iff.1 stands
    have keyed : session.name? other = some key := congrArg (Option.map Prod.fst) stood
    have follows := agrees.follows other key old stood
    rw [List.map_append]
    by_cases own : key = name
    · subst own
      rw [if_pos rfl] at renewed
      cases renewed
      cases agrees.reference_eq keyed named
      exact step old follows
    · rw [if_neg own] at renewed
      cases renewed
      refine follows.of_ne fun same => own ?_
      cases changes.symm.trans same
      exact Option.some_inj.1 (keyed.symm.trans named)
  · intro other absent
    rw [name?_update] at absent
    have differs : call.changed? ≠ some other := fun same => by
      cases changes.symm.trans same
      cases absent.symm.trans named
    rw [List.map_append, List.map_singleton, IndexCall.buffered_concat_of_ne differs]
    exact agrees.untouched other absent
  · intro handle asked answered mem
    obtain mem | mem := List.mem_append.1 mem
    · exact (agrees.found handle asked answered mem).mono fun other known named =>
        (name?_update ..).trans named
    · cases List.mem_singleton.1 mem
      cases changes
  · exact agrees.numbered
  · intro source handle mem
    obtain mem | mem := List.mem_append.1 mem
    · exact agrees.cloned source handle mem
    · cases List.mem_singleton.1 mem

/-- A core that is looked up for the first time is empty, and stands behind all others. -/
theorem create (agrees : Agrees log session) {handle : IndexHandle} {name : String}
    (nonempty : name ≠ "") (new : name ∉ session.index.cores.map (·.1)) :
    Agrees (log ++ [(.lookUp handle name, .core (.ok ⟨session.index.cores.length⟩))])
      { session with index := { cores := session.index.cores ++ [(name, {})] } } := by
  have other (reference : CoreReference) :
      (IndexCall.lookUp handle name : IndexCall ν).changed? ≠ some reference := nofun
  constructor
  · show ((session.index.cores ++ [(name, ({} : Core ν))]).map (·.1)).Nodup
    rw [List.map_append, List.map_singleton, List.nodup_append]
    refine ⟨agrees.names, List.nodup_singleton _, fun known old key only same => new ?_⟩
    cases List.mem_singleton.1 only
    cases same
    exact old
  · intro reference known core stands
    rw [opened?_create] at stands
    rw [List.map_append]
    split at stands
    · -- nothing was written to the new core yet
      rename_i last
      cases stands
      have nothing := agrees.untouched _ session.name?_length
      subst last
      refine Core.Follows.of_ne ⟨[], ?_, ?_⟩ (other _)
      · rw [IndexCall.visible_of_buffered nothing]
        rfl
      · rw [IndexCall.visible_of_buffered nothing, nothing]
        rfl
    · exact (agrees.follows reference known core stands).of_ne (other _)
  · intro reference absent
    rw [name?, opened?_create] at absent
    rw [List.map_append, List.map_singleton, IndexCall.buffered_concat_of_ne (other _)]
    split at absent
    · cases absent
    · exact agrees.untouched reference absent
  · intro source asked answered mem
    have named : name? { session with
        index := { cores := session.index.cores ++ [(name, {})] } } ⟨session.index.cores.length⟩ =
        some name := by
      rw [name?, opened?_create, if_pos rfl]
      rfl
    obtain mem | mem := List.mem_append.1 mem
    · refine (agrees.found source asked answered mem).mono fun reference known stands => ?_
      rw [name?, opened?_create, if_neg]
      · exact stands
      · rintro rfl
        cases session.name?_length.symm.trans stands
    · cases List.mem_singleton.1 mem
      unfold Found
      rw [if_neg nonempty]
      exact ⟨_, rfl, named⟩
  · exact agrees.numbered
  · intro source other mem
    obtain mem | mem := List.mem_append.1 mem
    · exact agrees.cloned source other mem
    · cases List.mem_singleton.1 mem

variable [Scalar ν]

/-- **Calls.** Whatever is called, the session is still what the calls have made of it. -/
theorem answer (agrees : Agrees log session) (answered : session.answer call = some (reply, next)) :
    Agrees (log ++ [(call, reply)]) next := by
  cases call with
  | clone handle =>
      obtain ⟨-, ⟨⟩⟩ := Option.ite_none_right_eq_some.1 answered
      refine agrees.still rfl rfl (Nat.le_succ _) nofun fun _ given _ replied => ?_
      cases replied
      exact Nat.lt_succ_self _
  | lookUp handle name =>
      have replied : (.core (session.lookUp name).1, (session.lookUp name).2) = (reply, next) :=
        Option.some_inj.1 (Option.ite_none_right_eq_some.1 answered).2
      obtain ⟨empty, result⟩ | ⟨nonempty, reference, named, result⟩ | ⟨nonempty, new, result⟩ :=
        session.lookUp_cases name
      · rw [result] at replied
        cases replied
        refine agrees.still rfl rfl (Nat.le_refl _) (fun _ _ same => ?_) nofun
        cases same
        exact (if_pos empty : Found _ _ _ = _).mpr rfl
      · rw [result] at replied
        cases replied
        refine agrees.still rfl rfl (Nat.le_refl _) (fun _ _ same => ?_) nofun
        cases same
        exact (if_neg nonempty : Found _ _ _ = _).mpr ⟨reference, rfl, named⟩
      · rw [result] at replied
        cases replied
        -- only a core that is new changes what the references lead to
        exact agrees.create nonempty new
  | add reference document =>
      obtain ⟨name, named, ⟨⟩⟩ := Option.map_eq_some_iff.1 answered
      exact agrees.update named rfl fun core follows => follows.write rfl rfl
  | delete reference id =>
      obtain ⟨name, named, ⟨⟩⟩ := Option.map_eq_some_iff.1 answered
      exact agrees.update named rfl fun core follows => follows.write rfl rfl
  | commit reference =>
      obtain ⟨name, named, ⟨⟩⟩ := Option.map_eq_some_iff.1 answered
      exact agrees.update named rfl fun core follows => follows.commit
  | size reference =>
      obtain ⟨name, named, ⟨⟩⟩ := Option.map_eq_some_iff.1 answered
      exact agrees.still rfl rfl (Nat.le_refl _) nofun nofun
  | query reference query =>
      obtain ⟨name, named, ⟨⟩⟩ := Option.map_eq_some_iff.1 answered
      exact agrees.still rfl rfl (Nat.le_refl _) nofun nofun

theorem serve (agrees : Agrees log session) {calls : List (IndexCall ν)}
    {more : List (IndexCall ν × IndexReply ν)} (served : session.serve calls = some (more, next)) :
    Agrees (log ++ more) next ∧ more.map (·.1) = calls := by
  induction calls generalizing log session more with
  | nil =>
      cases served
      rw [List.append_nil]
      exact ⟨agrees, rfl⟩
  | cons call rest ih =>
      obtain ⟨⟨reply, middle⟩, answered, served⟩ := Option.bind_eq_some_iff.1 served
      obtain ⟨⟨rest, last⟩, served, ⟨⟩⟩ := Option.map_eq_some_iff.1 served
      obtain ⟨agrees, same⟩ := ih (agrees.answer answered) served
      rw [List.append_assoc] at agrees
      exact ⟨agrees, congrArg (call :: ·) same⟩

end Agrees

end IndexSession

/-! ## 4. The family of maps -/

/-- A core is readable unless it holds a double that is not finite. -/
theorem Core.isReadable_eq_false_iff [Scalar ν] {core : Core ν} : core.isReadable = false ↔
    ∃ document ∈ core.documents, ∃ field value,
      (field, .double value) ∈ document.fields ∧ Scalar.isFinite value = false := by
  rw [Bool.eq_false_iff, ne_eq, isReadable_iff]
  push Not
  refine exists_congr fun document => and_congr_right fun _ => ?_
  rw [← Bool.eq_false_iff, Document.isStorable, List.all_eq_false]
  constructor
  · rintro ⟨⟨field, value⟩, mem, bad⟩
    cases value with
    | double value => exact ⟨field, value, mem, Bool.eq_false_iff.2 bad⟩
    | _ => exact absurd rfl bad
  · rintro ⟨field, value, mem, bad⟩
    exact ⟨(field, .double value), mem, Bool.eq_false_iff.1 bad⟩

namespace IndexSession

variable [Scalar ν] {calls : List (IndexCall ν)} {log : List (IndexCall ν × IndexReply ν)}
  {session : IndexSession ν} {reference : CoreReference} {name : String}
  {documents : List (Document ν)}

/-- These are the documents that a core answers from, in insertion order: its size is their number,
    and a query finds some of them, or fails because one of them holds a double that is not
    finite. -/
structure Shows (session : IndexSession ν) (reference : CoreReference)
    (documents : List (Document ν)) : Prop where
  size : session.answer (.size reference) = some (.size documents.length, session)
  query : ∀ query, ∃ result, session.answer (.query reference query) = some (.page result, session) ∧
    ((∃ error, result = .error error) ↔ ∃ document ∈ documents, ∃ field value,
      (field, .double value) ∈ document.fields ∧ Scalar.isFinite value = false) ∧
    ∀ page, result = .ok page → page.documents = query.page (query.results documents) ∧
      page.found = (query.results documents).length

namespace Agrees

theorem isSome_answer_of_lt (agrees : Agrees log session) {handle : IndexHandle}
    (given : handle = ⟨0⟩ ∨ ∃ other, (.clone other, .handle handle) ∈ log) :
    (session.answer (.clone handle)).isSome ∧
    ∀ name, (session.answer (.lookUp handle name)).isSome := by
  have inside : handle.number < session.handles := by
    obtain rfl | ⟨other, mem⟩ := given
    · exact agrees.numbered
    · exact agrees.cloned other handle mem
  simp only [IndexSession.answer, if_pos inside]
  exact ⟨rfl, fun _ => rfl⟩

omit [Scalar ν] in
/-- A reference that a lookup gave leads to a core of that name. -/
theorem named (agrees : Agrees log session) {handle : IndexHandle}
    (mem : (.lookUp handle name, .core (.ok reference)) ∈ log) :
    session.name? reference = some name := by
  have found := agrees.found handle name _ mem
  unfold Found at found
  split at found
  · cases found
  · obtain ⟨_, ⟨⟩, named⟩ := found
    exact named

/-- A core shows what the visible writes leave. -/
theorem shows (agrees : Agrees log session) (named : session.name? reference = some name) :
    ∃ documents, CoreWrite.Leave (IndexCall.visible reference (log.map (·.1))) documents ∧
      session.Shows reference documents := by
  obtain ⟨⟨_, core⟩, stands, rfl⟩ := Option.map_eq_some_iff.1 named
  obtain ⟨waiting, follows, -⟩ := agrees.follows _ _ _ stands
  have opened : session.index.core? _ = some core :=
    lookup_of_mem agrees.names (List.mem_of_getElem? stands)
  have order : core.IsInOrder := follows ▸ Core.isInOrder_after
  refine ⟨core.documents, follows ▸ CoreWrite.leave_apply _, ?_, fun query =>
    ⟨core.query query, ?_, ?_, fun page answered => ?_⟩⟩
  · simp only [IndexSession.answer, named, Option.map_some]
    rw [Index.size, opened, Option.getD_some, Core.size, Core.documents, List.length_map]
  · simp only [IndexSession.answer, named, Option.map_some]
    rw [Index.query, opened, Option.getD_some]
  · rw [← Core.isReadable_eq_false_iff, Core.query]
    cases core.isReadable <;> simp
  · rw [Core.query] at answered
    split at answered
    · cases answered
      rw [← Core.search_eq order]
      exact ⟨rfl, rfl⟩
    · cases answered

end Agrees

/-- **An index is a family of maps.** Whatever is called through an index and its clones: an empty
    name is refused and any other one leads to a core, the same one for the same name and another
    one for another name.  Handles and references stay good.  A core answers from exactly the
    documents that the writes buffered before its last commit leave, in the order in which their
    identifiers came in, and a query fails exactly while one of them holds a double that is not
    finite. -/
theorem index_is_family_of_maps (served : ({} : IndexSession ν).serve calls = some (log, session)) :
    (∀ handle name reply, (.lookUp handle name, reply) ∈ log →
      if name = "" then reply = .core (.error (.unknownCore ""))
      else ∃ core, reply = .core (.ok core)) ∧
    (∀ first second name other a b, (.lookUp first name, .core (.ok a)) ∈ log →
      (.lookUp second other, .core (.ok b)) ∈ log → (a = b ↔ name = other)) ∧
    (∀ handle, handle = ⟨0⟩ ∨ (∃ other, (.clone other, .handle handle) ∈ log) →
      (session.answer (.clone handle)).isSome ∧
      ∀ name, (session.answer (.lookUp handle name)).isSome) ∧
    ∀ handle name core, (.lookUp handle name, .core (.ok core)) ∈ log →
      (∀ document, ∃ next, session.answer (.add core document) = some (.done, next)) ∧
      (∀ id, ∃ next, session.answer (.delete core id) = some (.done, next)) ∧
      (∃ next, session.answer (.commit core) = some (.done, next)) ∧
      ∃ documents, CoreWrite.Leave (IndexCall.visible core calls) documents ∧
        session.Shows core documents := by
  obtain ⟨agrees, rfl⟩ := Agrees.start.serve served
  rw [List.nil_append] at agrees
  refine ⟨fun handle name reply mem => ?_, fun first second name other a b mem mem' => ?_,
    fun handle => agrees.isSome_answer_of_lt, fun handle name core mem => ?_⟩
  · have found := agrees.found handle name reply mem
    unfold Found at found
    split
    · rwa [if_pos ‹_›] at found
    · rw [if_neg ‹_›] at found
      obtain ⟨reference, replied, -⟩ := found
      exact ⟨reference, replied⟩
  · constructor
    · rintro rfl
      exact Option.some_inj.1 ((agrees.named mem).symm.trans (agrees.named mem'))
    · rintro rfl
      exact agrees.reference_eq (agrees.named mem) (agrees.named mem')
  · have named := agrees.named mem
    refine ⟨fun document => ?_, fun id => ?_, ?_, agrees.shows named⟩
    · simp only [answer, named, Option.map_some]
      exact ⟨_, rfl⟩
    · simp only [answer, named, Option.map_some]
      exact ⟨_, rfl⟩
    · simp only [answer, named, Option.map_some]
      exact ⟨_, rfl⟩

def firstCore : CoreReference := ⟨0⟩

def note (page text : String) : Document Rat where
  id := page
  fields := [("text", .text text)]

/-- Two pages come in.  Then the first one is deleted and comes in again, the second one is written
    again, and a write of a third one waits. -/
def twoPages : List (IndexCall Rat) :=
  [.clone ⟨0⟩, .lookUp ⟨0⟩ "notes", .add firstCore (note "home" "a"),
    .add firstCore (note "news" "a"), .commit firstCore, .lookUp ⟨1⟩ "notes", .lookUp ⟨1⟩ "",
    .delete firstCore "home", .add firstCore (note "news" "b"), .add firstCore (note "home" "b"),
    .commit firstCore, .add firstCore (note "about" "a")]

def twoPagesLog : List (IndexCall Rat × IndexReply Rat) :=
  twoPages.zip [.handle ⟨1⟩, .core (.ok firstCore), .done, .done, .done, .core (.ok firstCore),
    .core (.error (.unknownCore "")), .done, .done, .done, .done, .done]

def afterTwoPages : IndexSession Rat where
  index := { cores := [("notes",
    { pending := [.add (note "about" "a")]
      committed := [⟨2, note "news" "b"⟩, ⟨3, note "home" "b"⟩]
      nextPlace := 4 })] }
  handles := 2

theorem serve_twoPages :
    ({} : IndexSession Rat).serve twoPages = some (twoPagesLog, afterTwoPages) := by
  rfl

/-- The page that came in anew stands behind the other one, and the third one is not there. -/
theorem family_of_two_pages :
    ({} : IndexSession Rat).serve twoPages = some (twoPagesLog, afterTwoPages) ∧
    afterTwoPages.Shows firstCore [note "news" "b", note "home" "b"] := by
  obtain ⟨-, -, -, cores⟩ := index_is_family_of_maps serve_twoPages
  have found : (.lookUp ⟨0⟩ "notes", .core (.ok firstCore)) ∈ twoPagesLog :=
    List.mem_cons_of_mem _ List.mem_cons_self
  obtain ⟨-, -, -, documents, leave, shows⟩ := cores _ _ _ found
  cases leave.unique (CoreWrite.leave_apply _)
  exact ⟨serve_twoPages, shows⟩

end IndexSession

end RankLedger

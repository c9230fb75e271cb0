import RankLedger.Proofs.Tenants

/-!
# Books

A listener can keep *books* of what it is told: it notes each vote and each average that is
announced, in the place of the one with the same identifier, and strikes out each vote that is
announced as gone.  `Books.replay` are the books of everything that was heard.

The averages in the books of tenants are in order (`AveragesInOrder`): no identifier occurs twice,
and a tenant has at most one average for a target, and none if it keeps no averages.  A tenant
looks an average up before it changes it (`Manager.LooksUp`), and what it writes continues what it
found; that is enough to keep the averages in order (`AveragesInOrder.put`).
-/

namespace RankLedger

variable {ν : Type}

/-! ## 1. Noting what is heard -/

structure Books (ν : Type) where
  votes : List Ranking := []
  averages : List (AverageRank ν) := []

namespace Books

def note (books : Books ν) (notification : Notification ν) : Books ν :=
  match notification.event, notification.data with
  | .created, .ranking vote => { books with votes := Shelf.put (·.id) vote books.votes }
  | .updated _, .ranking vote => { books with votes := Shelf.put (·.id) vote books.votes }
  | .deleted, .ranking vote => { books with votes := Shelf.erase (·.id) vote.id books.votes }
  | .averageUpdated _ _, .average average =>
      { books with averages := Shelf.put (·.id) average books.averages }
  | _, _ => books

def noteAll (books : Books ν) (log : List (Notification ν)) : Books ν :=
  log.foldl note books

@[simp] theorem noteAll_nil (books : Books ν) : books.noteAll [] = books := rfl

@[simp] theorem noteAll_cons (books : Books ν) (notification : Notification ν)
    (rest : List (Notification ν)) :
    books.noteAll (notification :: rest) = (books.note notification).noteAll rest := rfl

def replay (log : List (Notification ν)) : Books ν :=
  noteAll {} log

theorem replay_append (log news : List (Notification ν)) :
    replay (log ++ news) = (replay log).noteAll news :=
  List.foldl_append

/-- Told of an edit, a listener makes it. -/
theorem note_tells (books : Books ν) (manager : Manager) (edit : Edit) :
    books.note (manager.tells edit.event edit.record) =
      { books with votes := edit.on books.votes } := by
  cases edit <;> rfl

theorem note_tellsAverage (books : Books ν) (manager : Manager) (old new : AverageRank ν) :
    books.note (manager.tellsAverage old new) =
      { books with averages := Shelf.put (·.id) new books.averages } := rfl

end Books

/-! ## 2. Averages in order -/

structure AverageRank.Continues (new old : AverageRank ν) : Prop where
  id : new.id = old.id
  manager : new.manager = old.manager
  target : new.target = old.target
  scale : new.scale = old.scale

section Continues

variable [Scalar ν]

/-- An edit continues the average. -/
theorem Edit.change_continues (edit : Edit) (old : AverageRank ν) (now : Instant) :
    (edit.change old now).Continues old := by
  cases edit with
  | create vote => exact ⟨rfl, rfl, rfl, rfl⟩
  | revise vote rank date =>
      show (old.exchangeVote _ _ now).Continues old
      unfold AverageRank.exchangeVote
      split <;> exact ⟨rfl, rfl, rfl, rfl⟩
  | erase vote =>
      show (old.removeVote _ now).Continues old
      unfold AverageRank.removeVote
      split <;> exact ⟨rfl, rfl, rfl, rfl⟩

theorem AverageRank.reset_continues (old : AverageRank ν) (sum number : Nat) (now : Instant) :
    (old.reset sum number now).Continues old :=
  ⟨rfl, rfl, rfl, rfl⟩

/-- What a manager may find when it looks up its average of a target among these: the average that
    is there, or, if there is none, one without votes under a new identifier. -/
structure Manager.LooksUp (manager : Manager) (target : EntityReference)
    (averages : List (AverageRank ν)) (before after : List String) (old : AverageRank ν) :
    Prop where
  own : old.manager = manager.identifier
  onTarget : old.target = target
  found : old ∈ averages ∨
    (∀ other ∈ averages, other.manager = manager.identifier → other.target ≠ target) ∧
      old.id ∉ before ∧ old.id ∈ after ∧ old.scale = manager.scale ∧ old.number = 0 ∧
      old.average = Scalar.zero

end Continues

/-- The averages of tenants: each has an identifier of its own that was handed out, a whole date,
    and a tenant that keeps averages; a tenant has at most one for each target. -/
structure AveragesInOrder (tenants : Tenants) (given : List String)
    (averages : List (AverageRank ν)) : Prop where
  ids : (averages.map (·.id)).Nodup
  given : ∀ average ∈ averages, average.id ∈ given
  whole : ∀ average ∈ averages, average.updated.IsWhole
  owned : ∀ average ∈ averages, ∃ manager ∈ tenants.members,
    average.manager = manager.identifier ∧ manager.configuration.storeAverage = true ∧
      average.scale = manager.scale
  one : ∀ a ∈ averages, ∀ b ∈ averages, a.manager = b.manager → a.target = b.target → a = b

namespace AveragesInOrder

variable {tenants : Tenants} {given given' : List String} {averages : List (AverageRank ν)}

theorem nil : AveragesInOrder tenants given ([] : List (AverageRank ν)) :=
  ⟨List.nodup_nil, List.forall_mem_nil _, List.forall_mem_nil _, List.forall_mem_nil _,
    List.forall_mem_nil _⟩

theorem mono (h : AveragesInOrder tenants given averages) (later : given <+: given') :
    AveragesInOrder tenants given' averages :=
  ⟨h.ids, fun average mem => later.subset (h.given average mem), h.whole, h.owned, h.one⟩

theorem eq_of_id (h : AveragesInOrder tenants given averages) {a b : AverageRank ν}
    (ha : a ∈ averages) (hb : b ∈ averages) (same : a.id = b.id) : a = b :=
  List.inj_on_of_nodup_map h.ids ha hb same

variable [Scalar ν] {manager : Manager} {target : EntityReference} {old new : AverageRank ν}

/-- Written in the place of the average that was looked up, the new average is the only one of its
    target, and the averages of other targets stay. -/
theorem mem_put_iff (h : AveragesInOrder tenants given averages)
    (looked : manager.LooksUp target averages given given' old) (continues : new.Continues old)
    {average : AverageRank ν} :
    average ∈ Shelf.put (·.id) new averages ↔
      average = new ∨
        average ∈ averages ∧
          ¬ (average.manager = manager.identifier ∧ average.target = target) := by
  rw [Shelf.mem_put]
  refine or_congr Iff.rfl (and_congr_right fun mem => not_congr ?_)
  rw [continues.id]
  -- what was made up has an identifier that nothing else has
  obtain held | ⟨absent, fresh, -⟩ := looked.found
  · constructor
    · intro same
      rw [h.eq_of_id mem held same]
      exact ⟨looked.own, looked.onTarget⟩
    · rintro ⟨own, onTarget⟩
      rw [h.one average mem old held (own.trans looked.own.symm)
        (onTarget.trans looked.onTarget.symm)]
  · constructor
    · intro same
      exact absurd (same ▸ h.given average mem) fresh
    · rintro ⟨own, onTarget⟩
      exact absurd onTarget (absent average mem own)

/-- **Writing what continues the average that was looked up** keeps the averages in order. -/
theorem put (h : AveragesInOrder tenants given averages) (member : manager ∈ tenants.members)
    (keeps : manager.configuration.storeAverage = true) (later : given <+: given')
    (looked : manager.LooksUp target averages given given' old) (continues : new.Continues old)
    (whole : new.updated.IsWhole) :
    AveragesInOrder tenants given' (Shelf.put (·.id) new averages) := by
  have own : new.manager = manager.identifier := continues.manager.trans looked.own
  have onTarget : new.target = target := continues.target.trans looked.onTarget
  refine ⟨Shelf.nodup_put h.ids, fun average mem => ?_, fun average mem => ?_,
    fun average mem => ?_, fun a ha b hb sameManager sameTarget => ?_⟩
  · obtain rfl | ⟨mem, -⟩ := Shelf.mem_put.1 mem
    · rw [continues.id]
      obtain held | ⟨-, -, made, -⟩ := looked.found
      · exact later.subset (h.given old held)
      · exact made
    · exact later.subset (h.given average mem)
  · obtain rfl | ⟨mem, -⟩ := Shelf.mem_put.1 mem
    · exact whole
    · exact h.whole average mem
  · obtain rfl | ⟨mem, -⟩ := Shelf.mem_put.1 mem
    · refine ⟨manager, member, own, keeps, ?_⟩
      rw [continues.scale]
      obtain held | ⟨-, -, -, scale, -⟩ := looked.found
      · -- the owner of the old one is the manager, so the scale stays the same
        obtain ⟨other, mem, owned, -, scale⟩ := h.owned old held
        rw [scale, Tenants.eq_of_identifier mem member (owned.symm.trans looked.own)]
      · exact scale
    · exact h.owned average mem
  · obtain rfl | ⟨ma, elsewhereA⟩ := (h.mem_put_iff looked continues).1 ha <;>
      obtain rfl | ⟨mb, elsewhereB⟩ := (h.mem_put_iff looked continues).1 hb
    · rfl
    · exact absurd ⟨sameManager.symm.trans own, sameTarget.symm.trans onTarget⟩ elsewhereB
    · exact absurd ⟨sameManager.trans own, sameTarget.trans onTarget⟩ elsewhereA
    · exact h.one a ma b mb sameManager sameTarget

end AveragesInOrder

end RankLedger

import Mathlib.Data.Finset.Card
import RankLedger.Lock.Traffic
import RankLedger.Proofs.Entries

/-!
# One live lock per key

A lock table does not count references itself: an entry is alive as long as a reference to its lock
is.  So what has to hold of the table is about the references that threads have (`Sound`): each is
to the lock that is entered under its key, no two entries share a key or a lock, and the locks
that are marked as taken are those of the guards.  No step of any thread breaks this
(`Sound.take`), and then the references of a key agree on their lock, the table counts the live
keys, and guards of one key exclude each other.
-/

namespace RankLedger.LockTraffic

variable {ι : Type} {traffic next : LockTraffic ι} {thread : ι}

/-! ## 1. What every step keeps -/

structure Sound (traffic : LockTraffic ι) : Prop where
  /-- The table knows of the references that are alive, and of no others. -/
  counted : traffic.table.references.Perm (traffic.alive.map (·.2.lock))
  entered : ∀ holder ∈ traffic.alive, (holder.2.key, holder.2.lock) ∈ traffic.table.entries
  keys : (traffic.table.entries.map (·.1)).Nodup
  locks : (traffic.table.entries.map (·.2)).Nodup
  made : ∀ entry ∈ traffic.table.entries, entry.2.number < traffic.table.next
  marked : traffic.table.held.Perm (traffic.guards.map (·.2.lock))
  once : traffic.table.held.Nodup

theorem mem_alive {holder : ι × LockReference} :
    holder ∈ traffic.alive ↔ holder ∈ traffic.references ∨ holder ∈ traffic.guards :=
  List.mem_append

namespace Sound

theorem start : ({} : LockTraffic ι).Sound :=
  ⟨.nil, List.forall_mem_nil _, .nil, .nil, List.forall_mem_nil _, .nil, .nil⟩

/-- A lock is alive exactly if somebody has a reference to it or a guard of it. -/
theorem isLive_iff (sound : traffic.Sound) {lock : LockId} :
    traffic.table.isLive lock = true ↔ ∃ holder ∈ traffic.alive, holder.2.lock = lock := by
  rw [LockTable.isLive, List.contains_iff_mem, sound.counted.mem_iff, List.mem_map]

theorem isHeld_iff (sound : traffic.Sound) {lock : LockId} :
    traffic.table.isHeld lock = true ↔ ∃ guard ∈ traffic.guards, guard.2.lock = lock := by
  rw [LockTable.isHeld, List.contains_iff_mem, sound.marked.mem_iff, List.mem_map]

/-- Under one key stands one lock, and one lock stands under one key. -/
theorem lock_eq_of_key (sound : traffic.Sound) {a b : ι × LockReference}
    (first : a ∈ traffic.alive) (second : b ∈ traffic.alive) (same : a.2.key = b.2.key) :
    a.2.lock = b.2.lock :=
  congrArg Prod.snd (List.inj_on_of_nodup_map sound.keys (sound.entered a first)
    (sound.entered b second) same)

theorem key_eq_of_lock (sound : traffic.Sound) {a b : ι × LockReference}
    (first : a ∈ traffic.alive) (second : b ∈ traffic.alive) (same : a.2.lock = b.2.lock) :
    a.2.key = b.2.key :=
  congrArg Prod.fst (List.inj_on_of_nodup_map sound.locks (sound.entered a first)
    (sound.entered b second) same)

end Sound

/-! ## 2. Steps -/

namespace Sound

/-- A step that makes no lock leaves the entries alone. -/
theorem of_entries (sound : traffic.Sound) (entries : next.table.entries = traffic.table.entries)
    (numbers : next.table.next = traffic.table.next)
    (sub : ∀ holder ∈ next.alive, holder ∈ traffic.alive)
    (counted : next.table.references.Perm (next.alive.map (·.2.lock)))
    (marked : next.table.held.Perm (next.guards.map (·.2.lock))) (once : next.table.held.Nodup) :
    next.Sound where
  counted := counted
  entered := fun holder mem => entries ▸ sound.entered holder (sub holder mem)
  keys := entries ▸ sound.keys
  locks := entries ▸ sound.locks
  made := by
    rw [entries, numbers]
    exact sound.made
  marked := marked
  once := once

/-- Asking for a key gives its live lock, or a new one in place of dead ones. -/
theorem get (sound : traffic.Sound) (thread : ι) (key : String) :
    Sound { traffic with
      table := (traffic.table.get key).2
      references := (thread, ⟨key, (traffic.table.get key).1⟩) :: traffic.references } := by
  unfold LockTable.get
  split
  · rename_i lock live
    obtain ⟨found, -⟩ := Option.filter_eq_some_iff.1 live
    exact {
      counted := sound.counted.cons lock
      entered := List.forall_mem_cons.2 ⟨mem_of_lookup found, sound.entered⟩
      keys := sound.keys
      locks := sound.locks
      made := sound.made
      marked := sound.marked
      once := sound.once }
  · rename_i dead
    -- among the entries that stay none is of this key, and none has the new lock
    have kept : ∀ entry ∈ traffic.table.prune.entries, entry.1 ≠ key := by
      rintro ⟨_, lock⟩ mem rfl
      obtain ⟨mem, live⟩ := List.mem_filter.1 mem
      rw [LockTable.live?, lookup_of_mem sound.keys mem, Option.filter_some, if_pos live] at dead
      cases dead
    have old : ∀ entry ∈ traffic.table.prune.entries, entry.2.number < traffic.table.next :=
      fun entry mem => sound.made entry (List.mem_filter.1 mem).1
    have sub : traffic.table.prune.entries.Sublist traffic.table.entries := List.filter_sublist
    exact {
      counted := sound.counted.cons _
      entered := by
        refine List.forall_mem_cons.2 ⟨List.mem_cons_self, fun holder mem => ?_⟩
        exact List.mem_cons_of_mem _ (List.mem_filter.2
          ⟨sound.entered holder mem, sound.isLive_iff.2 ⟨holder, mem, rfl⟩⟩)
      keys := by
        refine List.nodup_cons.2 ⟨fun mem => ?_, sound.keys.sublist (sub.map _)⟩
        obtain ⟨entry, mem, same⟩ := List.mem_map.1 mem
        exact kept entry mem same
      locks := by
        refine List.nodup_cons.2 ⟨fun mem => ?_, sound.locks.sublist (sub.map _)⟩
        obtain ⟨entry, mem, same⟩ := List.mem_map.1 mem
        exact Nat.lt_irrefl _ (same ▸ old entry mem)
      made := by
        refine List.forall_mem_cons.2 ⟨Nat.lt_succ_self _, fun entry mem => ?_⟩
        exact Nat.lt_succ_of_lt (old entry mem)
      marked := sound.marked
      once := sound.once }

variable {holder : ι × LockReference}

theorem copy (sound : traffic.Sound) (mem : holder ∈ traffic.references) :
    Sound { traffic with
      table := traffic.table.retain holder.2.lock
      references := holder :: traffic.references } := by
  refine sound.of_entries rfl rfl ?_ (sound.counted.cons _) sound.marked sound.once
  exact List.forall_mem_cons.2 ⟨mem_alive.2 (.inl mem), fun _ => id⟩

variable [DecidableEq ι]

theorem drop (sound : traffic.Sound) (mem : holder ∈ traffic.references) :
    Sound { traffic with
      table := traffic.table.drop holder.2.lock
      references := traffic.references.erase holder } := by
  have perm : traffic.alive.Perm (holder :: (traffic.references.erase holder ++ traffic.guards)) :=
    (List.perm_cons_erase mem).append_right _
  refine sound.of_entries rfl rfl (fun other among => ?_) ?_ sound.marked sound.once
  · exact perm.symm.subset (List.mem_cons_of_mem _ among)
  · have counted := (sound.counted.trans (perm.map _)).erase holder.2.lock
    rwa [List.map_cons, List.erase_cons_head] at counted

theorem acquire (sound : traffic.Sound) (mem : holder ∈ traffic.references)
    (free : traffic.table.isHeld holder.2.lock = false) :
    Sound {
      table := traffic.table.take holder.2.lock
      references := traffic.references.erase holder
      guards := holder :: traffic.guards } := by
  have perm : (traffic.references.erase holder ++ holder :: traffic.guards).Perm traffic.alive :=
    List.perm_middle.trans ((List.perm_cons_erase mem).symm.append_right _)
  have held : (traffic.table.take holder.2.lock).held = holder.2.lock :: traffic.table.held :=
    if_neg (by rw [free]; exact Bool.false_ne_true)
  refine sound.of_entries rfl rfl (fun other among => perm.subset among) ?_ ?_ ?_
  · exact sound.counted.trans (perm.symm.map _)
  · rw [held]
    exact sound.marked.cons _
  · rw [held, List.nodup_cons]
    refine ⟨fun taken => ?_, sound.once⟩
    rw [LockTable.isHeld, List.contains_iff_mem.2 taken] at free
    cases free

theorem release (sound : traffic.Sound) (mem : holder ∈ traffic.guards) :
    Sound { traffic with
      table := traffic.table.dismiss holder.2.lock
      guards := traffic.guards.erase holder } := by
  have guards := List.perm_cons_erase mem
  have perm : traffic.alive.Perm (holder :: (traffic.references ++ traffic.guards.erase holder)) :=
    (guards.append_left _).trans List.perm_middle
  -- the lock is marked once, so the mark that is taken away is that of this guard
  have marked := sound.marked.trans (guards.map _)
  have others := (marked.nodup_iff.1 sound.once)
  rw [List.map_cons] at marked others
  refine sound.of_entries rfl rfl (fun other among => ?_) ?_ ?_ (sound.once.filter _)
  · exact perm.symm.subset (List.mem_cons_of_mem _ among)
  · have counted := (sound.counted.trans (perm.map _)).erase holder.2.lock
    rwa [List.map_cons, List.erase_cons_head] at counted
  · refine (marked.filter _).trans (.of_eq ?_)
    rw [List.filter_cons_of_neg (by simp), List.filter_eq_self]
    rintro lock among
    rw [bne_iff_ne]
    rintro rfl
    exact (List.nodup_cons.1 others).1 among

/-- **Steps.** Whatever a thread does, table, references and guards still fit together. -/
theorem take (sound : traffic.Sound) {step : LockStep} (h : traffic.take thread step = some next) :
    next.Sound := by
  cases step with
  | get key =>
      cases h
      exact sound.get thread key
  | copy reference =>
      obtain ⟨mem, ⟨⟩⟩ := Option.ite_none_right_eq_some.1 h
      exact sound.copy mem
  | drop reference =>
      obtain ⟨mem, ⟨⟩⟩ := Option.ite_none_right_eq_some.1 h
      exact sound.drop mem
  | acquire reference =>
      obtain ⟨⟨mem, free⟩, ⟨⟩⟩ := Option.ite_none_right_eq_some.1 h
      exact sound.acquire mem free
  | release guard =>
      obtain ⟨mem, ⟨⟩⟩ := Option.ite_none_right_eq_some.1 h
      exact sound.release mem

theorem run (sound : traffic.Sound) {steps : List (ι × LockStep)}
    (h : traffic.run steps = some next) : next.Sound := by
  induction steps generalizing traffic with
  | nil =>
      cases h
      exact sound
  | cons first rest ih =>
      obtain ⟨middle, taken, h⟩ := Option.bind_eq_some_iff.1 h
      exact ih (sound.take taken) h

end Sound

/-! ## 3. One live lock per key -/

def liveKeys (traffic : LockTraffic ι) : Finset String :=
  (traffic.alive.map (·.2.key)).toFinset

namespace Sound

/-- The keys of the entries that are alive are those that are in use. -/
theorem size_eq (sound : traffic.Sound) : traffic.table.size = traffic.liveKeys.card := by
  have keys : ((traffic.table.entries.filter fun entry => traffic.table.isLive entry.2).map
      (·.1)).Nodup := sound.keys.sublist (List.filter_sublist.map _)
  rw [LockTable.size, ← List.length_map (·.1), ← List.toFinset_card_of_nodup keys]
  congr 1
  ext key
  rw [liveKeys, List.mem_toFinset, List.mem_toFinset, List.mem_map, List.mem_map]
  constructor
  · rintro ⟨⟨_, lock⟩, mem, rfl⟩
    obtain ⟨mem, live⟩ := List.mem_filter.1 mem
    obtain ⟨holder, alive, rfl⟩ := sound.isLive_iff.1 live
    -- the lock stands under the key of whoever holds it, and under no other
    have same := List.inj_on_of_nodup_map sound.locks (sound.entered holder alive) mem rfl
    exact ⟨holder, alive, congrArg Prod.fst same⟩
  · rintro ⟨holder, alive, rfl⟩
    exact ⟨_, List.mem_filter.2 ⟨sound.entered holder alive,
      sound.isLive_iff.2 ⟨holder, alive, rfl⟩⟩, rfl⟩

variable [DecidableEq ι]

/-- A new lock is entered beside those of the keys that are alive. -/
theorem length_entries_take (sound : traffic.Sound) {step : LockStep}
    (h : traffic.take thread step = some next) :
    next.table.entries.length =
      if traffic.makes step then traffic.liveKeys.card + 1 else traffic.table.entries.length := by
  cases step with
  | get key =>
      cases h
      show (traffic.table.get key).2.entries.length = _
      rw [makes, LockTable.get]
      cases live : traffic.table.live? key with
      | some lock => rfl
      | none =>
          rw [← sound.size_eq]
          rfl
  | copy reference =>
      obtain ⟨-, ⟨⟩⟩ := Option.ite_none_right_eq_some.1 h
      rfl
  | drop reference =>
      obtain ⟨-, ⟨⟩⟩ := Option.ite_none_right_eq_some.1 h
      rfl
  | acquire reference =>
      obtain ⟨-, ⟨⟩⟩ := Option.ite_none_right_eq_some.1 h
      rfl
  | release guard =>
      obtain ⟨-, ⟨⟩⟩ := Option.ite_none_right_eq_some.1 h
      rfl

end Sound

variable [DecidableEq ι]

def lastCrowd (traffic : LockTraffic ι) : List (ι × LockStep) → Option Nat
  | [] => none
  | (thread, step) :: rest =>
      match traffic.take thread step with
      | none => none
      | some next =>
          (next.lastCrowd rest).or
            (if traffic.makes step then some traffic.liveKeys.card else none)

theorem Sound.length_entries_run (sound : traffic.Sound) {steps : List (ι × LockStep)}
    (h : traffic.run steps = some next) :
    next.table.entries.length =
      ((traffic.lastCrowd steps).map (· + 1)).getD traffic.table.entries.length := by
  induction steps generalizing traffic with
  | nil =>
      cases h
      rfl
  | cons first rest ih =>
      obtain ⟨middle, taken, h⟩ := Option.bind_eq_some_iff.1 h
      rw [ih (sound.take taken) h, lastCrowd, taken]
      dsimp only
      cases last : middle.lastCrowd rest with
      | some crowd => rfl
      | none =>
          rw [sound.length_entries_take taken, Option.none_or]
          cases traffic.makes first.2 <;> rfl

/-- **One live lock per key.** Whatever threads do with the references they get from a lock table
    and with their guards, in any order: of all that is alive, exactly what was got for one key is
    to one lock; the size of the table is the number of keys that are alive; and it has no more
    entries than keys were alive when it last made a lock, and the one that was made. -/
theorem one_live_lock_per_key {steps : List (ι × LockStep)}
    (h : ({} : LockTraffic ι).run steps = some traffic) :
    (∀ a ∈ traffic.alive, ∀ b ∈ traffic.alive,
      a.2.lock = b.2.lock ↔ a.2.key = b.2.key) ∧
    traffic.table.size = traffic.liveKeys.card ∧
    traffic.table.isEmpty = decide (traffic.liveKeys.card = 0) ∧
    traffic.table.entries.length ≤
      (match ({} : LockTraffic ι).lastCrowd steps with
        | none => 0
        | some crowd => crowd + 1) := by
  have sound := Sound.start.run h
  refine ⟨fun a first b second => ⟨?_, ?_⟩, sound.size_eq, ?_, ?_⟩
  · exact sound.key_eq_of_lock first second
  · exact sound.lock_eq_of_key first second
  · rw [LockTable.isEmpty, sound.size_eq]
    rfl
  · rw [Sound.start.length_entries_run h]
    cases ({} : LockTraffic ι).lastCrowd steps <;> exact Nat.le_refl _

/-- Two threads get the lock of one page, and the first one takes it; the second one has a lock of
    another page for a while, and when a third page is asked for, that lock is forgotten. -/
def threePages : List (Nat × LockStep) :=
  [(0, .get "home"), (1, .get "home"), (0, .acquire ⟨"home", ⟨0⟩⟩), (1, .get "news"),
    (1, .drop ⟨"news", ⟨1⟩⟩), (0, .get "about"), (0, .copy ⟨"about", ⟨2⟩⟩)]

def afterThreePages : LockTraffic Nat where
  table :=
    { entries := [("about", ⟨2⟩), ("home", ⟨0⟩)]
      references := [⟨2⟩, ⟨2⟩, ⟨0⟩, ⟨0⟩]
      held := [⟨0⟩]
      next := 3 }
  references := [(0, ⟨"about", ⟨2⟩⟩), (0, ⟨"about", ⟨2⟩⟩), (1, ⟨"home", ⟨0⟩⟩)]
  guards := [(0, ⟨"home", ⟨0⟩⟩)]

theorem run_threePages : ({} : LockTraffic Nat).run threePages = some afterThreePages := by
  decide +kernel

theorem one_live_lock_per_page :
    ({} : LockTraffic Nat).run threePages = some afterThreePages ∧
    (∀ a ∈ afterThreePages.alive, ∀ b ∈ afterThreePages.alive,
      a.2.lock = b.2.lock ↔ a.2.key = b.2.key) ∧
    afterThreePages.table.size = afterThreePages.liveKeys.card ∧
    afterThreePages.liveKeys = {"home", "about"} ∧
    afterThreePages.table.isEmpty = false ∧ afterThreePages.table.entries.length ≤ 1 + 1 := by
  obtain ⟨locks, size, empty, entries⟩ := one_live_lock_per_key run_threePages
  have crowd : ({} : LockTraffic Nat).lastCrowd threePages = some 1 := by decide +kernel
  rw [crowd] at entries
  exact ⟨run_threePages, locks, size, by decide, empty, entries⟩

/-! ## 4. Guards -/

/-- **Guards exclude each other.** However threads take turns at a lock table: no two guards of one
    key are alive; a lock is marked as taken exactly while a guard of it is alive; a thread with a
    reference can take the lock exactly if no guard of its key is alive; and without guards every
    lock is free. -/
theorem guards_exclude_each_other {steps : List (ι × LockStep)}
    (h : ({} : LockTraffic ι).run steps = some traffic) :
    (traffic.guards.map (·.2.key)).Nodup ∧
    (∀ lock, traffic.table.isHeld lock = true ↔ ∃ guard ∈ traffic.guards, guard.2.lock = lock) ∧
    (∀ thread reference, (traffic.take thread (.acquire reference)).isSome = true ↔
      (thread, reference) ∈ traffic.references ∧
        ∀ guard ∈ traffic.guards, guard.2.key ≠ reference.key) ∧
    (traffic.guards = [] → ∀ lock, traffic.table.isHeld lock = false) := by
  have sound := Sound.start.run h
  have alive {guard : ι × LockReference} (mem : guard ∈ traffic.guards) : guard ∈ traffic.alive :=
    mem_alive.2 (.inr mem)
  refine ⟨?_, fun lock => sound.isHeld_iff, fun thread reference => ?_, fun none lock => ?_⟩
  · -- guards of one key have one lock, and no lock is marked twice
    have locks : (traffic.guards.map (·.2.lock)).Nodup := sound.marked.nodup_iff.1 sound.once
    rw [List.nodup_iff_pairwise_ne, List.pairwise_map] at locks ⊢
    refine locks.imp_of_mem fun first second differ same => differ ?_
    exact sound.lock_eq_of_key (alive first) (alive second) same
  · show (if _ then _ else none : Option (LockTraffic ι)).isSome = true ↔ _
    rw [Option.isSome_ite, Bool.eq_false_iff, ne_eq, sound.isHeld_iff]
    refine and_congr_right fun mem => ?_
    constructor
    · rintro free guard among same
      exact free ⟨guard, among,
        sound.lock_eq_of_key (alive among) (mem_alive.2 (.inl mem)) same⟩
    · rintro free ⟨guard, among, same⟩
      exact free guard among (sound.key_eq_of_lock (alive among) (mem_alive.2 (.inl mem)) same)
  · rw [Bool.eq_false_iff, ne_eq, sound.isHeld_iff, none]
    rintro ⟨_, mem, -⟩
    cases mem

/-- The page whose lock was taken has to be waited for, the other one does not. -/
theorem guards_exclude_on_three_pages :
    ({} : LockTraffic Nat).run threePages = some afterThreePages ∧
    (afterThreePages.guards.map (·.2.key)).Nodup ∧
    afterThreePages.table.isHeld ⟨0⟩ = true ∧
    (afterThreePages.take 1 (.acquire ⟨"home", ⟨0⟩⟩)).isSome = false ∧
    (afterThreePages.take 0 (.acquire ⟨"about", ⟨2⟩⟩)).isSome = true := by
  obtain ⟨once, held, free, -⟩ := guards_exclude_each_other run_threePages
  have guard : ((0 : Nat), (⟨"home", ⟨0⟩⟩ : LockReference)) ∈ afterThreePages.guards :=
    List.mem_cons_self
  refine ⟨run_threePages, once, (held _).2 ⟨_, guard, rfl⟩, ?_, (free _ _).2 (by decide)⟩
  rw [Bool.eq_false_iff, ne_eq, free]
  rintro ⟨-, others⟩
  exact others _ guard rfl

end RankLedger.LockTraffic

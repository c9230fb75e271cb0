import RankLedger.Lock.Table

/-!
# One lock for many threads

As long as somebody refers to the lock of a key, everyone who asks for the key gets that lock, and
when nobody does any more a new one is made.  So if threads ask for one key only, they all refer to
one lock at a time (`LockTable.Guards`), and it is taken by at most one of them.
-/

namespace RankLedger.LockTable

structure IsAtRest (table : LockTable) : Prop where
  references : table.references = []
  held : table.held = []

structure Guards (table : LockTable) (key : String) (lock : LockId) (users : Nat)
    (taken : Bool) : Prop where
  references : table.references = List.replicate users lock
  entry : 0 < users → table.entries.lookup key = some lock
  held : table.held = if taken then [lock] else []

variable {table : LockTable} {key : String} {lock : LockId} {users : Nat} {taken : Bool}

theorem IsAtRest.guards (rest : table.IsAtRest) (key : String) (lock : LockId) :
    table.Guards key lock 0 false :=
  ⟨rest.references, nofun, rest.held⟩

namespace Guards

theorem get (h : table.Guards key lock users taken)
    (free : users = 0 → taken = false) :
    (table.get key).2.Guards key (table.get key).1 (users + 1) taken ∧
      (0 < users → (table.get key).1 = lock) := by
  cases users with
  | zero =>
      -- a new lock is made, and entries of dead locks are dropped
      have dead : table.live? key = none := by
        rw [live?, Option.filter_eq_none_iff]
        intro other _
        rw [isLive, h.references]
        simp
      have held := h.held
      rw [free rfl] at held
      rw [LockTable.get, dead]
      refine ⟨⟨?_, fun _ => List.lookup_cons_self, ?_⟩,
        fun wrong => absurd wrong (Nat.lt_irrefl 0)⟩
      · show _ :: table.references = _
        rw [h.references]
        rfl
      · show table.held = _
        rw [held, free rfl]
        rfl
  | succ n =>
      have live : table.live? key = some lock := by
        rw [live?, h.entry n.succ_pos, Option.filter_some, isLive, h.references]
        simp
      rw [LockTable.get, live]
      refine ⟨⟨?_, fun _ => h.entry n.succ_pos, h.held⟩, fun _ => rfl⟩
      show lock :: table.references = _
      rw [h.references]
      rfl

theorem take (h : table.Guards key lock users false) :
    table.isHeld lock = false ∧ (table.take lock).Guards key lock users true := by
  have free : table.isHeld lock = false := by
    rw [isHeld, h.held]
    rfl
  refine ⟨free, h.references, h.entry, ?_⟩
  rw [LockTable.take, free, h.held]
  rfl

theorem not_isHeld_of_free (h : table.Guards key lock users false) (other : LockId) :
    table.isHeld other = false := by
  rw [isHeld, h.held]
  rfl

theorem isHeld_of_taken (h : table.Guards key lock users true) :
    table.isHeld lock = true := by
  rw [isHeld, h.held]
  simp

theorem dismiss (h : table.Guards key lock (users + 1) true) :
    (table.dismiss lock).Guards key lock users false := by
  refine ⟨?_, fun _ => h.entry users.succ_pos, ?_⟩
  · show table.references.erase lock = _
    rw [h.references, List.replicate_succ, List.erase_cons_head]
  · show table.held.filter _ = _
    rw [h.held]
    simp

end Guards

end RankLedger.LockTable

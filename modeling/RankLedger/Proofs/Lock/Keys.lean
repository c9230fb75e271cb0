import RankLedger.Lock.Key

/-!
# Lock keys separate targets

A lock key joins three texts by colons and escapes nothing, and a manager's identifier as well as
a reference may hold colons of its own.  Still a key can be taken apart: the name of an entity type
has no colon, so behind the identifier of the manager it ends at the first one, whatever the
reference looks like (`target_eq_of_append_eq`).  Where the identifier ends is known if it is the
same on both sides, or if it has no colon either (`lockKey_eq_lockKey_iff`).
-/

namespace RankLedger

/-! ## 1. Texts around a separator -/

/-- What stands before the first separator ends there on both sides. -/
theorem append_cons_eq_iff {α : Type} {separator : α} {a b x y : List α} (ha : separator ∉ a)
    (hb : separator ∉ b) : a ++ separator :: x = b ++ separator :: y ↔ a = b ∧ x = y := by
  induction a generalizing b with
  | nil =>
      cases b with
      | nil => simp
      | cons first b =>
          have other : separator ≠ first := fun same => hb (same ▸ List.mem_cons_self)
          simp [other]
  | cons first a ih =>
      have ha' : separator ∉ a := fun mem => ha (List.mem_cons_of_mem _ mem)
      cases b with
      | nil =>
          have other : first ≠ separator := fun same => ha (same ▸ List.mem_cons_self)
          simp [other]
      | cons second b =>
          have hb' : separator ∉ b := fun mem => hb (List.mem_cons_of_mem _ mem)
          rw [List.cons_append, List.cons_append, List.cons.injEq, ih ha' hb', List.cons.injEq,
            and_assoc]

theorem EntityType.colon_notMem_name (entityType : EntityType) :
    ':' ∉ entityType.name.toList := by
  cases entityType <;> decide

/-! ## 2. Keys -/

def EntityReference.keyPart (target : EntityReference) : List Char :=
  target.entityType.name.toList ++ ':' :: target.reference.toList

theorem toList_lockKey (manager : String) (target : EntityReference) :
    (lockKey manager target).toList = manager.toList ++ ':' :: target.keyPart := by
  simp [lockKey, EntityReference.keyPart]

theorem EntityReference.keyPart_eq_iff {target other : EntityReference} :
    target.keyPart = other.keyPart ↔
      target.entityType = other.entityType ∧ target.reference = other.reference := by
  rw [keyPart, keyPart, append_cons_eq_iff (EntityType.colon_notMem_name _)
    (EntityType.colon_notMem_name _), String.toList_inj, String.toList_inj]
  exact and_congr_left' ⟨EntityType.name_injective, congrArg _⟩

/-- **Lock keys separate targets.**  Two targets, each under a manager, have the same lock exactly if
    manager, entity type and reference are the same.  Different managers must not have a colon in
    their identifiers; nothing is asked of the references. -/
theorem lockKey_eq_lockKey_iff {manager rival : String} {target other : EntityReference}
    (h : manager = rival ∨ ':' ∉ manager.toList ∧ ':' ∉ rival.toList) :
    lockKey manager target = lockKey rival other ↔
      manager = rival ∧
        target.entityType = other.entityType ∧ target.reference = other.reference := by
  rw [← String.toList_inj, toList_lockKey, toList_lockKey, ← EntityReference.keyPart_eq_iff]
  rcases h with rfl | ⟨plain, rivalPlain⟩
  · -- the same identifier may hold colons: it has the same length on both sides
    rw [List.append_right_inj, List.cons.injEq]
    simp
  · rw [append_cons_eq_iff plain rivalPlain, String.toList_inj]

/-- The names of entity types, and colons, in references do not make two keys one. -/
theorem lockKey_separates_look_alikes :
    lockKey "a:PAGE" ⟨.page, "PAGE:b"⟩ ≠ lockKey "a:PAGE" ⟨.pageAttachment, "b"⟩ ∧
      lockKey "stars" ⟨.page, "ATTACHMENT:b"⟩ ≠ lockKey "likes" ⟨.page, "ATTACHMENT:b"⟩ ∧
      lockKey "stars" ⟨.object, "PROPERTY:b"⟩ ≠ lockKey "stars" ⟨.objectProperty, "b"⟩ :=
  ⟨fun same => by simpa using (lockKey_eq_lockKey_iff (.inl rfl)).1 same,
    fun same => by simpa using (lockKey_eq_lockKey_iff (.inr ⟨by decide, by decide⟩)).1 same,
    fun same => by simpa using (lockKey_eq_lockKey_iff (.inl rfl)).1 same⟩

/-- With a colon in the identifier of a manager, a target of another one can have the same lock. -/
example : lockKey "a" ⟨.page, "PAGE:b"⟩ = lockKey "a:PAGE" ⟨.page, "b"⟩ := by decide

end RankLedger

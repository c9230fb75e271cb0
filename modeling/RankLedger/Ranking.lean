import RankLedger.Entity
import RankLedger.Instant

/-!
# Votes

A ranking is the vote of one user on one entity under one manager: a rank between zero and the
scale, with the dates of its first and its last change.
-/

namespace RankLedger

structure Ranking where
  id : String
  manager : String
  target : EntityReference
  voter : UserReference
  rank : UInt32
  scale : UInt32
  created : Instant
  updated : Instant
  deriving DecidableEq, Repr, Inhabited

namespace Ranking

def create (id manager : String) (target : EntityReference) (voter : UserReference)
    (rank scale : UInt32) (now : Instant) : Ranking :=
  { id, manager, target, voter, rank, scale, created := now, updated := now }

def revise (ranking : Ranking) (rank : UInt32) (now : Instant) : Ranking :=
  { ranking with rank, updated := now }

def rankSum : List Ranking → Nat
  | [] => 0
  | ranking :: rest => ranking.rank.toNat + rankSum rest

@[simp] theorem rankSum_append (a b : List Ranking) :
    rankSum (a ++ b) = rankSum a + rankSum b := by
  induction a with
  | nil => simp [rankSum]
  | cons ranking rest ih => simp [rankSum, ih, Nat.add_assoc]

end Ranking

end RankLedger

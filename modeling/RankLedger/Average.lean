import RankLedger.Entity
import RankLedger.Instant
import RankLedger.Scalar

/-!
# Running averages

The average of the votes on one entity under one manager, kept up to date vote by vote.  Only the
average and the number of votes are remembered: each change first recovers the total as their
product.  An average without votes is zero, and taking away the last vote gives exactly zero.

**Overflow.** The number of votes is an unsigned 64-bit word.  The largest one cannot count one vote
more, and a program that adds a vote to it breaks off (`AverageRank.addVote?`).
-/

namespace RankLedger

structure AverageRank (ν : Type) where
  id : String
  manager : String
  target : EntityReference
  average : ν
  number : Nat
  scale : UInt32
  updated : Instant
  deriving Repr

namespace AverageRank

variable {ν : Type} [Scalar ν]

def create (id manager : String) (target : EntityReference) (scale : UInt32) (now : Instant) :
    AverageRank ν :=
  { id, manager, target, average := Scalar.zero, number := 0, scale, updated := now }

def total (a : AverageRank ν) : ν :=
  a.average * Scalar.ofCount a.number

def addVote (a : AverageRank ν) (vote : UInt32) (now : Instant) : AverageRank ν :=
  { a with
    average := (a.total + Scalar.ofCount vote.toNat) / Scalar.ofCount (a.number + 1)
    number := a.number + 1
    updated := now }

/-- One vote more, if the number of votes is still an unsigned 64-bit word. -/
def addVote? (a : AverageRank ν) (vote : UInt32) (now : Instant) : Option (AverageRank ν) :=
  if a.number + 1 < 18446744073709551616 then some (a.addVote vote now) else none

/-- One vote less.  Without votes there is nothing to take away, and after the last one the
    average is zero. -/
def removeVote (a : AverageRank ν) (vote : UInt32) (now : Instant) : AverageRank ν :=
  match a.number with
  | 0 => { a with average := Scalar.zero, updated := now }
  | 1 => { a with average := Scalar.zero, number := 0, updated := now }
  | n + 1 =>
      { a with
        average := (a.total - Scalar.ofCount vote.toNat) / Scalar.ofCount n
        number := n
        updated := now }

/-- One vote exchanged for another.  Without votes the average stays as it is. -/
def exchangeVote (a : AverageRank ν) (old new : UInt32) (now : Instant) : AverageRank ν :=
  match a.number with
  | 0 => { a with updated := now }
  | n + 1 =>
      { a with
        average :=
          (a.total - Scalar.ofCount old.toNat + Scalar.ofCount new.toNat) / Scalar.ofCount (n + 1)
        updated := now }

def reset (a : AverageRank ν) (sum number : Nat) (now : Instant) : AverageRank ν :=
  { a with
    average :=
      match number with
      | 0 => Scalar.zero
      | n + 1 => Scalar.ofCount sum / Scalar.ofCount (n + 1)
    number := number
    updated := now }

def same (a b : AverageRank ν) : Bool :=
  a.id == b.id && a.manager == b.manager && a.target == b.target
    && Scalar.same a.average b.average && a.number == b.number && a.scale == b.scale
    && a.updated == b.updated

end AverageRank

end RankLedger

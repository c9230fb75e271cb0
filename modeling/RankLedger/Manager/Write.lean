import RankLedger.Manager.Read

/-!
# Changing votes

Saving and removing votes, and rebuilding an average from the votes.  Each change works under the
lock of its target, so that looking for a vote, writing it and bringing the average up to date are
not interleaved with another change of the same target by the same manager.

**Two commits.** A vote and its average are committed one after the other.  If the second commit
fails the first one stands, is announced, and the average is out of step until it is rebuilt.
-/

namespace RankLedger.Manager

variable {ν : Type} [Scalar ν]

/-! ## 1. Single writes -/

def store (context core : String) (document : Option (Document ν)) : Attempt ν Unit := do
  Attempt.inContext context (ExceptT.mk (Program.request (.openCore core)))
  let document ← Attempt.fitting document
  Attempt.inContext context do
    ExceptT.mk (Program.request (.add core document))
    ExceptT.mk (Program.request (.commit core))

omit [Scalar ν] in
/-- A document that can be made is written like any other. -/
theorem store_some (context core : String) (document : Document ν) :
    store context core (some document) = Attempt.inContext context (do
      ExceptT.mk (Program.request (.openCore core))
      ExceptT.mk (Program.request (.add core document))
      ExceptT.mk (Program.request (.commit core))) := by
  show Program.step _ _ = Program.step _ _
  congr 1
  funext opened
  cases opened <;> rfl

def erase (context core id : String) : Attempt ν Unit :=
  Attempt.inContext context do
    ExceptT.mk (Program.request (.openCore core))
    ExceptT.mk (Program.request (.delete core id))
    ExceptT.mk (Program.request (.commit core))

def storeRanking (manager : Manager) (context : String) (event : RankingEvent ν)
    (ranking : Ranking) : Change ν Unit := do
  Change.attempt (store context manager.voteCore ranking.toDocument?)
  Change.announce { event, source := manager.identifier, data := .ranking ranking }

def storeAverage (manager : Manager) (context : String) (event : RankingEvent ν)
    (average : AverageRank ν) : Change ν Unit := do
  Change.attempt (store context averageCore average.toDocument?)
  Change.announce { event, source := manager.identifier, data := .average average }

structure AverageChange (ν : Type) where
  average : AverageRank ν
  event : RankingEvent ν

def averageChange? (manager : Manager) (target : EntityReference)
    (change : AverageRank ν → Instant → AverageRank ν) : Attempt ν (Option (AverageChange ν)) := do
  if manager.configuration.storeAverage then
    let before ← manager.average target
    let now ← Attempt.now
    return some { average := change before now
                  event := .averageUpdated before.average before.number }
  else return none

def storeChange (manager : Manager) (context : String) :
    Option (AverageChange ν) → Change ν Unit
  | none => return ()
  | some change => manager.storeAverage context change.event change.average

/-! ## 2. Work under the lock of a target -/

def eraseLocked (manager : Manager) (ranking : Ranking) : Change ν Unit := do
  let context := "error while removing ranking"
  Change.attempt (erase context manager.voteCore ranking.id)
  Change.announce
    { event := .deleted, source := manager.identifier, data := .ranking ranking }
  let change ← Change.attempt <| manager.averageChange? ranking.target fun average now =>
    average.removeVote ranking.rank now
  manager.storeChange context change

def isNoVote (manager : Manager) (rank : UInt32) : Bool :=
  rank == 0 && !manager.configuration.storeZero

def storingContext (target : EntityReference) (voter : UserReference) : String :=
  "error when storing rank information for entity [" ++ target.display ++ "] with user ["
    ++ voter.reference ++ "]"

/-- Makes this the vote of the user on the target.  A first vote is created, a later one changes
    the vote that is there, and a zero that is not stored takes it away. -/
def saveLocked (manager : Manager) (target : EntityReference) (voter : UserReference)
    (rank : UInt32) : Change ν (Option Ranking) := do
  let context := storingContext target voter
  match ← Change.attempt (manager.vote? target voter) with
  | none =>
      if manager.isNoVote rank then return none
      else
        let now ← Change.attempt Attempt.now
        let id ← Change.attempt Attempt.freshId
        let ranking := Ranking.create id manager.identifier target voter rank manager.scale now
        -- a number of votes that was read is far from the largest word, so one more can be counted
        let change ← Change.attempt <| manager.averageChange? target fun average now =>
          average.addVote rank now
        manager.storeRanking context .created ranking
        manager.storeChange context change
        return some ranking
  | some existing =>
      if manager.isNoVote rank then
        manager.eraseLocked existing
        return none
      else
        let now ← Change.attempt Attempt.now
        let ranking := existing.revise rank now
        let change ← Change.attempt <| manager.averageChange? target fun average now =>
          average.exchangeVote existing.rank rank now
        manager.storeRanking context (.updated existing.rank) ranking
        manager.storeChange context change
        return some ranking

def removeLocked (manager : Manager) (id : String) : Change ν Bool := do
  match ← Change.attempt (manager.find? id) with
  | none => return false
  | some ranking =>
      manager.eraseLocked ranking
      return true

def recomputeLocked (manager : Manager) (target : EntityReference) :
    Change ν (AverageRank ν) := do
  let votes ← Change.attempt (manager.allRankings (RankingQuery.empty.target target))
  let before ← Change.attempt (manager.average target)
  let now ← Change.attempt Attempt.now
  let average := before.reset (Ranking.rankSum votes) votes.length now
  if manager.configuration.storeAverage then
    manager.storeAverage "error while recomputing average rank"
      (.averageUpdated before.average before.number) average
  return average

/-! ## 3. Changes -/

/-- Saves the vote of a user on a target.  The result is the vote that is stored now, or none if a
    zero took it away. -/
def save (manager : Manager) (target : EntityReference) (voter : UserReference) (vote : Int) :
    Attempt ν (Option Ranking) := do
  let rank ← Attempt.ofExcept (manager.validate vote)
  manager.locked target (manager.saveLocked target voter rank)

/-- Removes the vote of this identifier; the result says whether there was one.  The vote is
    looked up once to learn its target, and again under the lock of the target, because it may be
    gone by then. -/
def remove (manager : Manager) (id : String) : Attempt ν Bool := do
  match ← manager.find? id with
  | none => return false
  | some ranking => manager.locked ranking.target (manager.removeLocked id)

/-- Rebuilds the average of a target from its votes.  It is stored and announced only if averages
    are kept. -/
def recompute (manager : Manager) (target : EntityReference) : Attempt ν (AverageRank ν) :=
  manager.locked target (manager.recomputeLocked target)

end RankLedger.Manager

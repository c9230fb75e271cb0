import RankLedger.Deployment.Basic

/-!
# Contests

Several threads save votes on one target through one manager.  What is left in the end does not
depend on how they took turns, as far as the totals go: the rank of every voter, the number of
events of each kind, and the average rebuilt from the votes.  Here the threads run one after
another.
-/

namespace RankLedger

structure ContestTotals (ν : Type) where
  /-- The voters who have a vote, in order, with its rank. -/
  ranks : List (String × UInt32)
  /-- How often each channel was used. -/
  events : List (String × Nat)
  number : Nat
  average : ν
  deriving Repr

namespace Deployment

variable {ν : Type} [Scalar ν]

def tally (texts : List String) : List (String × Nat) :=
  texts.eraseDups.map fun text => (text, texts.count text)

def saveAll (manager : Manager) (target : EntityReference) (deployment : Deployment ν)
    (votes : List (UserReference × Int)) : Deployment ν :=
  votes.foldl
    (fun deployment vote => (deployment.perform (manager.save target vote.1 vote.2).run).2)
    deployment

def contest (manager : Manager) (target : EntityReference)
    (threads : List (List (UserReference × Int))) : Except RankingError (ContestTotals ν) :=
  let saved := threads.foldl (saveAll manager target) ({} : Deployment ν)
  let (votes, read) :=
    saved.perform (manager.allRankings (RankingQuery.empty.target target)).run
  let (average, _) := read.perform (manager.recompute target).run
  match votes, average with
  | .ok votes, .ok average =>
      .ok {
        ranks :=
          (votes.map fun vote => (vote.voter.reference, vote.rank)).mergeSort
            fun a b => decide (a.1 ≤ b.1)
        events := tally (saved.heard.map fun notification => notification.event.channel)
        number := average.number
        average := average.average }
  | .error error, _ => .error error
  | _, .error error => .error error

end Deployment

end RankLedger

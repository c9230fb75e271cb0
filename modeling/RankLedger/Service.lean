import RankLedger.Manager.Write

/-!
# The page service

Pages do not want errors.  The operations here work on the manager that was found for a hint, or
on the error found instead of one, and give an empty answer wherever something failed.
-/

namespace RankLedger.Service

variable {ν : Type} [Scalar ν]

def forgive {α : Type} (manager : Except RankingError Manager) (fallback : α)
    (attempt : Manager → Attempt ν α) : Attempt ν α :=
  match manager with
  | .error _ => return fallback
  | .ok manager =>
      tryCatch (attempt manager) fun
        | .overflow => throw .overflow
        | _ => return fallback

/-- Saves a vote.  The result is the stored vote, none if there is none now or on an error. -/
def save (manager : Except RankingError Manager) (target : EntityReference)
    (voter : UserReference) (vote : Int) : Attempt ν (Option Ranking) :=
  forgive manager none fun manager => manager.save target voter vote

def rankings (manager : Except RankingError Manager) (target : EntityReference) (offset : Nat)
    (limit : Option Nat) : Attempt ν (List Ranking) :=
  forgive manager [] fun manager =>
    manager.rankings (RankingQuery.empty.target target) offset limit .updatedDate false

def average (manager : Except RankingError Manager) (target : EntityReference) :
    Attempt ν (Option (AverageRank ν)) :=
  forgive manager none fun manager => return some (← manager.average target)

end RankLedger.Service

import RankLedger.Manager.Basic

/-!
# Reading votes and averages

What can be asked of a manager without changing anything.  Every query is restricted to the
manager's own records, whatever it says about managers itself.  Reading opens a core, and so makes
sure that it exists.
-/

namespace RankLedger.Manager

variable {ν : Type} [Scalar ν]

/-! ## 1. Votes -/

def indexQuery? (manager : Manager) (query : RankingQuery) : Option (IndexQuery ν) := do
  let others := query.toList.filter fun filter => filter.1 != .managerId
  let filters ← others.mapM fun filter => do
    let value ← filter.2.toFieldValue?
    return (filter.1.storedName, value)
  return { filters := filters ++ [(QueryField.managerId.storedName, .text manager.identifier)] }

def readPage (context core : String) (query : IndexQuery ν) : Attempt ν (IndexPage ν) :=
  Attempt.inContext context do
    ExceptT.mk (Program.request (.openCore core))
    ExceptT.mk (Program.request (.query core query))

def rankingPage (manager : Manager) (query : RankingQuery) (offset : Nat) (limit : Option Nat)
    (order : QueryField) (ascending : Bool) : Attempt ν (List Ranking × Nat) := do
  let asked ← Attempt.fitting (manager.indexQuery? query)
  let page ← readPage "error while trying to get rankings" manager.voteCore
    { asked with
      start := offset
      rows := limit
      sort := some (order.storedName, SortOrder.ofAscending ascending) }
  let rankings ← page.documents.mapM fun document =>
    Attempt.ofDocument (Ranking.ofDocument document)
  return (rankings, page.found)

def rankings (manager : Manager) (query : RankingQuery) (offset : Nat) (limit : Option Nat)
    (order : QueryField) (ascending : Bool) : Attempt ν (List Ranking) := do
  let (rankings, _) ← manager.rankingPage query offset limit order ascending
  return rankings

def count (manager : Manager) (query : RankingQuery) : Attempt ν Nat := do
  let asked ← Attempt.fitting (manager.indexQuery? query)
  let page ← readPage "error while trying to get count of rankings" manager.voteCore
    { asked with rows := some 0 }
  return page.found

def oldest? (manager : Manager) (query : RankingQuery) : Attempt ν (Option Ranking) := do
  let rankings ← manager.rankings query 0 (some 1) .createdDate true
  return rankings.getLast?

def vote? (manager : Manager) (target : EntityReference) (voter : UserReference) :
    Attempt ν (Option Ranking) :=
  manager.oldest? ((RankingQuery.empty.target target).voter voter)

def find? (manager : Manager) (id : String) : Attempt ν (Option Ranking) :=
  manager.oldest? (RankingQuery.empty.filter .identifier (.text id))

/-! ## 2. All votes on a target -/

def batch : Nat := 100

def followingPages (manager : Manager) (query : RankingQuery) :
    (further offset : Nat) → List Ranking → Attempt ν (List Ranking)
  | 0, _, page => return page
  | further + 1, offset, page =>
      if page.length < batch then return page
      else do
        let next ← manager.rankings query (offset + batch) (some batch) .createdDate true
        let rest ← manager.followingPages query further (offset + batch) next
        return page ++ rest

/-- All votes that answer a query, read page by page until a page is not full.  The number found
    with the first page says after how many pages there has to be one. -/
def allRankings (manager : Manager) (query : RankingQuery) : Attempt ν (List Ranking) := do
  let (first, found) ← manager.rankingPage query 0 (some batch) .createdDate true
  manager.followingPages query (found / batch + 1) 0 first

/-! ## 3. Averages -/

def averageQuery (manager : Manager) (target : EntityReference) : IndexQuery ν :=
  { filters :=
      [(AverageField.managerId.storedName, .text manager.identifier),
        (AverageField.rankedElement.storedName, .text target.reference),
        (AverageField.entityType.storedName, .text target.entityType.name)]
    rows := some 1
    sort := some (AverageField.updatedAt.storedName, .ascending) }

/-- The average of a target: the stored one, or an empty one that is not stored. -/
def average (manager : Manager) (target : EntityReference) : Attempt ν (AverageRank ν) := do
  let page ← readPage "error while trying to get average ranking value" averageCore
    (manager.averageQuery target)
  match page.documents.head? with
  | some document => Attempt.ofDocument (AverageRank.ofDocument document target)
  | none =>
      let id ← Attempt.freshId
      let now ← Attempt.now
      return AverageRank.create id manager.identifier target manager.scale now

end RankLedger.Manager

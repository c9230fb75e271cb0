import RankLedger.Manager.Write

/-!
# The calls of a program

A program makes calls of some kind only, if whatever it is answered its next call is of that kind
(`Program.Makes`).  Everything by which a manager finds something out is made of calls that read:
it opens a core, queries it, looks at the clock, or makes an identifier (`Manager.reads_average` and
its like).
-/

namespace RankLedger

variable {ν α β ε : Type}

/-! ## 1. Programs -/

namespace Program

def Makes (kind : Call ν → Prop) : Program ν α → Prop
  | .done _ => True
  | .step call next => kind call ∧ ∀ reply, (next reply).Makes kind

variable {kind : Call ν → Prop} {program : Program ν α}

theorem makes_done (result : α) : (done result : Program ν α).Makes kind := trivial

theorem makes_request {call : Call ν} (h : kind call) : (request call).Makes kind :=
  ⟨h, fun _ => trivial⟩

theorem Makes.mono {other : Call ν → Prop} (h : program.Makes kind)
    (le : ∀ call, kind call → other call) : program.Makes other := by
  induction program with
  | done result => trivial
  | step call rest ih => exact ⟨le call h.1, fun reply => ih reply (h.2 reply)⟩

theorem Makes.bind {f : α → Program ν β} (h : program.Makes kind)
    (next : ∀ result, (f result).Makes kind) : (program.bind f).Makes kind := by
  induction program with
  | done result => exact next result
  | step call rest ih => exact ⟨h.1, fun reply => ih reply (h.2 reply)⟩

end Program

open Program (Makes makes_done makes_request)

section Makes

variable {kind : Call ν → Prop}

theorem makes_bindCont {program : Program ν (Except ε α)} {f : α → ExceptT ε (Program ν) β}
    (h : program.Makes kind) (next : ∀ result, (f result).run.Makes kind) :
    (program.bind (ExceptT.bindCont f)).Makes kind := by
  refine h.bind fun result => ?_
  cases result with
  | ok result => exact next result
  | error error => exact makes_done _

theorem makes_exceptBind {program : ExceptT ε (Program ν) α} {f : α → ExceptT ε (Program ν) β}
    (h : program.run.Makes kind) (next : ∀ result, (f result).run.Makes kind) :
    (program >>= f).run.Makes kind :=
  makes_bindCont h next

theorem makes_exceptLift {program : Program ν α} (h : program.Makes kind) :
    (ExceptT.lift program : ExceptT ε (Program ν) α).run.Makes kind :=
  h.bind fun _ => makes_done _

namespace Attempt

theorem makes_inContext {context : String} {program : ExceptT IndexError (Program ν) α}
    (h : program.run.Makes kind) : (inContext context program).run.Makes kind :=
  h.bind fun _ => makes_done _

/-- Something done for each member of a list. -/
theorem makes_mapM {f : α → Attempt ν β} (h : ∀ a, (f a).run.Makes kind) (list : List α) :
    (list.mapM f).run.Makes kind := by
  induction list with
  | nil => exact makes_done _
  | cons a rest ih =>
      rw [List.mapM_cons]
      exact makes_exceptBind (h a) fun _ => makes_exceptBind ih fun _ => makes_done _

end Attempt

end Makes

/-! ## 2. Reading -/

def Call.Reads : Call ν → Prop
  | .openCore _ | .query _ _ | .now | .freshId => True
  | _ => False

theorem Attempt.reads_now : (now : Attempt ν Instant).run.Makes Call.Reads :=
  makes_exceptBind (makes_exceptLift (makes_request trivial)) fun _ => makes_done _

theorem Attempt.reads_freshId : (freshId : Attempt ν String).run.Makes Call.Reads :=
  makes_exceptLift (makes_request trivial)

namespace Manager

variable {manager : Manager} {query : RankingQuery} {offset : Nat} {limit : Option Nat}
  {order : QueryField} {ascending : Bool}

theorem reads_readPage {context core : String} {query : IndexQuery ν} :
    (readPage context core query).run.Makes Call.Reads :=
  Attempt.makes_inContext (makes_exceptBind (makes_request trivial) fun _ => makes_request trivial)

theorem reads_rankingPage :
    (manager.rankingPage query offset limit order ascending : Attempt ν _).run.Makes Call.Reads :=
  makes_exceptBind (makes_done _) fun _ => makes_exceptBind reads_readPage fun _ =>
    makes_exceptBind (Attempt.makes_mapM (fun _ => makes_done _) _) fun _ => makes_done _

theorem reads_rankings :
    (manager.rankings query offset limit order ascending : Attempt ν _).run.Makes Call.Reads :=
  makes_exceptBind reads_rankingPage fun _ => makes_done _

theorem reads_count : (manager.count query : Attempt ν _).run.Makes Call.Reads :=
  makes_exceptBind (makes_done _) fun _ => makes_exceptBind reads_readPage fun _ => makes_done _

theorem reads_oldest? : (manager.oldest? query : Attempt ν _).run.Makes Call.Reads :=
  makes_exceptBind reads_rankings fun _ => makes_done _

theorem reads_followingPages {further offset : Nat} {page : List Ranking} :
    (manager.followingPages query further offset page : Attempt ν _).run.Makes Call.Reads := by
  induction further generalizing offset page with
  | zero => exact makes_done _
  | succ further ih =>
      rw [followingPages]
      split
      · exact makes_done _
      · exact makes_exceptBind reads_rankings fun _ => makes_exceptBind ih fun _ => makes_done _

theorem reads_allRankings : (manager.allRankings query : Attempt ν _).run.Makes Call.Reads :=
  makes_exceptBind reads_rankingPage fun _ => reads_followingPages

variable [Scalar ν]

theorem reads_average {target : EntityReference} :
    (manager.average target : Attempt ν _).run.Makes Call.Reads := by
  refine makes_exceptBind reads_readPage fun page => ?_
  split
  · exact makes_done _
  · exact makes_exceptBind Attempt.reads_freshId fun _ =>
      makes_exceptBind Attempt.reads_now fun _ => makes_done _

theorem reads_averageChange? {target : EntityReference}
    {change : AverageRank ν → Instant → AverageRank ν} :
    (manager.averageChange? target change).run.Makes Call.Reads := by
  unfold averageChange?
  split
  · exact makes_exceptBind reads_average fun _ =>
      makes_exceptBind Attempt.reads_now fun _ => makes_done _
  · exact makes_done _

end Manager

end RankLedger

import RankLedger.Error
import RankLedger.Index.Basic

/-!
# Planned faults

A deployment can be told in advance what will go wrong in it: calls to a core that fail after a
number of successes, calls to the lock service that fail, and a rival that changes a core at the
moment a lock is taken.
-/

namespace RankLedger

inductive IndexAction where
  | openCore
  | add
  | delete
  | commit
  | query
  deriving DecidableEq, Repr, Inhabited

structure IndexFault where
  core : String
  action : IndexAction
  /-- How many more calls succeed first. -/
  after : Nat
  error : IndexError
  deriving DecidableEq, Repr, Inhabited

/-- What the planned faults do to a call, and the plan after it.  The faults are asked in order;
    each one that is concerned but still lets calls pass counts this one, and the first that does
    not makes the call fail. -/
def IndexFault.strike (core : String) (action : IndexAction) :
    List IndexFault → Option IndexError × List IndexFault
  | [] => (none, [])
  | fault :: rest =>
      if fault.core = core ∧ fault.action = action then
        match fault.after with
        | 0 => (some fault.error, fault :: rest)
        | n + 1 =>
            let (error, rest) := strike core action rest
            (error, { fault with after := n } :: rest)
      else
        let (error, rest) := strike core action rest
        (error, fault :: rest)

inductive LockAction where
  | get
  | take
  | free
  deriving DecidableEq, Repr, Inhabited

/-- A change of a core by somebody who does not take part in the locking: a document is deleted,
    others are added, and the core is committed. -/
structure Rival (ν : Type) where
  core : String
  delete : Option String
  add : List (Document ν)
  deriving Repr, Inhabited

def Rival.strike {ν : Type} (rival : Rival ν) (index : Index ν) : Index ν :=
  match index.openCore rival.core with
  | .error _ => index
  | .ok index =>
      let deleted := match rival.delete with
        | none => index
        | some id => index.delete rival.core id
      (rival.add.foldl (fun index document => index.add rival.core document) deleted).commit
        rival.core

end RankLedger

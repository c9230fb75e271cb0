import Mathlib.Logic.Function.Basic
import RankLedger.Index.Core

/-!
# Traffic on a core

Several threads use one core.  Buffering a write and asking a query are one step each; a commit
is two, since other threads may act between `Core.drain` and `Core.apply`, and it returns at once
if there is nothing to drain.
-/

namespace RankLedger

variable {ν : Type}

inductive Access (ν : Type) where
  | buffer (write : CoreWrite ν)
  /-- The first step of a commit, and the last one if there is nothing to drain. -/
  | drain
  /-- The second step of a commit. -/
  | apply
  | query (query : IndexQuery ν)

def Access.written : Access ν → List (CoreWrite ν)
  | .buffer write => [write]
  | _ => []

structure Traffic (ι ν : Type) where
  core : Core ν := {}
  /-- The batch that a thread in the middle of a commit has drained and not yet applied. -/
  flying : ι → Option (List (CoreWrite ν)) := fun _ => none

namespace Traffic

variable {ι : Type} [DecidableEq ι]

/-- A step of a thread.  A thread in the middle of a commit can only go on with it. -/
def take (traffic : Traffic ι ν) (thread : ι) : Access ν → Option (Traffic ι ν)
  | .apply =>
      (traffic.flying thread).map fun batch =>
        { core := traffic.core.apply batch, flying := Function.update traffic.flying thread none }
  | .buffer write =>
      match traffic.flying thread with
      | none => some { traffic with core := traffic.core.push write }
      | some _ => none
  | .drain =>
      match traffic.flying thread, traffic.core.drain with
      | none, ([], _) => some traffic
      | none, (first :: rest, drained) =>
          some { core := drained
                 flying := Function.update traffic.flying thread (some (first :: rest)) }
      | some _, _ => none
  | .query _ =>
      match traffic.flying thread with
      | none => some traffic
      | some _ => none

def run (traffic : Traffic ι ν) : List (ι × Access ν) → Option (Traffic ι ν)
  | [] => some traffic
  | (thread, access) :: rest => (traffic.take thread access).bind fun next => next.run rest

def buffered (steps : List (ι × Access ν)) : List (CoreWrite ν) :=
  steps.flatMap (·.2.written)

end Traffic

end RankLedger

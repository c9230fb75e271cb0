import RankLedger.Index.Basic

/-!
# Sessions with an index

The users of an index have handles.  All of them, the first one and its clones, stand for the same
index, and cores can be looked up through each.  A lookup gives a reference to a core.  No core is
ever removed and a new one stands behind all others, so a reference is the position of its core
among the cores of the index, and stays good whatever is looked up later.
-/

namespace RankLedger

structure IndexHandle where
  number : Nat
  deriving DecidableEq, Repr, Inhabited

structure CoreReference where
  position : Nat
  deriving DecidableEq, Repr, Inhabited

/-- What can be asked of an index and of the cores that were looked up in it. -/
inductive IndexCall (ν : Type) where
  | clone (handle : IndexHandle)
  | lookUp (handle : IndexHandle) (name : String)
  | add (core : CoreReference) (document : Document ν)
  | delete (core : CoreReference) (id : String)
  | commit (core : CoreReference)
  /-- How many documents are committed. -/
  | size (core : CoreReference)
  | query (core : CoreReference) (query : IndexQuery ν)
  deriving Inhabited

inductive IndexReply (ν : Type) where
  | handle (handle : IndexHandle)
  | core (result : Except IndexError CoreReference)
  | done
  | size (documents : Nat)
  | page (result : Except IndexError (IndexPage ν))
  deriving Inhabited

structure IndexSession (ν : Type) where
  index : Index ν := {}
  /-- How many handles were given out; they are numbered from zero. -/
  handles : Nat := 1
  deriving Inhabited

namespace IndexSession

variable {ν : Type}

def opened? (session : IndexSession ν) (core : CoreReference) : Option (String × Core ν) :=
  session.index.cores[core.position]?

def name? (session : IndexSession ν) (core : CoreReference) : Option String :=
  (session.opened? core).map (·.1)

def lookUp (session : IndexSession ν) (name : String) :
    Except IndexError CoreReference × IndexSession ν :=
  match session.index.openCore name with
  | .error error => (.error error, session)
  | .ok index => (.ok ⟨(index.cores.map (·.1)).idxOf name⟩, { session with index })

/-- The answer to a call.  Only handles and references that were given out can be used. -/
def answer [Scalar ν] (session : IndexSession ν) :
    IndexCall ν → Option (IndexReply ν × IndexSession ν)
  | .clone handle =>
      if handle.number < session.handles then
        some (.handle ⟨session.handles⟩, { session with handles := session.handles + 1 })
      else none
  | .lookUp handle name =>
      if handle.number < session.handles then
        let (result, next) := session.lookUp name
        some (.core result, next)
      else none
  | .add core document =>
      (session.name? core).map fun name =>
        (.done, { session with index := session.index.add name document })
  | .delete core id =>
      (session.name? core).map fun name =>
        (.done, { session with index := session.index.delete name id })
  | .commit core =>
      (session.name? core).map fun name =>
        (.done, { session with index := session.index.commit name })
  | .size core =>
      (session.name? core).map fun name => (.size (session.index.size name), session)
  | .query core query =>
      (session.name? core).map fun name => (.page (session.index.query name query), session)

def serve [Scalar ν] (session : IndexSession ν) :
    List (IndexCall ν) → Option (List (IndexCall ν × IndexReply ν) × IndexSession ν)
  | [] => some ([], session)
  | call :: rest =>
      (session.answer call).bind fun (reply, next) =>
        (next.serve rest).map fun (log, last) => ((call, reply) :: log, last)

end IndexSession

end RankLedger

import DelayedJobs.Store.Basic
import DelayedJobs.Table.Row

/-!
What comes back for a statement, and what it means for the request that sent it. Whatever fails
for want of a connection makes the store unavailable, in a request and in an installation alike.
-/

namespace DelayedJobs

inductive LinkError where
  | poolClosed
  | poolTimedOut
  /-- Anything else, with the text that the connection has for it. -/
  | other (text : String)
deriving DecidableEq

namespace LinkError

/-- The error of a store; `rejected` is for all but the want of a connection. -/
def toStoreError (rejected : String → StoreError) : LinkError → StoreError
  | poolClosed => .unavailable "connection pool closed"
  | poolTimedOut => .unavailable "timed out waiting for a connection"
  | other text => rejected text

def inRequest : LinkError → StoreError := toStoreError .backend

def inInstall : LinkError → StoreError := toStoreError .install

end LinkError

inductive Reply where
  | done (affected : Nat) (rows : List JobRow)
  | failed (e : LinkError)

def Store.Request.answer (pruneBatch : Nat) (affected : Nat) (rows : List JobRow) :
    Store.Request → Store.Answer
  | .schedule id _ _ => .scheduled id
  | .claim .. => .claimed (rows.head?.map JobRow.toJob)
  | .keep .. => .kept (decide (0 < affected))
  | .complete .. | .retry .. | .forget .. => .done
  | .prune _ => .pruned (decide (pruneBatch ≤ affected))

end DelayedJobs

import TypeRecovery.Table

/-!
# Call graphs

Functions and the calls between them. Calls are kept by caller and by callee, each in order of
address and call site.
-/
namespace TypeRecovery

inductive CallKind where
  | direct
  | implicit
deriving DecidableEq

def CallKind.rank : CallKind → Nat
  | direct => 0
  | implicit => 1

structure CallSite where
  callAddress : Nat
  kind : CallKind
deriving DecidableEq

/-- The function at the other end of a call, and where the call is made. -/
structure CallLink where
  address : Nat
  site : CallSite
deriving DecidableEq

instance : Key CallLink :=
  Key.comap (fun l => (l.address, l.site.callAddress, l.site.kind.rank)) fun {a b} h => by
    obtain ⟨_, _, k⟩ := a
    obtain ⟨_, _, k'⟩ := b
    cases k <;> cases k' <;> simp_all [CallKind.rank]

/-- A resolved indirect call. -/
structure CallEdge where
  caller : Nat
  callAddress : Nat
  target : Nat
deriving DecidableEq

structure CallNode where
  address : Nat
  name : Option String
  isExternal : Bool
deriving DecidableEq

structure CallGraph where
  nodes : Table Nat CallNode := .empty
  outgoing : Table Nat (KeySet CallLink) := .empty
  incoming : Table Nat (KeySet CallLink) := .empty
deriving DecidableEq

namespace CallGraph

/-- Adds a function. A function that is already there stays as it is. -/
def addNode (g : CallGraph) (address : Nat) (name : Option String) (isExternal : Bool) :
    CallGraph :=
  if g.nodes.contains address then g
  else { g with nodes := g.nodes.insert address { address, name, isExternal } }

def link (t : Table Nat (KeySet CallLink)) (address : Nat) (l : CallLink) :
    Table Nat (KeySet CallLink) :=
  t.insert address (((t.get? address).getD .empty).add l)

def addCall (g : CallGraph) (caller callee : Nat) (site : CallSite) : CallGraph :=
  { g with
    outgoing := link g.outgoing caller ⟨callee, site⟩
    incoming := link g.incoming callee ⟨caller, site⟩ }

def addEdge (g : CallGraph) (e : CallEdge) : CallGraph :=
  g.addCall e.caller e.target ⟨e.callAddress, .implicit⟩

def node? (g : CallGraph) (address : Nat) : Option CallNode := g.nodes.get? address

def callees (g : CallGraph) (caller : Nat) : List CallLink :=
  ((g.outgoing.get? caller).getD .empty).toList

def callers (g : CallGraph) (callee : Nat) : List CallLink :=
  ((g.incoming.get? callee).getD .empty).toList

def calleeAddresses (g : CallGraph) (caller : Nat) : List Nat :=
  (KeySet.ofKeys ((g.callees caller).map (·.address))).toList

def callerAddresses (g : CallGraph) (callee : Nat) : List Nat :=
  (KeySet.ofKeys ((g.callers callee).map (·.address))).toList

def edgeCount (g : CallGraph) : Nat := g.outgoing.sumBy Table.size

end CallGraph
end TypeRecovery

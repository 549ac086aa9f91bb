import ArgumentMap.Gesture
import ArgumentMap.Snapshot

/-! A graph seen from outside, without a session: what can be done to it, and whole runs. -/

namespace ArgumentMap

inductive Operation
  | mint (stableId : Uuid)
  | insert (n : Node)
  | load (snapshot : Snapshot) (fresh : NodeId → Uuid)
  | connect (parent child : NodeId)
  | disconnect (parent child : NodeId)
  | setText (id : NodeId) (text : String)
  | propagate (id : NodeId) (role : Role) (origin : Option NodeId) (force : Bool)
  | detach (id : NodeId)
  | select (config : Config) (tool : EdgeTool) (id : NodeId)

namespace Operation

def perform : Operation → Edit Graph (Option NodeId)
  | mint stableId => some <$> Edit.attempt fun g => .ok (g.mint stableId)
  | insert n => do Edit.attempt fun g => (g.insert n).map ((), ·); return none
  | load snapshot fresh => do let _ ← snapshot.load fresh; return none
  | connect parent child => do let _ ← Edit.attempt (·.connect parent child); return none
  | disconnect parent child => do let _ ← Edit.attempt (·.disconnect parent child); return none
  | setText id text => do Edit.attempt fun g => (g.setText id text).map ((), ·); return none
  | propagate id role origin force => do
    let _ ← Graph.propagate id role origin force
    return none
  | detach id => do let _ ← Graph.detachParents id; return none
  | select config tool id => do let _ ← EdgeTool.respond config tool id; return none

/-- The identifiers minted in a run, each with the graph that it was minted in. An operation that
fails does not end the run. -/
def minted : List Operation → Graph → List (Graph × NodeId)
  | [], _ => []
  | op :: ops, g =>
    match (op.perform g).result with
    | .ok (some id) => (g, id) :: minted ops (op.perform g).state
    | _ => minted ops (op.perform g).state

end Operation

end ArgumentMap

import ArgumentMap.Gesture
import ArgumentMap.Graph.Arena
import ArgumentMap.Snapshot

/-! An editing session: a graph, kept in any store, the tools that act on it, and what the user has
chosen. What the user can do, what comes back, and whole runs. -/

namespace ArgumentMap

inductive TapOutcome
  | edge (outcome : EdgeOutcome)
  | detached (parents : List NodeId)
  | highlighted (node : NodeId)
  deriving DecidableEq

inductive RetypeOutcome
  | applied (stats : Stats)
  | rejected (reason : Rejection)
  deriving DecidableEq

structure Session (σ : Type) where
  config : Config := {}
  graph : σ
  tool : Tool := .selection
  edgeTool : EdgeTool := .inactive
  highlighted : Option NodeId := none
  root : Option NodeId := none
  deriving DecidableEq

namespace Session

def start (config : Config) : Session Graph :=
  { config := config, graph := { stem := config.idStem } }

def startArena (config : Config) : Session Arena :=
  { config := config, graph := { stem := config.idStem } }

variable {σ α : Type} [Store σ]

def onGraph (m : Edit σ α) : Edit (Session σ) α :=
  Edit.zoom (·.graph) (fun g s => { s with graph := g }) m

def onEdgeTool (m : Edit (EdgeTool × σ) α) : Edit (Session σ) α :=
  Edit.zoom (fun s => (s.edgeTool, s.graph))
    (fun t s => { s with edgeTool := t.1, graph := t.2 }) m

def onHighlighted (m : Edit (Option NodeId) α) : Edit (Session σ) α :=
  Edit.zoom (·.highlighted) (fun h s => { s with highlighted := h }) m

def reject (reason : Rejection) : Edit (Session σ) RetypeOutcome := do
  Edit.announce (.notice (.rejected reason))
  return .rejected reason

def addNode (stableId : Uuid) : Edit (Session σ) NodeId := do
  let id ← onGraph (Edit.attempt fun g => .ok (Store.mint g stableId))
  Edit.announce (.nodeAdded none id)
  return id

/-- Choosing the edge tool starts a new edge, and choosing another one drops the edge begun. -/
def setTool (tool : Tool) : Edit (Session σ) Unit :=
  Edit.change fun s =>
    { s with tool := tool, edgeTool := if tool = .edge then .seekingParent else .inactive }

def highlight (id : NodeId) : Edit (Session σ) TapOutcome := do
  let g ← Edit.view (·.graph)
  onHighlighted (ArgumentMap.highlight g id)
  return .highlighted id

def tap (id : NodeId) : Edit (Session σ) TapOutcome := do
  let s ← Edit.view fun s => s
  match s.tool with
  | .edge => return .edge (← onEdgeTool (EdgeTool.select s.config id))
  | .detach => return .detached (← onGraph (Graph.detachParents id))
  | .selection => highlight id

/-- Gives the highlighted card a role and repairs the roles around it, also when it has that role
already. -/
def retype (role : Role) : Edit (Session σ) RetypeOutcome := do
  match ← Edit.view (·.highlighted) with
  | none => reject .nothingHighlighted
  | some id =>
    let n ← Edit.ask (Store.node ·.graph id)
    if n.persisted then
      reject .persistedNode
    else
      return .applied (← onGraph (Graph.propagate id role none true))

def setText (id : NodeId) (text : String) : Edit (Session σ) Unit :=
  onGraph (Edit.attempt fun g => (Store.setText g id text).map ((), ·))

def load (snapshot : Snapshot) (fresh : NodeId → Uuid) : Edit (Session σ) (Option NodeId) := do
  let root ← onGraph (snapshot.load fresh)
  Edit.announce (.graphLoaded root)
  Edit.change fun s => { s with root := root }
  return root

end Session

/-- A new card, and every loaded one without a stable identifier, comes with the one generated for
it. -/
inductive Action
  | addNode (stableId : Uuid)
  | setTool (tool : Tool)
  | tap (id : NodeId)
  | highlight (id : NodeId)
  | retype (role : Role)
  | setText (id : NodeId) (text : String)
  | load (snapshot : Snapshot) (fresh : NodeId → Uuid)

inductive Reply
  | done
  | added (id : NodeId)
  | tapped (outcome : TapOutcome)
  | retyped (outcome : RetypeOutcome)
  | loaded (root : Option NodeId)
  deriving DecidableEq

namespace Session

variable {σ : Type} [Store σ]

def perform : Action → Edit (Session σ) Reply
  | .addNode stableId => .added <$> addNode stableId
  | .setTool tool => do setTool tool; return .done
  | .tap id => .tapped <$> tap id
  | .highlight id => .tapped <$> highlight id
  | .retype role => .retyped <$> retype role
  | .setText id text => do setText id text; return .done
  | .load snapshot fresh => .loaded <$> load snapshot fresh

/-- The session after a run. An action that fails does not end the run. -/
def after (s : Session σ) (actions : List Action) : Session σ :=
  actions.foldl (fun s a => (perform a s).state) s

@[simp] theorem after_nil (s : Session σ) : s.after [] = s := rfl

@[simp] theorem after_cons (s : Session σ) (a : Action) (actions : List Action) :
    s.after (a :: actions) = (perform a s).state.after actions := rfl

end Session

end ArgumentMap

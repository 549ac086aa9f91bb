import ArgumentMap.Proofs.Pass.Matching
import ArgumentMap.Session
import Mathlib.Data.List.Forall2

/-!
# Sessions that run alike

Gestures know a store only by its operations. So if the operations of two stores
answer alike and keep them alike, whole sessions on them show the same.
-/

namespace ArgumentMap

section
variable {σ τ : Type} [Store σ] [Store τ]

/-- Pairs of stores whose cards differ only as `N` allows, and still do after any
operation on both. A difference that `N` allows is in content only. -/
structure Store.Alike (N : Node → Node → Prop) (R : σ → τ → Prop) : Prop where
  outline : ∀ {n m : Node}, N n m → n.outline = m.outline
  nodes : ∀ {s : σ} {t : τ}, R s t → List.Forall₂ N (Store.nodes s) (Store.nodes t)
  node : ∀ {s : σ} {t : τ} (x : NodeId), R s t → Agrees N (Store.node s x) (Store.node t x)
  contains : ∀ {s : σ} {t : τ} (x : NodeId), R s t → Store.contains s x = Store.contains t x
  hasEdge : ∀ {s : σ} {t : τ} (p c : NodeId), R s t → Store.hasEdge s p c = Store.hasEdge t p c
  insert : ∀ {s : σ} {t : τ} {n m : Node}, R s t → N n m →
    Agrees R (Store.insert s n) (Store.insert t m)
  mint : ∀ {s : σ} {t : τ} {u v : Uuid}, R s t →
    (∀ id, N { id := id, stableId := u } { id := id, stableId := v }) →
    (Store.mint s u).1 = (Store.mint t v).1 ∧ R (Store.mint s u).2 (Store.mint t v).2
  setRole : ∀ {s : σ} {t : τ} (x : NodeId) (role : Role), R s t →
    R (Store.setRole s x role) (Store.setRole t x role)
  setText : ∀ {s : σ} {t : τ} (x : NodeId) {text text' : String}, R s t →
    (∀ n m, N n m →
      N { n with body := n.body.setText text } { m with body := m.body.setText text' }) →
    Agrees R (Store.setText s x text) (Store.setText t x text')
  connect : ∀ {s : σ} {t : τ} (p c : NodeId), R s t →
    Agrees (fun a b => a.1 = b.1 ∧ R a.2 b.2) (Store.connect s p c) (Store.connect t p c)
  disconnect : ∀ {s : σ} {t : τ} (p c : NodeId), R s t →
    Agrees (fun a b => a.1 = b.1 ∧ R a.2 b.2) (Store.disconnect s p c) (Store.disconnect t p c)

inductive Action.Alike (N : Node → Node → Prop) : Action → Action → Prop where
  | addNode {u v : Uuid} : (∀ id, N { id := id, stableId := u } { id := id, stableId := v }) →
      Alike N (.addNode u) (.addNode v)
  | setTool (tool : Tool) : Alike N (.setTool tool) (.setTool tool)
  | tap (id : NodeId) : Alike N (.tap id) (.tap id)
  | highlight (id : NodeId) : Alike N (.highlight id) (.highlight id)
  | retype (role : Role) : Alike N (.retype role) (.retype role)
  | setText (id : NodeId) {text text' : String} :
      (∀ n m, N n m →
        N { n with body := n.body.setText text } { m with body := m.body.setText text' }) →
      Alike N (.setText id text) (.setText id text')
  | load {s s' : Snapshot} {fresh fresh' : NodeId → Uuid} : s.root = s'.root →
      s.edges = s'.edges →
      List.Forall₂ (fun c c' => N (c.toNode fresh) (c'.toNode fresh')) s.cards s'.cards →
      Alike N (.load s fresh) (.load s' fresh')

theorem Action.alike_refl (a : Action) : Action.Alike Eq a a := by
  cases a with
  | addNode u => exact .addNode fun _ => rfl
  | setTool tool => exact .setTool tool
  | tap id => exact .tap id
  | highlight id => exact .highlight id
  | retype role => exact .retype role
  | setText id text => exact .setText id fun n m hnm => by rw [hnm]
  | load s fresh => exact .load rfl rfl (List.forall₂_same.2 fun _ _ => rfl)

end

namespace Store.Alike

variable {σ τ α : Type} [Store σ] [Store τ] {N : Node → Node → Prop} {R : σ → τ → Prop}

theorem passBound_eq (hN : ∀ {n m : Node}, N n m → n.outline = m.outline) {ns ms : List Node}
    (h : List.Forall₂ N ns ms) : passBound ns = passBound ms := by
  have hcount : relationCount ns = relationCount ms := by
    induction h with
    | nil => rfl
    | @cons n m ns ms hnm _ ih =>
      have hparents : n.parents = m.parents := Node.congr_outline (fun _ => rfl) (hN hnm)
      have hchildren : n.children = m.children := Node.congr_outline (fun _ => rfl) (hN hnm)
      simp only [relationCount, List.foldr_cons, hparents, hchildren] at ih ⊢
      rw [ih]
  rw [passBound, passBound, hcount, h.length_eq]

variable (hA : Store.Alike N R)
include hA

theorem matching : Store.Matching (fun _ => True) R where
  node := fun {_ _ x} hr _ => (hA.node x hr).mono fun _ _ hnm =>
    ⟨hA.outline hnm, trivial, fun _ _ => trivial, fun _ _ => trivial⟩
  hasEdge := fun {_ _ x} c hr _ => hA.hasEdge x c hr
  setRole := fun {_ _ x} role hr _ => hA.setRole x role hr
  disconnect := fun {_ _ p c} hr _ _ => hA.disconnect p c hr

theorem propagate (id : NodeId) (role : Role) (origin : Option NodeId) (force : Bool) :
    Edit.Alike R Eq (Graph.propagate id role origin force)
      (Graph.propagate id role origin force) :=
  hA.matching.alike_propagate_of_bound (fun _ _ hr => passBound_eq hA.outline (hA.nodes hr))
    trivial role origin force

theorem ask_node {f : Node → Edit σ α} {f' : Node → Edit τ α} (hf : ∀ n, f' n.outline = f' n)
    (x : NodeId) (halike : ∀ n, Edit.Alike R Eq (f n) (f' n)) :
    Edit.Alike R Eq (Edit.ask (Store.node · x) >>= f) (Edit.ask (Store.node · x) >>= f') := by
  refine .bind (.ask fun s t hr => hA.node x hr) fun n m hnm => ?_
  rw [← Node.congr_outline hf (hA.outline hnm)]
  exact halike n

theorem detachFrom (x : NodeId) (ps : List NodeId) :
    Edit.Alike R Eq (Graph.detachFrom x ps) (Graph.detachFrom x ps) := by
  induction ps with
  | nil => exact .pure rfl
  | cons p ps ih =>
    refine hA.ask_node (fun _ => rfl) p fun n => ?_
    split_ifs
    · exact ih
    · refine .bind_same (.attempt fun s t hr => hA.disconnect p x hr) fun removed => ?_
      split_ifs
      · exact .bind_same (.announce _) fun _ => .bind_same ih fun _ => .pure rfl
      · exact ih

theorem detachParents (x : NodeId) :
    Edit.Alike R Eq (Graph.detachParents x) (Graph.detachParents x) :=
  hA.ask_node (fun _ => rfl) x fun n => hA.detachFrom x n.parents

theorem clearReverse (parent child : NodeId) :
    Edit.Alike R Eq (Graph.clearReverse parent child) (Graph.clearReverse parent child) := by
  refine .bind_same (.view fun s t hr => hA.hasEdge child parent hr) fun present => ?_
  split_ifs
  · exact .bind_same (.attempt fun s t hr => hA.disconnect child parent hr) fun _ =>
      .bind_same (.announce _) fun _ => .pure rfl
  · exact .pure rfl

theorem seedRole (parent child : NodeId) :
    Edit.Alike R Eq (Graph.seedRole parent child) (Graph.seedRole parent child) := by
  refine hA.ask_node (fun _ => rfl) parent fun p => ?_
  refine hA.ask_node (fun _ => rfl) child fun c => ?_
  split_ifs
  · exact .change fun s t hr => hA.setRole child .assertion hr
  · exact .pure rfl

theorem settleEdge (parent child : NodeId) :
    Edit.Alike R Eq (Graph.settleEdge parent child) (Graph.settleEdge parent child) := by
  refine hA.ask_node (fun _ => rfl) parent fun p => ?_
  refine hA.ask_node (fun _ => rfl) child fun c => ?_
  split_ifs
  · exact hA.propagate parent p.role none true
  · exact hA.propagate child c.legalRole none true

theorem commitEdge (parent child : NodeId) :
    Edit.Alike R Eq (Graph.commitEdge parent child) (Graph.commitEdge parent child) := by
  refine .bind_same (hA.clearReverse parent child) fun flipped => ?_
  refine .bind_same (.attempt fun s t hr => hA.connect parent child hr) fun _ => ?_
  refine .bind_same (.announce _) fun _ => .bind_same (hA.seedRole parent child) fun _ => ?_
  exact .bind_same (hA.settleEdge parent child) fun _ => .pure rfl

theorem objection?_eq (config : Config) (parent child : NodeId) {s : σ} {t : τ} (hr : R s t) :
    Graph.objection? config parent child s = Graph.objection? config parent child t := by
  have hnode := hA.node parent hr
  rw [Graph.objection?, Graph.objection?, hA.hasEdge parent child hr, hA.hasEdge child parent hr]
  generalize Store.node s parent = x at hnode
  generalize Store.node t parent = y at hnode
  cases hnode with
  | error e => rfl
  | @ok n m hnm =>
    have hp : n.persisted = m.persisted := Node.congr_outline (fun _ => rfl) (hA.outline hnm)
    simp only [hp]

theorem respond (config : Config) (tool : EdgeTool) (x : NodeId) :
    Edit.Alike R Eq (tool.respond config x) (tool.respond config x) := by
  refine hA.ask_node (fun _ => rfl) x fun _ => ?_
  cases tool with
  | inactive => exact .pure rfl
  | seekingParent => exact .pure rfl
  | seekingChild parent =>
    refine .bind_same (.ask fun s t hr => ?_) fun objection => ?_
    · rw [hA.objection?_eq config parent x hr]
      exact agrees_refl _
    · cases objection with
      | some reason => exact .bind_same (.announce _) fun _ => .pure rfl
      | none => exact hA.commitEdge parent x

theorem select (config : Config) (id : NodeId) :
    Edit.Alike (fun (u : EdgeTool × σ) (v : EdgeTool × τ) => u.1 = v.1 ∧ R u.2 v.2) Eq
      (EdgeTool.select config id) (EdgeTool.select config id) := by
  refine .bind_same (.view fun u v huv => huv.1) fun tool => ?_
  refine .bind_same (.zoom (fun u v huv => huv.2) (fun u v p q huv hpq => ⟨huv.1, hpq⟩)
    (hA.respond config tool id)) fun outcome => ?_
  refine .bind_same (.change fun u v huv => ⟨?_, huv.2⟩) fun _ => .pure rfl
  rw [huv.1]

section
variable {fresh fresh' : NodeId → Uuid} {cards cards' : List Snapshot.Card}
  (hcards : List.Forall₂ (fun c c' => N (c.toNode fresh) (c'.toNode fresh')) cards cards')
include hcards

theorem ids_eq : cards.map (·.id) = cards'.map (·.id) := by
  induction hcards with
  | nil => rfl
  | @cons c c' _ _ hc _ ih =>
    have hid : c.id = c'.id := congrArg Node.id (hA.outline hc)
    rw [List.map_cons, List.map_cons, hid, ih]

theorem checkCards_eq {s : σ} {t : τ} (hr : R s t) (seen : List NodeId) :
    Snapshot.checkCards s seen cards = Snapshot.checkCards t seen cards' := by
  induction hcards generalizing seen with
  | nil => rfl
  | @cons c c' _ _ hc _ ih =>
    have hid : c.id = c'.id := congrArg Node.id (hA.outline hc)
    rw [Snapshot.checkCards, Snapshot.checkCards, hid, hA.contains c'.id hr, ih]

theorem addCards : Edit.Alike R Eq (Snapshot.addCards fresh cards)
    (Snapshot.addCards fresh' cards') := by
  induction hcards with
  | nil => exact .pure rfl
  | cons hc _ ih => exact .bind_same (.attempt_unit fun s t hr => hA.insert hr hc) fun _ => ih

end

theorem addEdges (edges : List Snapshot.Edge) :
    Edit.Alike R Eq (Snapshot.addEdges edges) (Snapshot.addEdges edges) := by
  induction edges with
  | nil => exact .pure rfl
  | cons e edges ih =>
    exact .bind_same (.attempt fun s t hr => hA.connect e.parent e.child hr) fun _ => ih

theorem load {s s' : Snapshot} {fresh fresh' : NodeId → Uuid} (hroot : s.root = s'.root)
    (hedges : s.edges = s'.edges)
    (hcards : List.Forall₂ (fun c c' => N (c.toNode fresh) (c'.toNode fresh')) s.cards s'.cards) :
    Edit.Alike R Eq (s.load fresh) (s'.load fresh') := by
  have hcheck : ∀ x y, R x y → s.check x = s'.check y := by
    intro x y hr
    have hknows : s.knows x = s'.knows y := by
      funext id
      rw [Snapshot.knows, Snapshot.knows, hA.ids_eq hcards, hA.contains id hr]
    rw [Snapshot.check, Snapshot.check, hA.checkCards_eq hcards hr, hknows, hedges, hroot]
  refine .bind_same (.ask fun x y hr => ?_) fun _ => ?_
  · rw [hcheck x y hr]
    exact agrees_refl _
  · rw [hedges, hroot]
    exact .bind_same (hA.addCards hcards) fun _ => .bind_same (hA.addEdges _) fun _ => .pure rfl

end Store.Alike

namespace Session

variable {σ τ : Type} {R : σ → τ → Prop}

structure Alike (R : σ → τ → Prop) (s : Session σ) (t : Session τ) : Prop where
  config : s.config = t.config
  graph : R s.graph t.graph
  tool : s.tool = t.tool
  edgeTool : s.edgeTool = t.edgeTool
  highlighted : s.highlighted = t.highlighted
  root : s.root = t.root

theorem alike_onGraph {α : Type} {m : Edit σ α} {m' : Edit τ α} (hm : Edit.Alike R Eq m m') :
    Edit.Alike (Alike R) Eq (onGraph m) (onGraph m') :=
  .zoom (fun _ _ hs => hs.graph) (fun _ _ _ _ hs hg => { hs with graph := hg }) hm

theorem alike_setTool (tool : Tool) : Edit.Alike (Alike R) Eq (setTool tool) (setTool tool) :=
  .change fun _ _ hs => { hs with tool := rfl, edgeTool := rfl }

variable [Store σ] [Store τ] {N : Node → Node → Prop}

/-- What a run shows: the announcements and the answer of each action. -/
def trace (s : Session σ) : List Action → List (List Event × Except Failure Reply)
  | [] => []
  | a :: actions =>
    ((perform a s).events, (perform a s).result) :: (perform a s).state.trace actions

section
variable (hA : Store.Alike N R)
include hA

theorem alike_addNode {u v : Uuid}
    (huv : ∀ id, N { id := id, stableId := u } { id := id, stableId := v }) :
    Edit.Alike (Alike R) Eq (addNode u) (addNode v) := by
  refine .bind_same (alike_onGraph (.attempt fun s t hr => .ok (hA.mint hr huv))) fun id => ?_
  exact .bind_same (.announce _) fun _ => .pure rfl

theorem alike_highlight (id : NodeId) :
    Edit.Alike (Alike R) Eq (highlight id) (highlight id) := by
  refine .bind (.view fun s t hs => hs.graph) fun g h hg => ?_
  refine .bind_same ?_ fun _ => .pure rfl
  refine .zoom (Q := Eq) (fun _ _ hs => hs.highlighted)
    (fun _ _ _ _ hs hpq => { hs with highlighted := hpq }) ?_
  refine .bind (.ask fun _ _ _ => hA.node id hg) fun n m _ => ?_
  exact .bind_same (.change fun _ _ _ => rfl) fun _ => .announce _

theorem alike_tap (id : NodeId) : Edit.Alike (Alike R) Eq (tap id) (tap id) := by
  refine .bind (.view (A := Alike R) fun s t hs => hs) fun s t hs => ?_
  rw [hs.tool, hs.config]
  cases t.tool with
  | selection => exact alike_highlight hA id
  | detach => exact .bind_same (alike_onGraph (hA.detachParents id)) fun _ => .pure rfl
  | edge =>
    refine .bind_same ?_ fun _ => .pure rfl
    exact .zoom (fun _ _ hs => ⟨hs.edgeTool, hs.graph⟩)
      (fun _ _ _ _ hs hpq => { hs with edgeTool := hpq.1, graph := hpq.2 })
      (hA.select t.config id)

theorem alike_retype (role : Role) : Edit.Alike (Alike R) Eq (retype role) (retype role) := by
  have hreject : ∀ reason, Edit.Alike (Alike R) Eq (reject reason) (reject reason) :=
    fun reason => .bind_same (.announce _) fun _ => .pure rfl
  refine .bind_same (.view fun s t hs => hs.highlighted) fun chosen => ?_
  cases chosen with
  | none => exact hreject _
  | some id =>
    refine .bind (.ask fun s t hs => hA.node id hs.graph) fun n m hnm => ?_
    have hp : n.persisted = m.persisted := Node.congr_outline (fun _ => rfl) (hA.outline hnm)
    rw [hp]
    split_ifs
    · exact hreject _
    · exact .bind_same (alike_onGraph (hA.propagate id role none true)) fun _ => .pure rfl

theorem alike_setText (x : NodeId) {text text' : String}
    (htext : ∀ n m, N n m →
      N { n with body := n.body.setText text } { m with body := m.body.setText text' }) :
    Edit.Alike (Alike R) Eq (setText x text) (setText x text') :=
  alike_onGraph (.attempt_unit fun _ _ hr => hA.setText x hr htext)

theorem alike_load {s s' : Snapshot} {fresh fresh' : NodeId → Uuid} (hroot : s.root = s'.root)
    (hedges : s.edges = s'.edges)
    (hcards : List.Forall₂ (fun c c' => N (c.toNode fresh) (c'.toNode fresh')) s.cards s'.cards) :
    Edit.Alike (Alike R) Eq (load s fresh) (load s' fresh') := by
  refine .bind_same (alike_onGraph (hA.load hroot hedges hcards)) fun root => ?_
  refine .bind_same (.announce _) fun _ => .bind_same (.change fun _ _ hs => ?_) fun _ => .pure rfl
  exact { hs with root := rfl }

theorem alike_perform {a b : Action} (hab : Action.Alike N a b) :
    Edit.Alike (Alike R) Eq (perform a) (perform b) := by
  cases hab with
  | addNode huv => exact .map (alike_addNode hA huv) _
  | setTool tool => exact .bind_same (alike_setTool tool) fun _ => .pure rfl
  | tap id => exact .map (alike_tap hA id) _
  | highlight id => exact .map (alike_highlight hA id) _
  | retype role => exact .map (alike_retype hA role) _
  | setText id htext => exact .bind_same (alike_setText hA id htext) fun _ => .pure rfl
  | load hroot hedges hcards => exact .map (alike_load hA hroot hedges hcards) _

theorem alike_after {s : Session σ} {t : Session τ} {as bs : List Action} (hs : Alike R s t)
    (has : List.Forall₂ (Action.Alike N) as bs) :
    s.trace as = t.trace bs ∧ Alike R (s.after as) (t.after bs) := by
  induction has generalizing s t with
  | nil => exact ⟨rfl, hs⟩
  | cons hab _ ih =>
    obtain ⟨hstate, hevents, hresult⟩ := alike_perform hA hab s t hs
    obtain ⟨htrace, hafter⟩ := ih hstate
    exact ⟨by rw [trace, trace, hevents, hresult.eq, htrace], hafter⟩

end

end Session

end ArgumentMap

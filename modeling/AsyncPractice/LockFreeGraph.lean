import AsyncPractice.GoMap
import AsyncPractice.Runs
import AsyncPractice.LaggingCounter

/- AddNode and AddEdge of the LockFreeGraph in solution21_graph_database.go, for calls that run
side by side. Every operation on a sync.Map or a counter is one step. -/
namespace AsyncPractice.LockFreeGraph

section

open Option

/-- New edges have version 0 and no properties, and so have new nodes. -/
structure Edge where
  id : String
  from_ : String
  to_ : String
  label : String
  deriving DecidableEq

structure Node where
  outEdges : GoMap String Edge
  inEdges : GoMap String Edge

structure Graph where
  nodes : GoMap String Node
  edges : GoMap String Edge
  nodeCount : Int64
  edgeCount : Int64

def newLockFreeGraph : Graph := ⟨∅, ∅, 0, 0⟩

def newNode : Node := ⟨∅, ∅⟩

/-- The calls of AddNode: by a caller, and for the two ends of an edge in AddEdge. -/
inductive NodeCall
  | node (id : String)
  | fromNode (edge : Edge)
  | toNode (edge : Edge)

def NodeCall.id : NodeCall → String
  | node id => id
  | fromNode edge => edge.from_
  | toNode edge => edge.to_

inductive Phase
  | idle
  | storeNode (call : NodeCall)
  | countNode (call : NodeCall)
  | storeEdge (edge : Edge)
  | linkOut (edge : Edge)
  | linkIn (edge : Edge)
  | countEdge (edge : Edge)
  | returned

def NodeCall.next : NodeCall → Phase
  | node _ => .returned
  | fromNode edge => .storeNode (.toNode edge)
  | toNode edge => .storeEdge edge

structure State (C : Type) where
  graph : Graph
  phase : C → Phase

inductive Event (C : Type)
  | addNode (c : C) (id : String)
  | addEdge (c : C) (edge : Edge)
  | advance (c : C)

def init (C : Type) (graph : Graph) : State C := ⟨graph, fun _ => .idle⟩

variable {C : Type} [DecidableEq C]

def State.become (s : State C) (c : C) (phase : Phase) : State C :=
  { s with phase := Function.update s.phase c phase }

def Node.storeOut (edge : Edge) (node : Node) : Node :=
  { node with outEdges := node.outEdges.insert edge.id edge }

def Node.storeIn (edge : Edge) (node : Node) : Node :=
  { node with inEdges := node.inEdges.insert edge.id edge }

/-- The nodes after an operation on one of them. -/
def Graph.onNode (graph : Graph) (id : String) (f : Node → Node) : Option Graph :=
  (graph.nodes.lookup id).map fun node => { graph with nodes := graph.nodes.insert id (f node) }

def advance (s : State C) (c : C) : Option (State C) :=
  match s.phase c with
  | .idle => none
  | .storeNode call =>
    some (if call.id ∈ s.graph.nodes then s.become c call.next
      else { s with graph := { s.graph with
        nodes := s.graph.nodes.insert call.id newNode } }.become c (.countNode call))
  | .countNode call =>
    some ({ s with graph := { s.graph with nodeCount := s.graph.nodeCount + 1 } }.become c
      call.next)
  | .storeEdge edge =>
    some (if edge.id ∈ s.graph.edges then s.become c .returned
      else { s with graph := { s.graph with
        edges := s.graph.edges.insert edge.id edge } }.become c (.linkOut edge))
  | .linkOut edge =>
    (s.graph.onNode edge.from_ (Node.storeOut edge)).map fun graph =>
      { s with graph }.become c (.linkIn edge)
  | .linkIn edge =>
    (s.graph.onNode edge.to_ (Node.storeIn edge)).map fun graph =>
      { s with graph }.become c (.countEdge edge)
  | .countEdge _ =>
    some ({ s with graph := { s.graph with edgeCount := s.graph.edgeCount + 1 } }.become c
      .returned)
  | .returned => none

def step (s : State C) : Event C → Option (State C)
  | .addNode c id =>
    match s.phase c with
    | .idle => some (s.become c (.storeNode (.node id)))
    | _ => none
  | .addEdge c edge =>
    match s.phase c with
    | .idle => some (s.become c (.storeNode (.fromNode edge)))
    | _ => none
  | .advance c => advance s c

def Quiet (s : State C) : Prop := ∀ c, s.phase c = .idle ∨ s.phase c = .returned

inductive Moves (s : State C) : State C → Prop
  | call {c : C} (idle : s.phase c = .idle) (call : NodeCall)
      (first : ∀ edge, call ≠ .toNode edge) : Moves s (s.become c (.storeNode call))
  | nodeFound {c : C} {call : NodeCall} (storing : s.phase c = .storeNode call)
      (stored : call.id ∈ s.graph.nodes) : Moves s (s.become c call.next)
  | nodeStored {c : C} {call : NodeCall} (storing : s.phase c = .storeNode call)
      (new : call.id ∉ s.graph.nodes) :
      Moves s ({ s with graph := { s.graph with
        nodes := s.graph.nodes.insert call.id newNode } }.become c (.countNode call))
  | nodeCounted {c : C} {call : NodeCall} (counting : s.phase c = .countNode call) :
      Moves s ({ s with graph := { s.graph with
        nodeCount := s.graph.nodeCount + 1 } }.become c call.next)
  | edgeFound {c : C} {edge : Edge} (storing : s.phase c = .storeEdge edge) :
      Moves s (s.become c .returned)
  | edgeStored {c : C} {edge : Edge} (storing : s.phase c = .storeEdge edge)
      (new : edge.id ∉ s.graph.edges) :
      Moves s ({ s with graph := { s.graph with
        edges := s.graph.edges.insert edge.id edge } }.become c (.linkOut edge))
  | linkedOut {c : C} {edge : Edge} {node : Node} (linking : s.phase c = .linkOut edge)
      (stored : s.graph.nodes.lookup edge.from_ = some node) :
      Moves s ({ s with graph := { s.graph with
        nodes := s.graph.nodes.insert edge.from_ (node.storeOut edge) } }.become c (.linkIn edge))
  | linkedIn {c : C} {edge : Edge} {node : Node} (linking : s.phase c = .linkIn edge)
      (stored : s.graph.nodes.lookup edge.to_ = some node) :
      Moves s ({ s with graph := { s.graph with
        nodes := s.graph.nodes.insert edge.to_ (node.storeIn edge) } }.become c (.countEdge edge))
  | edgeCounted {c : C} {edge : Edge} (counting : s.phase c = .countEdge edge) :
      Moves s ({ s with graph := { s.graph with
        edgeCount := s.graph.edgeCount + 1 } }.become c .returned)

variable {t s : State C}

theorem moves_of_advance {c} (took : advance s c = some t) : Moves s t := by
  unfold advance at took
  split at took
  · cases took
  next call storing =>
    cases took
    split
    next stored =>
      exact .nodeFound storing stored
    next new =>
      exact .nodeStored storing new
  next call counting =>
    exact some.inj took ▸ .nodeCounted counting
  next e storing =>
    cases took
    split
    · exact .edgeFound storing
    next new =>
      exact .edgeStored storing new
  next e linking =>
    obtain ⟨g, changed, rfl⟩ := map_eq_some_iff.mp took
    obtain ⟨n, stored, rfl⟩ := map_eq_some_iff.mp changed
    exact .linkedOut linking stored
  next e linking =>
    obtain ⟨g, changed, rfl⟩ := map_eq_some_iff.mp took
    obtain ⟨n, stored, rfl⟩ := map_eq_some_iff.mp changed
    exact .linkedIn linking stored
  next e counting =>
    exact some.inj took ▸ .edgeCounted counting
  · cases took

theorem moves_of_step {e} (took : step s e = some t) : Moves s t := by
  cases e with
  | addNode c id =>
    simp only [step] at took
    split at took
    next idle =>
      exact some.inj took ▸ .call idle (.node id) (fun _ => nofun)
    · cases took
  | addEdge c edge =>
    simp only [step] at took
    split at took
    next idle =>
      exact some.inj took ▸ .call idle (.fromNode edge) (fun _ => nofun)
    · cases took
  | advance c => exact moves_of_advance took

end

/- The maps and counters of the graph against the calls that are under way: the counters lag
behind the maps, and a stored edge may not be linked yet. -/
section

open Finmap Function GoMap Runs

open LaggingCounter (Lags lags_zero)

variable {C : Type}

/-- The call has stored a node and has not counted it. -/
def Phase.CountsNode : Phase → Prop
  | .countNode _ => True
  | _ => False

/-- The call has stored an edge and has not counted it. -/
def Phase.CountsEdge : Phase → Prop
  | .linkOut _ => True
  | .linkIn _ => True
  | .countEdge _ => True
  | _ => False

/-- The first end of an edge is stored before the second one is looked up. -/
def NodeCall.Ready (graph : Graph) : NodeCall → Prop
  | .toNode edge => edge.from_ ∈ graph.nodes
  | _ => True

def Phase.Sound (graph : Graph) : Phase → Prop
  | .idle => True
  | .storeNode call => call.Ready graph
  | .countNode call => call.Ready graph ∧ call.id ∈ graph.nodes
  | .storeEdge edge => edge.from_ ∈ graph.nodes ∧ edge.to_ ∈ graph.nodes
  | .linkOut edge => graph.edges.lookup edge.id = some edge
  | .linkIn edge => graph.edges.lookup edge.id = some edge
  | .countEdge _ => True
  | .returned => True

/-- The call is about to link the edge at its first end. -/
def Phase.LinksOut (edge : Edge) (phase : Phase) : Prop := phase = .linkOut edge

/-- The call is about to link the edge at its second end, maybe after the first one. -/
def Phase.LinksIn (edge : Edge) (phase : Phase) : Prop :=
  phase = .linkOut edge ∨ phase = .linkIn edge

/-- On one side, the edges of a node are the stored ones that end there, except for those that a
call is about to link. -/
structure Linked (links : Node → GoMap String Edge) (atEnd : Edge → String)
    (about : Edge → Phase → Prop) (graph : Graph) (phase : C → Phase) : Prop where
  only : ∀ n node id edge, graph.nodes.lookup n = some node →
    (links node).lookup id = some edge → graph.edges.lookup id = some edge ∧ atEnd edge = n
  all : ∀ id edge, graph.edges.lookup id = some edge →
    (∃ node, graph.nodes.lookup (atEnd edge) = some node ∧ id ∈ links node) ∨
      ∃ c, about edge (phase c)

structure Sound (s : State C) : Prop where
  nodeCount : Lags Phase.CountsNode s.phase s.graph.nodeCount s.graph.nodes.len
  edgeCount : Lags Phase.CountsEdge s.phase s.graph.edgeCount s.graph.edges.len
  phases : ∀ c, (s.phase c).Sound s.graph
  endpoints : ∀ id edge, s.graph.edges.lookup id = some edge →
    edge.id = id ∧ edge.from_ ∈ s.graph.nodes ∧ edge.to_ ∈ s.graph.nodes
  linkedOut : Linked Node.outEdges Edge.from_ Phase.LinksOut s.graph s.phase
  linkedIn : Linked Node.inEdges Edge.to_ Phase.LinksIn s.graph s.phase

section

/-- Nodes and edges are only ever added. -/
structure Extends (graph graph' : Graph) : Prop where
  nodes : ∀ n ∈ graph.nodes, n ∈ graph'.nodes
  edges : ∀ id edge, graph.edges.lookup id = some edge → graph'.edges.lookup id = some edge

variable {graph graph' : Graph} {call : NodeCall}

theorem NodeCall.Ready.mono (grows : Extends graph graph') (ready : call.Ready graph) :
    call.Ready graph' := by
  cases call with
  | node id => trivial
  | fromNode e => trivial
  | toNode e => exact grows.nodes _ ready

theorem Phase.Sound.mono {phase : Phase} (grows : Extends graph graph')
    (inv : phase.Sound graph) : phase.Sound graph' := by
  cases phase with
  | idle => trivial
  | storeNode call => exact NodeCall.Ready.mono grows inv
  | countNode call => exact ⟨NodeCall.Ready.mono grows inv.1, grows.nodes _ inv.2⟩
  | storeEdge e => exact ⟨grows.nodes _ inv.1, grows.nodes _ inv.2⟩
  | linkOut e => exact grows.edges _ _ inv
  | linkIn e => exact grows.edges _ _ inv
  | countEdge e => trivial
  | returned => trivial

theorem NodeCall.next_sound (ready : call.Ready graph) (stored : call.id ∈ graph.nodes) :
    call.next.Sound graph := by
  cases call with
  | node id => trivial
  | fromNode e => exact stored
  | toNode e => exact ⟨ready, stored⟩

variable [DecidableEq C] {phase : C → Phase} {c : C} {old t : Phase}

theorem phases_update (grows : Extends graph graph') (phases : ∀ c, (phase c).Sound graph)
    (own : t.Sound graph') (other) : (update phase c t other).Sound graph' := by
  by_cases same : other = c
  · rw [same, update_self]
    exact own
  · rw [update_of_ne same]
    exact (phases other).mono grows

/-- Who is about to do something still is, unless it was the call that moves. -/
theorem exists_update (was : phase c = old) (about : Phase → Prop) (own : about old → about t)
    (someone : ∃ c, about (phase c)) : ∃ x, about (update phase c t x) := by
  obtain ⟨x, pre⟩ := someone
  by_cases same : x = c
  · refine ⟨c, ?_⟩
    rw [update_self]
    exact own (was ▸ same ▸ pre)
  · refine ⟨x, ?_⟩
    rw [update_of_ne same]
    exact pre

theorem mem_insert_of_mem {ns : GoMap String Node} {n m : String} {node : Node}
    (stored : m ∈ ns) : m ∈ ns.insert n node :=
  mem_insert.mpr (.inr stored)

end

section

variable {graph : Graph} {phase : C → Phase} {c : C} {old t : Phase}
  {links : Node → GoMap String Edge} {atEnd : Edge → String} {about : Edge → Phase → Prop}

theorem linked_new : Linked links atEnd about newLockFreeGraph phase := by
  constructor
  · intro n node id e stored
    cases stored
  · intro id e stored
    cases stored

variable {n : String} {node : Node}

theorem Linked.settled (linked : Linked links atEnd about graph phase)
    (nobody : ∀ e c, ¬ about e (phase c)) (stored : graph.nodes.lookup n = some node) (id) :
    id ∈ links node ↔ ∃ e, graph.edges.lookup id = some e ∧ atEnd e = n := by
  constructor
  · intro mem
    obtain ⟨e, hit⟩ := mem_iff.mp mem
    exact ⟨e, linked.only n node id e stored hit⟩
  · rintro ⟨e, hit, rfl⟩
    rcases linked.all id e hit with ⟨x, lookup, mem⟩ | ⟨c, links⟩
    · rw [stored] at lookup
      exact Option.some.inj lookup ▸ mem
    · exact absurd links (nobody e c)

variable [DecidableEq C] (linked : Linked links atEnd about graph phase) (was : phase c = old)
include linked was

theorem Linked.pass {graph'} (ns : graph'.nodes = graph.nodes)
    (edges : graph'.edges = graph.edges) (own : ∀ e, about e old → about e t) :
    Linked links atEnd about graph' (update phase c t) := by
  refine ⟨?_, ?_⟩
  · rw [ns, edges]
    exact linked.only
  · rw [ns, edges]
    intro id e stored
    exact (linked.all id e stored).imp_right (exists_update was (about e) (own e))

theorem Linked.storeNode {id} (new : id ∉ graph.nodes) (unlinked : links newNode = ∅)
    (own : ∀ e, about e old → about e t) :
    Linked links atEnd about { graph with nodes := graph.nodes.insert id newNode }
      (update phase c t) := by
  refine ⟨?_, ?_⟩
  · intro n node edgeId e stored hit
    rcases lookup_insert_cases stored with ⟨-, rfl⟩ | ⟨-, stored⟩
    · rw [unlinked] at hit
      cases hit
    · exact linked.only n node edgeId e stored hit
  · intro edgeId e stored
    rcases linked.all edgeId e stored with ⟨node, hit, mem⟩ | someone
    · exact .inl ⟨node, lookup_insert_new new hit newNode, mem⟩
    · exact .inr (exists_update was (about e) (own e) someone)

variable {e : Edge} {after : Node}

theorem Linked.storeEdge (new : e.id ∉ graph.edges) (begins : about e t)
    (own : ∀ x, about x old → about x t) :
    Linked links atEnd about { graph with edges := graph.edges.insert e.id e }
      (update phase c t) := by
  refine ⟨?_, ?_⟩
  · intro n node id x stored found
    obtain ⟨hit, ends⟩ := linked.only n node id x stored found
    exact ⟨lookup_insert_new new hit e, ends⟩
  · intro id x stored
    rcases lookup_insert_cases stored with ⟨rfl, rfl⟩ | ⟨-, stored⟩
    · refine .inr ⟨c, ?_⟩
      rw [update_self]
      exact begins
    · exact (linked.all id x stored).imp_right (exists_update was (about x) (own x))

theorem Linked.aside (stored : graph.nodes.lookup n = some node) (eq : links after = links node)
    (own : ∀ e, about e old → about e t) :
    Linked links atEnd about { graph with nodes := graph.nodes.insert n after }
      (update phase c t) := by
  refine ⟨?_, ?_⟩
  · intro m found id e lookup mem
    rcases lookup_insert_cases lookup with ⟨rfl, rfl⟩ | ⟨-, lookup⟩
    · rw [eq] at mem
      exact linked.only _ node id e stored mem
    · exact linked.only m found id e lookup mem
  · intro id e hit
    rcases linked.all id e hit with ⟨found, lookup, mem⟩ | someone
    · obtain ⟨now, placed, rfl | ⟨rfl, rfl⟩⟩ := lookup_insert_present stored lookup after
      · exact .inl ⟨_, placed, mem⟩
      · exact .inl ⟨_, placed, eq ▸ mem⟩
    · exact .inr (exists_update was (about e) (own e) someone)

theorem Linked.link (stored : graph.nodes.lookup (atEnd e) = some node)
    (hit : graph.edges.lookup e.id = some e)
    (ids : ∀ id x, graph.edges.lookup id = some x → x.id = id)
    (grown : links after = (links node).insert e.id e)
    (own : ∀ x, x ≠ e → about x old → about x t) :
    Linked links atEnd about { graph with nodes := graph.nodes.insert (atEnd e) after }
      (update phase c t) := by
  refine ⟨?_, ?_⟩
  · intro n found id x lookup mem
    rcases lookup_insert_cases lookup with ⟨rfl, rfl⟩ | ⟨-, lookup⟩
    · rw [grown] at mem
      rcases lookup_insert_cases mem with ⟨rfl, rfl⟩ | ⟨-, mem⟩
      · exact ⟨hit, rfl⟩
      · exact linked.only _ node id x stored mem
    · exact linked.only n found id x lookup mem
  · intro id x found
    by_cases same : x = e
    · subst same
      refine .inl ⟨after, lookup_insert _, ?_⟩
      rw [grown, ← ids id x found]
      exact mem_insert.mpr (.inl rfl)
    · rcases linked.all id x found with ⟨pre, lookup, mem⟩ | someone
      · obtain ⟨now, placed, rfl | ⟨rfl, rfl⟩⟩ := lookup_insert_present stored lookup after
        · exact .inl ⟨_, placed, mem⟩
        · refine .inl ⟨_, placed, ?_⟩
          rw [grown]
          exact mem_insert.mpr (.inr mem)
      · exact .inr (exists_update was (about x) (own x same) someone)

end

section

variable {s : State C} {c : C} {old t : Phase} {edge : Edge} {node : Node}

theorem Sound.at (inv : Sound s) (was : s.phase c = old) : old.Sound s.graph :=
  was ▸ inv.phases c

variable [DecidableEq C]

theorem Sound.pass (inv : Sound s) (was : s.phase c = old) {graph : Graph}
    (ns : graph.nodes = s.graph.nodes) (edges : graph.edges = s.graph.edges)
    (nodeCount : Lags Phase.CountsNode (update s.phase c t) graph.nodeCount s.graph.nodes.len)
    (edgeCount : Lags Phase.CountsEdge (update s.phase c t) graph.edgeCount s.graph.edges.len)
    (own : t.Sound s.graph) (free : ∀ edge, old ≠ .linkOut edge ∧ old ≠ .linkIn edge) :
    Sound ({ s with graph }.become c t) := by
  obtain ⟨nodes', edges', nodeCount', edgeCount'⟩ := graph
  subst ns edges
  have grows : Extends s.graph ⟨s.graph.nodes, s.graph.edges, nodeCount', edgeCount'⟩ :=
    ⟨fun _ stored => stored, fun _ _ stored => stored⟩
  exact ⟨nodeCount, edgeCount, phases_update grows inv.phases (own.mono grows), inv.endpoints,
    inv.linkedOut.pass was rfl rfl fun edge pre => absurd pre (free edge).1,
    inv.linkedIn.pass was rfl rfl fun edge pre => absurd pre (not_or.mpr (free edge))⟩

theorem Sound.turn (inv : Sound s) (was : s.phase c = old) (ns : t.CountsNode ↔ old.CountsNode)
    (edges : t.CountsEdge ↔ old.CountsEdge) (own : t.Sound s.graph)
    (free : ∀ edge, old ≠ .linkOut edge ∧ old ≠ .linkIn edge) : Sound (s.become c t) :=
  inv.pass was rfl rfl (inv.nodeCount.keep was ns) (inv.edgeCount.keep was edges) own free

theorem NodeCall.not_countsNode_next (call : NodeCall) : ¬ call.next.CountsNode := by
  cases call <;> exact fun counts => counts

theorem NodeCall.not_countsEdge_next (call : NodeCall) : ¬ call.next.CountsEdge := by
  cases call <;> exact fun counts => counts

variable (inv : Sound s)
include inv

theorem Sound.nodeStored {call : NodeCall} (storing : s.phase c = .storeNode call)
    (new : call.id ∉ s.graph.nodes) :
    Sound ({ s with graph := { s.graph with
      nodes := s.graph.nodes.insert call.id newNode } }.become c (.countNode call)) := by
  have grows : Extends s.graph { s.graph with nodes := s.graph.nodes.insert call.id newNode } :=
    ⟨fun _ => mem_insert_of_mem, fun _ _ stored => stored⟩
  have ready : call.Ready s.graph := inv.at storing
  refine ⟨?_, inv.edgeCount.keep storing Iff.rfl, ?_, ?_,
    inv.linkedOut.storeNode storing new rfl fun _ => nofun,
    inv.linkedIn.storeNode storing new rfl fun _ => nofun⟩
  · dsimp only [State.become]
    rw [len_insert_new new]
    exact inv.nodeCount.join storing (fun counts => counts) trivial
  · refine phases_update grows inv.phases ⟨ready.mono grows, ?_⟩
    exact mem_insert.mpr (.inl rfl)
  · intro id edge stored
    obtain ⟨eq, x, y⟩ := inv.endpoints id edge stored
    exact ⟨eq, mem_insert_of_mem x, mem_insert_of_mem y⟩

theorem Sound.edgeStored (storing : s.phase c = .storeEdge edge) (new : edge.id ∉ s.graph.edges) :
    Sound ({ s with graph := { s.graph with
      edges := s.graph.edges.insert edge.id edge } }.become c (.linkOut edge)) := by
  have grows : Extends s.graph { s.graph with edges := s.graph.edges.insert edge.id edge } :=
    ⟨fun _ stored => stored, fun _ _ stored => lookup_insert_new new stored edge⟩
  refine ⟨inv.nodeCount.keep storing Iff.rfl, ?_, ?_, ?_,
    inv.linkedOut.storeEdge storing new rfl fun _ => nofun,
    inv.linkedIn.storeEdge storing new (.inl rfl) fun _ => nofun⟩
  · dsimp only [State.become]
    rw [len_insert_new new]
    exact inv.edgeCount.join storing (fun counts => counts) trivial
  · exact phases_update grows inv.phases (lookup_insert _)
  · intro id x stored
    rcases lookup_insert_cases stored with ⟨rfl, rfl⟩ | ⟨-, stored⟩
    · exact ⟨rfl, inv.at storing⟩
    · exact inv.endpoints id x stored

theorem Sound.onNode (was : s.phase c = old) {n : String} {after : Node}
    (stored : s.graph.nodes.lookup n = some node) (nodeCount : t.CountsNode ↔ old.CountsNode)
    (edgeCount : t.CountsEdge ↔ old.CountsEdge) (own : t.Sound s.graph)
    (linkedOut : Linked Node.outEdges Edge.from_ Phase.LinksOut
      { s.graph with nodes := s.graph.nodes.insert n after } (update s.phase c t))
    (linkedIn : Linked Node.inEdges Edge.to_ Phase.LinksIn
      { s.graph with nodes := s.graph.nodes.insert n after } (update s.phase c t)) :
    Sound ({ s with graph := { s.graph with
      nodes := s.graph.nodes.insert n after } }.become c t) := by
  have grows : Extends s.graph { s.graph with nodes := s.graph.nodes.insert n after } :=
    ⟨fun _ => mem_insert_of_mem, fun _ _ stored => stored⟩
  refine ⟨?_, inv.edgeCount.keep was edgeCount,
    phases_update grows inv.phases (own.mono grows), ?_, linkedOut, linkedIn⟩
  · dsimp only [State.become]
    rw [len_insert_old (mem_of_lookup_eq_some stored)]
    exact inv.nodeCount.keep was nodeCount
  · intro id other hit
    obtain ⟨eq, x, y⟩ := inv.endpoints id other hit
    exact ⟨eq, mem_insert_of_mem x, mem_insert_of_mem y⟩

theorem Sound.storedOut (linking : s.phase c = .linkOut edge)
    (stored : s.graph.nodes.lookup edge.from_ = some node) :
    Sound ({ s with graph := { s.graph with
      nodes := s.graph.nodes.insert edge.from_ (node.storeOut edge) } }.become c
        (.linkIn edge)) := by
  have hit : s.graph.edges.lookup edge.id = some edge := inv.at linking
  refine inv.onNode linking stored Iff.rfl Iff.rfl hit (inv.linkedOut.link linking stored hit
      (fun id other found => (inv.endpoints id other found).1) rfl ?_)
    (inv.linkedIn.aside linking stored rfl ?_)
  · exact fun other ne pre => absurd (Phase.linkOut.inj pre).symm ne
  · rintro other (pre | pre)
    · exact .inr (congrArg Phase.linkIn (Phase.linkOut.inj pre))
    · cases pre

theorem Sound.storedIn (linking : s.phase c = .linkIn edge)
    (stored : s.graph.nodes.lookup edge.to_ = some node) :
    Sound ({ s with graph := { s.graph with
      nodes := s.graph.nodes.insert edge.to_ (node.storeIn edge) } }.become c
        (.countEdge edge)) := by
  refine inv.onNode linking stored Iff.rfl Iff.rfl trivial
    (inv.linkedOut.aside linking stored rfl fun _ => nofun)
    (inv.linkedIn.link linking stored (inv.at linking)
      (fun id x hit => (inv.endpoints id x hit).1) rfl ?_)
  rintro x ne (pre | pre)
  · cases pre
  · exact absurd (Phase.linkIn.inj pre).symm ne

theorem Sound.step {e t} (took : step s e = some t) : Sound t := by
  cases moves_of_step took with
  | @call c idle call x =>
    refine inv.turn idle Iff.rfl Iff.rfl ?_ fun edge => ⟨nofun, nofun⟩
    cases call with
    | node id => trivial
    | fromNode edge => trivial
    | toNode edge => exact absurd rfl (x edge)
  | @nodeFound c call storing stored =>
    exact inv.turn storing (iff_of_false call.not_countsNode_next fun counts => counts)
      (iff_of_false call.not_countsEdge_next fun counts => counts)
      (NodeCall.next_sound (inv.at storing) stored) fun edge => ⟨nofun, nofun⟩
  | nodeStored storing new => exact inv.nodeStored storing new
  | @nodeCounted c call counting =>
    have ready := inv.at counting
    exact inv.pass counting rfl rfl (inv.nodeCount.leave counting trivial call.not_countsNode_next)
      (inv.edgeCount.keep counting (iff_of_false call.not_countsEdge_next fun counts => counts))
      (NodeCall.next_sound ready.1 ready.2) fun edge => ⟨nofun, nofun⟩
  | edgeFound storing =>
    exact inv.turn storing Iff.rfl Iff.rfl trivial fun edge => ⟨nofun, nofun⟩
  | edgeStored storing new => exact inv.edgeStored storing new
  | linkedOut linking stored => exact inv.storedOut linking stored
  | linkedIn linking stored => exact inv.storedIn linking stored
  | edgeCounted counting =>
    exact inv.pass counting rfl rfl (inv.nodeCount.keep counting Iff.rfl)
      (inv.edgeCount.leave counting trivial fun counts => counts) trivial
      fun edge => ⟨nofun, nofun⟩

end

theorem init_sound (C : Type) : Sound (init C newLockFreeGraph) where
  nodeCount := lags_zero fun _ counts => counts
  edgeCount := lags_zero fun _ counts => counts
  phases _ := trivial
  endpoints id edge stored := by cases stored
  linkedOut := linked_new
  linkedIn := linked_new

/-- The representation invariant of a graph on which no call is under way. -/
structure Graph.Consistent (graph : Graph) : Prop where
  nodeCount : graph.nodeCount = Int64.ofNat graph.nodes.len
  edgeCount : graph.edgeCount = Int64.ofNat graph.edges.len
  endpoints : ∀ id edge, graph.edges.lookup id = some edge →
    edge.id = id ∧ edge.from_ ∈ graph.nodes ∧ edge.to_ ∈ graph.nodes
  outEdges : ∀ n node, graph.nodes.lookup n = some node → ∀ id,
    id ∈ node.outEdges ↔ ∃ edge, graph.edges.lookup id = some edge ∧ edge.from_ = n
  inEdges : ∀ n node, graph.nodes.lookup n = some node → ∀ id,
    id ∈ node.inEdges ↔ ∃ edge, graph.edges.lookup id = some edge ∧ edge.to_ = n

variable {s : State C}

theorem Sound.consistent (inv : Sound s) (quiet : Quiet s) : s.graph.Consistent := by
  have silent : ∀ about : Phase → Prop, ¬ about .idle → ¬ about .returned →
      ∀ c, ¬ about (s.phase c) := by
    intro about idle ret c
    rcases quiet c with phase | phase
    · rw [phase]
      exact idle
    · rw [phase]
      exact ret
  exact ⟨inv.nodeCount.settled (silent _ id id), inv.edgeCount.settled (silent _ id id),
    inv.endpoints,
    fun _ _ => inv.linkedOut.settled fun e => silent (Phase.LinksOut e) nofun nofun,
    fun _ _ => inv.linkedIn.settled fun e => silent (Phase.LinksIn e) nofun nofun⟩

theorem reached_sound [DecidableEq C] {es} (run : exec step (init C newLockFreeGraph) es = some s) :
    Sound s :=
  exec_invariant Sound (init_sound C) (fun _ _ _ inv took => inv.step took) run

/-- In every interleaving, once all calls have returned. -/
theorem graph_consistent [DecidableEq C] {events : List (Event C)} {s : State C}
    (run : exec step (init C newLockFreeGraph) events = some s) (quiet : Quiet s) :
    s.graph.Consistent :=
  (reached_sound run).consistent quiet

def racing : List (Event Bool) :=
  [.addEdge false ⟨"e", "a", "b", "knows"⟩, .addEdge true ⟨"e", "b", "a", "likes"⟩] ++
    List.replicate 4 (.advance false) ++ List.replicate 3 (.advance true) ++
    [.advance false] ++ List.replicate 3 (.advance true)

theorem graph_consistent_racing :
    ∃ s, exec step (init Bool newLockFreeGraph) racing = some s ∧ Quiet s ∧
      s.graph.edges.lookup "e" = some ⟨"e", "b", "a", "likes"⟩ ∧ s.graph.Consistent := by
  obtain ⟨s, run, stored, first, second⟩ : ∃ s,
      exec step (init Bool newLockFreeGraph) racing = some s ∧
      s.graph.edges.lookup "e" = some ⟨"e", "b", "a", "likes"⟩ ∧
      s.phase false = .returned ∧ s.phase true = .returned :=
    ⟨_, rfl, by decide, rfl, rfl⟩
  have quiet : Quiet s := by
    intro c
    cases c with
    | false => exact Or.inr first
    | true => exact Or.inr second
  exact ⟨s, run, quiet, stored, graph_consistent run quiet⟩

end

/- What the searches of the LockFreeGraph in solution21_graph_database.go read of a graph that does
not change any more. -/
open Runs (exec)

structure TraversalResult where
  path : List String
  distance : Nat
  deriving DecidableEq

/-- An edge from one node to the other is stored. -/
def Stored (graph : Graph) (source target : String) : Prop :=
  ∃ id edge, graph.edges.lookup id = some edge ∧ edge.from_ = source ∧ edge.to_ = target

/-- The edges that a loop over the out-edges of a node meets, in its order of the ids. -/
def Node.ranged (node : Node) (order : List String) : List Edge :=
  order.filterMap node.outEdges.lookup

/-- The out-edges of the nodes are the stored edges, and lead to stored nodes. -/
structure Graph.Searchable (graph : Graph) : Prop where
  sources : ∀ source target, Stored graph source target → source ∈ graph.nodes
  targets : ∀ source target, Stored graph source target → target ∈ graph.nodes
  links : ∀ n node, graph.nodes.lookup n = some node → ∀ target,
    Stored graph n target ↔ ∃ id edge, node.outEdges.lookup id = some edge ∧ edge.to_ = target

variable {C : Type} {s : State C}

theorem Sound.searchable (inv : Sound s) (quiet : Quiet s) :
    s.graph.Searchable where
  sources := by
    rintro src tgt ⟨id, e, stored, rfl, -⟩
    exact (inv.endpoints id e stored).2.1
  targets := by
    rintro src tgt ⟨id, e, stored, -, rfl⟩
    exact (inv.endpoints id e stored).2.2
  links := by
    intro n node hit tgt
    constructor
    · rintro ⟨id, e, stored, rfl, rfl⟩
      have mem := ((inv.consistent quiet).outEdges _ node hit id).mpr ⟨e, stored, rfl⟩
      obtain ⟨linked, lookup⟩ := Finmap.mem_iff.mp mem
      have only := (inv.linkedOut.only _ node id linked hit lookup).1
      rw [stored, Option.some.injEq] at only
      exact ⟨id, linked, lookup, only ▸ rfl⟩
    · rintro ⟨id, e, lookup, rfl⟩
      obtain ⟨stored, rfl⟩ := inv.linkedOut.only n node id e hit lookup
      exact ⟨id, e, stored, rfl, rfl⟩

theorem reached_searchable [DecidableEq C] {es}
    (run : exec step (init C newLockFreeGraph) es = some s) (quiet : Quiet s) :
    s.graph.Searchable :=
  (reached_sound run).searchable quiet

variable {g : Graph} {n : String} {node : Node} {order : List String}

theorem Graph.Searchable.stored_of_ranged (good : g.Searchable)
    (hit : g.nodes.lookup n = some node) {e} (met : e ∈ node.ranged order) : Stored g n e.to_ := by
  obtain ⟨id, -, lookup⟩ := List.mem_filterMap.mp met
  exact (good.links n node hit _).mpr ⟨id, e, lookup, rfl⟩

/-- A loop over all out-edges meets an edge to every neighbour. -/
theorem Graph.Searchable.exists_ranged (good : g.Searchable)
    (hit : g.nodes.lookup n = some node) (ranges : GoMap.Ranges order node.outEdges) {target}
    (stored : Stored g n target) : ∃ e ∈ node.ranged order, e.to_ = target := by
  obtain ⟨id, e, lookup, eq⟩ := (good.links n node hit target).mp stored
  refine ⟨e, List.mem_filterMap.mpr ⟨id, ?_, lookup⟩, eq⟩
  exact ranges.mem_iff.mpr (Finmap.mem_of_lookup_eq_some lookup)

def twoEdges : List (Event Bool) :=
  [.addEdge false ⟨"e", "a", "b", "knows"⟩] ++ List.replicate 8 (.advance false) ++
    [.addEdge true ⟨"f", "b", "c", "knows"⟩] ++ List.replicate 7 (.advance true)

def twoEdgesOrder (n : String) : List String :=
  if n = "a" then ["e"] else if n = "b" then ["f"] else []

theorem quiet_of_both {s} (x : s.phase false = .returned) (y : s.phase true = .returned) :
    Quiet s := by
  intro c
  cases c with
  | false => exact .inr x
  | true => exact .inr y

end AsyncPractice.LockFreeGraph

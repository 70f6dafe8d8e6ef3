import AsyncPractice.GoMap
import AsyncPractice.MachineInt
import AsyncPractice.Runs

/- PartitionedGraph of solution21_graph_database.go: nodes placed on partitions by their load, and
edges kept with the node they leave. An index out of range panics, which is `none`. -/
namespace AsyncPractice.PartitionedGraph

open Option List MachineInt Runs

structure PartitionNode where
  id : String
  partition : Nat
  edges : List String

structure PartitionEdge where
  id : String
  from_ : String
  to_ : String
  fromPart : Nat
  toPart : Nat

structure GraphPartition where
  id : Nat
  nodes : GoMap String PartitionNode
  edges : GoMap String PartitionEdge
  crossRef : GoMap String Nat

structure PartitionRouter where
  nodeMap : GoMap String Nat
  loadFactor : List Int64

structure Graph where
  partitions : List GraphPartition
  numParts : Nat
  router : PartitionRouter

def newPartitionedGraph (numPartitions : Nat) : Graph where
  partitions := (List.range numPartitions).map fun i => ⟨i, ∅, ∅, ∅⟩
  numParts := numPartitions
  router := ⟨∅, List.replicate numPartitions 0⟩

/-- The first partition of lowest load. -/
def lowestLoad (loadFactor : List Int64) (numParts : Nat) : Option Nat :=
  loadFactor[0]?.map fun first =>
    ((List.range' 1 (numParts - 1)).foldl (fun (lowest : Int64 × Nat) i =>
      let load := loadFactor.getD i 0
      if load < lowest.1 then (load, i) else lowest) (first, 0)).2

def getPartition (pg : Graph) (nodeID : String) : Option (Graph × Nat) :=
  match pg.router.nodeMap.lookup nodeID with
  | some part => some (pg, part)
  | none =>
    (lowestLoad pg.router.loadFactor pg.numParts).map fun minPart =>
      ({ pg with
          router := ⟨pg.router.nodeMap.insert nodeID minPart,
            pg.router.loadFactor.modify minPart (· + 1)⟩ }, minPart)

def addNode (pg : Graph) (id : String) : Option Graph :=
  (getPartition pg id).bind fun (pg, partID) =>
    if partID < pg.partitions.length then
      some { pg with
        partitions := pg.partitions.modify partID fun partition =>
          { partition with nodes := partition.nodes.insert id ⟨id, partID, []⟩ } }
    else none

/-- The edge in its partition, and on the list of the node it leaves if that is there. -/
def GraphPartition.link (edge : PartitionEdge) (partition : GraphPartition) : GraphPartition :=
  { partition with
    edges := partition.edges.insert edge.id edge
    nodes := GoMap.modify (fun node => { node with edges := node.edges ++ [edge.id] }) edge.from_
      partition.nodes
    crossRef :=
      if edge.fromPart ≠ edge.toPart then partition.crossRef.insert edge.to_ edge.toPart
      else partition.crossRef }

def addEdge (pg : Graph) (id source target : String) : Option Graph :=
  (getPartition pg source).bind fun (pg, fromPart) =>
    (getPartition pg target).bind fun (pg, toPart) =>
      if fromPart < pg.partitions.length then
        some { pg with
          partitions := pg.partitions.modify fromPart
            (GraphPartition.link ⟨id, source, target, fromPart, toPart⟩) }
      else none

inductive Call
  | addNode (id : String)
  | addEdge (id source target : String)

def step (pg : Graph) : Call → Option Graph
  | .addNode id => addNode pg id
  | .addEdge id source target => addEdge pg id source target

def edgeID : Call → Option String
  | .addNode _ => none
  | .addEdge id _ _ => some id

def Added (calls : List Call) (source target : String) : Prop :=
  ∃ id, .addEdge id source target ∈ calls

/-- An edge was added after its source, which was not added again later. -/
def Recorded (calls : List Call) (source target : String) : Prop :=
  ∃ before id after, calls = before ++ .addEdge id source target :: after ∧
    .addNode source ∈ before ∧ .addNode source ∉ after

def Graph.nodeAt (pg : Graph) (part : Nat) (nodeID : String) : Option PartitionNode :=
  pg.partitions[part]?.bind (·.nodes.lookup nodeID)

def Graph.edgeAt (pg : Graph) (part : Nat) (edgeID : String) : Option PartitionEdge :=
  pg.partitions[part]?.bind (·.edges.lookup edgeID)

def Links (pg : Graph) (source target : String) : Prop :=
  ∃ part node id edge, pg.nodeAt part source = some node ∧ id ∈ node.edges ∧
    pg.edgeAt part id = some edge ∧ edge.to_ = target

theorem Recorded.added {cs source target} (rec : Recorded cs source target) :
    Added cs source target := by
  obtain ⟨pre, id, after, rfl, -⟩ := rec
  exact ⟨id, by simp⟩

variable {cs : List Call} {src tgt id : String}

theorem recorded_snoc_node :
    Recorded (cs ++ [.addNode id]) src tgt ↔ Recorded cs src tgt ∧ src ≠ id := by
  constructor
  · rintro ⟨pre, e, after, split, earlier, later⟩
    obtain ⟨-, x, -⟩ | ⟨rest, rfl, rfl⟩ := snoc_cases split
    · cases x
    · rw [mem_append, not_or] at later
      refine ⟨⟨pre, e, rest, rfl, earlier, later.1⟩, ?_⟩
      rintro rfl
      exact later.2 (mem_singleton.mpr rfl)
  · rintro ⟨⟨pre, e, after, rfl, earlier, later⟩, apart⟩
    refine ⟨pre, e, after ++ [.addNode id], by simp, earlier, ?_⟩
    simp [later, apart]

theorem recorded_snoc_edge {x y} :
    Recorded (cs ++ [.addEdge id x y]) src tgt ↔ Recorded cs src tgt ∨
        src = x ∧ tgt = y ∧ .addNode x ∈ cs := by
  constructor
  · rintro ⟨pre, e, after, split, earlier, later⟩
    obtain ⟨rfl, eq, -⟩ | ⟨rest, rfl, rfl⟩ := snoc_cases split
    · cases eq
      exact .inr ⟨rfl, rfl, earlier⟩
    · rw [mem_append, not_or] at later
      exact .inl ⟨pre, e, rest, rfl, earlier, later.1⟩
  · rintro (⟨pre, e, after, rfl, earlier, later⟩ | ⟨rfl, rfl, earlier⟩)
    · refine ⟨pre, e, after ++ [.addEdge id x y], by simp, earlier, ?_⟩
      simp [later]
    · exact ⟨cs, id, [], rfl, earlier, by simp⟩

section

variable {pg t : Graph} {n : String} {part : Nat}

theorem lowestLoad_lt {loadFactor minPart}
    (found : lowestLoad loadFactor loadFactor.length = some minPart) :
    minPart < loadFactor.length := by
  obtain ⟨x, hit, rfl⟩ := map_eq_some_iff.mp found
  have some : 0 < loadFactor.length := (List.getElem?_eq_some_iff.mp hit).1
  obtain ⟨chosen, -⟩ := foldl_lowest Prod.fst
    ((List.range' 1 (loadFactor.length - 1)).map fun i => (loadFactor.getD i 0, i)) (x, 0)
  rw [foldl_map] at chosen
  rcases mem_cons.mp chosen with start | later
  · exact (congrArg Prod.snd start).trans_lt some
  · obtain ⟨i, mem, eq⟩ := mem_map.mp later
    rw [mem_range'_1] at mem
    have small : i < loadFactor.length := by omega
    exact (congrArg Prod.snd eq).symm.trans_lt small

/-- The partitions and the router fit together. -/
structure Routed (pg : Graph) : Prop where
  loads : pg.router.loadFactor.length = pg.partitions.length
  parts : pg.numParts = pg.partitions.length
  mapped : ∀ nodeID part, pg.router.nodeMap.lookup nodeID = some part →
    part < pg.partitions.length
  placed : ∀ part nodeID node, pg.nodeAt part nodeID = some node →
    pg.router.nodeMap.lookup nodeID = some part
  targets : ∀ part id edge, pg.edgeAt part id = some edge →
    pg.router.nodeMap.lookup edge.to_ = some edge.toPart

/-- What looking a partition up does: the contents stay and every node keeps its place. -/
structure Looked (pg next : Graph) (nodeID : String) (part : Nat) : Prop where
  partitions : next.partitions = pg.partitions
  routed : Routed next
  found : next.router.nodeMap.lookup nodeID = some part
  kept : ∀ other place, pg.router.nodeMap.lookup other = some place →
    next.router.nodeMap.lookup other = some place

theorem getPartition_looked (inv : Routed pg) (look : getPartition pg n = some (t, part)) :
    Looked pg t n part := by
  unfold getPartition at look
  split at look
  next hit =>
    obtain ⟨rfl, rfl⟩ := look
    exact ⟨rfl, inv, hit, fun _ _ held => held⟩
  next absent =>
    obtain ⟨minPart, lowest, eq⟩ := map_eq_some_iff.mp look
    simp only [Prod.mk.injEq] at eq
    obtain ⟨rfl, rfl⟩ := eq
    have kept : ∀ x p, pg.router.nodeMap.lookup x = some p →
        (pg.router.nodeMap.insert n minPart).lookup x = some p := by
      intro x p held
      exact GoMap.lookup_insert_new (Finmap.lookup_eq_none.mp absent) held _
    rw [inv.parts, ← inv.loads] at lowest
    have small := lowestLoad_lt lowest
    rw [inv.loads] at small
    refine ⟨rfl, ⟨?_, inv.parts, ?_, ?_, ?_⟩, Finmap.lookup_insert _, kept⟩
    · rw [length_modify]
      exact inv.loads
    · intro x p held
      rcases GoMap.lookup_insert_cases held with ⟨-, rfl⟩ | ⟨-, held⟩
      · exact small
      · exact inv.mapped x p held
    · intro p x node held
      exact kept x p (inv.placed p x node held)
    · intro p id e held
      exact kept e.to_ e.toPart (inv.targets p id e held)

variable (look : Looked pg t n part)
include look

theorem Looked.nodeAt (place other) : t.nodeAt place other = pg.nodeAt place other := by
  unfold Graph.nodeAt
  rw [look.partitions]

theorem Looked.edgeAt (place id) : t.edgeAt place id = pg.edgeAt place id := by
  unfold Graph.edgeAt
  rw [look.partitions]

theorem Looked.links {src tgt} : Links t src tgt ↔ Links pg src tgt := by
  unfold Links
  simp only [look.nodeAt, look.edgeAt]

end

variable {pg t : Graph}

def Graph.modify (pg : Graph) (part : Nat) (f : GraphPartition → GraphPartition) : Graph :=
  { pg with partitions := pg.partitions.modify part f }

variable {part : Nat}

theorem Graph.bind_modify {β : Type} (lt : part < pg.partitions.length) (f) (p : Nat)
    (get : GraphPartition → Option β) :
    (pg.modify part f).partitions[p]?.bind get =
      if part = p then get (f pg.partitions[part]) else pg.partitions[p]?.bind get := by
  unfold Graph.modify
  by_cases here : part = p
  · subst here
    simp [lt]
  · simp [here]

/-- A change of one partition that leaves nodes and targets where the router has them. -/
theorem Routed.modify (inv : Routed pg) {f}
    (placed : ∀ p n node, (pg.modify part f).nodeAt p n = some node →
      pg.router.nodeMap.lookup n = some p)
    (targets : ∀ p edgeID edge, (pg.modify part f).edgeAt p edgeID = some edge →
      pg.router.nodeMap.lookup edge.to_ = some edge.toPart) : Routed (pg.modify part f) := by
  have eq : (pg.modify part f).partitions.length = pg.partitions.length :=
    length_modify _ _ _
  refine ⟨?_, ?_, ?_, placed, targets⟩
  · rw [eq]
    exact inv.loads
  · rw [eq]
    exact inv.parts
  · intro n p mapped
    rw [eq]
    exact inv.mapped n p mapped

structure NodeAdded (pg next : Graph) (id : String) (part : Nat) : Prop where
  routed : Routed next
  nodes : ∀ place nodeID, next.nodeAt place nodeID =
    if place = part ∧ nodeID = id then some ⟨id, part, []⟩ else pg.nodeAt place nodeID
  edges : ∀ place edgeID, next.edgeAt place edgeID = pg.edgeAt place edgeID

theorem addNode_added (inv : Routed pg) (added : addNode pg id = some t) :
    ∃ part, NodeAdded pg t id part := by
  obtain ⟨⟨mid, part⟩, looking, rest⟩ := bind_eq_some_iff.mp added
  have look := getPartition_looked inv looking
  obtain ⟨lt, rest⟩ := ite_none_right_eq_some.mp rest
  generalize change : (fun partition : GraphPartition =>
    { partition with nodes := partition.nodes.insert id ⟨id, part, []⟩ }) = f at rest
  obtain rfl : mid.modify part f = t := some.inj rest
  have ns : ∀ p n, (mid.modify part f).nodeAt p n =
      if p = part ∧ n = id then some ⟨id, part, []⟩ else pg.nodeAt p n := by
    intro p n
    rw [← look.nodeAt, Graph.nodeAt, Graph.bind_modify lt, ← change]
    by_cases here : part = p
    · subst here
      simp [GoMap.lookup_insert_ite, Graph.nodeAt, lt]
    · simp [here, Ne.symm here, Graph.nodeAt]
  have edges : ∀ p edgeID, (mid.modify part f).edgeAt p edgeID = pg.edgeAt p edgeID := by
    intro p edgeID
    rw [← look.edgeAt, Graph.edgeAt, Graph.bind_modify lt, ← change]
    by_cases here : part = p
    · subst here
      simp [Graph.edgeAt, lt]
    · simp [here, Graph.edgeAt]
  refine ⟨part, look.routed.modify ?_ ?_, ns, edges⟩
  · intro p n node hit
    rw [ns] at hit
    split at hit
    next eq =>
      rw [eq.1, eq.2]
      exact look.found
    · rw [← look.nodeAt] at hit
      exact look.routed.placed p n node hit
  · intro p edgeID e hit
    rw [edges, ← look.edgeAt] at hit
    exact look.routed.targets p edgeID e hit

structure EdgeAdded (pg next : Graph) (edge : PartitionEdge) : Prop where
  routed : Routed next
  source : next.router.nodeMap.lookup edge.from_ = some edge.fromPart
  nodes : ∀ place nodeID, next.nodeAt place nodeID =
    if place = edge.fromPart ∧ nodeID = edge.from_ then
      (pg.nodeAt place nodeID).map fun node => { node with edges := node.edges ++ [edge.id] }
    else pg.nodeAt place nodeID
  edges : ∀ place edgeID, next.edgeAt place edgeID =
    if place = edge.fromPart ∧ edgeID = edge.id then some edge else pg.edgeAt place edgeID

theorem Looked.link {e first second} (look : Looked pg first e.from_ e.fromPart)
    (looked' : Looked first second e.to_ e.toPart) (lt : e.fromPart < second.partitions.length) :
    EdgeAdded pg (second.modify e.fromPart (GraphPartition.link e)) e := by
  have found := looked'.kept e.from_ e.fromPart look.found
  have ns : ∀ p n, (second.modify e.fromPart (GraphPartition.link e)).nodeAt p n =
      if p = e.fromPart ∧ n = e.from_ then
        (pg.nodeAt p n).map fun node => { node with edges := node.edges ++ [e.id] }
      else pg.nodeAt p n := by
    intro p n
    rw [← look.nodeAt, ← looked'.nodeAt, Graph.nodeAt, Graph.bind_modify lt]
    by_cases here : e.fromPart = p
    · subst here
      simp [GraphPartition.link, GoMap.lookup_modify, Graph.nodeAt, lt]
    · simp [here, Ne.symm here, Graph.nodeAt]
  have edges : ∀ p edgeID, (second.modify e.fromPart (GraphPartition.link e)).edgeAt p edgeID =
      if p = e.fromPart ∧ edgeID = e.id then some e else pg.edgeAt p edgeID := by
    intro p edgeID
    rw [← look.edgeAt, ← looked'.edgeAt, Graph.edgeAt, Graph.bind_modify lt]
    by_cases here : e.fromPart = p
    · subst here
      simp [GraphPartition.link, GoMap.lookup_insert_ite, Graph.edgeAt, lt]
    · simp [here, Ne.symm here, Graph.edgeAt]
  refine ⟨looked'.routed.modify ?_ ?_, found, ns, edges⟩
  · intro p n node hit
    rw [ns] at hit
    split at hit
    next eq =>
      rw [eq.1, eq.2]
      exact found
    · rw [← look.nodeAt, ← looked'.nodeAt] at hit
      exact looked'.routed.placed p n node hit
  · intro p edgeID x hit
    rw [edges] at hit
    split at hit
    · cases hit
      exact looked'.found
    · rw [← look.edgeAt, ← looked'.edgeAt] at hit
      exact looked'.routed.targets p edgeID x hit

theorem addEdge_added (inv : Routed pg) (added : addEdge pg id src tgt = some t) :
    ∃ edge, EdgeAdded pg t edge ∧ edge.id = id ∧ edge.from_ = src ∧ edge.to_ = tgt := by
  obtain ⟨⟨x, fromPart⟩, looking, rest⟩ := bind_eq_some_iff.mp added
  obtain ⟨⟨y, toPart⟩, looking', rest⟩ := bind_eq_some_iff.mp rest
  have look := getPartition_looked inv looking
  have looked' := getPartition_looked look.routed looking'
  obtain ⟨lt, rfl⟩ := guard_some.mp rest
  exact ⟨⟨id, src, tgt, fromPart, toPart⟩, look.link looked' lt, rfl, rfl, rfl⟩

structure Built (calls : List Call) (pg : Graph) : Prop where
  routed : Routed pg
  nodes : ∀ nodeID, (∃ part node, pg.nodeAt part nodeID = some node) ↔ .addNode nodeID ∈ calls
  named : ∀ part id edge, pg.edgeAt part id = some edge → id ∈ calls.filterMap edgeID
  listed : ∀ part nodeID node, pg.nodeAt part nodeID = some node →
    ∀ id ∈ node.edges, ∃ edge, pg.edgeAt part id = some edge
  links : ∀ source target, Links pg source target ↔ Recorded calls source target

variable {e : PartitionEdge}

/-- A node that is added again loses its edges. -/
theorem NodeAdded.links (added : NodeAdded pg t id part) :
    Links t src tgt ↔ Links pg src tgt ∧ src ≠ id := by
  have here : t.nodeAt part id = some ⟨id, part, []⟩ := by
    rw [added.nodes, if_pos ⟨rfl, rfl⟩]
  constructor
  · rintro ⟨p, n, eid, e, hit, mem, found, leads⟩
    have ne : src ≠ id := by
      rintro rfl
      have eq := added.routed.placed p src n hit
      rw [added.routed.placed part src _ here, some.injEq] at eq
      rw [← eq, here, some.injEq] at hit
      rw [← hit] at mem
      cases mem
    rw [added.nodes, if_neg fun both => ne both.2] at hit
    rw [added.edges] at found
    exact ⟨⟨p, n, eid, e, hit, mem, found, leads⟩, ne⟩
  · rintro ⟨⟨p, n, eid, e, hit, mem, found, leads⟩, ne⟩
    refine ⟨p, n, eid, e, ?_, mem, ?_, leads⟩
    · rw [added.nodes, if_neg fun both => ne both.2]
      exact hit
    · rw [added.edges]
      exact found

theorem Built.addNode (built : Built cs pg) (added : NodeAdded pg t id part) :
    Built (cs ++ [.addNode id]) t where
  routed := added.routed
  nodes := by
    intro n
    rw [mem_append, ← built.nodes]
    constructor
    · rintro ⟨p, node, hit⟩
      rw [added.nodes] at hit
      split at hit
      next eq =>
        right
        rw [eq.2]
        exact mem_singleton.mpr rfl
      · exact .inl ⟨p, node, hit⟩
    · rintro (⟨p, node, hit⟩ | new)
      · refine ⟨p, if p = part ∧ n = id then ⟨id, part, []⟩ else node, ?_⟩
        rw [added.nodes, hit]
        split <;> rfl
      · obtain rfl : n = id := by simpa using new
        exact ⟨part, _, by rw [added.nodes, if_pos ⟨rfl, rfl⟩]⟩
  named := by
    intro p eid e hit
    rw [added.edges] at hit
    rw [filterMap_append]
    exact mem_append_left _ (built.named p eid e hit)
  listed := by
    intro p n node hit eid mem
    rw [added.nodes] at hit
    split at hit
    · rw [← some.inj hit] at mem
      cases mem
    · rw [added.edges]
      exact built.listed p n node hit eid mem
  links := by
    intro src tgt
    rw [added.links, recorded_snoc_node, built.links]

/-- An edge counts from when its source is there. -/
theorem EdgeAdded.links (added : EdgeAdded pg t e) (built : Built cs pg)
    (fresh : e.id ∉ cs.filterMap edgeID) :
    Links t src tgt ↔ Links pg src tgt ∨ src = e.from_ ∧ tgt = e.to_ ∧ .addNode e.from_ ∈ cs := by
  have old : ∀ {p eid x}, pg.edgeAt p eid = some x → eid ≠ e.id := by
    rintro p eid x hit rfl
    exact fresh (built.named p e.id x hit)
  have eq : ∀ {p eid x}, pg.edgeAt p eid = some x → t.edgeAt p eid = some x := by
    intro p eid x hit
    rw [added.edges, if_neg fun both => old hit both.2]
    exact hit
  have linked : ∀ {p n eid}, pg.nodeAt p src = some n → eid ∈ n.edges →
      ∀ found, t.edgeAt p eid = some found → found.to_ = tgt →
      Links pg src tgt := by
    intro p n eid hit mem found located leads
    obtain ⟨x, present'⟩ := built.listed p src n hit eid mem
    rw [eq present', some.injEq] at located
    exact ⟨p, n, eid, found, hit, mem, located ▸ present', leads⟩
  constructor
  · rintro ⟨p, n, eid, found, hit, mem, located, leads⟩
    rw [added.nodes] at hit
    split at hit
    next here =>
      obtain ⟨pre, existed, rfl⟩ := map_eq_some_iff.mp hit
      rcases mem_append.mp mem with earlier | last
      · exact .inl (linked existed earlier found located leads)
      · right
        obtain rfl := mem_singleton.mp last
        rw [added.edges, if_pos ⟨here.1, rfl⟩, some.injEq] at located
        rw [here.2] at existed
        exact ⟨here.2, by rw [← leads, located], (built.nodes _).mp ⟨p, pre, existed⟩⟩
    · exact .inl (linked hit mem found located leads)
  · rintro (⟨p, n, eid, found, hit, mem, located, leads⟩ | ⟨rfl, rfl, existed⟩)
    · by_cases here : p = e.fromPart ∧ src = e.from_
      · refine ⟨p, { n with edges := n.edges ++ [e.id] }, eid, found, ?_,
          mem_append_left [e.id] mem, eq located, leads⟩
        rw [added.nodes, if_pos here, hit]
        rfl
      · refine ⟨p, n, eid, found, ?_, mem, eq located, leads⟩
        rw [added.nodes, if_neg here]
        exact hit
    · obtain ⟨p, n, hit⟩ := (built.nodes _).mpr existed
      have placed : p = e.fromPart := by
        by_contra apart
        have still : t.nodeAt p e.from_ = some n := by
          rw [added.nodes, if_neg fun both => apart both.1]
          exact hit
        have mapped := added.routed.placed p e.from_ n still
        rw [added.source, some.injEq] at mapped
        exact apart mapped.symm
      refine ⟨p, { n with edges := n.edges ++ [e.id] }, e.id, e, ?_,
        mem_append_right n.edges (mem_singleton.mpr rfl), ?_, rfl⟩
      · rw [added.nodes, if_pos ⟨placed, rfl⟩, hit]
        rfl
      · rw [added.edges, if_pos ⟨placed, rfl⟩]

theorem Built.addEdge (built : Built cs pg) (added : EdgeAdded pg t e)
    (fresh : e.id ∉ cs.filterMap edgeID) :
    Built (cs ++ [.addEdge e.id e.from_ e.to_]) t where
  routed := added.routed
  nodes := by
    intro n
    have node : Call.addNode n ∈ cs ++ [.addEdge e.id e.from_ e.to_] ↔
        Call.addNode n ∈ cs := by simp
    rw [node, ← built.nodes]
    apply exists_congr
    intro p
    rw [added.nodes]
    split
    · cases pg.nodeAt p n <;> simp
    · rfl
  named := by
    intro p eid x hit
    rw [filterMap_append, mem_append]
    rw [added.edges] at hit
    split at hit
    next eq =>
      right
      rw [eq.2]
      exact mem_singleton.mpr rfl
    · exact .inl (built.named p eid x hit)
  listed := by
    intro p n node hit eid mem
    have pre : eid = e.id ∧ p = e.fromPart ∨ ∃ x, pg.edgeAt p eid = some x := by
      rw [added.nodes] at hit
      split at hit
      next here =>
        obtain ⟨earlier, existed, rfl⟩ := map_eq_some_iff.mp hit
        rcases mem_append.mp mem with old | last
        · exact .inr (built.listed p n earlier existed eid old)
        · exact .inl ⟨mem_singleton.mp last, here.1⟩
      · exact .inr (built.listed p n node hit eid mem)
    rcases pre with ⟨rfl, rfl⟩ | ⟨x, existed⟩
    · exact ⟨e, by rw [added.edges, if_pos ⟨rfl, rfl⟩]⟩
    · refine ⟨if p = e.fromPart ∧ eid = e.id then e else x, ?_⟩
      rw [added.edges, existed]
      split <;> rfl
  links := by
    intro src tgt
    rw [added.links built fresh, recorded_snoc_edge, built.links]

theorem new_built (numPartitions) : Built [] (newPartitionedGraph numPartitions) := by
  have empty : ∀ part n, (newPartitionedGraph numPartitions).nodeAt part n = none := by
    intro part n
    by_cases inside : part < numPartitions <;> simp [Graph.nodeAt, newPartitionedGraph, inside]
  have unlinked : ∀ part id, (newPartitionedGraph numPartitions).edgeAt part id = none := by
    intro part id
    by_cases inside : part < numPartitions <;> simp [Graph.edgeAt, newPartitionedGraph, inside]
  refine ⟨⟨by simp [newPartitionedGraph], by simp [newPartitionedGraph], nofun, ?_, ?_⟩, ?_, ?_,
    ?_, ?_⟩
  · simp [empty]
  · simp [unlinked]
  · simp [empty]
  · simp [unlinked]
  · simp [empty]
  · simp [Links, empty, Recorded]

/-- Calls with distinct edge IDs, in any order, leave exactly the recorded edges to follow. -/
theorem build_built {numPartitions} (distinct : (cs.filterMap edgeID).Nodup)
    (build : exec step (newPartitionedGraph numPartitions) cs = some pg) : Built cs pg := by
  refine exec_history (fun cs pg => (cs.filterMap edgeID).Nodup → Built cs pg)
    (fun _ => new_built numPartitions) ?_ build distinct
  intro cs pg c t _ ih took distinct
  rw [filterMap_append] at distinct
  have built := ih (nodup_append.mp distinct).1
  cases c with
  | addNode id =>
    obtain ⟨part, added⟩ := addNode_added built.routed took
    exact built.addNode added
  | addEdge id src tgt =>
    obtain ⟨e, added, rfl, rfl, rfl⟩ := addEdge_added built.routed took
    apply built.addEdge added
    intro old
    exact (nodup_append.mp distinct).2.2 _ old _ (mem_singleton.mpr rfl) rfl

end AsyncPractice.PartitionedGraph

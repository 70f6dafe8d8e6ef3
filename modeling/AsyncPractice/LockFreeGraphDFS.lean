import AsyncPractice.DepthFirst
import AsyncPractice.GoSlice
import AsyncPractice.LockFreeGraph

/- DFS of the LockFreeGraph in solution21_graph_database.go, without cancellation and timeout. The
paths of the recursive calls are slices that may share an array: a call appends to the path it was
given, and so do the calls after it. -/
namespace AsyncPractice.LockFreeGraph.DFS

open Option List DepthFirst Finmap GoSlice Runs
open Relation (ReflTransGen TransGen)

structure Search where
  visited : GoMap String Bool
  memory : Memory String
  resultChan : List (Slice × Nat)

def Search.visit (s : Search) (nodeID : String) : Search :=
  { s with visited := s.visited.insert nodeID true }

structure Call where
  nodeID : String
  path : Slice
  depth : Nat

variable (graph : Graph) (order : String → List String) (spare : Slice → Nat) (target : String)

def rangeEdge (call : Call → Search → Option (Bool × Search)) (path : Slice) (depth : Nat)
    (edge : Edge) (s : Search) : Option (Bool × Search) :=
  let newPath := s.memory.append path [edge.to_] (spare path)
  call ⟨edge.to_, newPath.2, depth + 1⟩ { s with memory := newPath.1 }

def rangeEdges (call : Call → Search → Option (Bool × Search)) (c : Call) (s : Search) :
    Option (Bool × Search) :=
  match graph.nodes.lookup c.nodeID with
  | none => some (false, s)
  | some node =>
    findFrom (rangeEdge spare call c.path c.depth) (node.ranged (order c.nodeID)) s

/-- The body of dfs, with its recursive calls. The channel has room for one result; a second send
would block. -/
def dfsBody (call : Call → Search → Option (Bool × Search)) (c : Call) (s : Search) :
    Option (Bool × Search) :=
  if c.nodeID = target then
    if s.resultChan.length < 1 then
      some (true, { s with resultChan := s.resultChan ++ [(c.path, c.depth)] })
    else none
  else if c.nodeID ∈ s.visited then some (false, s)
  else rangeEdges graph order spare call c (s.visit c.nodeID)

def dfs (depth : Nat) : Call → Search → Option (Bool × Search) :=
  unroll (dfsBody graph order spare target) depth

/-- The call with its goroutine, if the recursion goes no deeper than `depth`. A channel that is
closed without a result gives nil. -/
def search (start : String) (depth : Nat) : Option (Option TraversalResult) :=
  let path := Memory.blank.allocate [start] 0
  (dfs graph order spare target depth ⟨start, path.2, 0⟩ ⟨∅, path.1, []⟩).map fun (_, s) =>
    s.resultChan.head?.map fun (path, distance) => ⟨s.memory.contents path, distance⟩

def Ordered (graph : Graph) (order : String → List String) : Prop :=
  ∀ n node, graph.nodes.lookup n = some node → GoMap.Ranges (order n) node.outEdges

/-- A path from the start to the target that repeats no node. -/
structure IsPath (graph : Graph) (start target : String) (path : List String) : Prop where
  first : path.head? = some start
  last : path.getLast? = some target
  chain : path.IsChain (Stored graph)
  nodup : path.Nodup

section

variable {g : Graph} {order : String → List String} {spare : Slice → Nat}
  {start tgt : String} {s t u : Search} {c : Call}

structure Exploring (target : String) (s : Search) : Prop where
  silent : s.resultChan = []
  missed : target ∉ s.visited

/-- The slice holds a path of visited nodes from the start to the node. -/
structure LeadsTo (graph : Graph) (start : String) (s : Search) (path : Slice) (nodeID : String)
    (depth : Nat) (front : List String) : Prop where
  contents : s.memory.contents path = front ++ [nodeID]
  first : (front ++ [nodeID]).head? = some start
  chain : (front ++ [nodeID]).IsChain (Stored graph)
  visited : ∀ n ∈ front, n ∈ s.visited
  nodup : front.Nodup
  depth : front.length = depth
  allocated : path.array < s.memory.next

/-- More nodes have been visited, and the new ones lead to visited nodes only. -/
structure Search.Grows (graph : Graph) (s t : Search) : Prop where
  more : ∀ n ∈ s.visited, n ∈ t.visited
  closed : ∀ n ∈ t.visited, n ∉ s.visited → ∀ m, Stored graph n m → m ∈ t.visited

theorem Search.Grows.refl (s : Search) : s.Grows g s :=
  ⟨fun _ mem => mem, fun _ mem new => absurd mem new⟩

theorem Search.Grows.trans (x : s.Grows g t) (y : t.Grows g u) : s.Grows g u := by
  refine ⟨fun n mem => y.more n (x.more n mem), ?_⟩
  intro n mem new m stored
  by_cases early : n ∈ t.visited
  · exact y.more m (x.closed n early new m stored)
  · exact y.closed n mem early m stored

def Found (graph : Graph) (start target : String) (t : Search) : Prop :=
  ∃ path distance, t.resultChan = [(path, distance)] ∧
    IsPath graph start target (t.memory.contents path) ∧
    (t.memory.contents path).length = distance + 1

/-- A call that fails has visited its node, and its appends have left the path it was given
alone. -/
structure Failed (graph : Graph) (target : String) (c : Call) (s t : Search) : Prop where
  exploring : Exploring target t
  grows : s.Grows graph t
  here : c.nodeID ∈ t.visited
  frame : s.memory.Frame t.memory c.path

def Search.left (graph : Graph) (s : Search) : Nat :=
  unvisited graph.nodes.keys (· ∈ s.visited)

def Calls (graph : Graph) (start target : String) (depth : Nat)
    (call : Call → Search → Option (Bool × Search)) : Prop :=
  ∀ c s front, Exploring target s → LeadsTo graph start s c.path c.nodeID c.depth front →
    s.left graph < depth → Returns (Found graph start target) (Failed graph target c s) (call c s)

theorem dfsBody_monotone (g order spare tgt) : Monotone (dfsBody g order spare tgt) := by
  intro x y more c s res ret
  have e : DepthFirst.Extends (rangeEdge spare x c.path c.depth)
      (rangeEdge spare y c.path c.depth) :=
    fun e s res called => more _ _ _ called
  unfold dfsBody rangeEdges at ret ⊢
  cases stored : g.nodes.lookup c.nodeID with
  | none => rwa [stored] at ret
  | some n =>
    rw [stored] at ret
    split_ifs at ret ⊢
    · exact ret
    · exact ret
    · exact findFrom_extends e _ ret

theorem sent_found (inv : Exploring tgt s) {front}
    (leads : LeadsTo g start s c.path tgt c.depth front) :
    Found g start tgt { s with resultChan := s.resultChan ++ [(c.path, c.depth)] } := by
  refine ⟨c.path, c.depth, ?_, ?_, ?_⟩
  · rw [inv.silent]
    rfl
  · have fresh : tgt ∉ front := fun mem => inv.missed (leads.visited _ mem)
    rw [leads.contents]
    refine ⟨leads.first, getLast?_concat, leads.chain, ?_⟩
    rw [← concat_eq_append]
    exact leads.nodup.concat fresh
  · rw [leads.contents, length_append, length_singleton, leads.depth]

structure Ranging (graph : Graph) (start target : String) (depth : Nat) (c : Call)
    (front : List String) (t : Search) : Prop where
  exploring : Exploring target t
  leads : LeadsTo graph start t c.path c.nodeID c.depth front
  here : c.nodeID ∈ t.visited
  fresh : c.nodeID ∉ front
  deep : t.left graph < depth

variable {depth : Nat} {call : Call → Search → Option (Bool × Search)} {front : List String}

theorem rangeEdge_returns (cs : Calls g start tgt depth call) {e}
    (stored : Stored g c.nodeID e.to_) (ranging : Ranging g start tgt depth c front t) :
    Returns (Found g start tgt) (fun u => Ranging g start tgt depth c front u ∧
        (t.Grows g u ∧ t.memory.Frame u.memory c.path) ∧ e.to_ ∈ u.visited)
      (rangeEdge spare call c.path c.depth e t) := by
  obtain ⟨inv, leads, here, fresh, deep⟩ := ranging
  have next : LeadsTo g start { t with memory := (t.memory.append c.path [e.to_] (spare c.path)).1 }
      (t.memory.append c.path [e.to_] (spare c.path)).2 e.to_ (c.depth + 1)
      (front ++ [c.nodeID]) := by
    refine ⟨?_, ?_, ?_, ?_, ?_, ?_, allocated_append leads.allocated _ _⟩
    · rw [contents_append, leads.contents]
    · rw [head?_append, leads.first]
      rfl
    · refine isChain_append.mpr ⟨leads.chain, isChain_singleton _, ?_⟩
      intro last mem x head
      rw [getLast?_concat, mem_some_iff] at mem
      rw [head?_cons, mem_some_iff] at head
      exact mem ▸ head ▸ stored
    · exact forall_mem_snoc leads.visited here
    · rw [← concat_eq_append]
      exact leads.nodup.concat fresh
    · rw [length_append, length_singleton, leads.depth]
  have still : Exploring tgt
      { t with memory := (t.memory.append c.path [e.to_] (spare c.path)).1 } :=
    ⟨inv.silent, inv.missed⟩
  refine (cs ⟨e.to_, _, c.depth + 1⟩ _ _ still next deep).mono (fun _ hit => hit) fun u failed => ?_
  have kept : t.memory.Frame u.memory c.path := failed.frame.of_append
  have grown : t.Grows g u := ⟨failed.grows.more, failed.grows.closed⟩
  refine ⟨⟨failed.exploring, ?_, grown.more _ here, fresh, ?_⟩, ⟨grown, kept⟩, failed.here⟩
  · exact { leads with
      contents := by rw [kept.self leads.allocated, leads.contents]
      visited := fun n mem => grown.more n (leads.visited n mem)
      allocated := Nat.lt_of_lt_of_le leads.allocated kept.next }
  · exact Nat.lt_of_le_of_lt (unvisited_le grown.more) deep

theorem rangeEdges_returns (good : g.Searchable) (ord : Ordered g order)
    (cs : Calls g start tgt depth call) (inv : Exploring tgt t)
    (leads : LeadsTo g start t c.path c.nodeID c.depth front) (here : c.nodeID ∈ t.visited)
    (fresh : c.nodeID ∉ front) (deep : c.nodeID ∈ g.nodes → t.left g < depth) :
    Returns (Found g start tgt)
      (fun u => Failed g tgt c t u ∧ ∀ m, Stored g c.nodeID m → m ∈ u.visited)
      (rangeEdges g order spare call c t) := by
  unfold rangeEdges
  cases lookup : g.nodes.lookup c.nodeID with
  | none =>
    refine ⟨false, t, rfl, ⟨inv, .refl t, here, .refl _ _⟩, fun m stored => ?_⟩
    exact absurd (good.sources _ m stored) (lookup_eq_none.mp lookup)
  | some n =>
    refine Returns.mono (findFrom_returns (Ranging g start tgt depth c front)
      (fun t u => t.Grows g u ∧ t.memory.Frame u.memory c.path)
      (fun e u => e.to_ ∈ u.visited) (fun t => ⟨.refl t, .refl _ _⟩)
      (fun _ _ _ x y => ⟨x.1.trans y.1, x.2.trans y.2⟩)
      (fun _ _ _ dealt grows => grows.1.more _ dealt)
      (fun e met t ranging =>
        rangeEdge_returns cs (good.stored_of_ranged lookup met) ranging)
      ⟨inv, leads, here, fresh, deep (mem_of_lookup_eq_some lookup)⟩)
      (fun _ hit => hit) fun u ⟨ranging, ⟨grows, frame⟩, dealt⟩ => ?_
    refine ⟨⟨ranging.exploring, grows, ranging.here, frame⟩, fun m stored => ?_⟩
    obtain ⟨e, met, rfl⟩ := good.exists_ranged lookup (ord _ n lookup) stored
    exact dealt e met

variable (spare tgt) in
/-- A call of dfs returns if the recursion may go deeper than there are stored nodes left. -/
theorem dfs_returns (good : g.Searchable) (ord : Ordered g order) (depth : Nat) :
    Calls g start tgt depth (dfs g order spare tgt depth) := by
  induction depth with
  | zero => exact fun c s front _ _ deep => absurd deep (Nat.not_lt_zero _)
  | succ depth ih =>
    intro c s front inv leads deep
    change Returns _ _ (dfsBody g order spare tgt (dfs g order spare tgt depth) c s)
    unfold dfsBody
    split
    next here =>
      rw [if_pos (by rw [inv.silent]; decide)]
      exact ⟨true, _, rfl, sent_found inv (here ▸ leads)⟩
    next elsewhere =>
      split
      next old =>
        exact ⟨false, s, rfl, inv, .refl s, old, .refl _ _⟩
      next new =>
        have entered : ∀ n ∈ s.visited, n ∈ (s.visit c.nodeID).visited :=
          fun n mem => mem_insert.mpr (.inr mem)
        have here : c.nodeID ∈ (s.visit c.nodeID).visited := mem_insert.mpr (.inl rfl)
        have still : Exploring tgt (s.visit c.nodeID) := by
          refine ⟨inv.silent, ?_⟩
          rw [Search.visit, mem_insert, not_or]
          exact ⟨Ne.symm elsewhere, inv.missed⟩
        have led : LeadsTo g start (s.visit c.nodeID) c.path c.nodeID c.depth front :=
          { leads with visited := fun n mem => entered n (leads.visited n mem) }
        have deeper : c.nodeID ∈ g.nodes → (s.visit c.nodeID).left g < depth := by
          intro stored
          have fewer : (s.visit c.nodeID).left g < s.left g :=
            unvisited_lt entered (mem_keys.mpr stored) new here
          omega
        refine Returns.mono (rangeEdges_returns good ord ih still led here
          (fun mem => new (leads.visited _ mem)) deeper) (fun _ hit => hit)
          fun t ⟨failed, neighbours⟩ => ?_
        have grows := failed.grows
        refine ⟨failed.exploring, ⟨fun n mem => grows.more n (entered n mem), ?_⟩,
          failed.here, failed.frame⟩
        -- The node itself is new, and its neighbours have been visited in the loop.
        intro n mem unseen m stored
        by_cases own : n = c.nodeID
        · exact neighbours m (own ▸ stored)
        · refine grows.closed n mem ?_ m stored
          rw [Search.visit, mem_insert, not_or]
          exact ⟨own, unseen⟩

theorem visited_of_reach (closed : ∀ n ∈ t.visited, ∀ m, Stored g n m → m ∈ t.visited)
    (x : start ∈ t.visited) {n} (path : ReflTransGen (Stored g) start n) : n ∈ t.visited := by
  induction path with
  | refl => exact x
  | tail _ stored ih => exact closed _ ih _ stored

end

/-- On a graph that any interleaving of AddNode and AddEdge has built, in any order of the loops
over out-edges and with any growth of the slices, DFS returns a result exactly when there is a way
from the start to the target, and its path is one that repeats no node. -/
theorem dfs_finds_path_iff {C : Type} [DecidableEq C] {events : List (Event C)} {s : State C}
    (built : exec step (init C newLockFreeGraph) events = some s) (quiet : Quiet s)
    (start target : String) {order : String → List String} (ordered : Ordered s.graph order)
    (spare : Slice → Nat) :
    ∃ result,
      (∀ depth, s.graph.nodes.len < depth →
        search s.graph order spare target start depth = some result) ∧
      (result.isSome = true ↔ target = start ∨ TransGen (Stored s.graph) start target) ∧
      ∀ found, result = some found →
        found.path.head? = some start ∧ found.path.getLast? = some target ∧
          found.path.IsChain (Stored s.graph) ∧ found.path.Nodup ∧
          found.distance = found.path.length - 1 := by
  have searchable := reached_searchable built quiet
  have leads : LeadsTo s.graph start ⟨∅, (Memory.blank.allocate [start] 0).1, []⟩
      (Memory.blank.allocate [start] 0).2 start 0 [] := by
    refine ⟨contents_allocate _ _ _, rfl, isChain_singleton _, by simp, nodup_nil, rfl,
      Nat.lt_succ_self _⟩
  obtain ⟨found, t, returned, outcome⟩ := dfs_returns spare target searchable ordered
    (s.graph.nodes.len + 1) ⟨start, (Memory.blank.allocate [start] 0).2, 0⟩ _ []
    ⟨rfl, notMem_empty⟩ leads (Nat.lt_succ_of_le (unvisited_le_card _ _))
  refine ⟨t.resultChan.head?.map fun sent => ⟨t.memory.contents sent.1, sent.2⟩, ?_, ?_⟩
  · intro depth deep
    have same := unroll_extends (dfsBody_monotone _ _ _ _) deep _ _ _ returned
    unfold search dfs
    dsimp only
    rw [same]
    rfl
  · rw [← Relation.reflTransGen_iff_eq_or_transGen]
    cases found with
    | true =>
      obtain ⟨path, distance, sent, isPath, length⟩ := outcome
      rw [sent]
      refine ⟨⟨fun _ => ?_, fun _ => rfl⟩, ?_⟩
      · exact reach_of_isChain isPath.chain isPath.first (mem_of_getLast? isPath.last)
      · rintro result ⟨⟩
        exact ⟨isPath.first, isPath.last, isPath.chain, isPath.nodup, by simp [length]⟩
    | false =>
      obtain ⟨exploring, grows, first, -⟩ := outcome
      rw [exploring.silent]
      refine ⟨⟨nofun, fun path => ?_⟩, nofun⟩
      have closed : ∀ n ∈ t.visited, ∀ m, Stored s.graph n m → m ∈ t.visited :=
        fun n member => grows.closed n member notMem_empty
      exact absurd (visited_of_reach closed first path) exploring.missed

/-- The way over both edges is found. -/
theorem two_edges_followed :
    ∃ s, exec step (init Bool newLockFreeGraph) twoEdges = some s ∧ Quiet s ∧
      search s.graph twoEdgesOrder (fun _ => 1) "c" "a" 4 = some (some ⟨["a", "b", "c"], 2⟩) ∧
      TransGen (Stored s.graph) "a" "c" := by
  obtain ⟨s, run, first, second, len, ranges, returned⟩ : ∃ s,
      exec step (init Bool newLockFreeGraph) twoEdges = some s ∧ s.phase false = .returned ∧
      s.phase true = .returned ∧ s.graph.nodes.len = 3 ∧
      (∀ n ∈ s.graph.nodes.keys, ∀ node ∈ s.graph.nodes.lookup n,
        GoMap.Ranges (twoEdgesOrder n) node.outEdges) ∧
      search s.graph twoEdgesOrder (fun _ => 1) "c" "a" 4 = some (some ⟨["a", "b", "c"], 2⟩) :=
    ⟨_, rfl, rfl, rfl, by decide, by decide, by decide⟩
  have quiet := quiet_of_both first second
  have ordered : Ordered s.graph twoEdgesOrder := by
    intro n node found
    exact ranges n (mem_keys.mpr (mem_of_lookup_eq_some found)) node found
  refine ⟨s, run, quiet, returned, ?_⟩
  obtain ⟨result, same, reached, -⟩ :=
    dfs_finds_path_iff run quiet "a" "c" ordered (fun _ => 1)
  have isSome : result.isSome = true := by
    rw [same 4 (by omega), some.injEq] at returned
    rw [returned]
    rfl
  exact (reached.mp isSome).resolve_left (by decide)

end AsyncPractice.LockFreeGraph.DFS

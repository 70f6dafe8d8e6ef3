import Mathlib.Data.List.TakeWhile
import AsyncPractice.DepthFirst
import AsyncPractice.GoMap

/- CycleDetection of the OptimisticGraph in solution21_graph_database.go: a depth-first search with
the set of visited nodes, the recursion stack and the path to the node. -/
namespace AsyncPractice.CycleDetection

open Option DepthFirst List
open Relation (ReflTransGen TransGen)

/-- A node lists the ids of its edges. -/
structure VersionedNode where
  edges : List String

structure VersionedEdge where
  to_ : String

structure OptimisticGraph where
  nodes : GoMap String VersionedNode
  edges : GoMap String VersionedEdge

structure Search where
  visited : GoMap String Bool
  recStack : GoMap String Bool
  path : List String
  cycle : List String
  hasCycle : Bool

def newSearch : Search := ⟨∅, ∅, [], [], false⟩

def Search.isVisited (s : Search) (nodeID : String) : Bool :=
  (s.visited.lookup nodeID).getD false

def Search.onStack (s : Search) (nodeID : String) : Bool :=
  (s.recStack.lookup nodeID).getD false

def Search.enter (s : Search) (nodeID : String) : Search :=
  { s with
    visited := s.visited.insert nodeID true
    recStack := s.recStack.insert nodeID true
    path := s.path ++ [nodeID] }

def Search.leave (s : Search) (nodeID : String) : Search :=
  { s with
    recStack := s.recStack.insert nodeID false
    path := s.path.dropLast }

/-- The cycle is the path from the first place where the node is on it. -/
def Search.close (s : Search) (nodeID : String) : Search :=
  { s with
    hasCycle := true
    cycle := if nodeID ∈ s.path then s.path.dropWhile (· ≠ nodeID) else s.cycle }

def followEdge (og : OptimisticGraph) (call : String → Search → Option (Bool × Search))
    (edgeID : String) (s : Search) : Option (Bool × Search) :=
  match og.edges.lookup edgeID with
  | none => some (false, s)
  | some edge =>
    if s.isVisited edge.to_ = false then call edge.to_ s
    else if s.onStack edge.to_ then some (true, s.close edge.to_)
    else some (false, s)

def followEdges (og : OptimisticGraph) (call : String → Search → Option (Bool × Search))
    (nodeID : String) (s : Search) : Option (Bool × Search) :=
  match og.nodes.lookup nodeID with
  | none => some (false, s)
  | some node => findFrom (followEdge og call) node.edges s

def dfsBody (og : OptimisticGraph) (call : String → Search → Option (Bool × Search))
    (nodeID : String) (s : Search) : Option (Bool × Search) :=
  (followEdges og call nodeID (s.enter nodeID)).map fun (found, s) =>
    if found then (true, s) else (false, s.leave nodeID)

def dfs (og : OptimisticGraph) (depth : Nat) : String → Search → Option (Bool × Search) :=
  unroll (dfsBody og) depth

/-- The result if the recursion goes no deeper than `depth`. -/
def cycleDetection (og : OptimisticGraph) (start : String) (depth : Nat) :
    Option (Bool × List String) :=
  (dfs og depth start newSearch).map fun (_, s) => (s.hasCycle, s.cycle)

def Links (og : OptimisticGraph) (source target : String) : Prop :=
  ∃ node id edge, og.nodes.lookup source = some node ∧ id ∈ node.edges ∧
    og.edges.lookup id = some edge ∧ edge.to_ = target

/-- Each node lists an edge to the next one and the last to the first. -/
def IsCycle (og : OptimisticGraph) (cycle : List String) : Prop :=
  cycle.IsChain (Links og) ∧
    ∃ first last, cycle.head? = some first ∧ cycle.getLast? = some last ∧ Links og last first

theorem dfsBody_monotone (og) : Monotone (dfsBody og) := by
  intro x y more nodeID s res ret
  have e : Extends (followEdge og x) (followEdge og y) := by
    intro edgeID s res followed
    unfold followEdge at followed ⊢
    grind [Extends]
  obtain ⟨after, followed, rfl⟩ := map_eq_some_iff.mp ret
  refine map_eq_some_iff.mpr ⟨after, ?_, rfl⟩
  unfold followEdges at followed ⊢
  cases stored : og.nodes.lookup nodeID with
  | none => rwa [stored] at followed
  | some n =>
    rw [stored] at followed
    exact findFrom_extends e _ followed

section

variable (s : Search) (n x : String)

theorem isVisited_enter :
    (s.enter n).isVisited x = (decide (x = n) || s.isVisited x) := by
  unfold Search.enter Search.isVisited
  rw [GoMap.lookup_insert_ite]
  by_cases same : x = n <;> simp [same]

theorem onStack_enter : (s.enter n).onStack x = (decide (x = n) || s.onStack x) := by
  unfold Search.enter Search.onStack
  rw [GoMap.lookup_insert_ite]
  by_cases same : x = n <;> simp [same]

theorem onStack_leave : (s.leave n).onStack x = (decide (x ≠ n) && s.onStack x) := by
  unfold Search.leave Search.onStack
  rw [GoMap.lookup_insert_ite]
  by_cases same : x = n <;> simp [same]

end

/-- No cycle has been found yet. The nodes of the path are those on the stack, and every other
visited node is done with: no infinite path begins there. -/
structure Exploring (og : OptimisticGraph) (s : Search) : Prop where
  unclosed : s.hasCycle = false
  stack : ∀ n, s.onStack n = true ↔ n ∈ s.path
  visited : ∀ n ∈ s.path, s.isVisited n = true
  settled : ∀ n, s.isVisited n = true → n ∈ s.path ∨ Ends (Links og) n
  chain : s.path.IsChain (Links og)

/-- The search has followed its path from `front` on and come back to it. -/
structure Closed (og : OptimisticGraph) (front : List String) (s : Search) : Prop where
  hasCycle : s.hasCycle = true
  front : front <+: s.path
  chain : s.path.IsChain (Links og)
  member : ∀ n ∈ s.cycle, n ∈ s.path
  cycle : IsCycle og s.cycle

def Search.Grows (s t : Search) : Prop := ∀ n, s.isVisited n = true → t.isVisited n = true

/-- How many stored nodes are left to visit. -/
def Search.left (og : OptimisticGraph) (s : Search) : Nat :=
  unvisited og.nodes.keys (fun n => s.isVisited n = true)

section

variable {og : OptimisticGraph} {s t : Search} {nodeID : String}

theorem newSearch_exploring : Exploring og newSearch := by
  refine ⟨rfl, ?_, ?_, ?_, isChain_nil⟩
  · intro n
    simp [newSearch, Search.onStack]
  · intro n mem
    cases mem
  · intro n visited
    simp [newSearch, Search.isVisited] at visited

theorem Exploring.enter (inv : Exploring og s)
    (next : ∀ last ∈ s.path.getLast?, Links og last nodeID) : Exploring og (s.enter nodeID) := by
  refine ⟨inv.unclosed, ?_, ?_, ?_, ?_⟩
  · intro n
    rw [onStack_enter, Bool.or_eq_true, decide_eq_true_iff, inv.stack, or_comm]
    simp [Search.enter]
  · intro n mem
    rw [isVisited_enter, Bool.or_eq_true, decide_eq_true_iff]
    rcases mem_append.mp mem with before | here
    · exact .inr (inv.visited n before)
    · exact .inl (mem_singleton.mp here)
  · intro n visited
    rw [isVisited_enter, Bool.or_eq_true, decide_eq_true_iff] at visited
    rcases visited with rfl | before
    · exact .inl (by simp [Search.enter])
    · rcases inv.settled n before with mem | ends
      · exact .inl (mem_append_left _ mem)
      · exact .inr ends
  · refine isChain_append.mpr ⟨inv.chain, isChain_singleton nodeID, ?_⟩
    intro last mem x head
    rw [head?_cons, mem_some_iff] at head
    exact head ▸ next last mem

theorem Exploring.leave (inv : Exploring og t) (path : t.path = s.path ++ [nodeID])
    (new : nodeID ∉ s.path) (ends : Ends (Links og) nodeID) :
    Exploring og (t.leave nodeID) ∧ (t.leave nodeID).path = s.path := by
  have shorter : (t.leave nodeID).path = s.path := by
    unfold Search.leave
    rw [path, dropLast_concat]
  refine ⟨⟨inv.unclosed, ?_, ?_, ?_, ?_⟩, shorter⟩
  · intro n
    rw [onStack_leave, Bool.and_eq_true, decide_eq_true_iff, inv.stack, shorter, path,
      mem_append, mem_singleton]
    constructor
    · rintro ⟨ne, mem | eq⟩
      · exact mem
      · exact absurd eq ne
    · intro mem
      refine ⟨?_, .inl mem⟩
      rintro rfl
      exact new mem
  · intro n mem
    rw [shorter] at mem
    exact inv.visited n (path ▸ mem_append_left _ mem)
  · intro n visited
    rw [shorter]
    rcases inv.settled n visited with mem | done
    · rw [path, mem_append, mem_singleton] at mem
      rcases mem with before | rfl
      · exact .inl before
      · exact .inr ends
    · exact .inr done
  · rw [shorter]
    have chain := inv.chain
    rw [path] at chain
    exact (isChain_append.mp chain).1

theorem Exploring.close (inv : Exploring og t) {last tgt}
    (ended : t.path.getLast? = some last) (back : t.onStack tgt = true)
    (link : Links og last tgt) : Closed og t.path (t.close tgt) := by
  have mem : tgt ∈ t.path := (inv.stack tgt).mp back
  have cycle : (t.close tgt).cycle = t.path.dropWhile (· ≠ tgt) := if_pos mem
  have suffix : t.path.dropWhile (· ≠ tgt) <:+ t.path := dropWhile_suffix _
  have ne : t.path.dropWhile (· ≠ tgt) ≠ [] := by
    intro empty
    rw [dropWhile_eq_nil_iff] at empty
    simpa using empty tgt mem
  have x : (t.path.dropWhile (· ≠ tgt)).head? = some tgt := by
    have halt := head?_dropWhile_not (· ≠ tgt) t.path
    rw [head?_eq_some_head ne] at halt ⊢
    simpa using halt
  refine ⟨rfl, prefix_rfl, inv.chain, ?_, ?_⟩
  · intro n listed
    rw [cycle] at listed
    exact suffix.subset listed
  · rw [IsCycle, cycle]
    refine ⟨inv.chain.suffix suffix, tgt, last, x, ?_, link⟩
    obtain ⟨front, split⟩ := suffix
    rw [← split, getLast?_append_of_ne_nil _ ne] at ended
    exact ended

end

structure Failed (og : OptimisticGraph) (nodeID : String) (s t : Search) : Prop where
  exploring : Exploring og t
  path : t.path = s.path
  grows : s.Grows t
  ends : Ends (Links og) nodeID

/-- What the calls of dfs at new nodes that the path leads to return. -/
def Calls (og : OptimisticGraph) (depth : Nat) (call : String → Search → Option (Bool × Search)) :
    Prop :=
  ∀ n s, Exploring og s → s.isVisited n = false →
    (∀ last ∈ s.path.getLast?, Links og last n) → s.left og < depth →
    Returns (Closed og (s.path ++ [n])) (Failed og n s) (call n s)

section

variable {og : OptimisticGraph} {depth : Nat} {s : Search} {nodeID : String}
  {c : String → Search → Option (Bool × Search)}

/-- The state of the loop over the edges of a node. -/
structure Ranging (og : OptimisticGraph) (depth : Nat) (path : List String) (t : Search) :
    Prop where
  exploring : Exploring og t
  path : t.path = path
  deep : t.left og < depth

variable {path : List String}

theorem followEdge_returns (cs : Calls og depth c) {n edgeID}
    (stored : og.nodes.lookup nodeID = some n) (listed : edgeID ∈ n.edges) {t}
    (ranging : Ranging og depth (path ++ [nodeID]) t) :
    Returns (Closed og (path ++ [nodeID]))
      (fun u => Ranging og depth (path ++ [nodeID]) u ∧ t.Grows u ∧
        ∀ e ∈ og.edges.lookup edgeID, Ends (Links og) e.to_)
      (followEdge og c edgeID t) := by
  obtain ⟨inv, here, deep⟩ := ranging
  unfold followEdge
  cases hit : og.edges.lookup edgeID with
  | none => exact ⟨false, t, rfl, ⟨inv, here, deep⟩, fun _ seen => seen, nofun⟩
  | some e =>
    have link : Links og nodeID e.to_ := ⟨n, edgeID, e, stored, listed, hit, rfl⟩
    have ended : t.path.getLast? = some nodeID := by rw [here, getLast?_concat]
    simp only [mem_some_iff, forall_eq']
    split
    next new =>
      have next : ∀ last ∈ t.path.getLast?, Links og last e.to_ := by
        intro last mem
        rw [ended, mem_some_iff] at mem
        exact mem ▸ link
      refine (cs e.to_ t inv new next deep).mono ?_ ?_
      · intro u closed
        exact { closed with front := here ▸ (prefix_append _ _).trans closed.front }
      · intro u failed
        exact ⟨⟨failed.exploring, failed.path.trans here,
          Nat.lt_of_le_of_lt (unvisited_le failed.grows) deep⟩, failed.grows, failed.ends⟩
    next old =>
      split
      next back =>
        exact ⟨true, t.close e.to_, rfl, here ▸ inv.close ended back link⟩
      next off =>
        refine ⟨false, t, rfl, ⟨inv, here, deep⟩, fun _ seen => seen, ?_⟩
        have seen : t.isVisited e.to_ = true := by simpa using old
        refine (inv.settled _ seen).resolve_left fun mem => ?_
        exact off ((inv.stack _).mpr mem)

theorem followEdges_returns (cs : Calls og depth c) (deep : nodeID ∈ og.nodes → s.left og < depth)
    (inv : Exploring og s) (here : s.path = path ++ [nodeID]) :
    Returns (Closed og (path ++ [nodeID])) (Failed og nodeID s) (followEdges og c nodeID s) := by
  unfold followEdges
  cases stored : og.nodes.lookup nodeID with
  | none =>
    refine ⟨false, s, rfl, inv, rfl, fun _ seen => seen, ?_⟩
    -- A node that is not stored has no edges.
    refine Acc.intro _ fun tgt link => ?_
    obtain ⟨node, _, _, hit, _⟩ := link
    rw [stored] at hit
    cases hit
  | some node =>
    have looped := findFrom_returns (Ranging og depth (path ++ [nodeID])) Search.Grows
      (fun edgeID _ => ∀ e ∈ og.edges.lookup edgeID, Ends (Links og) e.to_)
      (fun _ _ seen => seen) (fun _ _ _ x y n seen => y n (x n seen))
      (fun _ _ _ dealt _ => dealt)
      (fun edgeID listed t ranging => followEdge_returns cs stored listed ranging)
      ⟨inv, here, deep (Finmap.mem_of_lookup_eq_some stored)⟩
    refine looped.mono (fun _ closed => closed) fun t ⟨⟨kept, eq, _⟩, grows, dealt⟩ => ?_
    refine ⟨kept, eq.trans here.symm, grows, Acc.intro _ fun tgt link => ?_⟩
    obtain ⟨other, id, e, hit, listed, found, rfl⟩ := link
    rw [stored, some.injEq] at hit
    exact dealt id (hit ▸ listed) e found

end

/-- A call of dfs returns if the recursion may go deeper than there are stored nodes left. -/
theorem dfs_returns (og depth) : Calls og depth (dfs og depth) := by
  induction depth with
  | zero => exact fun n s _ _ _ deep => absurd deep (Nat.not_lt_zero _)
  | succ depth ih =>
    intro nodeID s inv new next deep
    have entered : s.Grows (s.enter nodeID) := by
      intro n seen
      rw [isVisited_enter, seen, Bool.or_true]
    have deeper : nodeID ∈ og.nodes → (s.enter nodeID).left og < depth := by
      intro stored
      have fewer : (s.enter nodeID).left og < s.left og := by
        refine unvisited_lt entered (Finmap.mem_keys.mpr stored) ?_ ?_
        · simp [new]
        · rw [isVisited_enter, decide_eq_true rfl, Bool.true_or]
      omega
    have off : nodeID ∉ s.path := by
      intro mem
      rw [inv.visited nodeID mem] at new
      cases new
    obtain ⟨hit, t, followed, out⟩ := followEdges_returns ih deeper (inv.enter next) rfl
    change Returns _ _ (dfsBody og (dfs og depth) nodeID s)
    unfold dfsBody
    rw [followed, Option.map_some]
    cases hit with
    | true => exact ⟨true, t, rfl, out⟩
    | false =>
      obtain ⟨left, shorter⟩ := out.exploring.leave out.path off out.ends
      exact ⟨false, t.leave nodeID, rfl, left, shorter,
        fun n seen => out.grows n (entered n seen), out.ends⟩

/-- CycleDetection returns, and returns true exactly when a cycle can be reached from the start;
what it returns then is a cycle. -/
theorem cycleDetection_exact (og : OptimisticGraph) (start : String) :
    ∃ hasCycle cycle,
      (∀ depth, og.nodes.len < depth → cycleDetection og start depth = some (hasCycle, cycle)) ∧
      (hasCycle = true ↔ ∃ n, ReflTransGen (Links og) start n ∧ TransGen (Links og) n n) ∧
      (hasCycle = true → IsCycle og cycle) := by
  obtain ⟨found, t, returned, outcome⟩ := dfs_returns og (og.nodes.len + 1) start newSearch
    newSearch_exploring (by simp [newSearch, Search.isVisited]) (by simp [newSearch])
    (Nat.lt_succ_of_le (unvisited_le_card _ _))
  refine ⟨t.hasCycle, t.cycle, ?_, ?_⟩
  · intro depth deep
    have same := unroll_extends (dfsBody_monotone og) deep start newSearch _ returned
    rw [cycleDetection, dfs, same]
    rfl
  · cases found with
    | true =>
      obtain ⟨hasCycle, front, chain, member, cycle⟩ := outcome
      refine ⟨⟨fun _ => ?_, fun _ => hasCycle⟩, fun _ => cycle⟩
      obtain ⟨looped, first, last, head, ended, link⟩ := cycle
      have start : t.path.head? = some start := by
        obtain ⟨rest, split⟩ := front
        rw [← split]
        rfl
      refine ⟨first, ?_, ?_⟩
      · exact reach_of_isChain chain start (member first (mem_of_mem_head? head))
      · exact TransGen.tail' (reach_of_isChain looped head (mem_of_getLast? ended)) link
    | false =>
      obtain ⟨exploring, -, -, ends⟩ := outcome
      rw [exploring.unclosed]
      refine ⟨⟨nofun, ?_⟩, nofun⟩
      rintro ⟨n, path, cycle⟩
      exact absurd cycle (ends.reach path).not_cycle

/-- Node a leads to the cycle of b and c; one edge of a is dangling and one leads nowhere. -/
example :
    cycleDetection
      ⟨(((∅ : GoMap String VersionedNode).insert "a" ⟨["gone", "ad", "ab"]⟩).insert "b"
          ⟨["bc"]⟩).insert "c" ⟨["cb"]⟩,
        ((((∅ : GoMap String VersionedEdge).insert "ad" ⟨"d"⟩).insert "ab" ⟨"b"⟩).insert "bc"
          ⟨"c"⟩).insert "cb" ⟨"b"⟩⟩ "a" 4 = some (true, ["b", "c"]) := by
  decide

end AsyncPractice.CycleDetection

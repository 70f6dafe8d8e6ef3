import AsyncPractice.PartitionedGraph
import AsyncPractice.Pool

/- ParallelTraversal of solution21_graph_database.go. Every visit of a node is a goroutine; the
entry into the set of visited nodes, the append to the results, the read of the node and the look
at each of its edges are steps of their own, and the goroutines interleave between them. -/
namespace AsyncPractice.PartitionedGraph

open Option Finmap List Runs
open Relation (ReflTransGen)

inductive Visit
  | enter (nodeID : String) (partID : Nat)
  | append (nodeID : String) (partID : Nat)
  | read (nodeID : String) (partID : Nat)
  | follow (nodeID : String) (partID : Nat) (edges : List String)
  | done

structure Traversal where
  visited : GoMap String Bool
  results : List String
  goroutines : List Visit

/-- The first goroutine, on the graph that knows a partition for the start. -/
def parallelTraversal (pg : Graph) (start : String) : Option (Graph × Traversal) :=
  (getPartition pg start).map fun (pg, startPart) => (pg, ⟨∅, [], [.enter start startPart]⟩)

def Traversal.move (t : Traversal) (i : Nat) (visit : Visit) (spawned : List Visit) : Traversal :=
  { t with goroutines := t.goroutines.set i visit ++ spawned }

def advance (pg : Graph) (t : Traversal) (i : Nat) : Option Traversal :=
  t.goroutines[i]?.bind fun
    | .enter nodeID partID =>
      if (t.visited.lookup nodeID).isSome then some (t.move i .done [])
      else some { t.move i (.append nodeID partID) [] with
        visited := t.visited.insert nodeID true }
    | .append nodeID partID =>
      some { t.move i (.read nodeID partID) [] with results := t.results ++ [nodeID] }
    | .read nodeID partID =>
      pg.partitions[partID]?.map fun partition =>
        match partition.nodes.lookup nodeID with
        | none => t.move i .done []
        | some node => t.move i (.follow nodeID partID node.edges) []
    | .follow _ _ [] => some (t.move i .done [])
    | .follow nodeID partID (edgeID :: edges) =>
      pg.partitions[partID]?.map fun partition =>
        t.move i (.follow nodeID partID edges)
          (match partition.edges.lookup edgeID with
            | none => []
            | some edge => [.enter edge.to_ edge.toPart])
    | .done => none

def Finished (t : Traversal) : Prop := ∀ visit ∈ t.goroutines, visit = .done

/-- The goroutine will come to the target of the edge, or to the edge. -/
def Pending (source id target : String) : Visit → Prop
  | .enter nodeID _ => nodeID = target
  | .append nodeID _ | .read nodeID _ => nodeID = source
  | .follow nodeID _ edges => nodeID = source ∧ id ∈ edges
  | .done => False

def Sound (pg : Graph) (start : String) : Visit → Prop
  | .enter nodeID partID | .append nodeID partID | .read nodeID partID =>
    pg.router.nodeMap.lookup nodeID = some partID ∧ ReflTransGen (Links pg) start nodeID
  | .follow nodeID partID edges =>
    pg.router.nodeMap.lookup nodeID = some partID ∧ ReflTransGen (Links pg) start nodeID ∧
      ∃ node, pg.nodeAt partID nodeID = some node ∧ ∀ id ∈ edges, id ∈ node.edges
  | .done => True

def appends (nodeID : String) : Visit → Bool
  | .append other _ => other = nodeID
  | _ => false

structure Progress (pg : Graph) (start : String) (t : Traversal) : Prop where
  once : ∀ nodeID, t.results.count nodeID + t.goroutines.countP (appends nodeID) =
    if nodeID ∈ t.visited then 1 else 0
  sound : ∀ visit ∈ t.goroutines, Sound pg start visit
  reached : ∀ nodeID ∈ t.visited, ReflTransGen (Links pg) start nodeID
  started : start ∈ t.visited ∨ ∃ part, Visit.enter start part ∈ t.goroutines
  closed : ∀ source ∈ t.visited, ∀ part node id edge, pg.nodeAt part source = some node →
    id ∈ node.edges → pg.edgeAt part id = some edge →
    edge.to_ ∈ t.visited ∨ ∃ visit ∈ t.goroutines, Pending source id edge.to_ visit

section

variable {pg : Graph} {start : String} {t : Traversal} {i : Nat} {old new : Visit}
  {spawned : List Visit} {visited : GoMap String Bool} {results : List String}

/-- What a step of a goroutine must do to keep the traversal on its way. -/
structure Keeps (pg : Graph) (start : String) (t : Traversal) (old new : Visit)
    (spawned : List Visit) (visited : GoMap String Bool) (results : List String) : Prop where
  once : ∀ nodeID, results.count nodeID + (if appends nodeID new then 1 else 0) +
      spawned.countP (appends nodeID) + (if nodeID ∈ t.visited then 1 else 0) =
    t.results.count nodeID + (if appends nodeID old then 1 else 0) +
      if nodeID ∈ visited then 1 else 0
  sound : Sound pg start new ∧ ∀ visit ∈ spawned, Sound pg start visit
  grows : ∀ nodeID ∈ t.visited, nodeID ∈ visited
  reached : ∀ nodeID ∈ visited, nodeID ∈ t.visited ∨
    ReflTransGen (Links pg) start nodeID ∧ ∃ part, new = .append nodeID part
  entered : ∀ nodeID part, old = .enter nodeID part → nodeID ∈ visited
  pending : ∀ source part node id edge, pg.nodeAt part source = some node →
    id ∈ node.edges → pg.edgeAt part id = some edge → Pending source id edge.to_ old →
    edge.to_ ∈ visited ∨ Pending source id edge.to_ new ∨
      ∃ visit ∈ spawned, Pending source id edge.to_ visit

theorem Progress.keep (inv : Progress pg start t) (here : t.goroutines[i]? = some old)
    (keeps : Keeps pg start t old new spawned visited results) :
    Progress pg start ⟨visited, results, t.goroutines.set i new ++ spawned⟩ where
  once := by
    intro n
    have pre := inv.once n
    have step := keeps.once n
    have moved := Pool.countP_moved here new spawned (appends n)
    dsimp only
    omega
  sound := by
    intro visit mem
    rcases Pool.mem_cases mem with kept | rfl | begun
    · exact inv.sound visit kept
    · exact keeps.sound.1
    · exact keeps.sound.2 visit begun
  reached := by
    intro n mem
    rcases keeps.reached n mem with pre | ⟨now, -⟩
    · exact inv.reached n pre
    · exact now
  started := by
    rcases inv.started with mem | ⟨part, wait⟩
    · exact .inl (keeps.grows start mem)
    · by_cases moved : Visit.enter start part = old
      · exact .inl (keeps.entered start part moved.symm)
      · exact .inr ⟨part, mem_append_left _ (Pool.mem_of_ne here wait moved)⟩
  closed := by
    intro src mem part node id e hit listed found
    rcases keeps.reached src mem with pre | ⟨-, own, rfl⟩
    · rcases inv.closed src pre part node id e hit listed found with
        already | wait
      · exact .inl (keeps.grows _ already)
      · by_cases visitedNow : e.to_ ∈ visited
        · exact .inl visitedNow
        · right
          apply Pool.exists_moved here wait
          intro pending
          exact (keeps.pending src part node id e hit listed found pending).resolve_left visitedNow
    -- A node that has just been entered has all its edges before it.
    · exact .inr ⟨_, mem_append_left _ (Pool.mem_moved here), rfl⟩

theorem Keeps.of_same (unlisted : ∀ n, appends n old = false ∧ appends n new = false ∧
      ∀ visit ∈ spawned, appends n visit = false)
    (inv : Sound pg start new ∧ ∀ visit ∈ spawned, Sound pg start visit)
    (entered : ∀ n part, old = .enter n part → n ∈ t.visited)
    (pending : ∀ source part node id edge, pg.nodeAt part source = some node →
      id ∈ node.edges → pg.edgeAt part id = some edge → Pending source id edge.to_ old →
      edge.to_ ∈ t.visited ∨ Pending source id edge.to_ new ∨
        ∃ visit ∈ spawned, Pending source id edge.to_ visit) :
    Keeps pg start t old new spawned t.visited t.results where
  once := by
    intro n
    obtain ⟨pre, after, begun⟩ := unlisted n
    have none : spawned.countP (appends n) = 0 := by
      rw [countP_eq_zero]
      intro visit mem
      rw [begun visit mem]
      exact Bool.false_ne_true
    simp [pre, after, none]
  sound := inv
  grows := fun _ mem => mem
  reached := fun _ mem => .inl mem
  entered := entered
  pending := pending

variable {n : String} {partID : Nat}

theorem Keeps.enter (own : Sound pg start (.enter n partID)) (new : n ∉ t.visited) :
    Keeps pg start t (.enter n partID) (.append n partID) []
      (t.visited.insert n true) t.results where
  once := by
    intro x
    by_cases eq : x = n
    · subst eq
      simp [appends, new]
    · have ne : n ≠ x := Ne.symm eq
      simp [appends, eq, ne]
  sound := ⟨own, by simp⟩
  grows := fun x mem => mem_insert.mpr (.inr mem)
  reached := by
    intro x mem
    rcases mem_insert.mp mem with rfl | before
    · exact .inr ⟨own.2, partID, rfl⟩
    · exact .inl before
  entered := by
    intro x part eq
    cases eq
    exact mem_insert.mpr (.inl rfl)
  pending := by
    intro src part node id e _ _ _ pending
    exact .inl (mem_insert.mpr (.inl pending.symm))

theorem Keeps.append (own : Sound pg start (.append n partID)) :
    Keeps pg start t (.append n partID) (.read n partID) [] t.visited (t.results ++ [n]) where
  once := by
    intro x
    by_cases eq : n = x
    · simp [appends, eq]
    · simp [appends, eq]
  sound := ⟨own, by simp⟩
  grows := fun x mem => mem
  reached := fun x mem => .inl mem
  entered := by
    intro x part eq
    cases eq
  pending := by
    intro src part node id e _ _ _ pending
    exact .inr (.inl pending)

theorem advance_progress {next} (inv : Routed pg) (progress : Progress pg start t)
    (took : advance pg t i = some next) : Progress pg start next := by
  obtain ⟨old, here, took⟩ := bind_eq_some_iff.mp took
  have own := progress.sound old (mem_of_getElem? here)
  cases old with
  | enter n partID =>
    dsimp only at took
    split at took
    next seen =>
      cases took
      rw [lookup_isSome] at seen
      refine progress.keep here (Keeps.of_same ?_ ?_ ?_ ?_)
      · simp [appends]
      · exact ⟨trivial, by simp⟩
      · rintro x part eq
        cases eq
        exact seen
      · intro src part node id e _ _ _ pending
        exact .inl (pending ▸ seen)
    next new =>
      cases took
      rw [lookup_isSome] at new
      exact progress.keep here (Keeps.enter own new)
  | append n partID =>
    cases took
    exact progress.keep here (Keeps.append own)
  | read n partID =>
    obtain ⟨partition, lt, rfl⟩ := map_eq_some_iff.mp took
    -- The node is read where the router has placed it.
    have placed : ∀ part node, pg.nodeAt part n = some node →
        partition.nodes.lookup n = some node := by
      intro part node hit
      have mapped := inv.placed part n node hit
      rw [own.1, some.injEq] at mapped
      rw [← mapped, Graph.nodeAt, lt] at hit
      exact hit
    cases found : partition.nodes.lookup n with
    | none =>
      refine progress.keep here (Keeps.of_same ?_ ?_ ?_ ?_)
      · simp [appends]
      · exact ⟨trivial, by simp⟩
      · intro x part eq
        cases eq
      · rintro src part node id e hit _ _ pending
        obtain rfl : n = src := pending
        rw [placed part node hit] at found
        cases found
    | some node =>
      have hit : pg.nodeAt partID n = some node := by
        rw [Graph.nodeAt, lt]
        exact found
      refine progress.keep here (Keeps.of_same ?_ ?_ ?_ ?_)
      · simp [appends]
      · exact ⟨⟨own.1, own.2, node, hit, fun _ mem => mem⟩, by simp⟩
      · intro x part eq
        cases eq
      · rintro src part node' id e present' listed _ pending
        obtain rfl : n = src := pending
        rw [placed part node' present', some.injEq] at found
        exact .inr (.inl ⟨rfl, found ▸ listed⟩)
  | follow n partID edges =>
    obtain ⟨mapped, came, node, hit, listed⟩ := own
    cases edges with
    | nil =>
      cases took
      refine progress.keep here (Keeps.of_same ?_ ?_ ?_ ?_)
      · simp [appends]
      · exact ⟨trivial, by simp⟩
      · intro x part eq
        cases eq
      · intro src part node id e _ _ _ pending
        cases pending.2
    | cons edgeID edges =>
      obtain ⟨partition, lt, rfl⟩ := map_eq_some_iff.mp took
      have rest : Sound pg start (.follow n partID edges) :=
        ⟨mapped, came, node, hit, fun id mem => listed id (mem_cons_of_mem _ mem)⟩
      have located : pg.edgeAt partID edgeID = partition.edges.lookup edgeID := by
        rw [Graph.edgeAt, lt]
        rfl
      refine progress.keep here (Keeps.of_same ?_ ⟨rest, ?_⟩ ?_ ?_)
      · intro x
        refine ⟨rfl, rfl, ?_⟩
        intro visit mem
        split at mem
        · cases mem
        · obtain rfl := mem_singleton.mp mem
          rfl
      · intro visit mem
        split at mem
        · cases mem
        next e found =>
          obtain rfl := mem_singleton.mp mem
          rw [← located] at found
          refine ⟨inv.targets partID edgeID e found, came.tail ?_⟩
          exact ⟨partID, node, edgeID, e, hit, listed edgeID mem_cons_self, found, rfl⟩
      · intro x part eq
        cases eq
      · rintro src part node' id e present' _ found ⟨rfl, mem⟩
        rcases mem_cons.mp mem with rfl | later
        · have eq := inv.placed part n node' present'
          rw [mapped, some.injEq] at eq
          rw [← eq, located] at found
          rw [found]
          exact .inr (.inr ⟨_, mem_singleton.mpr rfl, rfl⟩)
        · exact .inr (.inl ⟨rfl, later⟩)
  | done => cases took

end

section

variable {pg next : Graph} {start : String} {t final : Traversal}

theorem start_progress {part} (look : Looked pg next start part) :
    Progress next start ⟨∅, [], [.enter start part]⟩ where
  once := by
    intro n
    have empty : n ∉ (∅ : GoMap String Bool) := notMem_empty
    simp [appends, empty]
  sound := by
    intro visit mem
    obtain rfl := mem_singleton.mp mem
    exact ⟨look.found, .refl⟩
  reached := by
    intro n mem
    cases notMem_empty mem
  started := .inr ⟨part, mem_singleton.mpr rfl⟩
  closed := by
    intro src mem
    cases notMem_empty mem

/-- When all goroutines are done, the results are the nodes that can be reached, once each. -/
theorem Progress.results (inv : Progress pg start t) (finished : Finished t) :
    t.results.Nodup ∧ ∀ n, n ∈ t.results ↔ ReflTransGen (Links pg) start n := by
  have count : ∀ n, t.results.count n = if n ∈ t.visited then 1 else 0 := by
    intro n
    have none : t.goroutines.countP (appends n) = 0 := by
      rw [countP_eq_zero]
      intro visit mem
      rw [finished visit mem]
      exact Bool.false_ne_true
    have once := inv.once n
    omega
  have visited : ∀ n, n ∈ t.results ↔ n ∈ t.visited := by
    intro n
    rw [← count_pos_iff, count]
    split <;> simp_all
  refine ⟨?_, ?_⟩
  · rw [nodup_iff_count_le_one]
    intro n
    rw [count]
    split <;> omega
  · intro n
    rw [visited]
    constructor
    · exact inv.reached n
    · intro path
      -- The visited nodes contain the start and are closed under the edges.
      induction path with
      | refl =>
        rcases inv.started with mem | ⟨part, wait⟩
        · exact mem
        · cases finished _ wait
      | tail _ link ih =>
        obtain ⟨part, node, id, e, hit, listed, found, rfl⟩ := link
        rcases inv.closed _ ih part node id e hit listed found with
          mem | ⟨visit, wait, pending⟩
        · exact mem
        · rw [finished visit wait] at pending
          cases pending

variable {i : Nat} {visit : Visit}

theorem Progress.advances (progress : Progress pg start t) (inv : Routed pg)
    (here : t.goroutines[i]? = some visit) (running : visit ≠ .done) :
    ∃ next, advance pg t i = some next := by
  have own := progress.sound visit (mem_of_getElem? here)
  have lt : ∀ n partID, pg.router.nodeMap.lookup n = some partID →
      ∃ partition, pg.partitions[partID]? = some partition := by
    intro n partID mapped
    exact ⟨_, getElem?_eq_getElem (inv.mapped n partID mapped)⟩
  unfold advance
  rw [here, Option.bind_some]
  cases visit with
  | enter n partID =>
    dsimp only
    split <;> exact ⟨_, rfl⟩
  | append n partID => exact ⟨_, rfl⟩
  | read n partID =>
    obtain ⟨partition, hit⟩ := lt n partID own.1
    dsimp only
    rw [hit]
    exact ⟨_, rfl⟩
  | follow n partID edges =>
    cases edges with
    | nil => exact ⟨_, rfl⟩
    | cons edgeID edges =>
      obtain ⟨partition, hit⟩ := lt n partID own.1
      dsimp only
      rw [hit]
      exact ⟨_, rfl⟩
  | done => exact absurd rfl running

variable {schedule : List Nat}

theorem traversal_progress (inv : Routed pg) (begun : parallelTraversal pg start = some (next, t))
    (run : exec (advance next) t schedule = some final) :
    Routed next ∧ Progress next start final ∧ ∀ src tgt, Links next src tgt ↔ Links pg src tgt := by
  obtain ⟨⟨mid, part⟩, looking, same⟩ := map_eq_some_iff.mp begun
  simp only [Prod.mk.injEq] at same
  obtain ⟨rfl, rfl⟩ := same
  have look := getPartition_looked inv looking
  refine ⟨look.routed, ?_, fun src tgt => look.links⟩
  exact exec_invariant (Progress mid start) (start_progress look)
    (fun _ _ _ held took => advance_progress look.routed held took) run

/-- However the goroutines are scheduled, none of them panics or blocks: one that is not done has
a next step. -/
theorem goroutines_advance {numPartitions} {calls : List Call}
    (distinct : (calls.filterMap edgeID).Nodup)
    (build : exec step (newPartitionedGraph numPartitions) calls = some pg)
    (begun : parallelTraversal pg start = some (next, t))
    (run : exec (advance next) t schedule = some final) (here : final.goroutines[i]? = some visit)
    (running : visit ≠ .done) : ∃ after, advance next final i = some after := by
  obtain ⟨inv, progress, -⟩ := traversal_progress (build_built distinct build).routed begun run
  exact progress.advances inv here running

end

/-- After any calls with distinct edge IDs and under any schedule that finishes, a traversal
returns every node that can be reached through the added edges once, and nothing else, exactly
when every added edge from a node that the recorded edges reach leads to such a node. -/
theorem traversal_exact_iff {numPartitions : Nat} {calls : List Call} {pg next : Graph}
    {start : String} {begun final : Traversal} {schedule : List Nat}
    (distinct : (calls.filterMap edgeID).Nodup)
    (build : exec step (newPartitionedGraph numPartitions) calls = some pg)
    (called : parallelTraversal pg start = some (next, begun))
    (run : exec (advance next) begun schedule = some final) (finished : Finished final) :
    (final.results.Nodup ∧
        ∀ nodeID, nodeID ∈ final.results ↔ ReflTransGen (Added calls) start nodeID) ↔
      ∀ source target, ReflTransGen (Recorded calls) start source → Added calls source target →
        ReflTransGen (Recorded calls) start target := by
  have built := build_built distinct build
  obtain ⟨-, progress, links⟩ := traversal_progress built.routed called run
  obtain ⟨nodup, results⟩ := progress.results finished
  have recorded : Links next = Recorded calls := by
    funext source target
    exact propext ((links source target).trans (built.links source target))
  rw [recorded] at results
  constructor
  · rintro ⟨-, exact⟩ source target path added
    have reached := (exact source).mp ((results source).mpr path)
    exact (results target).mp ((exact target).mpr (reached.tail added))
  · intro closed
    refine ⟨nodup, fun nodeID => (results nodeID).trans ⟨?_, ?_⟩⟩
    · intro path
      exact ReflTransGen.mono (fun _ _ recorded => Recorded.added recorded) _ _ path
    · intro path
      induction path with
      | refl => exact .refl
      | tail _ added ih => exact closed _ _ ih added

def cycleCalls : List Call :=
  [.addNode "a", .addNode "b", .addEdge "e" "a" "b", .addEdge "f" "b" "a"]

def resultsOf (calls : List Call) (start : String) (schedule : List Nat) : Option (List String) :=
  (exec step (newPartitionedGraph 2) calls).bind fun pg =>
    (parallelTraversal pg start).bind fun (next, begun) =>
      (exec (advance next) begun schedule).bind fun final =>
        if final.goroutines.all fun visit => match visit with
          | .done => true
          | _ => false
        then some final.results else none

theorem exists_run {cs start schedule results} (ret : resultsOf cs start schedule = some results) :
    ∃ pg t begun final, exec step (newPartitionedGraph 2) cs = some pg ∧
      parallelTraversal pg start = some (t, begun) ∧
      exec (advance t) begun schedule = some final ∧ Finished final ∧
      final.results = results := by
  obtain ⟨pg, build, rest⟩ := bind_eq_some_iff.mp ret
  obtain ⟨⟨t, begun⟩, called, rest⟩ := bind_eq_some_iff.mp rest
  obtain ⟨final, run, rest⟩ := bind_eq_some_iff.mp rest
  obtain ⟨ended, eq⟩ := ite_none_right_eq_some.mp rest
  refine ⟨pg, t, begun, final, build, called, run, ?_, some.inj eq⟩
  intro visit mem
  have done := all_eq_true.mp ended visit mem
  cases visit <;> simp_all

/-- Every edge of the cycle is recorded, and each node is returned once. -/
theorem cycle_traversed :
    (resultsOf cycleCalls "a" [0, 0, 0, 0, 0, 1, 1, 1, 1, 1, 2] = some ["a", "b"]) ∧
      ∀ nodeID, nodeID ∈ ["a", "b"] ↔ ReflTransGen (Added cycleCalls) "a" nodeID := by
  have returned : resultsOf cycleCalls "a" [0, 0, 0, 0, 0, 1, 1, 1, 1, 1, 2] = some ["a", "b"] := by
    decide +kernel
  obtain ⟨pg, next, begun, final, build, called, run, finished, results⟩ := exists_run returned
  have recorded : ∀ source target, Added cycleCalls source target →
      Recorded cycleCalls source target := by
    rintro source target ⟨id, member⟩
    simp only [cycleCalls, mem_cons, reduceCtorEq, Call.addEdge.injEq, not_mem_nil,
      false_or, or_false] at member
    rcases member with ⟨rfl, rfl, rfl⟩ | ⟨rfl, rfl, rfl⟩
    · exact ⟨[.addNode "a", .addNode "b"], "e", _, rfl, by simp, by simp⟩
    · exact ⟨[.addNode "a", .addNode "b", .addEdge "e" "a" "b"], "f", _, rfl, by simp, by simp⟩
  have exact := (traversal_exact_iff (by decide) build called run finished).mpr
    fun source target path added => path.tail (recorded source target added)
  rw [results] at exact
  exact ⟨returned, exact.2⟩

theorem goroutines_advance_cycle :
    ∃ pg next t, exec step (newPartitionedGraph 2) cycleCalls = some pg ∧
      parallelTraversal pg "a" = some (next, t) ∧ ∃ after, advance next t 0 = some after := by
  have build : exec step (newPartitionedGraph 2) cycleCalls = some _ := rfl
  refine ⟨_, _, _, build, rfl, ?_⟩
  exact goroutines_advance (by decide) build (show parallelTraversal _ "a" = _ from rfl)
    (exec_nil _ _) rfl (by simp)

/-- An edge added before its source, or before its source is added again, is never followed. -/
theorem edge_of_late_source_missed :
    resultsOf [.addEdge "e" "a" "b", .addNode "a", .addNode "b"] "a" [0, 0, 0, 0] = some ["a"] ∧
      ReflTransGen (Added [.addEdge "e" "a" "b", .addNode "a", .addNode "b"]) "a" "b" ∧
      resultsOf [.addNode "a", .addEdge "e" "a" "b", .addNode "a", .addNode "b"] "a" [0, 0, 0, 0] =
        some ["a"] ∧
      ReflTransGen (Added [.addNode "a", .addEdge "e" "a" "b", .addNode "a", .addNode "b"])
        "a" "b" :=
  ⟨by decide +kernel, .single ⟨"e", by simp⟩, by decide +kernel, .single ⟨"e", by simp⟩⟩

end AsyncPractice.PartitionedGraph

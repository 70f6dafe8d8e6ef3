import AsyncPractice.LockFreeGraph
import AsyncPractice.Walks

/- BFS of the LockFreeGraph in solution21_graph_database.go. The caller reads a level of nodes from
a buffered channel; for every node it discovers a goroutine sends the result for the next level to
the same channel. -/
namespace AsyncPractice.LockFreeGraph.BFS

def capacity : Nat := 1000

/-- Where the caller is: at the head of the loop over the levels, in the loop over the results of a
level with some turns left, in the loop over the out-edges of the current node, in wg.Wait, or
back. -/
inductive Phase
  | level
  | reading (left : Nat)
  | ranging (left : Nat) (current : TraversalResult) (edges : List Edge)
  | waiting
  | returned (err : Option String)

/-- A goroutine that has not sent yet is the result it has to send. -/
structure Search where
  depth : Nat
  phase : Phase
  visited : GoMap String Bool
  queue : List TraversalResult
  goroutines : List TraversalResult
  results : List TraversalResult
  cancelled : Bool

inductive Event
  | advance
  | receive (order : List String)
  | send (i : Nat)
  | cancel
  | drop (i : Nat)
  | abort (err : String)

def bfs (graph : Graph) (start : String) : Except String Search :=
  if start ∈ graph.nodes then
    .ok
      { depth := 0
        phase := .level
        visited := (∅ : GoMap String Bool).insert start true
        queue := [⟨[start], 0⟩]
        goroutines := []
        results := []
        cancelled := false }
  else .error ("node " ++ start ++ " not found")

/-- A node met for the first time and the goroutine for it; the loop goes on with the next edge. -/
def Search.spawn (s : Search) (left : Nat) (current : TraversalResult) (nodeID : String)
    (edges : List Edge) : Search :=
  { s with
    visited := s.visited.insert nodeID true
    goroutines := s.goroutines ++ [⟨current.path ++ [nodeID], current.distance + 1⟩]
    phase := .ranging left current edges }

def Search.take (s : Search) (left : Nat) (current : TraversalResult)
    (rest : List TraversalResult) (edges : List Edge) : Search :=
  { s with
    queue := rest
    results := s.results ++ [current]
    phase := .ranging left current edges }

def Search.sent (s : Search) (i : Nat) (result : TraversalResult) : Search :=
  { s with queue := s.queue ++ [result], goroutines := s.goroutines.eraseIdx i }

/-- The steps of the caller that receive nothing. -/
def advance (maxDepth : Int) (s : Search) : Option Search :=
  match s.phase with
  | .level =>
    if (s.depth : Int) < maxDepth ∧ s.queue ≠ [] then
      some { s with phase := .reading s.queue.length }
    else some { s with phase := .returned none }
  | .reading 0 => some { s with phase := .waiting }
  | .reading (_ + 1) => none
  | .ranging left _ [] => some { s with phase := .reading left }
  | .ranging left current (edge :: edges) =>
    if edge.to_ ∈ s.visited then some { s with phase := .ranging left current edges }
    else some (s.spawn left current edge.to_ edges)
  | .waiting =>
    if s.goroutines = [] then some { s with depth := s.depth + 1, phase := .level } else none
  | .returned _ => none

/-- The caller takes a result; `order` is the order of the loop over the out-edges of its node. A
node that is not stored panics. -/
def receive (graph : Graph) (s : Search) (order : List String) : Option Search :=
  match s.phase, s.queue with
  | .reading (left + 1), current :: rest =>
    (current.path.getLast?.bind graph.nodes.lookup).bind fun node =>
      if GoMap.Ranges order node.outEdges then
        some (s.take left current rest (node.ranged order))
      else none
  | _, _ => none

def step (graph : Graph) (maxDepth : Int) (s : Search) : Event → Option Search
  | .advance => advance maxDepth s
  | .receive order => receive graph s order
  | .send i =>
    s.goroutines[i]?.bind fun result =>
      if s.queue.length < capacity then some (s.sent i result) else none
  | .cancel => some { s with cancelled := true }
  | .drop i =>
    if s.cancelled ∧ i < s.goroutines.length then
      some { s with goroutines := s.goroutines.eraseIdx i }
    else none
  | .abort err =>
    match s.phase with
    | .reading (_ + 1) =>
      if s.cancelled then some { s with phase := .returned (some err) } else none
    | _ => none

/- What the results of BFS are: while a level is read, its nodes stand at the front of the queue and
those of the next level behind them or in goroutines. -/
open Option List Runs Walks

def node (result : TraversalResult) : String := result.path.getLastD ""

/-- The path of a result is a shortest one from the start to its node. -/
structure Reached (graph : Graph) (start : String) (result : TraversalResult) : Prop where
  first : result.path.head? = some start
  last : result.path.getLast? = some (node result)
  chain : result.path.IsChain (Stored graph)
  length : result.path.length = result.distance + 1
  distance : Distance (Stored graph) start (node result) result.distance

/-- All results there are: those returned, and those yet to be read and to be sent. -/
def Search.items (s : Search) : List TraversalResult := s.results ++ s.queue ++ s.goroutines

/-- How many results of the level are still in the queue. -/
def Search.left (s : Search) : Phase → Nat
  | .reading left => left
  | .ranging left _ _ => left
  | .waiting => 0
  | .level => s.queue.length
  | .returned _ => s.queue.length

/-- The caller is in the loop over the out-edges of the result's node and has not come to one that
leads to `n`. -/
def Pending (result : TraversalResult) (n : String) : Phase → Prop
  | .ranging _ current edges => current = result ∧ ∃ edge ∈ edges, edge.to_ = n
  | _ => False

structure Search.Between (maxDepth : Int) (s : Search) : Prop where
  joined : s.goroutines = []
  read : ∀ result ∈ s.results, result.distance < s.depth
  depth : s.depth = 0 ∨ (s.depth : Int) ≤ maxDepth

def Search.In (graph : Graph) (maxDepth : Int) (s : Search) : Phase → Prop
  | .level => s.Between maxDepth
  | .reading left => left ≤ s.queue.length ∧ (s.depth : Int) < maxDepth
  | .ranging left current edges => left ≤ s.queue.length ∧ (s.depth : Int) < maxDepth ∧
      current ∈ s.results ∧ current.distance = s.depth ∧
      ∀ edge ∈ edges, Stored graph (node current) edge.to_
  | .waiting => (s.depth : Int) < maxDepth
  | .returned err =>
    err = none ∧ s.Between maxDepth ∧ ¬ ((s.depth : Int) < maxDepth ∧ s.queue ≠ [])

/-- The invariant of a search that is not cancelled. The levels that have been read have gone
through the channel. -/
structure Inv (graph : Graph) (maxDepth : Int) (start : String) (s : Search) : Prop where
  reached : ∀ result ∈ s.items, Reached graph start result
  nodup : (s.items.map node).Nodup
  visited : ∀ n, n ∈ s.visited ↔ n ∈ s.items.map node
  covered : ∀ k ≤ s.depth, ∀ n, Walk (Stored graph) start k n → n ∈ s.visited
  sorted : s.results.Pairwise (·.distance ≤ ·.distance)
  past : ∀ result ∈ s.results, result.distance ≤ s.depth
  present : ∀ result ∈ s.queue.take (s.left s.phase), result.distance = s.depth
  future : ∀ result ∈ s.queue.drop (s.left s.phase) ++ s.goroutines, result.distance = s.depth + 1
  expanded : ∀ result ∈ s.results, ∀ n, Stored graph (node result) n →
    n ∈ s.visited ∨ Pending result n s.phase
  phase : s.In graph maxDepth s.phase
  room : s.queue.length ≤ capacity
  levels : ∀ d < s.depth, (level (Stored graph) start (d + 1)).encard ≤ capacity

section

variable {g : Graph} {maxDepth : Int} {start : String} {s t : Search}

theorem bfs_inv (begun : bfs g start = .ok s) : Inv g maxDepth start s := by
  unfold bfs at begun
  split at begun <;> cases begun
  have here : node ⟨[start], 0⟩ = start := rfl
  refine ⟨?_, ?_, ?_, ?_, List.Pairwise.nil, nofun, ?_, ?_, nofun, ⟨rfl, nofun, .inl rfl⟩,
    by simp [capacity], nofun⟩
  · intro res mem
    obtain rfl : res = ⟨[start], 0⟩ := by simpa [Search.items] using mem
    exact ⟨rfl, rfl, isChain_singleton start, rfl, distance_zero_iff.mpr here⟩
  · exact nodup_singleton _
  · intro n
    simp [Search.items, here, Finmap.notMem_empty]
  · intro k low n walk
    obtain rfl : k = 0 := Nat.le_zero.mp low
    exact Finmap.mem_insert.mpr (.inl (walk_zero_iff.mp walk))
  · intro res mem
    obtain rfl : res = ⟨[start], 0⟩ := by simpa [Search.left] using mem
    rfl
  · intro res mem
    simp [Search.left] at mem

variable (inv : Inv g maxDepth start s) {phase : Phase}

include inv

theorem Inv.at (here : s.phase = phase) : s.In g maxDepth phase :=
  here ▸ inv.phase

theorem Inv.move (left : s.left phase = s.left s.phase)
    (pending : ∀ res n, Pending res n s.phase → n ∈ s.visited ∨ Pending res n phase)
    (inPhase : Search.In g maxDepth { s with phase } phase) :
    Inv g maxDepth start { s with phase } :=
  { inv with
    present := fun res mem => inv.present res (left ▸ mem)
    future := fun res mem => inv.future res (left ▸ mem)
    expanded := fun res mem n stored =>
      (inv.expanded res mem n stored).elim .inl (pending res n)
    phase := inPhase }

theorem Inv.closed (idle : ∀ res n, ¬ Pending res n s.phase) :
    ∀ res ∈ s.results, ∀ n, Stored g (node res) n → n ∈ s.visited :=
  fun res mem n stored => (inv.expanded res mem n stored).resolve_right (idle res n)

variable {left : Nat} {cur : TraversalResult} {n : String}

theorem Inv.take (good : g.Searchable) {rest found order}
    (rd : s.phase = .reading (left + 1)) (front : s.queue = cur :: rest)
    (last : cur.path.getLast? = some n) (lookup : g.nodes.lookup n = some found)
    (ranges : GoMap.Ranges order found.outEdges) :
    Inv g maxDepth start (s.take left cur rest (found.ranged order)) := by
  obtain ⟨within, below⟩ := inv.at rd
  have items : (s.take left cur rest (found.ranged order)).items = s.items := by
    simp [Search.items, Search.take, front]
  have here : node cur = n := by
    have came := inv.reached cur (by simp [Search.items, front])
    exact some.inj (came.last.symm.trans last)
  have hit := inv.present
  have future := inv.future
  have room := inv.room
  rw [rd, front, Search.left, take_succ_cons, forall_mem_cons] at hit
  rw [rd, front, Search.left, drop_succ_cons] at future
  rw [front, length_cons] at within room
  have now := hit.1
  refine ⟨?_, ?_, ?_, inv.covered, ?_, ?_, hit.2, future, ?_, ?_, ?_, inv.levels⟩
  · rw [items]
    exact inv.reached
  · rw [items]
    exact inv.nodup
  · rw [items]
    exact inv.visited
  · refine pairwise_append.mpr ⟨inv.sorted, pairwise_singleton _ _, ?_⟩
    intro pre mem after last
    rw [mem_singleton.mp last, now]
    exact inv.past pre mem
  · exact forall_mem_snoc inv.past (Nat.le_of_eq now)
  · refine forall_mem_snoc ?_ fun m stored => ?_
    · intro res pre m stored
      exact .inl (inv.closed (by simp [Pending, rd]) res pre m stored)
    · exact .inr ⟨rfl, good.exists_ranged lookup ranges (here ▸ stored)⟩
  · refine ⟨Nat.le_of_succ_le_succ within, below, by simp [Search.take], now, fun e met => ?_⟩
    rw [here]
    exact good.stored_of_ranged lookup met
  · exact Nat.le_of_succ_le room

variable {e : Edge} {edges : List Edge} {d : Nat}

theorem Inv.spawn (ranging : s.phase = .ranging left cur (e :: edges))
    (new : e.to_ ∉ s.visited) : Inv g maxDepth start (s.spawn left cur e.to_ edges) := by
  obtain ⟨within, below, mem, now, stored⟩ := inv.at ranging
  have arrived := inv.reached cur (mem_append_left _ (mem_append_left _ mem))
  have here : node ⟨cur.path ++ [e.to_], cur.distance + 1⟩ = e.to_ := by
    simp [node, getLastD_eq_getLast?]
  have fresh : Reached g start ⟨cur.path ++ [e.to_], cur.distance + 1⟩ := by
    refine ⟨?_, ?_, ?_, ?_, ?_⟩
    · rw [head?_append, arrived.first]
      rfl
    · rw [here]
      exact getLast?_concat
    · refine isChain_append.mpr ⟨arrived.chain, isChain_singleton _, ?_⟩
      intro last ended x head
      rw [arrived.last, mem_some_iff] at ended
      rw [head?_cons, mem_some_iff] at head
      rw [← ended, ← head]
      exact stored e mem_cons_self
    · simp [arrived.length]
    · rw [here]
      refine ⟨.go arrived.distance.walk (stored e mem_cons_self), fun k walk => ?_⟩
      by_contra shorter
      have low : k ≤ s.depth := by
        dsimp only at shorter
        omega
      exact new (inv.covered k low e.to_ walk)
  have items : (s.spawn left cur e.to_ edges).items =
      s.items ++ [⟨cur.path ++ [e.to_], cur.distance + 1⟩] := by
    simp [Search.items, Search.spawn]
  have grows : ∀ n, n ∈ (s.spawn left cur e.to_ edges).visited ↔ n = e.to_ ∨ n ∈ s.visited :=
    fun n => Finmap.mem_insert
  have hit := inv.present
  have future := inv.future
  rw [ranging] at hit future
  refine ⟨?_, ?_, ?_, ?_, inv.sorted, inv.past, hit, ?_, ?_, ?_, inv.room, inv.levels⟩
  · rw [items]
    exact forall_mem_snoc inv.reached fresh
  · rw [items, map_append, map_singleton, here, ← concat_eq_append]
    exact inv.nodup.concat fun listed => new ((inv.visited _).mpr listed)
  · intro n
    rw [items, map_append, map_singleton, here, mem_append, mem_singleton, ← inv.visited, or_comm]
    exact grows n
  · intro k low n walk
    exact (grows n).mpr (.inr (inv.covered k low n walk))
  · change ∀ res ∈ s.queue.drop left ++ (s.goroutines ++ _), _
    rw [← append_assoc]
    exact forall_mem_snoc future (congrArg (· + 1) now)
  · intro res listed m t
    rcases inv.expanded res listed m t with old | pending
    · exact .inl ((grows m).mpr (.inr old))
    · rw [ranging] at pending
      obtain ⟨eq, other, met, rfl⟩ := pending
      rcases mem_cons.mp met with rfl | later
      · exact .inl ((grows _).mpr (.inl rfl))
      · exact .inr ⟨eq, other, later, rfl⟩
  · exact ⟨within, below, mem, now, fun other met => stored other (mem_cons_of_mem _ met)⟩

/-- A node that can be reached in one step more than the depth is visited when the level is read. -/
theorem Inv.covered_next (wait : s.phase = .waiting) (done : s.goroutines = [])
    (walk : Walk (Stored g) start (s.depth + 1) n) : n ∈ s.visited := by
  obtain ⟨m, pre, stored⟩ := walk_succ_iff.mp walk
  have early := (inv.visited m).mp (inv.covered s.depth (Nat.le_refl _) m pre)
  obtain ⟨res, mem, rfl⟩ := mem_map.mp early
  have near := (inv.reached res mem).distance.shortest s.depth pre
  have future := inv.future
  rw [wait, Search.left, drop_zero, done, append_nil] at future
  rw [Search.items, done, append_nil] at mem
  rcases mem_append.mp mem with listed | queued
  · exact inv.closed (by simp [Pending, wait]) res listed n stored
  · have far := future res queued
    omega

theorem Inv.mem_queue (joined : s.goroutines = [])
    (near : ∀ res ∈ s.results, res.distance < d) (distance : Distance (Stored g) start n d)
    (visited : n ∈ s.visited) : n ∈ s.queue.map node := by
  obtain ⟨res, mem, rfl⟩ := mem_map.mp ((inv.visited n).mp visited)
  have eq := distance.unique (inv.reached res mem).distance
  rw [Search.items, joined, append_nil] at mem
  rcases mem_append.mp mem with listed | queued
  · have closer := near res listed
    omega
  · exact mem_map_of_mem queued

theorem Inv.join (wait : s.phase = .waiting) (done : s.goroutines = []) :
    Inv g maxDepth start { s with depth := s.depth + 1, phase := .level } := by
  have below : (s.depth : Int) < maxDepth := inv.at wait
  have read : ∀ res ∈ s.results, res.distance < s.depth + 1 :=
    fun res mem => Nat.lt_succ_of_le (inv.past res mem)
  have future := inv.future
  rw [wait, Search.left, drop_zero, done, append_nil] at future
  refine ⟨inv.reached, inv.nodup, inv.visited, ?_, inv.sorted, ?_, ?_, ?_, ?_, ?_, inv.room, ?_⟩
  · intro k low n walk
    rcases Nat.le_succ_iff.mp low with earlier | rfl
    · exact inv.covered k earlier n walk
    · exact inv.covered_next wait done walk
  · exact fun res mem => Nat.le_of_lt (read res mem)
  · exact fun res mem => future res (mem_of_mem_take mem)
  · simp [Search.left, done]
  · intro res mem n stored
    exact .inl (inv.closed (by simp [Pending, wait]) res mem n stored)
  · refine ⟨done, read, Or.inr ?_⟩
    push_cast
    omega
  · intro d low
    rcases Nat.lt_succ_iff_lt_or_eq.mp low with earlier | rfl
    · exact inv.levels d earlier
    · have covers : ∀ n ∈ level (Stored g) start (s.depth + 1), n ∈ s.queue.map node := by
        intro n distance
        exact inv.mem_queue done read distance (inv.covered_next wait done (Distance.walk distance))
      refine (encard_le_length covers).trans ?_
      rw [length_map]
      exact_mod_cast inv.room

theorem Inv.sent {i result} (here : s.goroutines[i]? = some result)
    (room : s.queue.length < capacity) : Inv g maxDepth start (s.sent i result) := by
  obtain ⟨lt, rfl⟩ := List.getElem?_eq_some_iff.mp here
  have running : s.goroutines ≠ [] := ne_nil_of_length_pos (Nat.zero_lt_of_lt lt)
  have moved : (s.goroutines[i] :: s.goroutines.eraseIdx i).Perm s.goroutines :=
    getElem_cons_eraseIdx_perm lt
  have items : (s.sent i s.goroutines[i]).items.Perm s.items := by
    have both := moved.append_left (s.results ++ s.queue)
    simpa [Search.items, Search.sent] using both
  -- The queue is only read in phases in which it holds what is left of the level.
  obtain ⟨within, left, inPhase⟩ : s.left s.phase ≤ s.queue.length ∧
      (s.sent i s.goroutines[i]).left s.phase = s.left s.phase ∧
      (s.sent i s.goroutines[i]).In g maxDepth s.phase := by
    have longer : s.queue.length ≤ (s.sent i s.goroutines[i]).queue.length := by
      simp [Search.sent]
    cases phase : s.phase with
    | level => exact absurd (inv.at phase).joined running
    | reading left =>
      obtain ⟨within, below⟩ := inv.at phase
      exact ⟨within, rfl, within.trans longer, below⟩
    | ranging left cur edges =>
      obtain ⟨within, rest⟩ := inv.at phase
      exact ⟨within, rfl, within.trans longer, rest⟩
    | waiting => exact ⟨Nat.zero_le _, rfl, inv.at phase⟩
    | returned err => exact absurd (inv.at phase).2.1.joined running
  refine ⟨?_, ?_, ?_, inv.covered, inv.sorted, inv.past, ?_, ?_, inv.expanded, inPhase, ?_,
    inv.levels⟩
  · exact fun other mem => inv.reached other (items.mem_iff.mp mem)
  · exact (items.map node).nodup_iff.mpr inv.nodup
  · exact fun n => (inv.visited n).trans (items.map node).mem_iff.symm
  · change ∀ other ∈ (s.queue ++ _).take ((s.sent i s.goroutines[i]).left s.phase), _
    rw [left, take_append_of_le_length within]
    exact inv.present
  · change ∀ other ∈ (s.queue ++ _).drop ((s.sent i s.goroutines[i]).left s.phase) ++ _, _
    rw [left, drop_append_of_le_length within]
    intro other mem
    apply inv.future
    apply (moved.append_left (s.queue.drop (s.left s.phase))).mem_iff.mp
    simpa [Search.sent] using mem
  · simpa [Search.sent] using room

theorem Inv.enter (level : s.phase = .level) (more : (s.depth : Int) < maxDepth ∧ s.queue ≠ []) :
    Inv g maxDepth start { s with phase := .reading s.queue.length } :=
  inv.move (by rw [level]; rfl) (by simp [Pending, level]) ⟨Nat.le_refl _, more.1⟩

theorem Inv.skip (ranging : s.phase = .ranging left cur (e :: edges)) (old : e.to_ ∈ s.visited) :
    Inv g maxDepth start { s with phase := .ranging left cur edges } := by
  obtain ⟨within, below, mem, now, stored⟩ := inv.at ranging
  refine inv.move (by rw [ranging]; rfl) ?_ ⟨within, below, mem, now,
    fun other met => stored other (mem_cons_of_mem _ met)⟩
  intro res n pending
  rw [ranging] at pending
  obtain ⟨eq, other, met, rfl⟩ := pending
  rcases mem_cons.mp met with rfl | later
  · exact .inl old
  · exact .inr ⟨eq, other, later, rfl⟩

/-- What a search that returns has visited: everything below the depth, or everything there is. -/
theorem Inv.visited_of_distance
    (closed : ∀ res ∈ s.results, ∀ n, Stored g (node res) n → n ∈ s.visited)
    (joined : s.goroutines = []) (ended : ¬ ((s.depth : Int) < maxDepth ∧ s.queue ≠ []))
    (near : (d : Int) < maxDepth) (walk : Walk (Stored g) start d n) : n ∈ s.visited := by
  by_cases below : (s.depth : Int) < maxDepth
  · have empty : s.queue = [] := by_contra fun more => ended ⟨below, more⟩
    have items : s.items = s.results := by simp [Search.items, empty, joined]
    clear near
    induction walk with
    | stay => exact inv.covered 0 (Nat.zero_le _) start .stay
    | go walk t ih =>
      have pre := (inv.visited _).mp ih
      rw [items] at pre
      obtain ⟨res, mem, rfl⟩ := mem_map.mp pre
      exact closed res mem _ t
  · exact inv.covered d (by omega) n walk

omit inv

theorem inv_advance (held : s.cancelled = false → Inv g maxDepth start s)
    (took : advance maxDepth s = some t) (live : t.cancelled = false) :
    Inv g maxDepth start t := by
  unfold advance at took
  split at took
  next level =>
    split at took
    next more =>
      cases took
      exact (held live).enter level more
    next ended =>
      cases took
      have inv := held live
      obtain ⟨joined, read, depth⟩ := inv.at level
      exact inv.move (by rw [level]; rfl) (by simp [Pending, level])
        ⟨rfl, ⟨joined, read, depth⟩, ended⟩
  next reading =>
    cases took
    have inv := held live
    exact inv.move (by rw [reading]; rfl) (by simp [Pending, reading]) (inv.at reading).2
  · cases took
  next left cur ranging =>
    cases took
    have inv := held live
    obtain ⟨within, below, -⟩ := inv.at ranging
    exact inv.move (by rw [ranging]; rfl) (by simp [Pending, ranging]) ⟨within, below⟩
  next left cur e edges ranging =>
    split at took
    next old =>
      cases took
      exact (held live).skip ranging old
    next new =>
      cases took
      exact (held live).spawn ranging new
  next waiting =>
    obtain ⟨done, rfl⟩ := guard_some.mp took
    exact (held live).join waiting done
  · cases took

theorem inv_step (good : g.Searchable) {e}
    (held : s.cancelled = false → Inv g maxDepth start s) (took : step g maxDepth s e = some t)
    (live : t.cancelled = false) : Inv g maxDepth start t := by
  cases e with
  | advance => exact inv_advance held took live
  | receive order =>
    simp only [step, receive] at took
    split at took
    next left cur rest reading front =>
      obtain ⟨node, look, took⟩ := bind_eq_some_iff.mp took
      obtain ⟨n, last, hit⟩ := bind_eq_some_iff.mp look
      obtain ⟨ranges, rfl⟩ := guard_some.mp took
      exact (held live).take good reading front last hit ranges
    · cases took
  | send i =>
    obtain ⟨res, here, took⟩ := bind_eq_some_iff.mp took
    obtain ⟨room, rfl⟩ := guard_some.mp took
    exact (held live).sent here room
  | cancel =>
    cases took
    cases live
  | drop i =>
    obtain ⟨⟨cancelled, -⟩, rfl⟩ := guard_some.mp took
    cases cancelled.symm.trans live
  | abort err =>
    simp only [step] at took
    split at took
    · obtain ⟨cancelled, rfl⟩ := guard_some.mp took
      cases cancelled.symm.trans live
    · cases took

theorem Inv.exec (inv : Inv g maxDepth start s) (good : g.Searchable) {schedule}
    (run : exec (step g maxDepth) s schedule = some t) (live : t.cancelled = false) :
    Inv g maxDepth start t :=
  exec_invariant (fun s => s.cancelled = false → Inv g maxDepth start s) (fun _ => inv)
    (fun _ _ _ held took => inv_step good held took) run live

end

/-- On a graph that any interleaving of AddNode and AddEdge has built, a BFS that returns without
cancellation lists the nodes at a distance below `maxDepth`, each once and in the order of their
distances, with a shortest path to each. -/
theorem bfs_breadth_first {C : Type} [DecidableEq C] {events : List (LockFreeGraph.Event C)}
    {s : State C} (built : exec LockFreeGraph.step (init C newLockFreeGraph) events = some s)
    (quiet : Quiet s) {start : String} {maxDepth : Int} {begun final : Search}
    (started : bfs s.graph start = .ok begun) {schedule : List Event}
    (run : exec (step s.graph maxDepth) begun schedule = some final) {err : Option String}
    (returned : final.phase = .returned err) (uncancelled : final.cancelled = false) :
    err = none ∧ (final.results.map node).Nodup ∧
      (∀ n, n ∈ final.results.map node ↔
        ∃ d : Nat, (d : Int) < maxDepth ∧ Distance (Stored s.graph) start n d) ∧
      final.results.Pairwise (·.distance ≤ ·.distance) ∧
      ∀ result ∈ final.results, Reached s.graph start result := by
  have inv := (bfs_inv started).exec (reached_searchable built quiet) run uncancelled
  obtain ⟨noError, between, ended⟩ := inv.at returned
  have items : final.items = final.results ++ final.queue := by
    rw [Search.items, between.joined, append_nil]
  have nodup := inv.nodup
  rw [items, map_append] at nodup
  have reached : ∀ result ∈ final.results, Reached s.graph start result := by
    intro result member
    exact inv.reached result (items ▸ mem_append_left _ member)
  refine ⟨noError, (nodup_append.mp nodup).1, fun n => ⟨?_, ?_⟩, inv.sorted, reached⟩
  · intro listed
    obtain ⟨result, member, rfl⟩ := mem_map.mp listed
    refine ⟨result.distance, ?_, (reached result member).distance⟩
    have read := between.read result member
    have depth := between.depth
    omega
  · rintro ⟨d, near, distance⟩
    have visited := inv.visited_of_distance (inv.closed (by simp [Pending, returned]))
      between.joined ended near distance.walk
    have member := (inv.visited n).mp visited
    rw [items, map_append, mem_append] at member
    refine member.resolve_right fun queued => ?_
    -- What is left in the queue is at the depth at which the search has stopped.
    obtain ⟨result, waiting, rfl⟩ := mem_map.mp queued
    have far : result.distance = final.depth := by
      apply inv.present
      rw [returned, Search.left, take_length]
      exact waiting
    have same := distance.unique (inv.reached result (items ▸ mem_append_right _ waiting)).distance
    exact ended ⟨by omega, ne_nil_of_mem waiting⟩

def shortSearch : List Event :=
  [.advance, .receive ["e"], .advance, .advance, .advance, .send 0, .advance, .advance,
    .receive ["f"], .advance, .advance, .advance, .send 0, .advance, .advance]

/-- It finds a and b, and stops before c. -/
theorem short_search_lists_two :
    ∃ s begun final, exec LockFreeGraph.step (init Bool newLockFreeGraph) twoEdges = some s ∧
      Quiet s ∧ bfs s.graph "a" = .ok begun ∧
      exec (step s.graph 2) begun shortSearch = some final ∧ final.phase = .returned none ∧
      final.cancelled = false ∧ final.results = [⟨["a"], 0⟩, ⟨["a", "b"], 1⟩] ∧
      ∃ d : Nat, (d : Int) < 2 ∧ Distance (Stored s.graph) "a" "b" d := by
  obtain ⟨s, begun, final, built, first, second, started, run, returned, uncancelled, results⟩ :
      ∃ s begun final, exec LockFreeGraph.step (init Bool newLockFreeGraph) twoEdges = some s ∧
        s.phase false = .returned ∧ s.phase true = .returned ∧ bfs s.graph "a" = .ok begun ∧
        exec (step s.graph 2) begun shortSearch = some final ∧ final.phase = .returned none ∧
        final.cancelled = false ∧ final.results = [⟨["a"], 0⟩, ⟨["a", "b"], 1⟩] :=
    ⟨_, _, _, rfl, rfl, rfl, rfl, rfl, rfl, rfl, rfl⟩
  have quiet := quiet_of_both first second
  refine ⟨s, begun, final, built, quiet, started, run, returned, uncancelled, results, ?_⟩
  obtain ⟨-, -, exact_, -⟩ := bfs_breadth_first built quiet started run returned uncancelled
  exact (exact_ "b").mp (by rw [results]; decide)

end AsyncPractice.LockFreeGraph.BFS

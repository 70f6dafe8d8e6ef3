import AsyncPractice.LockFreeGraphBFS
import AsyncPractice.NumberedName

/- When BFS gets stuck: the goroutines of a level share the channel with its only reader, who stops
reading before they are done. -/
namespace AsyncPractice.LockFreeGraph.BFS

open List Finmap Runs Walks

/-- The caller waits in wg.Wait for goroutines that wait for room in the channel. -/
structure Stuck (s : Search) : Prop where
  waiting : s.phase = .waiting
  running : s.goroutines ≠ []
  full : capacity ≤ s.queue.length

section

variable {g : Graph} {maxDepth : Int} {start : String} {s t final : Search} {d : Nat}

/-- All levels that a search which returns should read have gone through the channel. -/
theorem Inv.levels_of_returned (inv : Inv g maxDepth start s) {err}
    (ret : s.phase = .returned err) (below : (d : Int) < maxDepth) :
    (level (Stored g) start (d + 1)).encard ≤ capacity := by
  obtain ⟨-, between, ended⟩ := inv.at ret
  by_cases read : d < s.depth
  · exact inv.levels d read
  · have empty : s.queue = [] := by_contra fun more => ended ⟨by omega, more⟩
    have nothing : level (Stored g) start s.depth = ∅ := by
      apply Set.eq_empty_of_forall_notMem
      intro n distance
      have queued := inv.mem_queue between.joined between.read distance
        (inv.covered s.depth (Nat.le_refl _) n (Distance.walk distance))
      rw [empty] at queued
      cases queued
    rw [level_eq_empty nothing (by omega), Set.encard_empty]
    exact zero_le

/-- The search gets from one state to the other on the same level. -/
structure Onward (graph : Graph) (maxDepth : Int) (s next : Search) : Prop where
  leads : Leads (step graph maxDepth) s next
  depth : next.depth = s.depth
  cancelled : next.cancelled = s.cancelled

theorem Onward.head {e} (took : step g maxDepth s e = some t) (depth : t.depth = s.depth)
    (cancelled : t.cancelled = s.cancelled) (rest : Onward g maxDepth t final) :
    Onward g maxDepth s final :=
  ⟨.head took rest.leads, rest.depth.trans depth, rest.cancelled.trans cancelled⟩

theorem Onward.trans (x : Onward g maxDepth s t) (y : Onward g maxDepth t final) :
    Onward g maxDepth s final :=
  ⟨x.leads.trans y.leads, y.depth.trans x.depth, y.cancelled.trans x.cancelled⟩

theorem Onward.refl (s) : Onward g maxDepth s s := ⟨.refl _ _, rfl, rfl⟩

variable {left : Nat} (g maxDepth) in
theorem onward_ranging {current edges} (ranging : s.phase = .ranging left current edges) :
    ∃ t, Onward g maxDepth s t ∧ t.phase = .reading left := by
  induction edges generalizing s with
  | nil =>
    have took : step g maxDepth s .advance = some { s with phase := .reading left } := by
      simp [step, advance, ranging]
    exact ⟨_, .head took rfl rfl (.refl _), rfl⟩
  | cons e edges ih =>
    obtain ⟨t, took, depth, cancelled, rest⟩ : ∃ t,
        step g maxDepth s .advance = some t ∧ t.depth = s.depth ∧
        t.cancelled = s.cancelled ∧ t.phase = .ranging left current edges := by
      simp only [step, advance, ranging]
      split
      · exact ⟨_, rfl, rfl, rfl, rfl⟩
      · exact ⟨_, rfl, rfl, rfl, rfl⟩
    obtain ⟨final, onward, rd⟩ := ih rest
    exact ⟨final, .head took depth cancelled onward, rd⟩

theorem stored_of_walk (searchable : g.Searchable) (hit : start ∈ g.nodes) {n}
    (walk : Walk (Stored g) start d n) : n ∈ g.nodes := by
  cases walk with
  | stay => exact hit
  | go walk t => exact searchable.targets _ _ t

theorem onward_reading (searchable : g.Searchable) (hit : start ∈ g.nodes)
    (inv : Inv g maxDepth start s) (live : s.cancelled = false)
    (rd : s.phase = .reading left) : ∃ t, Onward g maxDepth s t ∧ t.phase = .waiting := by
  induction left generalizing s with
  | zero =>
    have took : step g maxDepth s .advance = some { s with phase := .waiting } := by
      simp [step, advance, rd]
    exact ⟨_, .head took rfl rfl (.refl _), rfl⟩
  | succ left ih =>
    have within : left + 1 ≤ s.queue.length := (inv.at rd).1
    obtain ⟨cur, rest, front⟩ := exists_cons_of_length_pos (Nat.zero_lt_of_lt within)
    have reached := inv.reached cur (by simp [Search.items, front])
    obtain ⟨found, lookup⟩ := mem_iff.mp (stored_of_walk searchable hit reached.distance.walk)
    obtain ⟨order, ranges⟩ := GoMap.exists_ranges found.outEdges
    obtain ⟨middle, took, depth, cancelled, ranging⟩ : ∃ middle,
        step g maxDepth s (.receive order) = some middle ∧ middle.depth = s.depth ∧
        middle.cancelled = s.cancelled ∧
        middle.phase = .ranging left cur (found.ranged order) := by
      simp only [step, receive, rd, front, reached.last, lookup, Option.bind_some, if_pos ranges]
      exact ⟨_, rfl, rfl, rfl, rfl⟩
    obtain ⟨t, onward, rd⟩ := onward_ranging g maxDepth ranging
    have arrived := Onward.head took depth cancelled onward
    have kept := arrived.cancelled.trans live
    obtain ⟨schedule, run⟩ := arrived.leads
    obtain ⟨last, further, wait⟩ := ih (inv.exec searchable run kept) kept rd
    exact ⟨last, arrived.trans further, wait⟩

variable (g maxDepth) in
theorem onward_waiting (wait : s.phase = .waiting) :
    ∃ t, Onward g maxDepth s t ∧ t.phase = .waiting ∧ (t.goroutines = [] ∨ Stuck t) := by
  obtain ⟨goroutines, eq⟩ : ∃ goroutines, s.goroutines = goroutines := ⟨_, rfl⟩
  induction goroutines generalizing s with
  | nil => exact ⟨s, .refl s, wait, Or.inl eq⟩
  | cons res rest ih =>
    by_cases room : s.queue.length < capacity
    · have took : step g maxDepth s (.send 0) = some (s.sent 0 res) := by
        simp [step, eq, room]
      obtain ⟨t, onward, wait, ended⟩ :=
        ih (s := s.sent 0 res) wait (by simp [Search.sent, eq])
      exact ⟨t, .head took rfl rfl onward, wait, ended⟩
    · exact ⟨s, .refl s, wait, Or.inr ⟨wait, by simp [eq], Nat.le_of_not_lt room⟩⟩

/-- From the head of the loop over the levels the search can go on until it returns or is stuck. -/
theorem leads_to_end (searchable : g.Searchable) (hit : start ∈ g.nodes)
    (inv : Inv g maxDepth start s) (live : s.cancelled = false) (level : s.phase = .level)
    {levels : Nat} (left : maxDepth ≤ s.depth + levels) :
    ∃ final, Leads (step g maxDepth) s final ∧ final.cancelled = false ∧
      (Stuck final ∨ ∃ err, final.phase = .returned err) := by
  induction levels generalizing s with
  | zero =>
    have took : step g maxDepth s .advance = some { s with phase := .returned none } := by
      simp only [step, advance, level]
      exact if_neg fun more => by omega
    exact ⟨_, .head took (.refl _ _), live, Or.inr ⟨none, rfl⟩⟩
  | succ levels ih =>
    by_cases more : (s.depth : Int) < maxDepth ∧ s.queue ≠ []
    · have took : step g maxDepth s .advance =
          some { s with phase := .reading s.queue.length } := by
        simp only [step, advance, level]
        exact if_pos more
      obtain ⟨read, rd, ended⟩ :=
        onward_reading searchable hit (inv.enter level more) live rfl
      obtain ⟨joined, wait, still, outcome⟩ := onward_waiting g maxDepth ended
      have arrived := Onward.head took rfl rfl (rd.trans wait)
      have kept := arrived.cancelled.trans live
      rcases outcome with done | stuck
      · have t : step g maxDepth joined .advance =
            some { joined with depth := joined.depth + 1, phase := .level } := by
          simp only [step, advance, still]
          exact if_pos done
        obtain ⟨schedule, run⟩ := arrived.leads
        have further := (inv.exec searchable run kept).join still done
        obtain ⟨final, leads, live, ended⟩ := ih further kept rfl (by
          have eq := arrived.depth
          push_cast
          omega)
        exact ⟨final, arrived.leads.trans (.head t leads), live, ended⟩
      · exact ⟨joined, arrived.leads, kept, Or.inl stuck⟩
    · have took : step g maxDepth s .advance = some { s with phase := .returned none } := by
        simp only [step, advance, level]
        exact if_neg more
      exact ⟨_, .head took (.refl _ _), live, Or.inr ⟨none, rfl⟩⟩

end

variable {g : Graph} {maxDepth : Int} {start : String} {begun t : Search}

theorem bfs_begins (started : bfs g start = .ok begun) :
    start ∈ g.nodes ∧ begun.phase = .level ∧ begun.cancelled = false := by
  unfold bfs at started
  split at started <;> cases started
  rename_i hit
  exact ⟨hit, rfl, rfl⟩

/-- The nodes in the channel and in the goroutines of a stuck search are too many for a level. -/
theorem not_stuck_of_levels (searchable : g.Searchable) (started : bfs g start = .ok begun)
    (narrow : ∀ d : Nat, (d : Int) < maxDepth → (level (Stored g) start (d + 1)).encard ≤ capacity)
    {schedule} (run : exec (step g maxDepth) begun schedule = some t)
    (live : t.cancelled = false) : ¬ Stuck t := by
  intro stuck
  have inv := (bfs_inv started).exec searchable run live
  have below : (t.depth : Int) < maxDepth := inv.at stuck.waiting
  have future := inv.future
  rw [stuck.waiting, Search.left, drop_zero] at future
  have nodup := inv.nodup
  rw [Search.items, append_assoc, map_append] at nodup
  have fits : ((t.queue ++ t.goroutines).map node).length ≤
      (level (Stored g) start (t.depth + 1)).encard := by
    apply length_le_encard (nodup_append.mp nodup).2.1
    intro n mem
    obtain ⟨res, wait, rfl⟩ := mem_map.mp mem
    have reached := inv.reached res (by
      rw [Search.items, append_assoc]
      exact mem_append_right _ wait)
    exact future res wait ▸ reached.distance
  have few : ((t.queue ++ t.goroutines).map node).length ≤ capacity := by
    exact_mod_cast fits.trans (narrow t.depth below)
  have some := length_pos_of_ne_nil stuck.running
  have full := stuck.full
  rw [length_map, length_append] at few
  omega

theorem levels_of_never_stuck (searchable : g.Searchable) (started : bfs g start = .ok begun)
    (never : ∀ schedule t, exec (step g maxDepth) begun schedule = some t →
      t.cancelled = false → ¬ Stuck t) {d : Nat} (below : (d : Int) < maxDepth) :
    (level (Stored g) start (d + 1)).encard ≤ capacity := by
  obtain ⟨hit, level, live⟩ := bfs_begins started
  obtain ⟨t, ⟨schedule, run⟩, kept, outcome⟩ := leads_to_end searchable hit
    (bfs_inv started) live level (Int.le_add_of_sub_left_le (Int.self_le_toNat _))
  obtain ⟨err, ret⟩ := outcome.resolve_left (never schedule t run kept)
  exact ((bfs_inv started).exec searchable run kept).levels_of_returned ret below

/-- A search that is not cancelled never gets stuck exactly when the channel has room for each
level that it enters. -/
theorem bfs_never_stuck_iff {graph : Graph} (searchable : graph.Searchable) {start : String}
    (maxDepth : Int) {begun : Search} (started : bfs graph start = .ok begun) :
    (∀ schedule final, exec (step graph maxDepth) begun schedule = some final →
      final.cancelled = false → ¬ Stuck final) ↔
    ∀ d : Nat, (d : Int) < maxDepth → (level (Stored graph) start (d + 1)).encard ≤ capacity := by
  constructor
  · intro never d below
    exact levels_of_never_stuck searchable started never below
  · intro narrow schedule final run uncancelled
    exact not_stuck_of_levels searchable started narrow run uncancelled

/-- The graph with two edges has no wide level. -/
theorem two_edges_never_stuck :
    ∃ s begun, exec LockFreeGraph.step (init Bool newLockFreeGraph) twoEdges = some s ∧
      bfs s.graph "a" = .ok begun ∧
      ∀ schedule final, exec (step s.graph 3) begun schedule = some final →
        final.cancelled = false → ¬ Stuck final := by
  obtain ⟨s, begun, built, first, second, started, nodes⟩ : ∃ s begun,
      exec LockFreeGraph.step (init Bool newLockFreeGraph) twoEdges = some s ∧
      s.phase false = .returned ∧ s.phase true = .returned ∧ bfs s.graph "a" = .ok begun ∧
      ∀ n ∈ s.graph.nodes.keys, n ∈ ["a", "b", "c"] :=
    ⟨_, _, rfl, rfl, rfl, rfl, by decide⟩
  have searchable := reached_searchable built (quiet_of_both first second)
  refine ⟨s, begun, built, started, (bfs_never_stuck_iff searchable 3 started).mpr fun d _ => ?_⟩
  refine (encard_le_length (l := ["a", "b", "c"]) fun n distance => ?_).trans (by decide)
  obtain ⟨m, -, stored⟩ := Distance.previous distance
  exact nodes n (mem_keys.mpr (searchable.targets m n stored))

theorem addEdge_alone {C : Type} [DecidableEq C] {s} (c : C) (e) (idle : s.phase c = .idle)
    (src : e.from_ ∈ s.graph.nodes) (target : e.to_ ∉ s.graph.nodes)
    (new : e.id ∉ s.graph.edges) :
    ∃ next, Leads LockFreeGraph.step s next ∧ next.phase = Function.update s.phase c .returned ∧
      next.graph.edges = s.graph.edges.insert e.id e ∧
      ∀ n, n ∈ next.graph.nodes ↔ n = e.to_ ∨ n ∈ s.graph.nodes := by
  obtain ⟨node, hit⟩ := mem_iff.mp src
  have ne : e.from_ ≠ e.to_ := fun eq => target (eq ▸ src)
  have run : exec LockFreeGraph.step s (.addEdge c e :: replicate 7 (.advance c)) = some
      ⟨⟨((s.graph.nodes.insert e.to_ newNode).insert e.from_ (node.storeOut e)).insert
        e.to_ (newNode.storeIn e), s.graph.edges.insert e.id e, s.graph.nodeCount + 1,
        s.graph.edgeCount + 1⟩, Function.update s.phase c .returned⟩ := by
    simp [exec, replicate, LockFreeGraph.step, LockFreeGraph.advance, State.become, idle,
      src, target, new, NodeCall.id, NodeCall.next, Graph.onNode, hit, ne, ne.symm,
      lookup_insert_of_ne]
  refine ⟨_, ⟨_, run⟩, rfl, rfl, fun n => ?_⟩
  simp only [mem_insert]
  grind

def spoke (i : Nat) : Edge := ⟨toString (i + 1), toString 0, toString (i + 1), ""⟩

structure Star (n : Nat) (s : State Nat) : Prop where
  phase : ∀ c, s.phase c = if c ≤ n then .returned else .idle
  nodes : ∀ m : Nat, toString m ∈ s.graph.nodes ↔ m ≤ n
  edges : ∀ m : Nat, toString m ∈ s.graph.edges → m ≤ n
  spokes : ∀ i < n, s.graph.edges.lookup (toString (i + 1)) = some (spoke i)

theorem exists_star (n : Nat) :
    ∃ s, Leads LockFreeGraph.step (init Nat newLockFreeGraph) s ∧ Star n s := by
  have same : ∀ m k : Nat, toString m = toString k ↔ m = k :=
    fun m k => ⟨NumberedName.toString_injective, fun eq => eq ▸ rfl⟩
  induction n with
  | zero =>
    refine ⟨_, ⟨[.addNode 0 (toString 0), .advance 0, .advance 0], rfl⟩, ?_, ?_, ?_, nofun⟩
    · intro c
      cases c <;> rfl
    · intro m
      refine (mem_insert.trans (or_iff_left notMem_empty)).trans ?_
      rw [NodeCall.id, same, Nat.le_zero]
    · intro m mem
      cases notMem_empty mem
  | succ n ih =>
    obtain ⟨s, built, star⟩ := ih
    obtain ⟨t, added, phase, edges, nodes⟩ := addEdge_alone (n + 1) (spoke n)
      (by rw [star.phase, if_neg (by omega)]) ((star.nodes 0).mpr (Nat.zero_le n))
      (fun mem => absurd ((star.nodes _).mp mem) (by omega))
      (fun mem => absurd (star.edges _ mem) (by omega))
    refine ⟨t, built.trans added, ?_, ?_, ?_, ?_⟩
    · intro c
      rw [phase, Function.update_apply, star.phase]
      grind
    · intro m
      rw [nodes, star.nodes, spoke, same]
      omega
    · intro m mem
      rw [edges, mem_insert, spoke, same] at mem
      rcases mem with here | before
      · omega
      · exact Nat.le_succ_of_le (star.edges m before)
    · intro i low
      rw [edges]
      by_cases last : i = n
      · exact last ▸ lookup_insert _
      · rw [lookup_insert_of_ne _ (by rw [spoke, Ne, same]; omega)]
        exact star.spokes i (by omega)

/-- A node with one neighbour more than the channel has room for. -/
theorem wide_star_stuck :
    ∃ s, Leads LockFreeGraph.step (init Nat newLockFreeGraph) s ∧ Quiet s ∧
      ∃ begun final, bfs s.graph "0" = .ok begun ∧ Leads (step s.graph 1) begun final ∧
        final.cancelled = false ∧ Stuck final := by
  obtain ⟨s, ⟨events, built⟩, star⟩ := exists_star (capacity + 1)
  have quiet : Quiet s := by
    intro c
    rw [star.phase]
    split
    · exact Or.inr rfl
    · exact Or.inl rfl
  obtain ⟨begun, started⟩ : ∃ begun, bfs s.graph "0" = .ok begun :=
    ⟨_, if_pos ((star.nodes 0).mpr (Nat.zero_le _))⟩
  refine ⟨s, ⟨events, built⟩, quiet, begun, ?_⟩
  by_contra none
  have few := levels_of_never_stuck (reached_searchable built quiet) started
    (fun schedule final run kept stuck => none ⟨final, started, ⟨schedule, run⟩, kept, stuck⟩)
    (d := 0) Int.one_pos
  have many : (((range (capacity + 1)).map fun i => toString (i + 1)).length : ENat) ≤
      (level (Stored s.graph) "0" 1).encard := by
    apply length_le_encard
    · refine nodup_range.map fun i j same => ?_
      exact Nat.succ.inj (NumberedName.toString_injective same)
    · intro n member
      obtain ⟨i, low, rfl⟩ := mem_map.mp member
      have stored : Stored s.graph "0" (toString (i + 1)) :=
        ⟨_, _, star.spokes i (mem_range.mp low), rfl, rfl⟩
      refine ⟨.go .stay stored, fun k walk => Nat.pos_of_ne_zero ?_⟩
      rintro rfl
      cases NumberedName.toString_injective (k := 0) (walk_zero_iff.mp walk)
  rw [length_map, length_range] at many
  exact absurd (many.trans few) (by decide)

end AsyncPractice.LockFreeGraph.BFS

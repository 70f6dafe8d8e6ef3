import AsyncPractice.GoMap
import AsyncPractice.MachineInt
import AsyncPractice.RingSuccessor
import AsyncPractice.Runs
import AsyncPractice.SliceSort

/- The hash ring of solution23_columnar_storage.go. -/
namespace AsyncPractice.ConsistentHash

section

open List RingSuccessor

open SliceSort (sortSlice)

structure Ring where
  ring : GoMap UInt32 String
  sortedKeys : List UInt32
  replicas : Nat

def newConsistentHash (replicas : Nat) : Ring := ⟨∅, [], replicas⟩

/-- The polynomial hash of the source, over the runes of the text. -/
def hash (key : String) : UInt32 :=
  key.toList.foldl (fun h c => h * 31 + c.val) 0

variable (hash : String → UInt32)

def points (replicas : Nat) (nodeID : String) : List UInt32 :=
  (List.range replicas).map fun i => hash (nodeID ++ "-" ++ toString i)

/-- `order` is the order in which the loop over the ring meets its keys. -/
def updateSortedKeys (ch : Ring) (order : List UInt32) : Ring :=
  { ch with sortedKeys := sortSlice (· < ·) order }

def insertPoints (ch : Ring) (nodeID : String) : Ring :=
  { ch with
    ring := (points hash ch.replicas nodeID).foldl (fun ring h => ring.insert h nodeID) ch.ring }

structure AddCall where
  nodeID : String
  order : List UInt32

def addNode (ch : Ring) (call : AddCall) : Option Ring :=
  let inserted := insertPoints hash ch call.nodeID
  if GoMap.Ranges call.order inserted.ring then some (updateSortedKeys inserted call.order)
  else none

/-- The binary search loop on `left` and `right`; each round of it takes one unit of fuel. -/
def searchLoop (sortedKeys : List UInt32) (hash : UInt32) : Nat → Int → Int → Int
  | 0, left, _ => left % sortedKeys.length
  | fuel + 1, left, right =>
    if left ≤ right then
      let mid := (left + right) / 2
      let key := sortedKeys.getD mid.toNat 0
      if key = hash then mid
      else if key < hash then searchLoop sortedKeys hash fuel (mid + 1) right
      else searchLoop sortedKeys hash fuel left (mid - 1)
    else left % sortedKeys.length

def search (sortedKeys : List UInt32) (hash : UInt32) : Nat :=
  (searchLoop sortedKeys hash sortedKeys.length 0 (sortedKeys.length - 1)).toNat

/-- One turn of the loop of `GetNodes`; the nodes seen are those collected. -/
def visit (ring : GoMap UInt32 String) (n : Nat) (nodes : List String) (key : UInt32) :
    List String :=
  if nodes.length < n then
    let nodeID := (ring.lookup key).getD ""
    if nodeID ∈ nodes then nodes else nodes ++ [nodeID]
  else nodes

/-- The keys in the order of the loop, from the search position round the ring. -/
def walk (sortedKeys : List UInt32) (idx : Nat) : List UInt32 :=
  (List.range sortedKeys.length).map fun i => sortedKeys.getD ((idx + i) % sortedKeys.length) 0

def getNodes (hash : String → UInt32) (ch : Ring) (key : String) (n : Nat) : List String :=
  if ch.sortedKeys.length = 0 then []
  else (walk ch.sortedKeys (search ch.sortedKeys (hash key))).foldl (visit ch.ring n) []

theorem walk_eq_rotate (keys idx) : walk keys idx = keys.rotate idx := by
  apply ext_getElem
  · simp [walk]
  · intro i left right
    have lt : i < keys.length := by simpa [walk] using left
    have bound : (idx + i) % keys.length < keys.length := Nat.mod_lt _ (by omega)
    simp [walk, getD_eq_getElem?_getD, bound, Nat.add_comm i idx]

section

variable {keys : List UInt32} {p : UInt32}

/-- The loop has put the keys before `left` below the place and those after `right` above. -/
structure Narrowed (sortedKeys : List UInt32) (place : UInt32) (left right : Int) : Prop where
  low : 0 ≤ left
  high : right < sortedKeys.length
  met : left ≤ right + 1
  before : ∀ j (bound : j < sortedKeys.length), (j : Int) < left → sortedKeys[j] < place
  after : ∀ j (bound : j < sortedKeys.length), right < j → place < sortedKeys[j]

variable (sorted : keys.Pairwise (· < ·)) (ne : 0 < keys.length) {left right : Int}

include sorted ne

theorem Narrowed.finish (narrowed : Narrowed keys p left right) (done : right < left) :
    ∃ i, ∃ bound : i < keys.length, left % keys.length = i ∧ Successor (· ∈ keys) p keys[i] := by
  obtain ⟨low, high, met, pre, after⟩ := narrowed
  by_cases inside : left < keys.length
  · refine ⟨left.toNat, by omega, ?_, ?_⟩
    · rw [Int.emod_eq_of_lt low inside]
      omega
    · apply successor_getElem sorted
      · intro j bound early
        exact pre j bound (by omega)
      · exact le_of_lt (after left.toNat (by omega) (by omega))
  · refine ⟨0, ne, ?_, ?_⟩
    · rw [show left = keys.length by omega]
      simp
    · apply successor_first sorted ne
      intro k mem
      obtain ⟨j, bound, rfl⟩ := getElem_of_mem mem
      exact pre j bound (by omega)

theorem searchLoop_spec (fuel : Nat) (narrowed : Narrowed keys p left right)
    (enough : right - left < fuel) :
    ∃ i, ∃ bound : i < keys.length, searchLoop keys p fuel left right = i ∧
      Successor (· ∈ keys) p keys[i] := by
  induction fuel generalizing left right with
  | zero => exact narrowed.finish sorted ne (by omega)
  | succ fuel ih =>
    unfold searchLoop
    split
    · obtain ⟨low, high, met, pre, after⟩ := narrowed
      have bound : ((left + right) / 2).toNat < keys.length := by omega
      have read : keys.getD ((left + right) / 2).toNat 0 = keys[((left + right) / 2).toNat] := by
        simp [getD_eq_getElem?_getD, bound]
      dsimp only
      rw [read]
      split
      next hit =>
        refine ⟨((left + right) / 2).toNat, bound, by omega, ?_⟩
        apply successor_getElem sorted
        · intro j lt early
          have less := pairwise_iff_getElem.mp sorted j _ lt bound early
          rwa [hit] at less
        · exact ge_of_eq hit
      next miss =>
        split
        next below =>
          refine ih ⟨by omega, high, by omega, ?_, after⟩ (by omega)
          intro j lt early
          exact lt_of_le_of_lt (getElem_le_getElem sorted (by omega) bound) below
        next notBelow =>
          refine ih ⟨low, by omega, by omega, pre, ?_⟩ (by omega)
          intro j lt late
          have above : p < keys[((left + right) / 2).toNat] :=
            lt_of_le_of_ne (not_lt.mp notBelow) (Ne.symm miss)
          exact lt_of_lt_of_le above (getElem_le_getElem sorted (by omega) lt)
    · exact narrowed.finish sorted ne (by omega)

/-- The search finds the successor of the hash on the ring. -/
theorem search_spec (p) :
    ∃ bound : search keys p < keys.length,
      Successor (· ∈ keys) p (keys.get ⟨search keys p, bound⟩) := by
  have start : Narrowed keys p 0 (keys.length - 1) :=
    ⟨le_rfl, by omega, by omega, fun j _ early => by omega, fun j bound late => by omega⟩
  obtain ⟨i, bound, hit, succ⟩ :=
    searchLoop_spec sorted ne keys.length start (by omega)
  have position : search keys p = i := by
    rw [search, hit]
    rfl
  simp only [position]
  exact ⟨bound, succ⟩

end

structure Sorted (ch : Ring) : Prop where
  sorted : ch.sortedKeys.Pairwise (· < ·)
  keys : ∀ key, key ∈ ch.sortedKeys ↔ key ∈ ch.ring

theorem newConsistentHash_sorted (replicas) : Sorted (newConsistentHash replicas) := by
  refine ⟨List.Pairwise.nil, fun k => ?_⟩
  simp [newConsistentHash, Finmap.notMem_empty]

variable {hash : String → UInt32} {ch t : Ring} {c : AddCall}

theorem lookup_insertPoints (ch n place) :
    (insertPoints hash ch n).ring.lookup place =
      if place ∈ points hash ch.replicas n then some n else ch.ring.lookup place := by
  have put : ∀ (places : List UInt32) (ring : GoMap UInt32 String),
      (places.foldl (fun ring h => ring.insert h n) ring).lookup place =
        if place ∈ places then some n else ring.lookup place := by
    intro places
    induction places with
    | nil => intro ring; simp
    | cons x places ih =>
      intro ring
      rw [foldl_cons, ih, GoMap.lookup_insert_ite]
      by_cases later : place ∈ places
      · simp [later]
      · by_cases here : place = x
        · simp [here]
        · simp [later, here]
  exact put _ ch.ring

structure Added (hash : String → UInt32) (nodeID : String) (ch next : Ring) : Prop where
  replicas : next.replicas = ch.replicas
  lookup : ∀ place, next.ring.lookup place =
    if place ∈ points hash ch.replicas nodeID then some nodeID else ch.ring.lookup place
  sorted : Sorted next

theorem addNode_added (took : addNode hash ch c = some t) : Added hash c.nodeID ch t := by
  unfold addNode at took
  dsimp only at took
  split at took <;> cases took
  rename_i ranges
  have perm := SliceSort.sortSlice_perm (fun a b : UInt32 => a < b) c.order
  refine ⟨rfl, lookup_insertPoints ch c.nodeID, ?_, ?_⟩
  · have strict : (sortSlice (fun a b : UInt32 => a < b) c.order).Pairwise
        (fun a b => id a < id b) :=
      SliceSort.sortSlice_strict (fun _ _ _ _ eq => eq) (fun _ _ => Iff.rfl) ranges.1
    exact strict
  · intro k
    exact perm.mem_iff.trans ranges.mem_iff

theorem Added.mem_iff {n} (added : Added hash n ch t) (place) :
    place ∈ t.ring ↔ place ∈ points hash ch.replicas n ∨ place ∈ ch.ring := by
  rw [← Finmap.lookup_isSome, ← Finmap.lookup_isSome, added.lookup]
  by_cases new : place ∈ points hash ch.replicas n
  · simp [new]
  · simp [new]

theorem reached_sorted {replicas cs}
    (came : Runs.exec (addNode hash) (newConsistentHash replicas) cs = some ch) : Sorted ch :=
  Runs.exec_invariant Sorted (newConsistentHash_sorted replicas)
    (fun _ _ _ _ took => (addNode_added took).sorted) came

end

section

open List

open RingSuccessor (Successor)

open Runs (exec)

theorem foldl_visit_full (ring) {n nodes} (full : n ≤ nodes.length) (keys : List UInt32) :
    keys.foldl (visit ring n) nodes = nodes := by
  induction keys with
  | nil => rfl
  | cons k keys ih =>
    rw [foldl_cons, visit, if_neg (by omega)]
    exact ih

theorem getNodes_one (hash) {ch} (held : Sorted ch) (k : String) :
    (ch.sortedKeys = [] ∧ getNodes hash ch k 1 = []) ∨
      ∃ point, Successor (· ∈ ch.ring) (hash k) point ∧
        getNodes hash ch k 1 = [(ch.ring.lookup point).getD ""] := by
  by_cases empty : ch.sortedKeys.length = 0
  · left
    exact ⟨length_eq_zero_iff.mp empty, by rw [getNodes, if_pos empty]⟩
  · right
    obtain ⟨bound, succ⟩ := search_spec held.sorted (by omega) (hash k)
    refine ⟨ch.sortedKeys.get ⟨search ch.sortedKeys (hash k), bound⟩, ?_, ?_⟩
    · simpa only [held.keys] using succ
    · rw [getNodes, if_neg empty, walk]
      obtain ⟨count, eq⟩ : ∃ count, ch.sortedKeys.length = count + 1 :=
        ⟨ch.sortedKeys.length - 1, by omega⟩
      have x : ch.sortedKeys.getD ((search ch.sortedKeys (hash k) + 0) %
          ch.sortedKeys.length) 0 = ch.sortedKeys.get ⟨search ch.sortedKeys (hash k), bound⟩ := by
        rw [Nat.add_zero, Nat.mod_eq_of_lt bound, getD_eq_getElem?_getD, getElem?_eq_getElem bound]
        rfl
      rw [show range ch.sortedKeys.length = 0 :: (range count).map Nat.succ by
        rw [eq, range_succ_eq_map], map_cons, foldl_cons, x]
      rw [foldl_visit_full]
      · simp [visit]
      · simp [visit]

/-- After a call of `AddNode` the owner of a key is the one it had or the new node. -/
theorem owner_same_or_new (hash : String → UInt32) (replicas : Nat) {calls : List AddCall}
    {ch next : Ring} {call : AddCall}
    (reached : exec (addNode hash) (newConsistentHash replicas) calls = some ch)
    (stepped : addNode hash ch call = some next) (key : String) :
    getNodes hash next key 1 = getNodes hash ch key 1 ∨
      getNodes hash next key 1 = [call.nodeID] := by
  have before := reached_sorted reached
  have added := addNode_added stepped
  have grows : ∀ place, place ∈ ch.ring → place ∈ next.ring :=
    fun place present => (added.mem_iff place).mpr (Or.inr present)
  rcases getNodes_one hash added.sorted key with ⟨empty, none⟩ | ⟨point, successor, owner⟩
  · left
    have empty' : ch.sortedKeys = [] := by
      by_contra some
      obtain ⟨place, member⟩ := exists_mem_of_ne_nil _ some
      have still := (added.sorted.keys place).mpr (grows place ((before.keys place).mp member))
      rw [empty] at still
      cases still
    rw [none, getNodes, if_pos (by rw [empty']; rfl)]
  · rw [owner, added.lookup]
    by_cases new : point ∈ points hash ch.replicas call.nodeID
    · right
      rw [if_pos new]
      rfl
    · left
      have kept : point ∈ ch.ring := ((added.mem_iff point).mp successor.member).resolve_left new
      have old := successor.restrict grows kept
      rw [if_neg new]
      rcases getNodes_one hash before key with ⟨empty, -⟩ | ⟨point', successor', owner'⟩
      · have member := (before.keys point).mpr kept
        rw [empty] at member
        cases member
      · rw [owner', successor'.unique old]

theorem owner_same_or_new_joining :
    ∃ ch next, exec (addNode hash) (newConsistentHash 1) [⟨"a", points hash 1 "a"⟩] = some ch ∧
      addNode hash ch ⟨"b", points hash 1 "a" ++ points hash 1 "b"⟩ = some next ∧
      (getNodes hash next "key" 1 = getNodes hash ch "key" 1 ∨
        getNodes hash next "key" 1 = ["b"]) := by
  have both : ((exec (addNode hash) (newConsistentHash 1) [⟨"a", points hash 1 "a"⟩]).bind
      fun ch => addNode hash ch ⟨"b", points hash 1 "a" ++ points hash 1 "b"⟩).isSome := by
    decide
  obtain ⟨next, run⟩ := Option.isSome_iff_exists.mp both
  obtain ⟨ch, reached, stepped⟩ := Option.bind_eq_some_iff.mp run
  exact ⟨ch, next, reached, stepped, owner_same_or_new hash 1 reached stepped "key"⟩

end

/- The order in which `GetNodes` meets the owners of the ring points. -/
section

open List

open RingSuccessor (clockwise rotate_eq_clockwise)

open Runs (exec exists_exec)

def Ring.owner (ch : Ring) (place : UInt32) : String := (ch.ring.lookup place).getD ""

theorem eraseDups_snoc {α : Type} [DecidableEq α] (l) (a : α) :
    (l ++ [a]).eraseDups = if a ∈ l then l.eraseDups else l.eraseDups ++ [a] := by
  rw [eraseDups_append]
  by_cases old : a ∈ l
  · simp [removeAll, old]
  · simp [removeAll, old, eraseDups_cons]

theorem visit_eq (ch : Ring) (n) (ns : List String) (k) :
    visit ch.ring n ns k = if ns.length < n then if ch.owner k ∈ ns then ns else ns ++ [ch.owner k]
      else ns := rfl

/-- The loop collects the first owners without repetition, up to the number asked for. -/
theorem foldl_visit_eq_take (ch : Ring) (n) (keys : List UInt32) :
    keys.foldl (visit ch.ring n) [] = (keys.map ch.owner).eraseDups.take n := by
  induction keys using reverseRecOn with
  | nil => simp
  | append_singleton keys k ih =>
    rw [foldl_concat, ih, visit_eq, List.map_append, map_singleton, eraseDups_snoc, length_take]
    by_cases room : (keys.map ch.owner).eraseDups.length < n
    · rw [if_pos (by omega), take_of_length_le (Nat.le_of_lt room)]
      by_cases seen : ch.owner k ∈ keys.map ch.owner
      · rw [if_pos (mem_eraseDups.mpr seen), if_pos seen, take_of_length_le (Nat.le_of_lt room)]
      · rw [if_neg fun met => seen (mem_eraseDups.mp met), if_neg seen,
          take_of_length_le (by rw [length_append, length_singleton]; omega)]
    · rw [if_neg (by omega)]
      split
      · rfl
      · rw [take_append_of_le_length (by omega)]

/-- On any ring that `AddNode` builds, the sorted keys are the keys of the ring in increasing order,
and `GetNodes` returns the first `n` different owners met clockwise from the hash of the key. -/
theorem getNodes_clockwise (hash : String → UInt32) (replicas : Nat) {calls : List AddCall}
    {ch : Ring} (reached : exec (addNode hash) (newConsistentHash replicas) calls = some ch)
    (key : String) (n : Nat) :
    ch.sortedKeys.Pairwise (· < ·) ∧ (∀ place, place ∈ ch.sortedKeys ↔ place ∈ ch.ring) ∧
      getNodes hash ch key n =
        ((clockwise (hash key) ch.sortedKeys).map ch.owner).eraseDups.take n := by
  have held := reached_sorted reached
  refine ⟨held.sorted, held.keys, ?_⟩
  unfold getNodes
  split
  · rename_i empty
    rw [length_eq_zero_iff.mp empty]
    simp [clockwise]
  · obtain ⟨bound, successor⟩ := search_spec held.sorted (by omega) (hash key)
    rw [walk_eq_rotate, rotate_eq_clockwise held.sorted bound successor, foldl_visit_eq_take]

/-- Two nodes with two points each. The key's hash lies after all of them. -/
theorem getNodes_wraps_around :
    ∃ ch, exec (addNode hash) (newConsistentHash 2)
        [⟨"a", points hash 2 "a"⟩, ⟨"b", points hash 2 "b" ++ points hash 2 "a"⟩] = some ch ∧
      (∀ place ∈ ch.sortedKeys, place < hash "key") ∧ getNodes hash ch "key" 2 = ["a", "b"] ∧
      getNodes hash ch "key" 2 =
        ((clockwise (hash "key") ch.sortedKeys).map ch.owner).eraseDups.take 2 := by
  refine exists_exec (fun ch => ch.sortedKeys.all (· < hash "key") = true ∧
    getNodes hash ch "key" 2 = ["a", "b"]) (by decide) ?_
  intro ch reached ⟨after, nodes⟩
  exact ⟨by simpa using after, nodes, (getNodes_clockwise hash 2 reached "key" 2).2.2⟩

end

open List Runs

theorem mem_walk {sortedKeys} (idx) {k} : k ∈ walk sortedKeys idx ↔ k ∈ sortedKeys := by
  rw [walk_eq_rotate, mem_rotate]

/-- Nodes collected from some keys of the ring: different ones, and all of them unless there
were enough. -/
structure Collected (ring : GoMap UInt32 String) (n : Nat) (keys : List UInt32)
    (nodes : List String) : Prop where
  nodup : nodes.Nodup
  owners : ∀ node ∈ nodes, ∃ key ∈ keys, (ring.lookup key).getD "" = node
  limit : nodes.length ≤ n
  complete : nodes.length < n → ∀ key ∈ keys, (ring.lookup key).getD "" ∈ nodes

theorem Collected.visit {ring n keys ns} (got : Collected ring n keys ns) (k) :
    Collected ring n (keys ++ [k]) (visit ring n ns k) := by
  have wider : ∀ node ∈ ns, ∃ x ∈ keys ++ [k], (ring.lookup x).getD "" = node := by
    intro node mem
    obtain ⟨x, hit, owner⟩ := got.owners node mem
    exact ⟨x, mem_append_left _ hit, owner⟩
  unfold ConsistentHash.visit
  split
  next room =>
    dsimp only
    split
    next seen =>
      refine ⟨got.nodup, wider, got.limit, fun room x mem => ?_⟩
      rcases mem_append.mp mem with old | new
      · exact got.complete room x old
      · rw [mem_singleton.mp new]
        exact seen
    next fresh =>
      refine ⟨?_, ?_, ?_, ?_⟩
      · rw [← concat_eq_append]
        exact got.nodup.concat fresh
      · exact forall_mem_snoc wider ⟨k, by simp, rfl⟩
      · rw [length_append, length_singleton]
        omega
      · intro _ x mem
        rcases mem_append.mp mem with old | new
        · exact mem_append_left _ (got.complete room x old)
        · rw [mem_singleton.mp new]
          simp
  next full =>
    exact ⟨got.nodup, wider, got.limit, fun room => absurd room full⟩

theorem foldl_visit_collected (ring n keys) :
    Collected ring n keys (keys.foldl (visit ring n) []) := by
  induction keys using List.reverseRecOn with
  | nil => exact ⟨nodup_nil, by simp, Nat.zero_le n, by simp⟩
  | append_singleton keys k ih =>
    rw [foldl_concat]
    exact ih.visit k

def Owns (ch : Ring) (nodeID : String) : Prop := ∃ place, ch.ring.lookup place = some nodeID

/-- `GetNodes` returns different owners, and all of them if it returns fewer than asked for. -/
theorem getNodes_spec (hash) {ch} (held : Sorted ch) (k n) :
    (getNodes hash ch k n).Nodup ∧ (∀ id ∈ getNodes hash ch k n, Owns ch id) ∧
      (getNodes hash ch k n).length ≤ n ∧
      ((getNodes hash ch k n).length < n → ∀ id, Owns ch id → id ∈ getNodes hash ch k n) := by
  have hit : ∀ p id, ch.ring.lookup p = some id → p ∈ ch.sortedKeys :=
    fun p id found => (held.keys p).mpr (Finmap.mem_of_lookup_eq_some found)
  unfold getNodes
  split
  next empty =>
    refine ⟨nodup_nil, by simp, Nat.zero_le n, ?_⟩
    rintro - id ⟨p, found⟩
    have mem := hit p id found
    rw [length_eq_zero_iff.mp empty] at mem
    cases mem
  · obtain ⟨nodup, owners, limit, complete⟩ := foldl_visit_collected ch.ring n
      (walk ch.sortedKeys (search ch.sortedKeys (hash k)))
    refine ⟨nodup, ?_, limit, ?_⟩
    · intro id mem
      obtain ⟨p, visited, owner⟩ := owners id mem
      have there := (held.keys p).mp ((mem_walk _).mp visited)
      obtain ⟨found, lookup⟩ := Finmap.mem_iff.mp there
      rw [lookup] at owner
      exact ⟨p, lookup.trans (congrArg some owner)⟩
    · rintro room id ⟨p, found⟩
      have owner := complete room p ((mem_walk _).mpr (hit p id found))
      rwa [found] at owner

/-- Of the node's points at least one is taken by no node added after it. -/
def KeepsPoint (hash : String → UInt32) (replicas : Nat) (ids : List String) (id : String) : Prop :=
  ∃ before after, ids = before ++ id :: after ∧
    ∃ place ∈ points hash replicas id, ∀ other ∈ after, place ∉ points hash replicas other

section

variable {hash : String → UInt32} {replicas : Nat} {cs : List AddCall} {ch : Ring}
  (came : exec (addNode hash) (newConsistentHash replicas) cs = some ch)
include came

theorem lookup_reached (p) :
    ch.ring.lookup p = (cs.map (·.nodeID)).reverse.find?
      (fun id => decide (p ∈ points hash replicas id)) := by
  have hist : ch.replicas = replicas ∧ ∀ p, ch.ring.lookup p =
      (cs.map (·.nodeID)).reverse.find? (fun id => decide (p ∈ points hash replicas id)) := by
    refine exec_history (fun cs ch => ch.replicas = replicas ∧ ∀ p, ch.ring.lookup p =
      (cs.map (·.nodeID)).reverse.find?
        (fun id => decide (p ∈ points hash replicas id))) ⟨rfl, ?_⟩ ?_ came
    · intro p
      exact Finmap.lookup_empty p
    · rintro cs ch c t - ⟨eq, lookup⟩ stepped
      have added := addNode_added stepped
      refine ⟨added.replicas.trans eq, fun p => ?_⟩
      rw [added.lookup, eq, lookup, map_append, reverse_append, map_singleton,
        reverse_singleton, singleton_append, find?_cons]
      by_cases taken : p ∈ points hash replicas c.nodeID
      · simp [taken]
      · simp [taken]
  exact hist.2 p

theorem owns_iff_keepsPoint (id) :
    Owns ch id ↔ KeepsPoint hash replicas (cs.map (·.nodeID)) id := by
  constructor
  · rintro ⟨p, hit⟩
    rw [lookup_reached came, find?_eq_some_iff_append] at hit
    obtain ⟨has, later, earlier, split, free⟩ := hit
    refine ⟨earlier.reverse, later.reverse, ?_, p, by simpa using has, ?_⟩
    · rw [← reverse_reverse (cs.map (·.nodeID)), split]
      simp
    · intro other mem
      simpa using free other (mem_reverse.mp mem)
  · rintro ⟨pre, after, split, p, has, free⟩
    refine ⟨p, ?_⟩
    rw [lookup_reached came, find?_eq_some_iff_append, split]
    refine ⟨by simpa using has, after.reverse, pre.reverse, by simp, ?_⟩
    intro other mem
    simpa using free other (mem_reverse.mp mem)

theorem mem_of_owns {id} (owns : Owns ch id) : id ∈ cs.map (·.nodeID) := by
  obtain ⟨pre, after, split, -⟩ := (owns_iff_keepsPoint came id).mp owns
  rw [split]
  simp

end

/-- For every key `GetNodes` returns as many different added nodes as asked for, or all of them,
exactly when every node keeps a point that no later one takes. -/
theorem returns_distinct_nodes_iff (replicas : Nat) {calls : List AddCall} {ch : Ring}
    (reached : exec (addNode hash) (newConsistentHash replicas) calls = some ch) :
    (∀ key n, (getNodes hash ch key n).length = min n (calls.map (·.nodeID)).toFinset.card ∧
        (getNodes hash ch key n).Nodup ∧
        ∀ id ∈ getNodes hash ch key n, id ∈ calls.map (·.nodeID)) ↔
      ∀ id ∈ calls.map (·.nodeID), KeepsPoint hash replicas (calls.map (·.nodeID)) id := by
  have held := reached_sorted reached
  constructor
  · intro returned id member
    obtain ⟨count, nodup, added⟩ := returned "" (calls.map (·.nodeID)).toFinset.card
    rw [min_self] at count
    have all : (getNodes hash ch "" (calls.map (·.nodeID)).toFinset.card).toFinset =
        (calls.map (·.nodeID)).toFinset := by
      apply Finset.eq_of_subset_of_card_le
      · intro other inside
        exact mem_toFinset.mpr (added other (mem_toFinset.mp inside))
      · rw [toFinset_card_of_nodup nodup, count]
    rw [← mem_toFinset, ← all, mem_toFinset] at member
    exact (owns_iff_keepsPoint reached id).mp ((getNodes_spec hash held _ _).2.1 id member)
  · intro keeps key n
    obtain ⟨nodup, owners, limit, complete⟩ := getNodes_spec hash held key n
    have added : ∀ id ∈ getNodes hash ch key n, id ∈ calls.map (·.nodeID) :=
      fun id member => mem_of_owns reached (owners id member)
    refine ⟨?_, nodup, added⟩
    have subset : (getNodes hash ch key n).toFinset ⊆ (calls.map (·.nodeID)).toFinset :=
      fun id inside => mem_toFinset.mpr (added id (mem_toFinset.mp inside))
    have fewer := Finset.card_le_card subset
    rw [toFinset_card_of_nodup nodup] at fewer
    by_cases room : (getNodes hash ch key n).length < n
    · have more : (calls.map (·.nodeID)).toFinset ⊆ (getNodes hash ch key n).toFinset := by
        intro id inside
        have owns := (owns_iff_keepsPoint reached id).mpr (keeps id (mem_toFinset.mp inside))
        exact mem_toFinset.mpr (complete room id owns)
      have other := Finset.card_le_card more
      rw [toFinset_card_of_nodup nodup] at other
      omega
    · omega

def callsFor (replicas : Nat) (ids : List String) : List AddCall :=
  ids.inits.tail.filterMap fun added => added.getLast?.map fun id =>
    ⟨id, (added.flatMap (points hash replicas)).dedup⟩

theorem returns_distinct_nodes_iff_two :
    ∃ ch, exec (addNode hash) (newConsistentHash 1) (callsFor 1 ["a", "b"]) = some ch ∧
      (getNodes hash ch "key" 3).length = 2 := by
  refine exists_exec (fun _ => True) (by decide) fun ch reached _ => ?_
  have keeps : ∀ id ∈ (callsFor 1 ["a", "b"]).map (·.nodeID),
      KeepsPoint hash 1 ((callsFor 1 ["a", "b"]).map (·.nodeID)) id := by
    intro id member
    rcases mem_pair.mp member with rfl | rfl
    · exact ⟨[], ["b"], rfl, hash "a-0", by decide, by decide⟩
    · exact ⟨["a"], [], rfl, hash "b-0", by decide, by decide⟩
  exact ((returns_distinct_nodes_iff 1 reached).mpr keeps "key" 3).1

/-- The names "Aa" and "BB" have the same hash with any number behind them, so the node added
second takes all the points of the first. -/
theorem colliding_node_lost :
    ((exec (addNode hash) (newConsistentHash 3) (callsFor 3 ["Aa", "BB"])).map
      fun ch => getNodes hash ch "key" 2) = some ["BB"] := by
  decide

end AsyncPractice.ConsistentHash

import AsyncPractice.MachineInt
import AsyncPractice.ObjectStorage

/- The space the data nodes account for. `Put` adds the size of every chunk it writes to the
node's `Used`, without looking at what it replaces and at what the node can hold. -/
namespace AsyncPractice.ObjectStorage

open List Runs
open MachineInt (toInt_add_ofNat)

def DataNode.held (node : DataNode) : Nat :=
  GoMap.total (fun chunk => chunk.data.length) node.objects

/-- `Used` is the size of what is there, and it fits. -/
def DataNode.Accounted (node : DataNode) : Prop :=
  node.used.toInt = node.held ∧ node.used ≤ node.capacity

/-- A chunk of the size can be written under the key: it replaces no bytes and there is room. -/
def DataNode.Takes (node : DataNode) (chunkKey : String) (size : Nat) : Prop :=
  (∀ old, node.objects.lookup chunkKey = some old → old.data = []) ∧
    node.used.toInt + size ≤ node.capacity.toInt

instance (node : DataNode) (chunkKey : String) (size : Nat) :
    Decidable (node.Takes chunkKey size) :=
  decidable_of_iff
    (((node.objects.lookup chunkKey).all (·.data = []) : Prop) ∧
      node.used.toInt + size ≤ node.capacity.toInt) (by
    unfold DataNode.Takes
    cases node.objects.lookup chunkKey <;> simp)

/-- The count of a node survives the write of a chunk exactly when the node takes it. -/
theorem accounted_store_iff {n : DataNode} (accounted : n.Accounted) (sha256 k chunkID chunkData) :
    (n.store sha256 k chunkID chunkData).Accounted ↔
      n.Takes (chunkKey k chunkID) chunkData.length := by
  obtain ⟨used, fits⟩ := accounted
  have top := n.capacity.toInt_lt
  have top' := (n.used + .ofNat chunkData.length).toInt_lt
  have bottom' := (n.used + .ofNat chunkData.length).le_toInt
  rw [Int64.le_iff_toInt_le] at fits
  obtain ⟨turns, sum⟩ := toInt_add_ofNat n.used chunkData.length
  have new := GoMap.total_insert (fun chunk : DataChunk => chunk.data.length) n.objects
    (chunkKey k chunkID) ⟨k, chunkID, chunkData, calculateChecksum sha256 chunkData,
      .ofNat chunkData.length⟩
  have part := GoMap.le_total (fun chunk : DataChunk => chunk.data.length) n.objects
    (chunkKey k chunkID)
  have empty : (∀ old, n.objects.lookup (chunkKey k chunkID) = some old → old.data = []) ↔
      ((n.objects.lookup (chunkKey k chunkID)).map (·.data.length)).getD 0 = 0 := by
    cases n.objects.lookup (chunkKey k chunkID) <;> simp
  unfold DataNode.Accounted DataNode.Takes
  rw [empty, Int64.le_iff_toInt_le]
  simp only [DataNode.store, DataNode.held] at used new part ⊢
  generalize ((n.objects.lookup (chunkKey k chunkID)).map (·.data.length)).getD 0 = old
    at new part ⊢
  -- What is written over is part of what the node holds, so it is less than a full turn.
  constructor
  · rintro ⟨exact, small⟩
    omega
  · rintro ⟨rfl, room⟩
    omega

/-- What a `Put` that goes through asks of the nodes. -/
def Fits (sha256 : Bytes → Bytes) (dos : DistributedObjectStorage) (call : PutCall) : Prop :=
  ∀ data, call.reader = .ok data → (put sha256 dos call).2 = .ok () →
    ∀ i < dos.erasureCoder.dataChunks + dos.erasureCoder.parityChunks, ∀ node,
      dos.nodes[i]? = some node →
      node.Takes (chunkKey call.key i) (dos.erasureCoder.chunkSize data)

def Accounted (dos : DistributedObjectStorage) : Prop := ∀ node ∈ dos.nodes, node.Accounted

variable {sha256 : Bytes → Bytes} {dos t : DistributedObjectStorage} {k : String}
  {data : Bytes} {order : List Nat}

theorem Written.accounted_iff (wrote : Written sha256 k data order dos t) (gs : order.Perm
      (List.range (dos.erasureCoder.dataChunks + dos.erasureCoder.parityChunks)))
    (accounted : Accounted dos) :
    Accounted t ↔ ∀ i < dos.erasureCoder.dataChunks + dos.erasureCoder.parityChunks, ∀ n,
      dos.nodes[i]? = some n →
      n.Takes (chunkKey k i) (dos.erasureCoder.chunkSize data) := by
  have mem : ∀ i, i ∈ order ↔ i < dos.erasureCoder.dataChunks + dos.erasureCoder.parityChunks := by
    intro i
    rw [gs.mem_iff, mem_range]
  have each : ∀ i < dos.erasureCoder.dataChunks + dos.erasureCoder.parityChunks, ∀ n,
      dos.nodes[i]? = some n →
      ((n.store sha256 k i ((dos.erasureCoder.encode data).getD i [])).Accounted ↔
        n.Takes (chunkKey k i) (dos.erasureCoder.chunkSize data)) := by
    intro i lt n hit
    rw [accounted_store_iff (accounted n (mem_of_getElem? hit)),
      dos.erasureCoder.length_getD_encode data lt]
  constructor
  · intro after i lt n hit
    apply (each i lt n hit).mp
    apply after
    apply mem_of_getElem? (i := i)
    rw [wrote.nodes, if_pos ((mem i).mpr lt), hit]
    rfl
  · intro takes n stored
    obtain ⟨i, found⟩ := mem_iff_getElem?.mp stored
    rw [wrote.nodes] at found
    split at found
    next chosen =>
      obtain ⟨old, hit, rfl⟩ := Option.map_eq_some_iff.mp found
      have lt := (mem i).mp chosen
      exact (each i lt old hit).mpr (takes i lt old hit)
    · exact accounted n (mem_of_getElem? found)

theorem accounted_put_iff {c} (accounted : Accounted dos) (gs : c.order.Perm
      (List.range (dos.erasureCoder.dataChunks + dos.erasureCoder.parityChunks))) :
    Accounted (put sha256 dos c).1 ↔ Fits sha256 dos c := by
  rcases put_cases sha256 dos c gs with ⟨err, failed⟩ | ⟨data, reader, ok, wrote⟩
  · rw [failed]
    constructor
    · intro _ data _ ret
      rw [failed] at ret
      cases ret
    · exact fun _ => accounted
  · rw [wrote.accounted_iff gs accounted]
    constructor
    · intro takes data' reader' _
      rw [reader, Except.ok.injEq] at reader'
      exact reader' ▸ takes
    · exact fun fits => fits data reader ok

theorem new_accounted (numNodes) : Accounted (newDistributedObjectStorage numNodes) := by
  intro n mem
  obtain ⟨i, -, rfl⟩ := mem_map.mp mem
  exact ⟨rfl, show (0 : Int64) ≤ 1024 * 1024 * 1024 by decide⟩

/-- After any `Put` calls, one after another, every node's `Used` is the size of its chunks and
within its capacity, exactly when no `Put` that goes through writes over a chunk with bytes in it
or brings a node a chunk it has no room for. -/
theorem usage_exact_iff (sha256 : Bytes → Bytes) (numNodes : Nat) {calls : List PutCall}
    (goroutines : ∀ call ∈ calls, call.order.Perm (List.range 6)) :
    Throughout (step sha256) Accounted (newDistributedObjectStorage numNodes) calls ↔
      Along (step sha256) (Fits sha256) (newDistributedObjectStorage numNodes) calls := by
  refine throughout_iff_along (fun dos => Accounted dos ∧ dos.erasureCoder = ⟨4, 2⟩)
    ⟨new_accounted numNodes, rfl⟩ (fun dos held => held.1)
    (fun call => call.order.Perm (range 6)) ?_ ?_ goroutines
  · intro dos call next held order fits stepped
    have perm : call.order.Perm
        (range (dos.erasureCoder.dataChunks + dos.erasureCoder.parityChunks)) := by
      rw [held.2]
      exact order
    rw [step, if_pos perm, Option.some.injEq] at stepped
    subst stepped
    refine ⟨(accounted_put_iff held.1 perm).mpr fits, ?_⟩
    rcases put_cases sha256 dos call perm with ⟨err, failed⟩ | ⟨data, -, -, written⟩
    · rw [failed]
      exact held.2
    · exact written.coder.trans held.2
  · intro dos call held order good
    have perm : call.order.Perm
        (range (dos.erasureCoder.dataChunks + dos.erasureCoder.parityChunks)) := by
      rw [held.2]
      exact order
    exact (accounted_put_iff held.1 perm).mp (good _ (if_pos perm))

def fitsTest (dos : DistributedObjectStorage) (call : PutCall) : Bool :=
  match call.reader with
  | .error _ => true
  | .ok data => (List.range (dos.erasureCoder.dataChunks + dos.erasureCoder.parityChunks)).all
      fun i => dos.nodes[i]?.all fun node =>
        decide (node.Takes (chunkKey call.key i) (dos.erasureCoder.chunkSize data))

theorem fits_of_test (sha256) {dos c} (ok : fitsTest dos c = true) : Fits sha256 dos c := by
  intro data reader _ i lt n hit
  simp only [fitsTest, reader, all_eq_true, mem_range] at ok
  simpa [hit] using ok i lt

/-- Two keys and a replaced empty object are accounted for. -/
theorem usage_exact_two_keys :
    Throughout (step id) Accounted (newDistributedObjectStorage 6)
      [⟨"a", .ok [], List.range 6⟩, ⟨"a", .ok [1, 2, 3, 4, 5], List.range 6⟩,
        ⟨"b", .ok [1], [5, 4, 3, 2, 1, 0]⟩] :=
  (usage_exact_iff id 6 (by decide)).mpr
    (along_of_check fitsTest (fun _ _ => fits_of_test id) (by decide +kernel))

/-- Every chunk of a key that is put again counts twice. -/
theorem put_again_counts_twice :
    ((exec (step id) (newDistributedObjectStorage 6)
        [⟨"a", .ok [1, 2, 3, 4], List.range 6⟩, ⟨"a", .ok [5, 6, 7, 8], List.range 6⟩]).map
      fun dos => dos.nodes.map fun node => (node.used, node.held)) =
      some (List.replicate 6 (2, 1)) := by
  decide +kernel

/-- The node is active and has free capacity. -/
def DataNode.CanTake (node : DataNode) : Prop :=
  node.status = .active ∧ 0 < node.capacity - node.used

instance (node : DataNode) : Decidable node.CanTake :=
  inferInstanceAs (Decidable (node.status = .active ∧ 0 < node.capacity - node.used))

/-- The nodes that `selectNodes` looks at are the first ones, however many can take a chunk. -/
theorem length_selectNodes (dos : DistributedObjectStorage) (numChunks) :
    (dos.selectNodes numChunks).length = (dos.nodes.take numChunks).countP (·.CanTake) := by
  have front : (range (min numChunks dos.nodes.length)).map (dos.nodes[·]?) =
      (dos.nodes.take numChunks).map some := by
    apply ext_getElem (by simp)
    intro i left right
    have lt : i < dos.nodes.length := by
      rw [length_map, length_range] at left
      omega
    simp [lt]
  rw [selectNodes_eq, ← countP_eq_length_filter]
  calc (range (min numChunks dos.nodes.length)).countP
        (fun i => dos.nodes[i]?.any fun n => decide n.CanTake)
      = ((dos.nodes.take numChunks).map some).countP (Option.any fun n => n.CanTake) := by
        rw [← front, countP_map]
        rfl
    _ = (dos.nodes.take numChunks).countP (·.CanTake) := by
        rw [countP_map]
        rfl

/-- Enough nodes are selected when none of the first is passed over. -/
theorem enough_selected_iff {dos : DistributedObjectStorage} {numChunks : Nat}
    (room : numChunks ≤ dos.nodes.length) :
    numChunks ≤ (dos.selectNodes numChunks).length ↔ ∀ n ∈ dos.nodes.take numChunks, n.CanTake := by
  have front : (dos.nodes.take numChunks).length = numChunks := by
    rw [length_take]
    omega
  have most := countP_le_length (p := fun n => decide n.CanTake) (l := dos.nodes.take numChunks)
  have all := countP_eq_length (p := fun n => decide n.CanTake) (l := dos.nodes.take numChunks)
  simp only [decide_eq_true_eq] at all
  rw [length_selectNodes, ← all]
  omega

/-- `Put` fails for want of nodes whenever too few can take a chunk. That it fails only then is
the same as that the first nodes can all take one once there are enough anywhere. Where it goes
through, node `i` takes chunk `i` and no other. -/
theorem put_fails_on_shortage_iff (sha256 : Bytes → Bytes) (dos : DistributedObjectStorage)
    (call : PutCall) {data : Bytes} (reading : call.reader = .ok data)
    (goroutines : call.order.Perm
      (List.range (dos.erasureCoder.dataChunks + dos.erasureCoder.parityChunks))) :
    let needed := dos.erasureCoder.dataChunks + dos.erasureCoder.parityChunks
    (((put sha256 dos call).2 = .error "not enough nodes available" ↔
        dos.nodes.countP (·.CanTake) < needed) ↔
      (needed ≤ dos.nodes.countP (·.CanTake) →
        ∀ node ∈ dos.nodes.take needed, node.CanTake)) ∧
    ((put sha256 dos call).2 = .ok () →
      needed ≤ dos.nodes.length ∧
      ∀ i, (put sha256 dos call).1.nodes[i]? =
        if i < needed then dos.nodes[i]?.map
          (DataNode.store sha256 call.key i ((dos.erasureCoder.encode data).getD i []))
        else dos.nodes[i]?) := by
  intro needed
  constructor
  · have chunks : (dos.erasureCoder.encode data).length = needed := by simp [needed]
    have fails : (put sha256 dos call).2 = .error "not enough nodes available" ↔
        (dos.selectNodes needed).length < needed := by
      simp only [put, reading, chunks]
      split <;> simp [*]
    have counted : (dos.selectNodes needed).length ≤ dos.nodes.countP (·.CanTake) := by
      rw [length_selectNodes]
      exact (take_sublist needed dos.nodes).countP_le
    have most : dos.nodes.countP (·.CanTake) ≤ dos.nodes.length := countP_le_length
    rw [fails]
    constructor
    · intro onlyThen many
      apply (enough_selected_iff (by omega)).mp
      omega
    · intro front
      by_cases many : needed ≤ dos.nodes.countP (·.CanTake)
      · have enough := (enough_selected_iff (by omega)).mpr (front many)
        omega
      · omega
  · intro ok
    rcases put_cases sha256 dos call goroutines with ⟨err, failed⟩ | ⟨data', reading', -, written⟩
    · rw [failed] at ok
      cases ok
    · rw [reading, Except.ok.injEq] at reading'
      subst reading'
      refine ⟨written.room, fun i => ?_⟩
      rw [written.nodes]
      have started : i ∈ call.order ↔ i < needed := by
        rw [goroutines.mem_iff, mem_range]
      simp only [started]

theorem put_on_six_nodes :
    let dos := newDistributedObjectStorage 6
    ((put id dos wholeCall).2 = .error "not enough nodes available" ↔
      dos.nodes.countP (·.CanTake) < 6) ∧
    ∀ i, (put id dos wholeCall).1.nodes[i]? =
      if i < 6 then dos.nodes[i]?.map
        (DataNode.store id "a" i ((dos.erasureCoder.encode [1, 2, 3, 4]).getD i []))
      else dos.nodes[i]? := by
  obtain ⟨exactly, placed⟩ :=
    put_fails_on_shortage_iff id (newDistributedObjectStorage 6) wholeCall rfl (by decide)
  exact ⟨exactly.mpr fun _ => by decide, (placed rfl).2⟩

def firstFailed : DistributedObjectStorage :=
  { newDistributedObjectStorage 7 with
    nodes := (newDistributedObjectStorage 7).nodes.modify 0 ({ · with status := .failed }) }

theorem put_fails_with_six_of_seven :
    firstFailed.nodes.countP (·.CanTake) = 6 ∧
      (put id firstFailed wholeCall).2 = .error "not enough nodes available" :=
  ⟨by decide, rfl⟩

end AsyncPractice.ObjectStorage

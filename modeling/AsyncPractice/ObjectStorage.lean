import AsyncPractice.ErasureCoder
import AsyncPractice.GoMap
import AsyncPractice.Runs
import AsyncPractice.NumberedName

/- DistributedObjectStorage of solution24_object_storage.go. `Put` and `Get` start one goroutine
a chunk; each is one atomic step here and the order in which they run is an argument. -/
namespace AsyncPractice.ObjectStorage

section

open List

structure DataChunk where
  objectID : String
  chunkID : Nat
  data : Bytes
  checksum : String
  size : Int64

inductive Status
  | active
  | failed
  deriving DecidableEq

structure DataNode where
  id : String
  capacity : Int64
  used : Int64
  objects : GoMap String DataChunk
  status : Status

structure ObjectMetadata where
  key : String
  size : Int64
  chunks : Nat
  parityChunks : Nat
  checksum : String

inductive ChunkType
  | data
  | parity

structure ChunkLocation where
  chunkID : Nat
  nodeID : String
  type : ChunkType

/-- The metadata service is the two maps `objects` and `location`. -/
structure DistributedObjectStorage where
  nodes : List DataNode
  objects : GoMap String ObjectMetadata
  location : GoMap String (List ChunkLocation)
  erasureCoder : ErasureCoder

def newDistributedObjectStorage (numNodes : Nat) : DistributedObjectStorage where
  nodes := (List.range numNodes).map fun i =>
    ⟨"node-" ++ toString i, 1024 * 1024 * 1024, 0, ∅, .active⟩
  objects := ∅
  location := ∅
  erasureCoder := ⟨4, 2⟩

def chunkKey (key : String) (chunkID : Nat) : String := key ++ "-" ++ toString chunkID

namespace DistributedObjectStorage

/-- The positions of the selected nodes in `nodes`. -/
def selectNodes (dos : DistributedObjectStorage) (numChunks : Nat) : List Nat :=
  ((List.range (min numChunks dos.nodes.length)).map (· % dos.nodes.length)).filter fun i =>
    dos.nodes[i]?.any fun node => node.status = .active ∧ 0 < node.capacity - node.used

def getNode (dos : DistributedObjectStorage) (nodeID : String) : Option DataNode :=
  dos.nodes.find? (·.id = nodeID)

end DistributedObjectStorage

variable (sha256 : Bytes → Bytes)

def DataNode.store (key : String) (chunkID : Nat) (chunkData : Bytes) (node : DataNode) :
    DataNode :=
  { node with
    objects := node.objects.insert (chunkKey key chunkID)
      ⟨key, chunkID, chunkData, calculateChecksum sha256 chunkData, .ofNat chunkData.length⟩
    used := node.used + .ofNat chunkData.length }

/-- The goroutine of `Put` for one chunk, on the nodes and the locations. -/
def storeChunk (key : String) (dataChunks : Nat) (selectedNodes : List Nat) (chunks : List Bytes)
    (stored : List DataNode × List ChunkLocation) (chunkID : Nat) :
    List DataNode × List ChunkLocation :=
  match selectedNodes[chunkID]?, chunks[chunkID]? with
  | some n, some chunkData =>
    (stored.1.modify n (DataNode.store sha256 key chunkID chunkData),
      stored.2 ++ (stored.1[n]?.map fun node =>
        ⟨chunkID, node.id, if dataChunks ≤ chunkID then .parity else .data⟩).toList)
  | _, _ => stored

structure PutCall where
  key : String
  reader : Except String Bytes
  /-- The order in which the goroutines for the chunks run. -/
  order : List Nat

def put (dos : DistributedObjectStorage) (call : PutCall) :
    DistributedObjectStorage × Except String Unit :=
  match call.reader with
  | .error err => (dos, .error err)
  | .ok data =>
    let checksum := calculateChecksum sha256 data
    let chunks := dos.erasureCoder.encode data
    let selectedNodes := dos.selectNodes chunks.length
    if selectedNodes.length < chunks.length then (dos, .error "not enough nodes available")
    else
      let stored := call.order.foldl
        (storeChunk sha256 call.key dos.erasureCoder.dataChunks selectedNodes chunks)
        (dos.nodes, [])
      ({ dos with
          nodes := stored.1
          objects := dos.objects.insert call.key
            ⟨call.key, .ofNat data.length, dos.erasureCoder.dataChunks,
              dos.erasureCoder.parityChunks, checksum⟩
          location := dos.location.insert call.key stored.2 }, .ok ())

/-- A call of `Put` with any order of its goroutines. -/
def step (dos : DistributedObjectStorage) (call : PutCall) : Option DistributedObjectStorage :=
  if call.order.Perm (List.range (dos.erasureCoder.dataChunks + dos.erasureCoder.parityChunks))
  then some (put sha256 dos call).1 else none

def fetchChunk (dos : DistributedObjectStorage) (key : String) (chunks : List (Option Bytes))
    (location : ChunkLocation) : List (Option Bytes) :=
  match dos.getNode location.nodeID with
  | none => chunks
  | some node =>
    if node.status ≠ .active then chunks
    else match node.objects.lookup (chunkKey key location.chunkID) with
      | none => chunks
      | some chunk => chunks.set location.chunkID (some chunk.data)

/-- `order` is the order in which the goroutines for the locations of the key run. -/
def get (dos : DistributedObjectStorage) (key : String) (order : List ChunkLocation) :
    Except String Bytes :=
  match dos.objects.lookup key with
  | none => .error ("object " ++ key ++ " not found")
  | some metadata =>
    let chunks := order.foldl (fetchChunk dos key)
      (List.replicate (metadata.chunks + metadata.parityChunks) none)
    let data := ErasureCoder.decode chunks metadata.chunks
    if calculateChecksum sha256 data ≠ metadata.checksum then .error "checksum mismatch"
    else .ok data

/-- The nodes are told apart by their IDs and none has failed. -/
structure Ready (dos : DistributedObjectStorage) : Prop where
  chunked : 0 < dos.erasureCoder.dataChunks
  distinct : (dos.nodes.map (·.id)).Nodup
  active : ∀ node ∈ dos.nodes, node.status = .active

theorem selectNodes_eq (dos : DistributedObjectStorage) (numChunks) :
    dos.selectNodes numChunks = (List.range (min numChunks dos.nodes.length)).filter fun i =>
      dos.nodes[i]?.any fun n => n.status = .active ∧ 0 < n.capacity - n.used := by
  unfold DistributedObjectStorage.selectNodes
  congr 1
  conv_rhs => rw [← map_id (range (min numChunks dos.nodes.length))]
  apply map_congr_left
  intro i lt
  rw [mem_range] at lt
  exact Nat.mod_eq_of_lt (by omega)

variable {dos : DistributedObjectStorage}

/-- `Put` goes through only when the first nodes can take one chunk each, so chunk `i` always
goes to node `i`. -/
theorem selectNodes_of_enough {numChunks}
    (enough : numChunks ≤ (dos.selectNodes numChunks).length) :
    dos.selectNodes numChunks = List.range numChunks ∧ numChunks ≤ dos.nodes.length := by
  rw [selectNodes_eq] at enough ⊢
  have fewer := length_filter_le (fun i => dos.nodes[i]?.any fun n =>
    decide (n.status = .active ∧ 0 < n.capacity - n.used))
    (range (min numChunks dos.nodes.length))
  rw [length_range] at fewer
  have all : min numChunks dos.nodes.length = numChunks := by omega
  rw [all] at enough ⊢
  refine ⟨?_, by omega⟩
  rw [filter_eq_self, ← length_filter_eq_length_iff, length_range]
  rw [all] at fewer
  omega

theorem chunkKey_inj {first second chunkID}
    (equal : chunkKey first chunkID = chunkKey second chunkID) : first = second := by
  have texts := congrArg String.toList equal
  simp only [chunkKey, String.toList_append, append_assoc] at texts
  exact String.toList_injective (append_cancel_right texts)

theorem getNode_eq {n} (distinct : (dos.nodes.map (·.id)).Nodup) (mem : n ∈ dos.nodes) :
    dos.getNode n.id = some n := by
  unfold DistributedObjectStorage.getNode
  have hit : (dos.nodes.find? (·.id = n.id)).isSome := by
    rw [find?_isSome]
    exact ⟨n, mem, by simp⟩
  obtain ⟨x, search⟩ := Option.isSome_iff_exists.mp hit
  have eq : x.id = n.id := by simpa using find?_some search
  have lt := mem_of_find?_eq_some search
  rw [search, inj_on_of_nodup_map distinct lt mem eq]

end

open Finmap List Runs

open ErasureCoder (decode decode_encode_eq_iff)

def locationOf (dataChunks : Nat) (ids : List String) (i : Nat) : ChunkLocation :=
  ⟨i, ids.getD i "", if dataChunks ≤ i then .parity else .data⟩

variable {sha256 : Bytes → Bytes} {chunks : List Bytes} {ns : List DataNode}

theorem storeChunk_range {k dataChunks i} (locations) (lt : i < chunks.length)
    (room : chunks.length ≤ ns.length) :
    storeChunk sha256 k dataChunks (List.range chunks.length) chunks (ns, locations) i =
      (ns.modify i (DataNode.store sha256 k i (chunks.getD i [])),
        locations ++ [locationOf dataChunks (ns.map (·.id)) i]) := by
  have hit : i < ns.length := by omega
  simp [storeChunk, locationOf, lt, hit]

theorem ids_modify_store (ns : List DataNode) (k) (i : Nat) (data) :
    (ns.modify i (DataNode.store sha256 k i data)).map (·.id) = ns.map (·.id) := by
  apply ext_getElem?
  intro j
  simp only [getElem?_map, getElem?_modify]
  split
  · cases ns[j]? <;> rfl
  · simp

/-- The goroutines of one `Put`, in any order: each touches its own node only. -/
theorem foldl_storeChunk (sha256 : Bytes → Bytes) (k) (dataChunks : Nat) {order : List Nat}
    (nodup : order.Nodup) (lt : ∀ i ∈ order, i < chunks.length)
    (room : chunks.length ≤ ns.length) (locations) :
    (∀ i, (order.foldl (storeChunk sha256 k dataChunks (List.range chunks.length) chunks)
        (ns, locations)).1[i]? =
      if i ∈ order then ns[i]?.map (DataNode.store sha256 k i (chunks.getD i []))
      else ns[i]?) ∧
    (order.foldl (storeChunk sha256 k dataChunks (List.range chunks.length) chunks)
        (ns, locations)).2 =
      locations ++ order.map (locationOf dataChunks (ns.map (·.id))) := by
  induction order generalizing ns locations with
  | nil => simp
  | cons x order ih =>
    obtain ⟨fresh, nodup⟩ := nodup_cons.mp nodup
    have small := lt x mem_cons_self
    rw [foldl_cons, storeChunk_range locations small room]
    have still : chunks.length ≤
        (ns.modify x (DataNode.store sha256 k x (chunks.getD x []))).length := by
      rwa [length_modify]
    obtain ⟨stored, located⟩ :=
      ih nodup (fun i mem => lt i (mem_cons_of_mem _ mem)) still
        (locations ++ [locationOf dataChunks (ns.map (·.id)) x])
    constructor
    · intro i
      rw [stored, getElem?_modify]
      by_cases here : x = i
      · subst here
        simp [fresh]
      · have other : i ≠ x := Ne.symm here
        simp [here, other]
    · rw [located, ids_modify_store, append_assoc]
      rfl

/-- What a call of `Put` that returned nil did. -/
structure Written (sha256 : Bytes → Bytes) (key : String) (data : Bytes) (order : List Nat)
    (dos next : DistributedObjectStorage) : Prop where
  coder : next.erasureCoder = dos.erasureCoder
  room : dos.erasureCoder.dataChunks + dos.erasureCoder.parityChunks ≤ dos.nodes.length
  nodes : ∀ i, next.nodes[i]? = if i ∈ order then dos.nodes[i]?.map
      (DataNode.store sha256 key i ((dos.erasureCoder.encode data).getD i []))
    else dos.nodes[i]?
  objects : next.objects = dos.objects.insert key
    ⟨key, .ofNat data.length, dos.erasureCoder.dataChunks, dos.erasureCoder.parityChunks,
      calculateChecksum sha256 data⟩
  location : next.location = dos.location.insert key
    (order.map (locationOf dos.erasureCoder.dataChunks (dos.nodes.map (·.id))))

/-- A call of `Put` either fails and changes nothing or stores every chunk. -/
theorem put_cases (sha256 dos c) (gs : c.order.Perm
      (List.range (dos.erasureCoder.dataChunks + dos.erasureCoder.parityChunks))) :
    (∃ err, put sha256 dos c = (dos, .error err)) ∨
      ∃ data, c.reader = .ok data ∧ (put sha256 dos c).2 = .ok () ∧
        Written sha256 c.key data c.order dos (put sha256 dos c).1 := by
  cases rd : c.reader with
  | error err =>
    left
    exact ⟨err, by simp only [put, rd]⟩
  | ok data =>
    by_cases short : (dos.selectNodes (dos.erasureCoder.encode data).length).length <
        (dos.erasureCoder.encode data).length
    · left
      exact ⟨"not enough nodes available", by simp only [put, rd, if_pos short]⟩
    · right
      obtain ⟨selected, room⟩ := selectNodes_of_enough (Nat.le_of_not_lt short)
      obtain ⟨ns, location⟩ :=
        foldl_storeChunk sha256 c.key dos.erasureCoder.dataChunks (gs.nodup_iff.mpr nodup_range)
          (fun i mem => by simpa using gs.mem_iff.mp mem) room []
      refine ⟨data, rfl, by simp only [put, rd, if_neg short], ?_⟩
      simp only [put, rd, if_neg short]
      rw [selected]
      exact ⟨rfl, by simpa using room, ns, rfl, by rw [location]; rfl⟩

variable {dos t : DistributedObjectStorage} {k : String} {data : Bytes} {order : List Nat}

theorem Written.ids (wrote : Written sha256 k data order dos t) :
    t.nodes.map (·.id) = dos.nodes.map (·.id) := by
  apply ext_getElem?
  intro i
  rw [getElem?_map, getElem?_map, wrote.nodes]
  split
  · cases dos.nodes[i]? <;> rfl
  · rfl

theorem Written.ready (wrote : Written sha256 k data order dos t) (ready : Ready dos) :
    Ready t := by
  refine ⟨?_, ?_, ?_⟩
  · rw [wrote.coder]
    exact ready.chunked
  · rw [wrote.ids]
    exact ready.distinct
  · intro n mem
    obtain ⟨i, found⟩ := mem_iff_getElem?.mp mem
    rw [wrote.nodes] at found
    split at found
    · obtain ⟨old, hit, rfl⟩ := Option.map_eq_some_iff.mp found
      exact ready.active old (mem_of_getElem? hit)
    · exact ready.active n (mem_of_getElem? found)

/-- The chunks of the data under the key are where the metadata say. -/
structure Stored (sha256 : Bytes → Bytes) (dos : DistributedObjectStorage) (key : String)
    (data : Bytes) : Prop where
  metadata : ∃ metadata, dos.objects.lookup key = some metadata ∧
    metadata.chunks = dos.erasureCoder.dataChunks ∧
    metadata.parityChunks = dos.erasureCoder.parityChunks ∧
    metadata.checksum = calculateChecksum sha256 data
  located : ∃ order : List Nat,
    order.Perm (List.range (dos.erasureCoder.dataChunks + dos.erasureCoder.parityChunks)) ∧
    dos.location.lookup key =
      some (order.map (locationOf dos.erasureCoder.dataChunks (dos.nodes.map (·.id))))
  chunks : ∀ i < dos.erasureCoder.dataChunks + dos.erasureCoder.parityChunks,
    ∃ node chunk, dos.nodes[i]? = some node ∧
      node.objects.lookup (chunkKey key i) = some chunk ∧
      (dos.erasureCoder.encode data)[i]? = some chunk.data

theorem Written.stored (wrote : Written sha256 k data order dos t) (gs : order.Perm
      (List.range (dos.erasureCoder.dataChunks + dos.erasureCoder.parityChunks))) :
    Stored sha256 t k data where
  metadata := by
    rw [wrote.objects, wrote.coder]
    exact ⟨_, lookup_insert _, rfl, rfl, rfl⟩
  located := by
    rw [wrote.location, wrote.coder, wrote.ids]
    exact ⟨order, gs, lookup_insert _⟩
  chunks := by
    intro i lt
    rw [wrote.coder] at lt ⊢
    have mem : i ∈ order := gs.mem_iff.mpr (mem_range.mpr lt)
    have encoded : i < (dos.erasureCoder.encode data).length := by simpa using lt
    have hit : i < dos.nodes.length := lt_of_lt_of_le lt wrote.room
    rw [wrote.nodes, if_pos mem, getElem?_eq_getElem hit]
    refine ⟨_, _, rfl, lookup_insert _, ?_⟩
    rw [getD_eq_getElem?_getD, getElem?_eq_getElem encoded]
    rfl

theorem Stored.other {other data'} (stored : Stored sha256 dos k data)
    (wrote : Written sha256 other data' order dos t) (ne : k ≠ other) :
    Stored sha256 t k data where
  metadata := by
    rw [wrote.objects, wrote.coder, lookup_insert_of_ne _ ne]
    exact stored.metadata
  located := by
    rw [wrote.location, wrote.coder, wrote.ids, lookup_insert_of_ne _ ne]
    exact stored.located
  chunks := by
    intro i lt
    rw [wrote.coder] at lt ⊢
    obtain ⟨n, chunk, hit, found, encoded⟩ := stored.chunks i lt
    rw [wrote.nodes, hit]
    split
    · refine ⟨_, chunk, rfl, ?_, encoded⟩
      rw [DataNode.store, lookup_insert_of_ne]
      · exact found
      · exact fun eq => ne (chunkKey_inj eq)
    · exact ⟨n, chunk, rfl, found, encoded⟩

variable {c : PutCall} {cs : List PutCall}

theorem step_ready (ready : Ready dos) (took : step sha256 dos c = some t) :
    Ready t ∧ t.erasureCoder = dos.erasureCoder := by
  unfold step at took
  split at took <;> cases took
  rename_i gs
  rcases put_cases sha256 dos c gs with ⟨err, failed⟩ | ⟨data, -, -, wrote⟩
  · rw [failed]
    exact ⟨ready, rfl⟩
  · exact ⟨wrote.ready ready, wrote.coder⟩

theorem Stored.step (stored : Stored sha256 dos k data) (ne : c.key ≠ k)
    (took : step sha256 dos c = some t) : Stored sha256 t k data := by
  unfold ObjectStorage.step at took
  split at took <;> cases took
  rename_i gs
  rcases put_cases sha256 dos c gs with ⟨err, failed⟩ | ⟨data', -, -, wrote⟩
  · rw [failed]
    exact stored
  · exact stored.other wrote (Ne.symm ne)

theorem ready_run (ready : Ready dos) (run : exec (step sha256) dos cs = some t) :
    Ready t ∧ t.erasureCoder = dos.erasureCoder := by
  refine exec_invariant (fun s => Ready s ∧ s.erasureCoder = dos.erasureCoder) ⟨ready, rfl⟩ ?_ run
  intro s c after held took
  obtain ⟨still, coder⟩ := step_ready held.1 took
  exact ⟨still, coder.trans held.2⟩

theorem stored_of_returned (reader : c.reader = .ok data) (ret : (put sha256 dos c).2 = .ok ())
    (took : step sha256 dos c = some t) : Stored sha256 t c.key data := by
  unfold step at took
  split at took <;> cases took
  rename_i gs
  rcases put_cases sha256 dos c gs with ⟨err, failed⟩ | ⟨data', eq, -, wrote⟩
  · rw [failed] at ret
    cases ret
  · rw [reader, Except.ok.injEq] at eq
    subst eq
    exact wrote.stored gs

theorem stored_run (stored : Stored sha256 dos k data) (unused : ∀ c ∈ cs, c.key ≠ k)
    (run : exec (step sha256) dos cs = some t) : Stored sha256 t k data :=
  exec_guarded (fun s => Stored sha256 s k data) stored
    (fun _ _ _ held ne took => held.step ne took) run (along_of_forall unused)

section

theorem fetchChunk_eq (ready : Ready dos) (stored : Stored sha256 dos k data) (chunks) {i}
    (lt : i < dos.erasureCoder.dataChunks + dos.erasureCoder.parityChunks) :
    fetchChunk dos k chunks (locationOf dos.erasureCoder.dataChunks (dos.nodes.map (·.id)) i) =
      chunks.set i (dos.erasureCoder.encode data)[i]? := by
  obtain ⟨n, chunk, hit, found, encoded⟩ := stored.chunks i lt
  have mem : n ∈ dos.nodes := mem_of_getElem? hit
  have named : (dos.nodes.map (·.id)).getD i "" = n.id := by
    simp [getD_eq_getElem?_getD, hit]
  simp only [fetchChunk, locationOf, named, getNode_eq ready.distinct mem,
    ready.active n mem, ne_eq, not_true_eq_false, if_false, found, encoded]

theorem getElem?_foldl_set {α : Type} (v : Nat → α) (order : List Nat) (slots : List α) (j : Nat) :
    (order.foldl (fun slots i => slots.set i (v i)) slots)[j]? =
      if j ∈ order ∧ j < slots.length then some (v j) else slots[j]? := by
  induction order generalizing slots with
  | nil => simp
  | cons x order ih =>
    rw [foldl_cons, ih, length_set, getElem?_set]
    by_cases here : x = j
    · subst here
      by_cases inside : x < slots.length
      · simp [inside]
      · simp [inside]
    · have other : j ≠ x := Ne.symm here
      simp [here, other]

variable {order : List ChunkLocation} (ready : Ready dos) (stored : Stored sha256 dos k data)
  (gs : order.Perm ((dos.location.lookup k).getD []))
include ready stored gs

theorem foldl_fetchChunk :
    order.foldl (fetchChunk dos k)
        (List.replicate (dos.erasureCoder.dataChunks + dos.erasureCoder.parityChunks) none) =
      (dos.erasureCoder.encode data).map some := by
  obtain ⟨ids, complete, located⟩ := stored.located
  rw [located, Option.getD_some] at gs
  -- The locations are those of a rearrangement of the chunk numbers.
  obtain ⟨visited, perm, rfl⟩ : ∃ visited : List Nat, visited.Perm ids ∧
      order = visited.map (locationOf dos.erasureCoder.dataChunks (dos.nodes.map (·.id))) := by
    refine ⟨order.map (·.chunkID), ?_, ?_⟩
    · simpa [Function.comp_def, locationOf] using gs.map (·.chunkID)
    · rw [map_map]
      conv_lhs => rw [← map_id order]
      apply map_congr_left
      intro location mem
      obtain ⟨i, -, rfl⟩ := mem_map.mp (gs.mem_iff.mp mem)
      rfl
  have bound : ∀ i ∈ visited, i < dos.erasureCoder.dataChunks + dos.erasureCoder.parityChunks := by
    intro i mem
    exact mem_range.mp ((perm.trans complete).mem_iff.mp mem)
  rw [foldl_map, foldl_ext _ (fun slots i => slots.set i (dos.erasureCoder.encode data)[i]?) _
    fun slots i mem => fetchChunk_eq ready stored slots (bound i mem)]
  apply ext_getElem?
  intro j
  rw [getElem?_foldl_set, length_replicate, getElem?_map]
  by_cases lt : j < dos.erasureCoder.dataChunks + dos.erasureCoder.parityChunks
  · have mem := (perm.trans complete).mem_iff.mpr (mem_range.mpr lt)
    rw [if_pos ⟨mem, lt⟩, getElem?_eq_getElem (by simpa using lt)]
    rfl
  · rw [if_neg (fun both => lt both.2), getElem?_eq_none (by simpa using lt),
      getElem?_eq_none (by simpa using lt)]
    rfl

theorem get_of_stored :
    get sha256 dos k order =
      let decoded := decode ((dos.erasureCoder.encode data).map some) dos.erasureCoder.dataChunks
      if calculateChecksum sha256 decoded ≠ calculateChecksum sha256 data
      then .error "checksum mismatch" else .ok decoded := by
  obtain ⟨metadata, hit, chunks, parity, checksum⟩ := stored.metadata
  simp only [get, hit, chunks, parity, checksum, foldl_fetchChunk ready stored gs]

/-- Padded data does not come back: `Get` fails the checksum or, where the two digests collide,
returns the padding too. -/
theorem get_ok_iff :
    get sha256 dos k order = .ok data ↔ dos.erasureCoder.dataChunks ∣ data.length := by
  rw [get_of_stored ready stored gs, ← decode_encode_eq_iff dos.erasureCoder data ready.chunked]
  dsimp only
  split
  next mismatch =>
    constructor
    · intro impossible
      cases impossible
    · intro eq
      rw [eq] at mismatch
      exact absurd rfl mismatch
  · rw [Except.ok.injEq]

end

/-- After a `Put` of the data under the key that returned nil, and any later calls under other
keys, `Get` returns the data exactly when its length is a multiple of `dataChunks`. -/
theorem get_returns_put_iff (sha256 : Bytes → Bytes) {dos middle s : DistributedObjectStorage}
    {before after : List PutCall} {call : PutCall} {data : Bytes} {order : List ChunkLocation}
    (ready : Ready dos) (earlier : exec (step sha256) dos before = some middle)
    (reader : call.reader = .ok data) (returned : (put sha256 middle call).2 = .ok ())
    (later : exec (step sha256) middle (call :: after) = some s)
    (unused : ∀ other ∈ after, other.key ≠ call.key)
    (goroutines : order.Perm ((s.location.lookup call.key).getD [])) :
    get sha256 s call.key order = .ok data ↔ dos.erasureCoder.dataChunks ∣ data.length := by
  obtain ⟨between, coder⟩ := ready_run ready earlier
  obtain ⟨final, coder'⟩ := ready_run between later
  obtain ⟨next, stepped, run⟩ := exec_cons_some.mp later
  have stored := stored_run (stored_of_returned reader returned stepped) unused run
  rw [get_ok_iff final stored goroutines, coder', coder]

theorem newDistributedObjectStorage_ready (numNodes) :
    Ready (newDistributedObjectStorage numNodes) := by
  refine ⟨Nat.zero_lt_succ 3, ?_, ?_⟩
  · simp only [newDistributedObjectStorage, map_map]
    apply List.Nodup.map_on _ nodup_range
    intro i _ j _ eq
    apply NumberedName.toString_injective
    have texts := congrArg String.toList eq
    simp only [Function.comp_apply, String.toList_append] at texts
    exact String.toList_injective (append_cancel_left texts)
  · intro n mem
    obtain ⟨i, -, rfl⟩ := mem_map.mp mem
    rfl

def wholeCall : PutCall := ⟨"a", .ok [1, 2, 3, 4], [5, 0, 1, 2, 3, 4]⟩

def otherCall : PutCall := ⟨"a-0", .ok [9], [0, 1, 2, 3, 4, 5]⟩

theorem get_returns_put_iff_whole :
    ∃ s, exec (step id) (newDistributedObjectStorage 6) [wholeCall, otherCall] = some s ∧
      get id s "a" ((s.location.lookup "a").getD []) = .ok [1, 2, 3, 4] := by
  refine exists_exec (fun _ => True) (by decide) fun s run _ => ?_
  have returned : (put id (newDistributedObjectStorage 6) wholeCall).2 = .ok () := by decide
  exact (get_returns_put_iff id (newDistributedObjectStorage_ready 6) (exec_nil _ _) rfl
    returned run (by decide) (List.Perm.refl _)).mpr (by decide)

/-- One byte is padded to four, and these have another checksum. -/
theorem padded_object_unreadable :
    (put id (newDistributedObjectStorage 6) otherCall).2 = .ok () ∧
      get id (put id (newDistributedObjectStorage 6) otherCall).1 "a-0"
        (((put id (newDistributedObjectStorage 6) otherCall).1.location.lookup "a-0").getD []) =
      .error "checksum mismatch" := by
  decide

end AsyncPractice.ObjectStorage

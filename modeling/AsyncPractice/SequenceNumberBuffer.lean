import AsyncPractice.GoMap
import AsyncPractice.Runs
import AsyncPractice.MachineInt

/- The sequence-number buffer of challenge 10, solution 3. Every operation holds the
buffer's lock from beginning to end and is one step here; a clock reading is an argument. -/
namespace AsyncPractice.SequenceNumberBuffer

section

open List GoMap

structure Message where
  partitionKey : String
  sequenceNum : Int64
  content : String

structure PartitionBuffer where
  nextSeq : Int64
  pending : GoMap Int64 Message
  maxBufferSize : Nat
  lastDelivery : Int
  timeout : Int

/-- `deliveryChan` lists everything ever sent on the channel, oldest first. -/
structure OrderedBuffer where
  buffers : GoMap String PartitionBuffer
  deliveryChan : List Message

def createOrderedBuffer : OrderedBuffer where
  buffers := ∅
  deliveryChan := []

-- Clock readings are in nanoseconds.
def newPartitionBuffer (now : Int) : PartitionBuffer where
  nextSeq := 1
  pending := ∅
  maxBufferSize := 100
  lastDelivery := now
  timeout := 500 * 1000000

/-- The bookkeeping after the pending message with the given number has been sent. -/
def PartitionBuffer.advance (now : Int) (pb : PartitionBuffer) (seq : Int64) : PartitionBuffer :=
  { pb with
    nextSeq := seq + 1
    pending := pb.pending.erase seq
    lastDelivery := now }

/-- The loop that delivers consecutive pending messages. Each pass deletes an entry, so the
number of entries is enough fuel: `drain_stops`. -/
def drain (now : Int) : Nat → PartitionBuffer → PartitionBuffer × List Message
  | 0, pb => (pb, [])
  | fuel + 1, pb =>
    match pb.pending.lookup pb.nextSeq with
    | none => (pb, [])
    | some pendingMsg =>
      let rest := drain now fuel (pb.advance now pb.nextSeq)
      (rest.1, pendingMsg :: rest.2)

/-- What `addMessage` does with the partition's buffer, and what it sends on the channel. -/
def accept (now : Int) (pb : PartitionBuffer) (msg : Message) : PartitionBuffer × List Message :=
  if msg.sequenceNum = pb.nextSeq then
    let rest := drain now pb.pending.len
      { pb with nextSeq := pb.nextSeq + 1, lastDelivery := now }
    (rest.1, msg :: rest.2)
  else if pb.nextSeq < msg.sequenceNum then
    ({ pb with pending := pb.pending.insert msg.sequenceNum msg }, [])
  else
    (pb, [])

/-- The partition's buffer, made on first use. -/
def partitionBuffer (now : Int) (ob : OrderedBuffer) (key : String) : PartitionBuffer :=
  (ob.buffers.lookup key).getD (newPartitionBuffer now)

def OrderedBuffer.update (ob : OrderedBuffer) (key : String)
    (result : PartitionBuffer × List Message) : OrderedBuffer where
  buffers := ob.buffers.insert key result.1
  deliveryChan := ob.deliveryChan ++ result.2

-- Of the clock readings of one call only the last stays visible, in lastDelivery.
def addMessage (now : Int) (ob : OrderedBuffer) (msg : Message) : OrderedBuffer :=
  ob.update msg.partitionKey (accept now (partitionBuffer now ob msg.partitionKey) msg)

/-- The search for the smallest pending number, over the keys in the order the loop takes.
The start value -1 doubles as the mark for no key seen. -/
def minPending (order : List Int64) : Int64 :=
  order.foldl (fun minSeq seq => if minSeq = -1 ∨ seq < minSeq then seq else minSeq) (-1)

/-- The timeout check of one partition: skip the gap and deliver one message. -/
def skipGap (now : Int) (order : List Int64) (pb : PartitionBuffer) :
    PartitionBuffer × List Message :=
  if pb.timeout < now - pb.lastDelivery ∧ 0 < pb.pending.len then
    let minSeq := minPending order
    if minSeq ≠ -1 then
      -- a Go map answers a missing key with the zero message
      let msg := (pb.pending.lookup minSeq).getD ⟨"", 0, ""⟩
      (pb.advance now minSeq, [msg])
    else (pb, [])
  else (pb, [])

/-- The size check of one partition: drop what lies near `nextSeq`. -/
def dropOld (order : List Int64) (pb : PartitionBuffer) : PartitionBuffer :=
  if pb.maxBufferSize < pb.pending.len then
    { pb with
      pending := order.foldl (fun pending seq =>
        if seq < pb.nextSeq + Int64.ofNat (pb.maxBufferSize / 2) then pending.erase seq
        else pending) pb.pending }
  else pb

structure Visit where
  key : String
  search : List Int64
  drop : List Int64

def visitPartition (now : Int) (visit : Visit) (pb : PartitionBuffer) :
    PartitionBuffer × List Message :=
  let skipped := skipGap now visit.search pb
  (dropOld visit.drop skipped.1, skipped.2)

def visitBuffer (now : Int) (ob : OrderedBuffer) (visit : Visit) : OrderedBuffer :=
  match ob.buffers.lookup visit.key with
  | none => ob
  | some pb => ob.update visit.key (visitPartition now visit pb)

/-- One tick of `checkTimeouts`. -/
def checkTimeouts (now : Int) (visits : List Visit) (ob : OrderedBuffer) : OrderedBuffer :=
  visits.foldl (visitBuffer now) ob

/-- The loops of the visit run over the keys the pending map has at that moment. -/
def Visit.Fits (now : Int) (ob : OrderedBuffer) (visit : Visit) : Prop :=
  ∀ pb ∈ ob.buffers.lookup visit.key,
    Ranges visit.search pb.pending ∧
      Ranges visit.drop (skipGap now visit.search pb).1.pending

instance (now : Int) (ob : OrderedBuffer) (visit : Visit) : Decidable (visit.Fits now ob) :=
  inferInstanceAs (Decidable (∀ pb ∈ ob.buffers.lookup visit.key, _ ∧ _))

inductive Event
  | addMessage (now : Int) (msg : Message)
  | tick (now : Int) (visits : List Visit)

def step (ob : OrderedBuffer) : Event → Option OrderedBuffer
  | .addMessage now msg => some (addMessage now ob msg)
  | .tick now visits =>
    if Ranges (visits.map Visit.key) ob.buffers ∧ ∀ visit ∈ visits, visit.Fits now ob then
      some (checkTimeouts now visits ob)
    else none

def delivered (ob : OrderedBuffer) (key : String) : List Message :=
  ob.deliveryChan.filter (·.partitionKey = key)

variable {pb : PartitionBuffer} {msg : Message}

theorem drain_absent (now fuel) (absent : pb.pending.lookup pb.nextSeq = none) :
    drain now fuel pb = (pb, []) := by
  cases fuel with
  | zero => rfl
  | succ fuel => simp only [drain, absent]

theorem drain_present (now fuel) (hit : pb.pending.lookup pb.nextSeq = some msg) :
    drain now (fuel + 1) pb = ((drain now fuel (pb.advance now pb.nextSeq)).1,
        msg :: (drain now fuel (pb.advance now pb.nextSeq)).2) := by
  simp only [drain, hit]

/-- The inner loop ends because the next number is not pending, never for lack of fuel. -/
theorem drain_stops (now fuel pb) (enough : pb.pending.len ≤ fuel) :
    (drain now fuel pb).1.pending.lookup (drain now fuel pb).1.nextSeq = none := by
  induction fuel generalizing pb with
  | zero => exact lookup_of_len_zero (Nat.le_zero.mp enough) _
  | succ fuel ih =>
    cases present : pb.pending.lookup pb.nextSeq with
    | none =>
      rw [drain_absent now _ present]
      exact present
    | some msg =>
      have shorter : (pb.advance now pb.nextSeq).pending.len + 1 = pb.pending.len :=
        len_erase present
      rw [drain_present now fuel present]
      exact ih _ (by omega)

/-- A property of the partition and what was delivered that survives one delivery from the
pending map survives the whole inner loop. -/
theorem drain_induction (now) (inv : PartitionBuffer → List Message → Prop)
    (deliver : ∀ pb sent msg, inv pb sent → pb.pending.lookup pb.nextSeq = some msg →
      inv (pb.advance now pb.nextSeq) (sent ++ [msg])) (fuel) (pb : PartitionBuffer) (sent)
    (held : inv pb sent) : inv (drain now fuel pb).1 (sent ++ (drain now fuel pb).2) := by
  induction fuel generalizing pb sent with
  | zero => simpa [drain] using held
  | succ fuel ih =>
    cases present : pb.pending.lookup pb.nextSeq with
    | none =>
      rw [drain_absent now _ present]
      simpa using held
    | some msg =>
      have rest := ih _ _ (deliver pb sent msg held present)
      rw [drain_present now fuel present]
      simpa using rest

/-- Every pending message lies in its own partition, under its own number. -/
def Filed (key : String) (pb : PartitionBuffer) : Prop :=
  ∀ seq msg, pb.pending.lookup seq = some msg → msg.partitionKey = key ∧ msg.sequenceNum = seq

theorem filed_newPartitionBuffer (k now) : Filed k (newPartitionBuffer now) := by
  intro seq msg hit
  simp [newPartitionBuffer] at hit

variable {now : Int} {x seq : Int64} {k : String}

theorem lookup_advance (hit : (pb.advance now seq).pending.lookup x = some msg) :
    x ≠ seq ∧ pb.pending.lookup x = some msg :=
  lookup_erase_cases hit

theorem mem_advance : x ∈ (pb.advance now seq).pending ↔ x ∈ pb.pending ∧ x ≠ seq := by
  rw [PartitionBuffer.advance, Finmap.mem_erase]
  tauto

theorem Filed.advance (filed : Filed k pb) (now seq) : Filed k (pb.advance now seq) :=
  fun x msg hit => filed x msg (lookup_advance hit).2

theorem Filed.insert (filed : Filed k pb) (eq : msg.partitionKey = k) :
    Filed k { pb with pending := pb.pending.insert msg.sequenceNum msg } := by
  intro seq x hit
  rcases lookup_insert_cases hit with ⟨number, rfl⟩ | ⟨-, hit⟩
  · exact ⟨eq, number.symm⟩
  · exact filed seq x hit

theorem drain_key (now) (fuel : Nat) (pb) (filed : Filed k pb) :
    ∀ msg ∈ (drain now fuel pb).2, msg.partitionKey = k := by
  have both := drain_induction now (fun pb sent => Filed k pb ∧ ∀ msg ∈ sent, msg.partitionKey = k)
    (fun pb sent msg held hit => by
      refine ⟨held.1.advance now _, fun x mem => ?_⟩
      rcases mem_append.mp mem with mem | mem
      · exact held.2 x mem
      · rw [mem_singleton.mp mem]
        exact (held.1 _ _ hit).1)
    fuel pb [] ⟨filed, by simp⟩
  simpa using both.2

theorem accept_key (now pb msg) (filed : Filed k pb) (eq : msg.partitionKey = k) :
    ∀ sent ∈ (accept now pb msg).2, sent.partitionKey = k := by
  unfold accept
  split
  · intro sent mem
    rcases mem_cons.mp mem with rfl | mem
    · exact eq
    · exact drain_key now _ { pb with nextSeq := pb.nextSeq + 1, lastDelivery := now } filed
        sent mem
  · split <;> simp

theorem partitionBuffer_update (now ob target k result) :
    partitionBuffer now (ob.update target result) k =
      if k = target then result.1 else partitionBuffer now ob k := by
  unfold partitionBuffer OrderedBuffer.update
  rw [lookup_insert_ite]
  split <;> rfl

private theorem filter_key {tgt : String} {msgs : List Message}
    (eq : ∀ msg ∈ msgs, msg.partitionKey = tgt) :
    msgs.filter (·.partitionKey = k) = if k = tgt then msgs else [] := by
  split
  next equal =>
    exact filter_eq_self.mpr fun msg mem => by simp [eq msg mem, equal]
  next ne =>
    exact filter_eq_nil_iff.mpr fun msg mem => by
      simpa [eq msg mem] using fun equal => ne equal.symm

theorem delivered_update (ob target k result) (eq : ∀ msg ∈ result.2, msg.partitionKey = target) :
    delivered (ob.update target result) k =
      if k = target then delivered ob k ++ result.2 else delivered ob k := by
  unfold delivered OrderedBuffer.update
  rw [filter_append, filter_key eq]
  split
  · rfl
  · exact append_nil _

@[simp] theorem partitionBuffer_create (now k) :
    partitionBuffer now createOrderedBuffer k = newPartitionBuffer now := rfl

@[simp] theorem delivered_create (k) : delivered createOrderedBuffer k = [] := rfl

end

open List Finmap

/-- Where the partition stands after it has delivered the numbers from 1 to `count`. Once the
largest number of all has been delivered `nextSeq` has wrapped around and nothing more comes
out, though messages are still stored. -/
inductive Position (received : Int64 → Prop) (pb : PartitionBuffer) (count : Nat) : Prop
  | waiting (next : pb.nextSeq.toInt = count + 1)
      (stored : ∀ seq, seq ∈ pb.pending ↔ received seq ∧ pb.nextSeq.toInt ≤ seq.toInt)
  | exhausted (all : (count : Int) = 2 ^ 63 - 1) (next : pb.nextSeq.toInt = - 2 ^ 63)
      (stored : ∀ seq, seq ∈ pb.pending → 1 ≤ seq.toInt)

structure Contiguous (key : String) (received : Int64 → Prop) (pb : PartitionBuffer)
    (sent : List Message) : Prop where
  filed : Filed key pb
  numbered : sent.map (·.sequenceNum.toInt) = (List.range' 1 sent.length).map Nat.cast
  arrived : ∀ msg ∈ sent, received msg.sequenceNum
  position : Position received pb sent.length

variable {key : String} {recv wider : Int64 → Prop} {pb : PartitionBuffer} {sent : List Message}

/-- Delivering the number the partition waits for, whether from the pending map or directly. -/
theorem Contiguous.deliver {t m} (held : Contiguous key recv pb sent)
    (p : pb.nextSeq.toInt = sent.length + 1)
    (stored : ∀ seq, seq ∈ pb.pending ↔ recv seq ∧ pb.nextSeq.toInt ≤ seq.toInt)
    (number : m.sequenceNum = pb.nextSeq)
    (more : ∀ seq, wider seq ↔ recv seq ∨ seq = pb.nextSeq) (filed : Filed key t)
    (adv : t.nextSeq = pb.nextSeq + 1)
    (rest : ∀ seq, seq ∈ t.pending ↔ seq ∈ pb.pending ∧ seq ≠ pb.nextSeq) :
    Contiguous key wider t (sent ++ [m]) where
  filed := filed
  numbered := by
    rw [List.map_append, held.numbered, length_append, length_singleton,
      range'_1_concat, List.map_append]
    simp only [map_cons, map_nil, number, p, Nat.cast_add, Nat.cast_one]
    rw [Int.add_comm]
  arrived := by
    refine Runs.forall_mem_snoc (fun x mem => ?_) (number ▸ (more _).mpr (.inr rfl))
    exact (more _).mpr (.inl (held.arrived x mem))
  position := by
    have high := pb.nextSeq.toInt_lt
    rw [length_append, length_singleton]
    by_cases below : pb.nextSeq.toInt < 2 ^ 63 - 1
    · have succ := MachineInt.toInt_add_one below
      refine .waiting ?_ fun seq => ?_
      · rw [adv, succ, p]
        omega
      · rw [rest, stored, more, adv, succ, Ne, ← Int64.toInt_inj]
        constructor
        · rintro ⟨⟨known, least⟩, different⟩
          exact ⟨.inl known, by omega⟩
        · rintro ⟨known | eq, least⟩
          · exact ⟨⟨known, by omega⟩, by omega⟩
          · omega
    · have top : pb.nextSeq.toInt = 2 ^ 63 - 1 := by omega
      refine .exhausted (by omega) ?_ fun seq mem => ?_
      · rw [adv, MachineInt.add_one_max top]
      · have least := ((stored seq).mp ((rest seq).mp mem).1).2
        omega

theorem Contiguous.drain (now) (fuel : Nat) (held : Contiguous key recv pb sent) :
    Contiguous key recv (drain now fuel pb).1 (sent ++ (drain now fuel pb).2) := by
  refine drain_induction now (Contiguous key recv) ?_ fuel pb sent held
  intro pb sent m held hit
  have mem : pb.nextSeq ∈ pb.pending := mem_of_lookup_eq_some hit
  cases held.position with
  | waiting t stored =>
    have known := ((stored pb.nextSeq).mp mem).1
    refine held.deliver t stored (held.filed _ _ hit).2 (fun seq => ?_)
      (held.filed.advance now _) rfl (fun seq => mem_advance)
    constructor
    · exact Or.inl
    · rintro (known | rfl) <;> assumption
  | exhausted all t stored =>
    have least := stored _ mem
    omega

/-- Between two calls the number waited for is not among the pending ones. -/
def Settled (pb : PartitionBuffer) : Prop := pb.pending.lookup pb.nextSeq = none

theorem accept_settled (now m) (inv : Settled pb) : Settled (accept now pb m).1 := by
  unfold accept
  split
  · exact drain_stops now _ _ le_rfl
  · split
    next ne _ =>
      unfold Settled
      rw [GoMap.lookup_insert_ite, if_neg (Ne.symm ne)]
      exact inv
    · exact inv

variable {k : String} {m : Message}

theorem Contiguous.deliver_arriving (now : Int) (held : Contiguous k recv pb sent)
    (inv : Settled pb) (pos : 1 ≤ m.sequenceNum.toInt) (number : m.sequenceNum = pb.nextSeq) :
    Contiguous k (fun seq => recv seq ∨ seq = m.sequenceNum)
      { pb with nextSeq := pb.nextSeq + 1, lastDelivery := now } (sent ++ [m]) := by
  cases held.position with
  | waiting t stored =>
    have absent : pb.nextSeq ∉ pb.pending := lookup_eq_none.mp inv
    refine held.deliver t stored number (fun seq => by rw [number]) held.filed rfl (fun seq => ?_)
    exact ⟨fun mem => ⟨mem, fun equal => absent (equal ▸ mem)⟩, And.left⟩
  | exhausted all t stored =>
    rw [number] at pos
    omega

theorem Contiguous.store (held : Contiguous k recv pb sent) (eq : m.partitionKey = k)
    (pos : 1 ≤ m.sequenceNum.toInt) (later : pb.nextSeq < m.sequenceNum) :
    Contiguous k (fun seq => recv seq ∨ seq = m.sequenceNum)
      { pb with pending := pb.pending.insert m.sequenceNum m } sent where
  filed := held.filed.insert eq
  numbered := held.numbered
  arrived := fun m mem => .inl (held.arrived m mem)
  position := by
    cases held.position with
    | waiting t stored =>
      rw [Int64.lt_iff_toInt_lt] at later
      refine .waiting t fun seq => ?_
      simp only [mem_insert, stored]
      constructor
      · rintro (rfl | ⟨known, least⟩)
        · exact ⟨.inr rfl, le_of_lt later⟩
        · exact ⟨.inl known, least⟩
      · rintro ⟨known | rfl, least⟩
        · exact .inr ⟨known, least⟩
        · exact .inl rfl
    | exhausted all t stored =>
      refine .exhausted all t fun seq mem => ?_
      rcases mem_insert.mp mem with rfl | mem
      · exact pos
      · exact stored seq mem

theorem Contiguous.drop (held : Contiguous k recv pb sent)
    (below : m.sequenceNum.toInt < pb.nextSeq.toInt) :
    Contiguous k (fun seq => recv seq ∨ seq = m.sequenceNum) pb sent where
  filed := held.filed
  numbered := held.numbered
  arrived := fun m mem => .inl (held.arrived m mem)
  position := by
    cases held.position with
    | waiting t stored =>
      refine .waiting t fun seq => ?_
      rw [stored]
      constructor
      · rintro ⟨known, least⟩
        exact ⟨.inl known, least⟩
      · rintro ⟨known | rfl, least⟩
        · exact ⟨known, least⟩
        · omega
    | exhausted all t stored => exact .exhausted all t stored

theorem Contiguous.accept (now) (held : Contiguous k recv pb sent) (inv : Settled pb)
    (eq : m.partitionKey = k) (pos : 1 ≤ m.sequenceNum.toInt) :
    Contiguous k (fun seq => recv seq ∨ seq = m.sequenceNum) (accept now pb m).1
      (sent ++ (accept now pb m).2) := by
  unfold SequenceNumberBuffer.accept
  split
  next number =>
    have x := held.deliver_arriving now inv pos number
    simpa using x.drain now pb.pending.len
  next ne =>
    split
    next later =>
      rw [append_nil]
      exact held.store eq pos later
    next early =>
      rw [append_nil]
      apply held.drop
      rw [← Int64.toInt_inj] at ne
      rw [Int64.lt_iff_toInt_lt] at early
      omega

def addMessages (calls : List (Int × Message)) : OrderedBuffer :=
  calls.foldl (fun ob call => addMessage call.1 ob call.2) createOrderedBuffer

def Received (calls : List (Int × Message)) (key : String) (seq : Int64) : Prop :=
  ∃ call ∈ calls, call.2.partitionKey = key ∧ call.2.sequenceNum = seq

theorem addMessages_snoc (cs c) :
    addMessages (cs ++ [c]) = addMessage c.1 (addMessages cs) c.2 := by
  simp only [addMessages, foldl_concat]

theorem received_snoc (cs c key seq) :
    Received (cs ++ [c]) key seq ↔
      Received cs key seq ∨ c.2.partitionKey = key ∧ seq = c.2.sequenceNum := by
  simp only [Received, mem_append, List.mem_singleton, or_and_right, exists_or,
    exists_eq_left, @eq_comm Int64 seq]

theorem Contiguous.congr (held : Contiguous key recv pb sent)
    (eq : ∀ seq, wider seq ↔ recv seq) : Contiguous key wider pb sent := by
  rwa [funext fun seq => propext (eq seq)]

theorem contiguous_new (key now) :
    Contiguous key (Received [] key) (newPartitionBuffer now) [] where
  filed := filed_newPartitionBuffer key now
  numbered := rfl
  arrived := by simp
  position := .waiting rfl fun seq => by simp [newPartitionBuffer, Received, notMem_empty]

theorem addMessages_contiguous (cs) (pos : ∀ c ∈ cs, 1 ≤ c.2.sequenceNum) (key now) :
    Contiguous key (Received cs key) (partitionBuffer now (addMessages cs) key)
        (delivered (addMessages cs) key) ∧
      Settled (partitionBuffer now (addMessages cs) key) := by
  induction cs using reverseRecOn generalizing key now with
  | nil => exact ⟨contiguous_new key now, rfl⟩
  | append_singleton cs c ih =>
    have pre := ih fun c mem => pos c (mem_append_left _ mem)
    have number : 1 ≤ c.2.sequenceNum.toInt :=
      Int64.le_iff_toInt_le.mp (pos c (by simp))
    rw [addMessages_snoc, addMessage, partitionBuffer_update,
      delivered_update _ _ _ _ (accept_key c.1 _ c.2 (pre _ c.1).1.filed rfl)]
    split
    next eq =>
      subst eq
      obtain ⟨held, inv⟩ := pre c.2.partitionKey c.1
      refine ⟨(held.accept c.1 inv rfl number).congr fun seq => ?_, accept_settled c.1 c.2 inv⟩
      rw [received_snoc]
      simp
    next ne =>
      obtain ⟨held, inv⟩ := pre key now
      refine ⟨held.congr fun seq => ?_, inv⟩
      rw [received_snoc]
      simp [Ne.symm ne]

/-- A settled partition has delivered as far as the received numbers are without a gap. -/
theorem Contiguous.greatest (held : Contiguous key recv pb sent) (inv : Settled pb) :
    IsGreatest {k : Nat | ∀ j : Nat, 1 ≤ j → j ≤ k → ∃ seq, recv seq ∧ seq.toInt = j}
      sent.length := by
  constructor
  · intro j low high
    have mem : (j : Int) ∈ sent.map (·.sequenceNum.toInt) := by
      rw [held.numbered]
      exact List.mem_map.mpr ⟨j, mem_range'_1.mpr (by omega), rfl⟩
    obtain ⟨m, lt, number⟩ := List.mem_map.mp mem
    exact ⟨m.sequenceNum, held.arrived m lt, number⟩
  · intro k came
    by_contra longer
    -- The first number after the delivered ones would have been received as well.
    obtain ⟨seq, known, number⟩ := came (sent.length + 1) (by omega) (by omega)
    cases held.position with
    | waiting t stored =>
      have eq : seq = pb.nextSeq := Int64.toInt_inj.mp (by rw [number, t]; omega)
      have mem := (stored seq).mpr ⟨known, by rw [eq]⟩
      exact lookup_eq_none.mp inv (eq ▸ mem)
    | exhausted all t stored =>
      have high := seq.toInt_lt
      omega

/-- Without timeouts the buffer delivers, for each partition, exactly the numbers from 1 up to
the first one missing, each once and in order. -/
theorem delivers_consecutive_numbers (calls : List (Int × Message))
    (positive : ∀ call ∈ calls, 1 ≤ call.2.sequenceNum) (key : String) :
    ∃ k : Nat,
      IsGreatest {k : Nat | ∀ j : Nat, 1 ≤ j → j ≤ k →
        ∃ seq, Received calls key seq ∧ seq.toInt = j} k ∧
      (delivered (addMessages calls) key).map (·.sequenceNum.toInt) =
        (List.range' 1 k).map Nat.cast := by
  obtain ⟨held, settled⟩ := addMessages_contiguous calls positive key 0
  exact ⟨_, held.greatest settled, held.numbered⟩

/-- Numbers 2, 3 arrive before 1, twice in part, and 5 arrives without 4. -/
theorem delivers_consecutive_numbers_shuffled :
    let calls : List (Int × Message) :=
      [(0, ⟨"p", 3, "c"⟩), (1, ⟨"p", 2, "b"⟩), (2, ⟨"p", 3, "c"⟩), (3, ⟨"p", 1, "a"⟩),
        (4, ⟨"q", 2, "x"⟩), (5, ⟨"p", 5, "e"⟩), (6, ⟨"p", 2, "b"⟩)]
    ((delivered (addMessages calls) "p").map (·.content) = ["a", "b", "c"]) ∧
      ∃ k : Nat, IsGreatest {k : Nat | ∀ j : Nat, 1 ≤ j → j ≤ k →
          ∃ seq, Received calls "p" seq ∧ seq.toInt = j} k ∧
        (delivered (addMessages calls) "p").map (·.sequenceNum.toInt) = (range' 1 k).map Nat.cast :=
  ⟨by decide, delivers_consecutive_numbers _ (by decide) "p"⟩

end AsyncPractice.SequenceNumberBuffer

import AsyncPractice.SequenceNumberBuffer

namespace AsyncPractice.SequenceNumberBuffer

open List AsyncPractice.Runs Finmap GoMap

/-- What one partition keeps while it never goes backwards. -/
structure Ascending (key : String) (pb : PartitionBuffer) (sent : List Message) : Prop where
  filed : Filed key pb
  ahead : ∀ seq msg, pb.pending.lookup seq = some msg → pb.nextSeq.toInt ≤ seq.toInt
  bounded : ∀ seq msg, pb.pending.lookup seq = some msg → seq.toInt < 2 ^ 63 - 1
  positive : 1 ≤ pb.nextSeq.toInt
  sorted : (sent.map (·.sequenceNum.toInt)).Pairwise (· < ·)
  passed : ∀ msg ∈ sent, msg.sequenceNum.toInt < pb.nextSeq.toInt

variable {key : String} {pb : PartitionBuffer} {sent : List Message} {msg : Message}

theorem Ascending.deliver {t} (held : Ascending key pb sent)
    (behind : pb.nextSeq.toInt ≤ msg.sequenceNum.toInt) (below : msg.sequenceNum.toInt < 2 ^ 63 - 1)
    (adv : t.nextSeq = msg.sequenceNum + 1)
    (rest : ∀ seq other, t.pending.lookup seq = some other →
      pb.pending.lookup seq = some other ∧ msg.sequenceNum.toInt < seq.toInt) :
    Ascending key t (sent ++ [msg]) := by
  have succ : t.nextSeq.toInt = msg.sequenceNum.toInt + 1 := by
    rw [adv, MachineInt.toInt_add_one below]
  have least := held.positive
  constructor
  · intro seq other hit
    exact held.filed seq other (rest seq other hit).1
  · intro seq other hit
    have after := (rest seq other hit).2
    omega
  · intro seq other hit
    exact held.bounded seq other (rest seq other hit).1
  · omega
  · rw [List.map_append, pairwise_append]
    refine ⟨held.sorted, by simp, ?_⟩
    intro number mem last eq
    obtain ⟨earlier, lt, rfl⟩ := List.mem_map.mp mem
    have pre := held.passed earlier lt
    rw [map_singleton, List.mem_singleton] at eq
    omega
  · refine forall_mem_snoc (fun other mem => ?_) (by omega)
    have pre := held.passed other mem
    omega

theorem Ascending.drain (now fuel) (held : Ascending key pb sent) :
    Ascending key (drain now fuel pb).1 (sent ++ (drain now fuel pb).2) := by
  apply drain_induction now (Ascending key) _ fuel pb sent held
  intro pb sent msg held hit
  have number := (held.filed _ _ hit).2
  have below := held.bounded _ _ hit
  apply held.deliver
  · rw [number]
  · rw [number]
    exact below
  · rw [number]
    rfl
  · intro seq x found
    obtain ⟨ne, stays⟩ := lookup_advance found
    have least := held.ahead seq x stays
    rw [Ne, ← Int64.toInt_inj] at ne
    rw [number]
    exact ⟨stays, by omega⟩

/-- The numbers a message may carry so that `nextSeq` never wraps around. -/
def Message.InRange (msg : Message) : Prop :=
  1 ≤ msg.sequenceNum ∧ msg.sequenceNum < Int64.maxValue

instance (msg : Message) : Decidable msg.InRange := inferInstanceAs (Decidable (_ ∧ _))

/-- The expected message does not arrive while a copy of it is still pending. -/
def Unbuffered (pb : PartitionBuffer) (msg : Message) : Prop :=
  msg.sequenceNum = pb.nextSeq → msg.sequenceNum ∉ pb.pending

instance (pb : PartitionBuffer) (msg : Message) : Decidable (Unbuffered pb msg) :=
  inferInstanceAs (Decidable (_ → _))

theorem Message.InRange.toInt (inRange : msg.InRange) :
    1 ≤ msg.sequenceNum.toInt ∧ msg.sequenceNum.toInt < 2 ^ 63 - 1 :=
  ⟨Int64.le_iff_toInt_le.mp inRange.1, Int64.lt_iff_toInt_lt.mp inRange.2⟩

theorem Ascending.accept (now) (held : Ascending key pb sent) (eq : msg.partitionKey = key)
    (inRange : msg.InRange) (unbuffered : Unbuffered pb msg) :
    Ascending key (accept now pb msg).1 (sent ++ (accept now pb msg).2) := by
  have range := inRange.toInt
  unfold SequenceNumberBuffer.accept
  split
  next number =>
    have x : Ascending key { pb with nextSeq := pb.nextSeq + 1, lastDelivery := now }
        (sent ++ [msg]) := by
      apply held.deliver
      · rw [number]
      · exact range.2
      · rw [number]
      · intro seq other hit
        have least := held.ahead seq other hit
        have ne : seq.toInt ≠ msg.sequenceNum.toInt := by
          rw [Ne, Int64.toInt_inj]
          rintro rfl
          exact unbuffered number (mem_of_lookup_eq_some hit)
        rw [number] at ne ⊢
        exact ⟨hit, by omega⟩
    simpa using x.drain now pb.pending.len
  · split
    next later =>
      rw [Int64.lt_iff_toInt_lt] at later
      rw [append_nil]
      refine ⟨held.filed.insert eq, ?_, ?_, held.positive, held.sorted, held.passed⟩
      · intro seq other hit
        rcases lookup_insert_cases hit with ⟨rfl, -⟩ | ⟨-, hit⟩
        · exact le_of_lt later
        · exact held.ahead seq other hit
      · intro seq other hit
        rcases lookup_insert_cases hit with ⟨rfl, -⟩ | ⟨-, hit⟩
        · exact range.2
        · exact held.bounded seq other hit
    · rw [append_nil]
      exact held

theorem minPending_snoc (order last) :
    minPending (order ++ [last]) =
      if minPending order = -1 ∨ last < minPending order then last else minPending order := by
  rw [minPending, foldl_append]
  rfl

/-- The search finds the smallest key, as long as no key is the value that marks none seen. -/
theorem minPending_least (order) (pos : ∀ seq ∈ order, 1 ≤ seq.toInt) (ne : order ≠ []) :
    minPending order ∈ order ∧ ∀ seq ∈ order, (minPending order).toInt ≤ seq.toInt := by
  induction order using reverseRecOn with
  | nil => exact absurd rfl ne
  | append_singleton order last ih =>
    by_cases empty : order = []
    · subst empty
      simp [minPending]
    · obtain ⟨mem, least⟩ :=
        ih (fun seq mem => pos seq (mem_append_left _ mem)) empty
      have unmarked : minPending order ≠ -1 := by
        intro marked
        have low := pos _ (mem_append_left _ mem)
        rw [marked] at low
        exact absurd low (by decide)
      rw [minPending_snoc]
      simp only [unmarked, false_or, Int64.lt_iff_toInt_lt, mem_append, List.mem_singleton]
      split
      · refine ⟨.inr rfl, ?_⟩
        rintro seq (lt | rfl)
        · have bound := least seq lt
          omega
        · exact le_rfl
      · refine ⟨.inl mem, ?_⟩
        rintro seq (lt | rfl)
        · exact least seq lt
        · omega

/-- A skip delivers the smallest pending message and nothing else, or does nothing. -/
theorem skipGap_cases (now search) (held : Ascending key pb sent)
    (ranges : Ranges search pb.pending) :
    skipGap now search pb = (pb, []) ∨ ∃ seq msg, pb.pending.lookup seq = some msg ∧
        (∀ other ∈ pb.pending, seq.toInt ≤ other.toInt) ∧
        skipGap now search pb = (pb.advance now seq, [msg]) := by
  unfold skipGap
  split
  · dsimp only
    split
    next found =>
      have pos : ∀ seq ∈ search, 1 ≤ seq.toInt := by
        intro seq mem
        obtain ⟨msg, hit⟩ := mem_iff.mp (ranges.mem_iff.mp mem)
        have low := held.positive
        have least := held.ahead seq msg hit
        omega
      have ne : search ≠ [] := by
        rintro rfl
        exact found rfl
      obtain ⟨mem, least⟩ := minPending_least search pos ne
      obtain ⟨msg, hit⟩ := mem_iff.mp (ranges.mem_iff.mp mem)
      refine .inr ⟨minPending search, msg, hit, ?_, by rw [hit]; rfl⟩
      intro other lt
      exact least other (ranges.mem_iff.mpr lt)
    · exact .inl rfl
  · exact .inl rfl

theorem Ascending.skipGap (now search) (held : Ascending key pb sent)
    (ranges : Ranges search pb.pending) :
    Ascending key (skipGap now search pb).1 (sent ++ (skipGap now search pb).2) := by
  rcases skipGap_cases now search held ranges with idle | ⟨seq, msg, hit, least, skipped⟩
  · rw [idle, append_nil]
    exact held
  · have number := (held.filed _ _ hit).2
    rw [skipped]
    apply held.deliver
    · rw [number]
      exact held.ahead _ _ hit
    · rw [number]
      exact held.bounded _ _ hit
    · rw [number]
      rfl
    · intro other stored found
      obtain ⟨ne, stays⟩ := lookup_advance found
      have bound := least other (mem_of_lookup_eq_some stays)
      rw [Ne, ← Int64.toInt_inj] at ne
      rw [number]
      exact ⟨stays, by omega⟩

variable {seq : Int64}

theorem dropOld_lookup {drop} (hit : (dropOld drop pb).pending.lookup seq = some msg) :
    pb.pending.lookup seq = some msg := by
  unfold dropOld at hit
  split at hit
  · exact lookup_foldl_erase drop _ _ hit
  · exact hit

theorem dropOld_nextSeq (drop pb) : (dropOld drop pb).nextSeq = pb.nextSeq := by
  unfold dropOld
  split <;> rfl

theorem Ascending.dropOld (drop) (held : Ascending key pb sent) :
    Ascending key (dropOld drop pb) sent where
  filed := fun seq msg hit => held.filed seq msg (dropOld_lookup hit)
  ahead := fun seq msg hit => by
    rw [dropOld_nextSeq]
    exact held.ahead seq msg (dropOld_lookup hit)
  bounded := fun seq msg hit => held.bounded seq msg (dropOld_lookup hit)
  positive := by
    rw [dropOld_nextSeq]
    exact held.positive
  sorted := held.sorted
  passed := by
    rw [dropOld_nextSeq]
    exact held.passed

/-- Every partition is ascending; one that does not exist yet counts as new. -/
def AllAscending (ob : OrderedBuffer) : Prop :=
  ∀ key now, Ascending key (partitionBuffer now ob key) (delivered ob key)

theorem allAscending_create : AllAscending createOrderedBuffer := by
  intro key now
  exact ⟨filed_newPartitionBuffer key now, by simp [newPartitionBuffer],
    by simp [newPartitionBuffer], le_rfl, List.Pairwise.nil, by simp⟩

variable {ob : OrderedBuffer}

theorem AllAscending.update {target result} (held : AllAscending ob)
    (eq : ∀ msg ∈ result.2, msg.partitionKey = target)
    (here : Ascending target result.1 (delivered ob target ++ result.2)) :
    AllAscending (ob.update target result) := by
  intro key now
  rw [partitionBuffer_update, delivered_update _ _ _ _ eq]
  split
  next equal =>
    subst equal
    exact here
  · exact held key now

variable {now : Int} {visit : Visit}

theorem AllAscending.addMessage (held : AllAscending ob) (inRange : msg.InRange)
    (unbuffered : Unbuffered (partitionBuffer now ob msg.partitionKey) msg) :
    AllAscending (addMessage now ob msg) := by
  have here := held msg.partitionKey now
  exact held.update (accept_key now _ msg here.filed rfl) (here.accept now rfl inRange unbuffered)

theorem AllAscending.visitBuffer (held : AllAscending ob) (fits : visit.Fits now ob) :
    AllAscending (visitBuffer now ob visit) := by
  unfold SequenceNumberBuffer.visitBuffer
  split
  · exact held
  next pb hit =>
    have here : Ascending visit.key pb (delivered ob visit.key) := by
      have known := held visit.key now
      rwa [partitionBuffer, hit] at known
    have ranges := (fits pb hit).1
    apply held.update
    · intro msg mem
      rcases skipGap_cases now visit.search here ranges with idle | ⟨seq, found, stored, -, skipped⟩
      · rw [visitPartition, idle] at mem
        cases mem
      · rw [visitPartition, skipped] at mem
        rw [List.mem_singleton.mp mem]
        exact (here.filed _ _ stored).1
    · exact (here.skipGap now visit.search ranges).dropOld visit.drop

theorem Visit.Fits.after {other} (fits : visit.Fits now ob) (ne : visit.key ≠ other.key) :
    visit.Fits now (visitBuffer now ob other) := by
  unfold visitBuffer
  split
  · exact fits
  · intro pb hit
    apply fits pb
    rwa [OrderedBuffer.update, lookup_insert_ite, if_neg ne] at hit

theorem AllAscending.checkTimeouts {visits} (held : AllAscending ob)
    (distinct : (visits.map Visit.key).Nodup) (fits : ∀ visit ∈ visits, visit.Fits now ob) :
    AllAscending (checkTimeouts now visits ob) := by
  unfold SequenceNumberBuffer.checkTimeouts
  induction visits generalizing ob with
  | nil => exact held
  | cons visit visits ih =>
    rw [map_cons, nodup_cons] at distinct
    apply ih (held.visitBuffer (fits visit (by simp))) distinct.2
    intro later mem
    apply (fits later (by simp [mem])).after
    intro eq
    exact distinct.1 (eq ▸ mem_map_of_mem mem)

/-- A message carries a number from 1 to one below the largest there is. -/
def Event.InRange : Event → Prop
  | .addMessage _ msg => msg.InRange
  | .tick _ _ => True

instance (event : Event) : Decidable event.InRange := by
  cases event
  · exact inferInstanceAs (Decidable (Message.InRange _))
  · exact inferInstanceAs (Decidable True)

def Event.Unbuffered (ob : OrderedBuffer) : Event → Prop
  | .addMessage now msg =>
    SequenceNumberBuffer.Unbuffered (partitionBuffer now ob msg.partitionKey) msg
  | .tick _ _ => True

variable {event : Event}

theorem AllAscending.step {t} (held : AllAscending ob) (inRange : event.InRange)
    (unbuffered : event.Unbuffered ob) (took : step ob event = some t) : AllAscending t := by
  cases event with
  | addMessage now msg =>
    cases took
    exact held.addMessage inRange unbuffered
  | tick now visits =>
    simp only [SequenceNumberBuffer.step] at took
    split at took <;> cases took
    rename_i ranges
    exact held.checkTimeouts ranges.1.1 ranges.2

/-- No partition has gone backwards, in what it delivered or in what it still holds. -/
def Forward (ob : OrderedBuffer) : Prop :=
  ∀ key, (delivered ob key).Pairwise (fun first second => first.sequenceNum < second.sequenceNum) ∧
    ∀ pb, ob.buffers.lookup key = some pb → ∀ seq ∈ pb.pending, pb.nextSeq ≤ seq

theorem AllAscending.forward (held : AllAscending ob) : Forward ob := by
  intro key
  constructor
  · have sorted := (held key 0).sorted
    rw [pairwise_map] at sorted
    exact sorted.imp fun less => Int64.lt_iff_toInt_lt.mpr less
  · intro pb hit seq mem
    have here := held key 0
    rw [partitionBuffer, hit] at here
    obtain ⟨msg, stored⟩ := mem_iff.mp mem
    exact Int64.le_iff_toInt_le.mpr (here.ahead seq msg stored)

/-- The inner loop never comes back to a number that `nextSeq` has passed. -/
theorem drain_keeps_passed (now fuel) (inv : ∀ other ∈ pb.pending, other.toInt < 2 ^ 63 - 1)
    (stored : seq ∈ pb.pending) (ok : seq.toInt < pb.nextSeq.toInt) :
    seq ∈ (drain now fuel pb).1.pending ∧ seq.toInt < (drain now fuel pb).1.nextSeq.toInt := by
  have both := drain_induction now
    (fun pb _ => (∀ other ∈ pb.pending, other.toInt < 2 ^ 63 - 1) ∧ seq ∈ pb.pending ∧
      seq.toInt < pb.nextSeq.toInt)
    (fun pb _ msg held hit => by
      obtain ⟨inv, stored, ok⟩ := held
      have below := inv _ (mem_of_lookup_eq_some hit)
      refine ⟨fun other mem => inv other (mem_advance.mp mem).1, mem_advance.mpr ⟨stored, ?_⟩, ?_⟩
      · rintro rfl
        omega
      · have succ := MachineInt.toInt_add_one below
        dsimp only [PartitionBuffer.advance]
        omega)
    fuel pb [] ⟨inv, stored, ok⟩
  exact both.2

/-- A copy of the expected message that is still pending stays behind when the message is
delivered directly. -/
theorem accept_leaves_copy (now) (held : Ascending key pb sent) (inRange : msg.InRange)
    (expected : msg.sequenceNum = pb.nextSeq) (copy : msg.sequenceNum ∈ pb.pending) :
    msg.sequenceNum ∈ (accept now pb msg).1.pending ∧
      msg.sequenceNum.toInt < (accept now pb msg).1.nextSeq.toInt := by
  have succ := MachineInt.toInt_add_one inRange.toInt.2
  rw [accept, if_pos expected]
  apply drain_keeps_passed
  · intro x mem
    obtain ⟨stored, hit⟩ := mem_iff.mp mem
    exact held.bounded x stored hit
  · exact copy
  · rw [expected] at succ ⊢
    dsimp only
    omega

theorem AllAscending.unbuffered (held : AllAscending ob) (inRange : event.InRange)
    (good : ∀ next, SequenceNumberBuffer.step ob event = some next → Forward next) :
    event.Unbuffered ob := by
  cases event with
  | tick now visits => trivial
  | addMessage now msg =>
    intro expected copy
    obtain ⟨stays, ok⟩ := accept_leaves_copy now (held _ now) inRange expected copy
    have kept := (good _ rfl msg.partitionKey).2 _ (lookup_insert _) _ stays
    rw [Int64.le_iff_toInt_le] at kept
    omega

/-- In a run whose numbers are in range, every partition only ever moves forward exactly when
no expected message arrives while a copy of it is still pending. -/
theorem moves_forward_iff (events : List Event) (inRange : ∀ event ∈ events, event.InRange) :
    Throughout step Forward createOrderedBuffer events ↔
      Along step (fun ob event => event.Unbuffered ob) createOrderedBuffer events :=
  throughout_iff_along AllAscending allAscending_create (fun _ held => held.forward) Event.InRange
    (fun _ _ _ held inRange unbuffered stepped => held.step inRange unbuffered stepped)
    (fun _ _ held inRange good => held.unbuffered inRange good) inRange

def lateMessageEvents : List Event :=
  [.addMessage 0 ⟨"p", 2, "b"⟩, .tick 600000000 [⟨"p", [2], []⟩],
    .addMessage 700000000 ⟨"p", 1, "a"⟩, .addMessage 800000000 ⟨"p", 3, "c"⟩]

theorem moves_forward_iff_late_message :
    (∀ event ∈ lateMessageEvents, event.InRange) ∧
      (Throughout step Forward createOrderedBuffer lateMessageEvents ↔
        Along step (fun ob event => event.Unbuffered ob) createOrderedBuffer lateMessageEvents) :=
  ⟨by decide, moves_forward_iff lateMessageEvents (by decide)⟩

/-- After a skip to 2 a second copy of 3 arrives before the first has left the pending map. The
copy is delivered, the first stays behind, and the next skip delivers it again. -/
def repeatedMessageEvents : List Event :=
  [.addMessage 0 ⟨"p", 2, "b"⟩, .addMessage 0 ⟨"p", 3, "c"⟩,
    .tick 600000000 [⟨"p", [2, 3], [3]⟩], .addMessage 700000000 ⟨"p", 3, "c"⟩,
    .tick 1300000000 [⟨"p", [3], []⟩]]

theorem repeated_message_delivered_twice :
    (∀ event ∈ repeatedMessageEvents, event.InRange) ∧
      ∃ ob, exec step createOrderedBuffer repeatedMessageEvents = some ob ∧
        (delivered ob "p").map (·.sequenceNum) = [2, 3, 3] ∧ ¬ Forward ob := by
  refine ⟨by decide, exists_exec (fun ob => (delivered ob "p").map (·.sequenceNum) = [2, 3, 3])
    (by decide) fun ob _ seen => ⟨seen, fun forward => ?_⟩⟩
  have sorted := (forward "p").1
  rw [← pairwise_map, seen] at sorted
  exact absurd sorted (by decide)

end AsyncPractice.SequenceNumberBuffer

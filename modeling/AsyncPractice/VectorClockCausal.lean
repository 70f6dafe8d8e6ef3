import Mathlib.Data.Fintype.Card
import AsyncPractice.VectorClock

namespace AsyncPractice.VectorClock

section

open Option List Causality Runs

variable {ι : Type} [DecidableEq ι]

def Phase.chosen : Phase ι → Option (Message ι)
  | accepted msg => some msg
  | enabled pm _ _ => some pm
  | _ => none

def Phase.messages : Phase ι → List (Message ι)
  | accepted msg => [msg]
  | scanning todo kept => todo ++ kept
  | enabled pm todo kept => pm :: (todo ++ kept)
  | _ => []

/-- The messages in a receiver loop were sent by other nodes, and the chosen one is ready. -/
structure Holds (network : List (Message ι)) (n : ι) (node : Node ι) : Prop where
  pending : ∀ m ∈ node.pending, m ∈ network ∧ m.sender ≠ n
  messages : ∀ m ∈ node.phase.messages, m ∈ network ∧ m.sender ≠ n
  chosen : ∀ m, node.phase.chosen = some m → isCausallyReady m node.vc

structure Invariant (s : State ι) : Prop where
  sound : Sound s
  holds : ∀ n, Holds s.network n (s.node n)

theorem init_invariant : Invariant (init : State ι) := by
  refine ⟨init_sound, fun n => ⟨?_, ?_, ?_⟩⟩ <;>
    simp [init, createNode, Phase.messages, Phase.chosen]

variable {s : State ι} {n : ι} {msg : Message ι}

theorem Invariant.set (inv : Invariant s) {node} (clock : node.vc = (s.node n).vc)
    (delivered : node.delivered = (s.node n).delivered) (holds : Holds s.network n node) :
    Invariant (s.set n node) := by
  have others : ∀ k, k ≠ n → (s.set n node).node k = s.node k := fun k => set_node_ne s node
  refine ⟨inv.sound.congr rfl rfl ?_ ?_, ?_⟩ <;> intro k <;> by_cases self : k = n
  · rw [self, set_node, clock]
  · rw [others k self]
  · rw [self, set_node, delivered]
  · rw [others k self]
  · rw [self, set_node]
    exact holds
  · rw [others k self]
    exact inv.holds k

theorem deliver_invariant (inv : Invariant s) (phase) (chosen : (s.node n).phase.chosen = some msg)
    (held : msg ∈ (s.node n).phase.messages) (free : phase.chosen = none)
    (ms : ∀ m ∈ phase.messages, m ∈ s.network ∧ m.sender ≠ n) :
    Invariant (deliver s n msg phase) := by
  obtain ⟨sent, foreign⟩ := (inv.holds n).messages msg held
  refine ⟨deliver_sound inv.sound n msg phase sent foreign ((inv.holds n).chosen msg chosen), ?_⟩
  intro k
  by_cases self : k = n
  · subst self
    have node : (deliver s k msg phase).node k = { s.node k with
        vc := merge (s.node k).vc msg.vc
        delivered := (s.node k).delivered ++ [msg]
        phase := phase } := set_node ..
    rw [node]
    exact ⟨(inv.holds k).pending, ms, fun m hit => by simp [free] at hit⟩
  · have node : (deliver s n msg phase).node k = s.node k := set_node_ne s _ self
    rw [node]
    exact inv.holds k

/-- Happens-before, read off the history alone, is what the stamps compare. -/
theorem earlier_of_happensBefore (inv : Invariant s) {first second}
    (causal : HappensBefore s.history first second) : Earlier first second :=
  happensBefore_of_direct inv.sound.edges (fun _ _ _ => Earlier.trans) causal

variable [ToString ι]

theorem sendMessage_invariant (inv : Invariant s) (n c) :
    Invariant (sendMessage s n c) := by
  refine ⟨sendMessage_sound inv.sound n c, fun k => ?_⟩
  obtain ⟨pending, ms, chosen⟩ := inv.holds k
  have sent : ∀ m, m ∈ s.network ∧ m.sender ≠ k → m ∈ (sendMessage s n c).network ∧ m.sender ≠ k :=
    fun m old => ⟨mem_append_left _ old.1, old.2⟩
  by_cases self : k = n
  · subst self
    have node : (sendMessage s k c).node k =
        { s.node k with vc := tick (s.node k).vc k } := set_node ..
    rw [node]
    refine ⟨fun m mem => sent m (pending m mem), fun m mem => sent m (ms m mem),
      fun m hit => isCausallyReady_tick ?_ (chosen m hit)⟩
    -- The chosen message is one of those the loop holds.
    refine (ms m ?_).2
    revert hit
    cases (s.node k).phase <;> simp +contextual [Phase.chosen, Phase.messages]
  · have node : (sendMessage s n c).node k = s.node k := set_node_ne s _ self
    rw [node]
    exact ⟨fun m mem => sent m (pending m mem), fun m mem => sent m (ms m mem), chosen⟩

variable [Fintype ι]

inductive Moves (s : State ι) : Action ι → State ι → Prop
  | send (n : ι) (content : String) : Moves s (.send n content) (sendMessage s n content)
  | receive (n : ι) (i : Nat) (msg : Message ι) (idle : (s.node n).phase = .idle)
      (sent : s.network[i]? = some msg) (foreign : msg.sender ≠ n) :
      Moves s (.receive n i) (s.set n (receiveMessage (s.node n) msg))
  | stop (n : ι) (idle : (s.node n).phase = .idle) :
      Moves s (.stop n) (s.set n { s.node n with phase := .stopped })
  | accept (n : ι) (msg : Message ι) (accepted : (s.node n).phase = .accepted msg) :
      Moves s (.proceed n) (deliver s n msg (.scanning (s.node n).pending []))
  | enable (n : ι) (pm : Message ι) (todo kept : List (Message ι))
      (scanning : (s.node n).phase = .scanning (pm :: todo) kept)
      (ready : isCausallyReady pm (s.node n).vc) :
      Moves s (.proceed n) (s.set n { s.node n with phase := .enabled pm todo kept })
  | keep (n : ι) (pm : Message ι) (todo kept : List (Message ι))
      (scanning : (s.node n).phase = .scanning (pm :: todo) kept)
      (blocked : ¬ isCausallyReady pm (s.node n).vc) :
      Moves s (.proceed n) (s.set n { s.node n with phase := .scanning todo (kept ++ [pm]) })
  | release (n : ι) (pm : Message ι) (todo kept : List (Message ι))
      (enabled : (s.node n).phase = .enabled pm todo kept) :
      Moves s (.proceed n) (deliver s n pm (.scanning todo kept))
  | finish (n : ι) (kept : List (Message ι)) (scanning : (s.node n).phase = .scanning [] kept) :
      Moves s (.proceed n) (s.set n { s.node n with pending := kept, phase := .idle })

variable {t : State ι} {a : Action ι}

theorem moves_of_process (took : processMessages s n = some t) : Moves s (.proceed n) t := by
  unfold processMessages at took
  dsimp only at took
  split at took
  next msg accepted =>
    exact some.inj took ▸ .accept n msg accepted
  next pm todo kept scanning =>
    split at took
    next ready =>
      exact some.inj took ▸ .enable n pm todo kept scanning ready
    next blocked =>
      exact some.inj took ▸ .keep n pm todo kept scanning blocked
  next pm todo kept enabled =>
    exact some.inj took ▸ .release n pm todo kept enabled
  next kept scanning =>
    exact some.inj took ▸ .finish n kept scanning
  · cases took

theorem moves_of_step (took : step s a = some t) : Moves s a t := by
  cases a with
  | send n c => exact some.inj took ▸ .send n c
  | receive n i =>
    simp only [step] at took
    split at took
    next msg idle sent =>
      split at took
      · cases took
      next foreign =>
        exact some.inj took ▸ .receive n i msg idle sent foreign
    · cases took
  | stop n =>
    simp only [step] at took
    split at took
    next idle =>
      exact some.inj took ▸ .stop n idle
    · cases took
  | proceed n => exact moves_of_process took

omit [ToString ι] in
theorem receiveMessage_invariant (inv : Invariant s) (sent : msg ∈ s.network)
    (foreign : msg.sender ≠ n) : Invariant (s.set n (receiveMessage (s.node n) msg)) := by
  obtain ⟨pending, ms, chosen⟩ := inv.holds n
  unfold receiveMessage
  split
  · exact inv.set rfl rfl ⟨pending, by simp [Phase.messages], by simp [Phase.chosen]⟩
  · split
    next ready =>
      refine inv.set rfl rfl ⟨pending, ?_, ?_⟩
      · simpa [Phase.messages] using ⟨sent, foreign⟩
      · simpa [Phase.chosen] using ready
    · refine inv.set rfl rfl ⟨?_, ms, chosen⟩
      exact forall_mem_snoc pending ⟨sent, foreign⟩

theorem step_invariant (inv : Invariant s) (took : step s a = some t) : Invariant t := by
  cases moves_of_step took with
  | send n c => exact sendMessage_invariant inv n c
  | receive n i msg idle sent foreign =>
    exact receiveMessage_invariant inv (mem_of_getElem? sent) foreign
  | stop n idle =>
    exact inv.set rfl rfl ⟨(inv.holds n).pending, by simp [Phase.messages], by simp [Phase.chosen]⟩
  | accept n msg acc =>
    apply deliver_invariant inv
    · simp [acc, Phase.chosen]
    · simp [acc, Phase.messages]
    · rfl
    · simpa [Phase.messages] using (inv.holds n).pending
  | enable n pm todo kept scanning ready =>
    have ms := (inv.holds n).messages
    rw [scanning] at ms
    exact inv.set rfl rfl ⟨(inv.holds n).pending, ms, by simpa [Phase.chosen] using ready⟩
  | keep n pm todo kept scanning blocked =>
    have ms := (inv.holds n).messages
    rw [scanning] at ms
    refine inv.set rfl rfl ⟨(inv.holds n).pending, fun m mem => ms m ?_, by simp [Phase.chosen]⟩
    simp only [Phase.messages, mem_append, mem_cons, not_mem_nil, or_false] at mem ⊢
    tauto
  | release n pm todo kept enabled =>
    have ms := (inv.holds n).messages
    rw [enabled] at ms
    apply deliver_invariant inv
    · simp [enabled, Phase.chosen]
    · simp [enabled, Phase.messages]
    · rfl
    · exact fun m mem => ms m (mem_cons_of_mem _ mem)
  | finish n kept scanning =>
    have ms := (inv.holds n).messages
    rw [scanning] at ms
    exact inv.set rfl rfl ⟨fun m mem => ms m (by simpa [Phase.messages] using mem),
      by simp [Phase.messages], by simp [Phase.chosen]⟩

theorem reachable_invariant {actions} (run : exec step init actions = some s) : Invariant s :=
  exec_invariant Invariant init_invariant (fun _ _ _ inv took => step_invariant inv took) run

/-- Causal delivery: at every node, whatever the order and multiplicity of arrivals, causes
are delivered before effects, each sender's messages in the order they were sent, and no
message twice. -/
theorem causal_delivery (actions : List (Action ι)) (s : State ι)
    (run : exec step init actions = some s) (n : ι) :
    (∀ first ∈ (s.node n).delivered, ∀ second ∈ (s.node n).delivered,
      HappensBefore s.history first second → Precedes (s.node n).delivered first second) ∧
    (∀ sender first second before after,
      s.history = before ++ .send sender second :: after → .send sender first ∈ before →
      first ∈ (s.node n).delivered → second ∈ (s.node n).delivered →
      Precedes (s.node n).delivered first second) ∧
    (s.node n).delivered.Nodup := by
  have inv := reachable_invariant run
  have causes : ∀ first ∈ (s.node n).delivered, ∀ second,
      HappensBefore s.history first second → Precedes (s.node n).delivered first second := by
    intro first member second causal
    obtain ⟨sent, foreign, -⟩ := (inv.sound.delivered n first).mp member
    exact inv.sound.ordered n first sent foreign second (earlier_of_happensBefore inv causal)
  refine ⟨fun first member second _ => causes first member second, ?_, inv.sound.nodup n⟩
  intro sender first second before after split sentBefore member _
  exact causes first member second (.single ⟨before, sender, after, split, Or.inl sentBefore⟩)

/-- A clock says what its node has delivered: of every other sender the messages up to that count
and no others, so that nodes with equal clocks have delivered the same. -/
theorem delivered_iff_counted (actions : List (Action ι)) (s : State ι)
    (run : exec step init actions = some s) (n : ι) :
    (∀ m, m ∈ (s.node n).delivered ↔
      m ∈ s.network ∧ m.sender ≠ n ∧ m.vc m.sender ≤ (s.node n).vc m.sender) ∧
    ∀ k, (s.node k).vc = (s.node n).vc → ∀ m, m.sender ≠ n → m.sender ≠ k →
      (m ∈ (s.node k).delivered ↔ m ∈ (s.node n).delivered) := by
  have inv := (reachable_invariant run).sound
  refine ⟨inv.delivered n, fun k eq m here there => ?_⟩
  rw [inv.delivered, inv.delivered, eq]
  simp only [here, there, ne_eq, not_false_eq_true]

def replyFirstActions : List (Action (Fin 3)) :=
  [.send 0 "Hello from A", .receive 1 0, .proceed 1, .proceed 1, .send 1 "Reply from B",
    .receive 2 1, .receive 2 1, .receive 2 0, .proceed 2, .proceed 2, .proceed 2, .proceed 2,
    .proceed 2]

theorem causal_delivery_reply_first :
    let s := (exec step init replyFirstActions).get (by decide)
    (s.node 2).delivered.map Message.content = ["Hello from A", "Reply from B"] ∧
      (s.node 2).delivered.Nodup :=
  ⟨by decide, (causal_delivery replyFirstActions _ (some_get _).symm 2).2.2⟩

theorem delivered_iff_counted_reply_first :
    let s := (exec step init replyFirstActions).get (by decide)
    ∀ m, m ∈ (s.node 2).delivered ↔
      m ∈ s.network ∧ m.sender ≠ 2 ∧ m.vc m.sender ≤ (s.node 2).vc m.sender :=
  (delivered_iff_counted replyFirstActions _ (some_get _).symm 2).1

end

/- The pending list. One pass over it after a delivery releases every message that the
delivery made deliverable, unless such a message stands before one it waits for. -/
open Option List Runs

variable {ι : Type}

def mergeAll (vc : Clock ι) (messages : List (Message ι)) : Clock ι :=
  messages.foldl (fun vc m => merge vc m.vc) vc

theorem mergeAll_snoc (vc) (ms : List (Message ι)) (m) :
    mergeAll vc (ms ++ [m]) = merge (mergeAll vc ms) m.vc := by
  simp [mergeAll]

theorem le_mergeAll (vc) (ms : List (Message ι)) (k) : vc k ≤ mergeAll vc ms k := by
  induction ms using reverseRecOn with
  | nil => exact le_refl _
  | append_singleton ms m ih =>
    rw [mergeAll_snoc]
    exact le_trans ih (le_merge_left _ _ _)

/-- The stamp of `p` counts message `q`. -/
def Covers (p q : Message ι) : Prop := q.vc q.sender ≤ p.vc q.sender

variable [DecidableEq ι]

/-- The messages can be delivered one after another, starting from the clock `vc`. -/
def Deliverable (vc : Clock ι) : List (Message ι) → Prop
  | [] => True
  | m :: rest => isCausallyReady m vc ∧ Deliverable (merge vc m.vc) rest

theorem deliverable_snoc (vc) (ms : List (Message ι)) (m) :
    Deliverable vc (ms ++ [m]) ↔ Deliverable vc ms ∧ isCausallyReady m (mergeAll vc ms) := by
  induction ms generalizing vc with
  | nil => simp [Deliverable, mergeAll]
  | cons head rest ih =>
    simp only [cons_append, Deliverable, ih, mergeAll, foldl_cons, and_assoc]

/-- No buffered message stands before one it waits for, as far as the delivery of `msg` lets
both of them be delivered, the awaited one right before it. -/
def InOrder (vc : Clock ι) (msg : Message ι) (pending : List (Message ι)) : Prop :=
  ∀ p q released, [p, q].Sublist pending → (∀ m ∈ released, m ∈ pending) →
    Deliverable vc (msg :: (released ++ [q, p])) → ¬ Covers p q

variable {n : ι} {vc : Clock ι} {m : Message ι}

/-- Readiness of another node's message does not depend on the node's own component, which
is ahead of every stamp. -/
theorem isCausallyReady_congr {vc'} (foreign : m.sender ≠ n) (known : m.vc n ≤ vc n)
    (known' : m.vc n ≤ vc' n) (eq : ∀ k, k ≠ n → vc k = vc' k) :
    isCausallyReady m vc ↔ isCausallyReady m vc' := by
  simp only [isCausallyReady, tick_self, eq _ foreign]
  refine and_congr Iff.rfl (forall_congr' fun k => forall_congr' fun _ => ?_)
  by_cases self : k = n
  · subst self
    exact iff_of_true known known'
  · rw [eq k self]

/-- A message that one delivery makes ready is a message that waited for it. -/
theorem covers_of_unblocked {pm} (blocked : ¬ isCausallyReady m vc)
    (delivered : isCausallyReady pm vc) (ready : isCausallyReady m (merge vc pm.vc)) :
    Covers m pm := by
  have t := delivered.1
  rw [merge_of_ready delivered] at ready
  rw [tick_self] at t
  unfold Covers
  by_contra ahead
  apply blocked
  -- Had `m` not counted `pm`, it would have been ready before.
  have sender : m.sender ≠ pm.sender := by
    intro eq
    have count := ready.1
    rw [tick_self, eq, tick_self] at count
    omega
  refine ⟨?_, fun k ne => ?_⟩
  · have count := ready.1
    rw [tick_self, tick_ne _ sender] at count
    rw [tick_self, count]
  · have bound := ready.2 k ne
    by_cases here : k = pm.sender
    · subst here
      omega
    · rwa [tick_ne _ here] at bound

/-- The scan in progress: `base` is the clock at the receipt of `msg`, `pend` the list that
is scanned and `released` what the scan has delivered so far. -/
structure Scan (n : ι) (vc : Clock ι) (todo kept : List (Message ι)) (base : Clock ι)
    (msg : Message ι) (done released : List (Message ι)) : Prop where
  foreign : ∀ m ∈ done ++ todo, m.sender ≠ n ∧ m.vc n ≤ base n
  order : InOrder base msg (done ++ todo)
  chain : Deliverable base (msg :: released)
  taken : ∀ m ∈ released, m ∈ done ++ todo
  clock : ∀ k, k ≠ n → vc k = mergeAll base (msg :: released) k
  ahead : base n ≤ vc n
  blocked : ∀ m ∈ kept, m ∈ done ∧ ¬ isCausallyReady m vc

def Scanned (n : ι) (vc : Clock ι) (todo kept : List (Message ι)) : Prop :=
  ∃ base msg done released, Scan n vc todo kept base msg done released

/-- The states of a receiver loop between two receipts, and within one. -/
def Settled (n : ι) (node : Node ι) : Prop :=
  match node.phase with
  | .idle => ∀ m ∈ node.pending, ¬ isCausallyReady m node.vc
  | .accepted msg => ∃ base, (∀ m ∈ node.pending, m.sender ≠ n ∧ m.vc n ≤ base n) ∧
      InOrder base msg node.pending ∧ isCausallyReady msg base ∧
      (∀ k, k ≠ n → node.vc k = base k) ∧ base n ≤ node.vc n
  | .scanning todo kept => Scanned n node.vc todo kept
  | .enabled pm todo kept => Scanned n node.vc (pm :: todo) kept
  | .stopped => True

variable {pm : Message ι} {todo kept : List (Message ι)}

/-- The clock of the chain and the clock of the node agree on what is ready. -/
theorem Scan.ready_iff {base msg done released} (scan : Scan n vc todo kept base msg done released)
    {m} (mem : m ∈ done ++ todo) :
    isCausallyReady m vc ↔ isCausallyReady m (mergeAll base (msg :: released)) := by
  obtain ⟨foreign, known⟩ := scan.foreign m mem
  exact isCausallyReady_congr foreign (le_trans known scan.ahead)
    (le_trans known (le_mergeAll _ _ _)) scan.clock

theorem Scanned.keep (scanned : Scanned n vc (pm :: todo) kept)
    (blocked : ¬ isCausallyReady pm vc) : Scanned n vc todo (kept ++ [pm]) := by
  obtain ⟨base, msg, done, released, scan⟩ := scanned
  have list : done ++ [pm] ++ todo = done ++ pm :: todo := by simp
  refine ⟨base, msg, done ++ [pm], released, ?_, ?_, scan.chain, ?_, scan.clock, scan.ahead, ?_⟩
  · rw [list]
    exact scan.foreign
  · rw [list]
    exact scan.order
  · rw [list]
    exact scan.taken
  · refine forall_mem_snoc (fun m old => ?_) ⟨by simp, blocked⟩
    exact ⟨mem_append_left _ (scan.blocked m old).1, (scan.blocked m old).2⟩

theorem Scanned.release (scanned : Scanned n vc (pm :: todo) kept) (ready : isCausallyReady pm vc) :
    Scanned n (merge vc pm.vc) todo kept := by
  obtain ⟨base, msg, done, released, scan⟩ := scanned
  have list : done ++ [pm] ++ todo = done ++ pm :: todo := by simp
  have here : pm ∈ done ++ pm :: todo := by simp
  have chained : msg :: (released ++ [pm]) = msg :: released ++ [pm] := rfl
  have chain : Deliverable base (msg :: (released ++ [pm])) := by
    rw [chained, deliverable_snoc]
    exact ⟨scan.chain, (scan.ready_iff here).mp ready⟩
  have clock : ∀ k, k ≠ n → merge vc pm.vc k = mergeAll base (msg :: (released ++ [pm])) k := by
    intro k ne
    rw [chained, mergeAll_snoc]
    simp only [merge, scan.clock k ne]
  refine ⟨base, msg, done ++ [pm], released ++ [pm], ?_, ?_, chain, ?_, clock,
    le_trans scan.ahead (le_merge_left _ _ _), ?_⟩
  · rw [list]
    exact scan.foreign
  · rw [list]
    exact scan.order
  · rw [list]
    exact forall_mem_snoc scan.taken here
  · -- A kept message that became ready would stand before the one it waited for.
    intro m mem
    obtain ⟨earlier, blocked⟩ := scan.blocked m mem
    refine ⟨mem_append_left _ earlier, fun unblocked => ?_⟩
    have lt : m ∈ done ++ pm :: todo := mem_append_left _ earlier
    obtain ⟨foreign, known⟩ := scan.foreign m lt
    have inv : isCausallyReady m (mergeAll base (msg :: (released ++ [pm]))) :=
      (isCausallyReady_congr foreign (le_trans known (le_trans scan.ahead (le_merge_left _ _ _)))
        (le_trans known (le_mergeAll _ _ _)) clock).mp unblocked
    have pre : [m, pm].Sublist (done ++ pm :: todo) :=
      (singleton_sublist.mpr earlier).append (singleton_sublist.mpr (mem_cons_self ..))
    refine scan.order m pm released pre scan.taken ?_ (covers_of_unblocked blocked ready unblocked)
    have longer : msg :: (released ++ [pm, m]) = msg :: (released ++ [pm]) ++ [m] := by simp
    rw [longer, deliverable_snoc]
    exact ⟨chain, inv⟩

/-- A send of the node itself in the middle of a scan changes nothing for it. -/
theorem Scanned.tick (scanned : Scanned n vc todo kept) : Scanned n (tick vc n) todo kept := by
  obtain ⟨base, msg, done, released, scan⟩ := scanned
  have eq : ∀ k, k ≠ n → VectorClock.tick vc n k = vc k := fun k ne => tick_ne vc ne
  refine ⟨base, msg, done, released, scan.foreign, scan.order, scan.chain, scan.taken,
    fun k ne => (eq k ne).trans (scan.clock k ne),
    le_trans scan.ahead (le_tick vc n n), fun m mem => ?_⟩
  obtain ⟨pre, blocked⟩ := scan.blocked m mem
  obtain ⟨foreign, known⟩ := scan.foreign m (mem_append_left _ pre)
  refine ⟨pre, fun ready => blocked ?_⟩
  have below := le_trans known scan.ahead
  exact (isCausallyReady_congr foreign (le_trans below (le_tick vc n n)) below eq).mp ready

variable {node : Node ι} {network : List (Message ι)} {msg : Message ι} {s : State ι}

theorem Settled.tick (inv : Settled n node) (holds : Holds network n node)
    (below : ∀ m ∈ network, m.vc n ≤ node.vc n) : Settled n { node with vc := tick node.vc n } := by
  have eq : ∀ k, k ≠ n → VectorClock.tick node.vc n k = node.vc k :=
    fun k ne => tick_ne node.vc ne
  unfold Settled at inv ⊢
  dsimp only at inv ⊢
  split at inv
  · intro m mem ready
    obtain ⟨sent, foreign⟩ := holds.pending m mem
    have known := below m sent
    exact inv m mem ((isCausallyReady_congr foreign
      (le_trans known (le_tick node.vc n n)) known eq).mp ready)
  · obtain ⟨base, pending, order, ready, clock, ahead⟩ := inv
    exact ⟨base, pending, order, ready, fun k ne => (eq k ne).trans (clock k ne),
      le_trans ahead (le_tick node.vc n n)⟩
  · exact inv.tick
  · exact inv.tick
  · trivial

theorem Settled.accept (inv : Settled n node) (acc : node.phase = .accepted msg) :
    Scanned n (merge node.vc msg.vc) node.pending [] := by
  unfold Settled at inv
  rw [acc] at inv
  obtain ⟨base, pending, order, ready, clock, ahead⟩ := inv
  refine ⟨base, msg, [], [], pending, order, ⟨ready, trivial⟩, by simp, ?_,
    le_trans ahead (le_merge_left _ _ _), by simp⟩
  intro k ne
  simp only [merge, clock k ne, mergeAll, foldl_cons, foldl_nil]

theorem settled_set (inv : ∀ k, Settled k (s.node k)) (own : Settled n node) (k) :
    Settled k ((s.set n node).node k) := by
  by_cases self : k = n
  · subst self
    rw [set_node]
    exact own
  · rw [set_node_ne s node self]
    exact inv k

theorem inOrder_of_length_le_one {pending} (short : pending.length ≤ 1) :
    InOrder vc msg pending := by
  intro p q released pre
  have length := pre.length_le
  simp only [length_cons, length_nil] at length
  omega

variable [Fintype ι]

/-- The condition on a receipt: a message that is deliverable on arrival finds the pending
list in order. -/
def Orderly (s : State ι) : Action ι → Prop
  | .receive n i => ∀ msg, s.network[i]? = some msg → isCausallyReady msg (s.node n).vc →
      InOrder (s.node n).vc msg (s.node n).pending
  | _ => True

theorem receiveMessage_settled (idle : node.phase = .idle) (inv : Settled n node)
    (holds : Holds network n node) (below : ∀ m ∈ network, m.vc n ≤ node.vc n)
    (order : isCausallyReady msg node.vc → InOrder node.vc msg node.pending) :
    Settled n (receiveMessage node msg) := by
  unfold receiveMessage
  split
  · trivial
  · split
    next ready =>
      refine ⟨node.vc, fun m mem => ?_, order ready, ready, fun _ _ => rfl, le_refl _⟩
      obtain ⟨sent, foreign⟩ := holds.pending m mem
      exact ⟨foreign, below m sent⟩
    next blocked =>
      unfold Settled at inv ⊢
      simp only [idle] at inv ⊢
      exact forall_mem_snoc inv blocked

variable [ToString ι]

structure Ready (s : State ι) : Prop where
  invariant : Invariant s
  settled : ∀ n, Settled n (s.node n)

theorem step_settled {t action} (inv : Invariant s) (settled : ∀ n, Settled n (s.node n))
    (orderly : Orderly s action) (took : step s action = some t) : ∀ n, Settled n (t.node n) := by
  have below : ∀ n, ∀ m ∈ s.network, m.vc n ≤ (s.node n).vc n :=
    fun n m sent => inv.sound.stamps m sent n
  cases moves_of_step took with
  | send n c => exact settled_set settled ((settled n).tick (inv.holds n) (below n))
  | receive n i msg idle sent foreign =>
    exact settled_set settled (receiveMessage_settled idle (settled n) (inv.holds n) (below n)
      (orderly msg sent))
  | stop n idle => exact settled_set settled trivial
  | accept n msg acc => exact settled_set settled ((settled n).accept acc)
  | enable n pm todo kept scanning ready =>
    have pre := settled n
    unfold Settled at pre
    rw [scanning] at pre
    exact settled_set settled pre
  | keep n pm todo kept scanning blocked =>
    have pre := settled n
    unfold Settled at pre
    rw [scanning] at pre
    exact settled_set settled (pre.keep blocked)
  | release n pm todo kept enabled =>
    have ready := (inv.holds n).chosen pm (by rw [enabled]; rfl)
    have pre := settled n
    unfold Settled at pre
    rw [enabled] at pre
    exact settled_set settled (pre.release ready)
  | finish n kept scanning =>
    have pre := settled n
    unfold Settled at pre
    rw [scanning] at pre
    obtain ⟨base, msg, done, released, scan⟩ := pre
    exact settled_set settled fun m mem => (scan.blocked m mem).2

/-- No deliverable message is left waiting, in every run in which each message that is
deliverable on arrival finds the pending list in order. -/
theorem no_deliverable_pending (actions : List (Action ι)) (s : State ι)
    (run : exec step init actions = some s) (orderly : Along step Orderly init actions) (n : ι)
    (idle : (s.node n).phase = .idle) :
    ∀ m ∈ (s.node n).pending, ¬ isCausallyReady m (s.node n).vc := by
  have ready : Ready s := exec_guarded Ready
    ⟨init_invariant, fun _ => by simp [Settled, init, createNode]⟩
    (fun _ _ _ ready ok stepped => ⟨step_invariant ready.invariant stepped,
      step_settled ready.invariant ready.settled ok stepped⟩) run orderly
  have settled := ready.settled n
  unfold Settled at settled
  rwa [idle] at settled

def swappedActions : List (Action Bool) :=
  [.send false "first", .send false "second", .receive true 1, .receive true 0,
    .proceed true, .proceed true, .proceed true, .proceed true]

theorem no_deliverable_pending_swapped :
    ∃ s, exec step init swappedActions = some s ∧ (s.node true).phase = .idle ∧
      ∀ m ∈ (s.node true).pending, ¬ isCausallyReady m (s.node true).vc := by
  have orderly : Along step Orderly init swappedActions :=
    along_of_check (fun s action => match action with
      | .receive n _ => decide ((s.node n).pending.length ≤ 1)
      | _ => true)
      (fun s action passed => by
        cases action with
        | receive n i => exact fun _ _ _ => inOrder_of_length_le_one (by simpa using passed)
        | _ => trivial)
      (by decide)
  exact ⟨(exec step init swappedActions).get (by decide), (some_get _).symm, rfl,
    no_deliverable_pending swappedActions _ (some_get _).symm orderly true rfl⟩

/-- Node `false` sends three messages that reach node `true` in the opposite order. The pass after
the first delivers the second but has already gone past the third, which is ready then. -/
def reversedActions : List (Action Bool) :=
  [.send false "first", .send false "second", .send false "third",
    .receive true 2, .receive true 1, .receive true 0,
    .proceed true, .proceed true, .proceed true, .proceed true, .proceed true]

theorem deliverable_left_pending :
    ∃ s, exec step init reversedActions = some s ∧ (s.node true).phase = .idle ∧
      ∃ m ∈ (s.node true).pending, isCausallyReady m (s.node true).vc := by
  refine ⟨(exec step init reversedActions).get (by decide), (some_get _).symm, rfl, ?_⟩
  decide

end AsyncPractice.VectorClock

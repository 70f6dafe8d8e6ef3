import AsyncPractice.OptimisticConcurrency

namespace AsyncPractice.OptimisticConcurrency

open Option List Runs

variable {τ V : Type}

/-- The node has gone past the version. -/
def Ahead (og : OptimisticGraph V) (n : String) (version : Int64) : Prop :=
  ∃ node, og.nodes.lookup n = some node ∧ version.toInt < node.version.toInt

/-- No node is lost and no version goes back. -/
def Grows (og og' : OptimisticGraph V) : Prop :=
  ∀ n node, og.nodes.lookup n = some node →
    ∃ node', og'.nodes.lookup n = some node' ∧ node.version.toInt ≤ node'.version.toInt

theorem Grows.refl (og : OptimisticGraph V) : Grows og og :=
  fun _ n hit => ⟨n, hit, le_rfl⟩

variable {og og' : OptimisticGraph V}

theorem Grows.trans {og''} (x : Grows og og') (y : Grows og' og'') : Grows og og'' := by
  intro n node hit
  obtain ⟨node', found', pre⟩ := x n node hit
  obtain ⟨node'', found'', later⟩ := y n node' found'
  exact ⟨node'', found'', pre.trans later⟩

variable {n eid : String} {v : Int64} {tx : GraphTransaction V}

theorem Ahead.grows {version} (ahead : Ahead og n version) (grows : Grows og og') :
    Ahead og' n version := by
  obtain ⟨node, hit, less⟩ := ahead
  obtain ⟨node', found', later⟩ := grows n node hit
  exact ⟨node', found', less.trans_le later⟩

theorem grows_writeNext (mem : eid ∈ tx.writeSet)
    (older : ∀ node, og.nodes.lookup eid = some node → node.version.toInt < v.toInt) :
    Grows og (writeNext v tx og eid) := by
  intro n node hit
  by_cases same : n = eid
  · subst same
    obtain ⟨properties, here⟩ :=
      lookup_writeNext_self v og mem
    rw [here, hit]
    exact ⟨_, rfl, le_of_lt (older node hit)⟩
  · rw [lookup_writeNext_ne v tx og same]
    exact ⟨node, hit, le_rfl⟩

def Phase.Checked : Phase → String → Prop
  | .active, _ => False
  | .validating todo, n => n ∉ todo
  | .writing _ _, _ => True

theorem Phase.Checked.committing {phase : Phase} (checked : phase.Checked n) : phase ≠ .active := by
  rintro rfl
  exact checked

def Phase.Unwritten : Phase → String → Prop
  | .active, _ => False
  | .validating _, _ => True
  | .writing _ todo, n => n ∈ todo

/-- What the write loop of a transaction can rely on. -/
structure Writes (og : OptimisticGraph V) (tx : GraphTransaction V) (newVersion : Int64)
    (todo : List String) : Prop where
  drawn : newVersion.toInt ≤ og.globalClock.toInt
  nodup : todo.Nodup
  listed : ∀ n ∈ todo, n ∈ tx.writeSet
  older : ∀ n ∈ todo, ∀ node, og.nodes.lookup n = some node → node.version.toInt < newVersion.toInt
  written : ∀ n ∈ tx.writeSet, n ∉ todo → ∀ version, tx.readSet.lookup n = some version →
    Ahead og n version

/-- A transaction that reads and writes a node still finds, between its check and its write,
the version it read, and committed transactions that wrote the node have read older ones. -/
structure Holds (og : OptimisticGraph V) (log : List (GraphTransaction V))
    (session : Session V) : Prop where
  current : ∀ n ∈ session.tx.writeSet, ∀ version, session.tx.readSet.lookup n = some version →
    session.phase.Checked n → session.phase.Unwritten n →
    ∃ node, og.nodes.lookup n = some node ∧ node.version = version
  later : ∀ n ∈ session.tx.writeSet, ∀ version, session.tx.readSet.lookup n = some version →
    session.phase.Checked n → ∀ earlier ∈ log, n ∈ earlier.writeSet →
    ∀ old, earlier.readSet.lookup n = some old → old.toInt < version.toInt
  writes : ∀ newVersion todo, session.phase = .writing newVersion todo →
    Writes og session.tx newVersion todo

/-- Both transactions read the same version of a node that both write. -/
def LostUpdate (a b : GraphTransaction V) : Prop :=
  ∃ n version, a.readSet.lookup n = some version ∧ b.readSet.lookup n = some version ∧
    n ∈ a.writeSet ∧ n ∈ b.writeSet

structure Sound (s : State τ V) : Prop where
  bounded : Bounded s.graph
  apart : ∀ t u, t ≠ u → (s.session t).phase ≠ .active → (s.session u).phase ≠ .active →
    ∀ n ∈ (s.session t).tx.writeSet, n ∉ (s.session u).tx.writeSet
  holds : ∀ t, Holds s.graph s.log (s.session t)
  logged : ∀ tx ∈ s.log, ∀ n ∈ tx.writeSet, ∀ version, tx.readSet.lookup n = some version →
    Ahead s.graph n version
  separate : s.log.Pairwise (fun a b => ¬ LostUpdate a b)

variable {log : List (GraphTransaction V)} {ss : Session V}

theorem holds_active (active : ss.phase = .active) : Holds og log ss := by
  constructor <;> simp [active, Phase.Checked]

theorem init_sound (inv : ∀ n node, og.nodes.lookup n = some node → node.version ≤ og.globalClock) :
    Sound (init og : State τ V) where
  bounded := bounded_of_le inv
  apart := by simp [init]
  holds := fun t => holds_active rfl
  logged := by simp [init]
  separate := List.Pairwise.nil

variable {s : State τ V} {t : τ}

/-- A transaction that was committing already keeps apart from the others. -/
theorem Sound.apart_of (inv : Sound s) (busy : (s.session t).phase ≠ .active)
    (eq : ss.tx = (s.session t).tx) :
    ss.phase ≠ .active → ∀ u, u ≠ t → (s.session u).phase ≠ .active →
      ∀ n ∈ ss.tx.writeSet, n ∉ (s.session u).tx.writeSet := by
  intro _ u ne right
  rw [eq]
  exact inv.apart t u (Ne.symm ne) busy right

theorem Holds.frame (held : Holds og log ss) (grows : Grows og og')
    (clock : og.globalClock.toInt ≤ og'.globalClock.toInt)
    (eq : ss.phase ≠ .active → ∀ n ∈ ss.tx.writeSet,
      og'.nodes.lookup n = og.nodes.lookup n) : Holds og' log ss := by
  constructor
  · intro n lt ver rec ok unwritten
    rw [eq ok.committing n lt]
    exact held.current n lt ver rec ok unwritten
  · exact held.later
  · intro v todo writing
    have ws := held.writes v todo writing
    have drawn := ws.drawn
    refine ⟨by omega, ws.nodup, ws.listed, ?_, ?_⟩
    · intro n lt node hit
      rw [eq (by simp [writing]) n (ws.listed n lt)] at hit
      exact ws.older n lt node hit
    · intro n lt absent ver rec
      exact (ws.written n lt absent ver rec).grows grows

variable [DecidableEq τ] {rest : List String}

theorem apart_set (inv : Sound s)
    (ne : ss.phase ≠ .active → ∀ u, u ≠ t → (s.session u).phase ≠ .active →
      ∀ n ∈ ss.tx.writeSet, n ∉ (s.session u).tx.writeSet) :
    ∀ u v, u ≠ v → ((s.set t ss).session u).phase ≠ .active →
      ((s.set t ss).session v).phase ≠ .active →
      ∀ n ∈ ((s.set t ss).session u).tx.writeSet, n ∉ ((s.set t ss).session v).tx.writeSet := by
  intro u v different left right n mem
  by_cases first : u = t
  · subst first
    rw [set_session] at left mem
    rw [set_session_ne s ss (Ne.symm different)] at right ⊢
    exact ne left v (Ne.symm different) right n mem
  · rw [set_session_ne s ss first] at left mem
    by_cases second : v = t
    · subst second
      rw [set_session] at right ⊢
      exact fun lt => ne right u first left n lt mem
    · rw [set_session_ne s ss second] at right ⊢
      exact inv.apart u v different left right n mem

theorem Sound.update (inv : Sound s) {g} (grows : Grows s.graph g) (bounded : Bounded g)
    (ne : ss.phase ≠ .active → ∀ u, u ≠ t → (s.session u).phase ≠ .active →
      ∀ n ∈ ss.tx.writeSet, n ∉ (s.session u).tx.writeSet)
    (others : ∀ u, u ≠ t → Holds g s.log (s.session u)) (holds : Holds g s.log ss) :
    Sound { s.set t ss with graph := g } := by
  refine ⟨bounded, apart_set inv ne, ?_, ?_, inv.separate⟩
  · intro u
    by_cases same : u = t
    · subst same
      rw [set_session]
      exact holds
    · rw [set_session_ne s ss same]
      exact others u same
  · intro tx mem n lt ver rec
    exact (inv.logged tx mem n lt ver rec).grows grows

theorem Sound.set (inv : Sound s)
    (ne : ss.phase ≠ .active → ∀ u, u ≠ t → (s.session u).phase ≠ .active →
      ∀ n ∈ ss.tx.writeSet, n ∉ (s.session u).tx.writeSet)
    (holds : Holds s.graph s.log ss) : Sound (s.set t ss) :=
  inv.update (Grows.refl s.graph) inv.bounded ne (fun u _ => inv.holds u) holds

theorem Sound.agree (inv : Sound s) (check : (s.session t).phase = .validating (eid :: rest))
    (valid : ∀ ver, (s.session t).tx.readSet.lookup eid = some ver →
      ∃ node, s.graph.nodes.lookup eid = some node ∧ node.version = ver) :
    Sound (s.set t { s.session t with phase := .validating rest }) := by
  have pre := inv.holds t
  have checked : ∀ n, n ∉ rest → n ≠ eid → (s.session t).phase.Checked n := by
    intro n ok ne
    rw [check]
    simp [Phase.Checked, ok, ne]
  apply inv.set
  · exact inv.apart_of (by simp [check]) rfl
  constructor
  · intro n mem ver rec ok _
    by_cases same : n = eid
    · subst same
      exact valid ver rec
    · exact pre.current n mem ver rec (checked n ok same) (by rw [check]; trivial)
  · intro n mem ver rec ok earlier lt shared old recordedOld
    by_cases same : n = eid
    · subst same
      obtain ⟨node, hit, cur⟩ := valid ver rec
      obtain ⟨node', found', less⟩ := inv.logged earlier lt n shared old recordedOld
      rw [hit, some.injEq] at found'
      rw [← cur, found']
      exact less
    · exact pre.later n mem ver rec (checked n ok same) earlier lt shared old recordedOld
  · intro v todo impossible
    cases impossible

theorem Sound.draw (inv : Sound s) {order} (check : (s.session t).phase = .validating [])
    (ranges : GoMap.Ranges order (s.session t).tx.writeSet)
    (room : s.graph.globalClock.toInt < 2 ^ 63 - 1) :
    Sound { s.set t { s.session t with phase := .writing (s.graph.globalClock + 1) order } with
      graph := { s.graph with globalClock := s.graph.globalClock + 1 } } := by
  have succ := MachineInt.toInt_add_one room
  have checked : ∀ n, (s.session t).phase.Checked n := by
    intro n
    rw [check]
    simp [Phase.Checked]
  have pre := inv.holds t
  apply inv.update
  · exact fun n node hit => ⟨node, hit, le_rfl⟩
  · intro n node hit
    have bound := inv.bounded n node hit
    dsimp only
    omega
  · exact inv.apart_of (by simp [check]) rfl
  · intro u _
    apply (inv.holds u).frame
    · exact fun n node hit => ⟨node, hit, le_rfl⟩
    · dsimp only
      omega
    · exact fun _ _ _ => rfl
  · constructor
    · intro n mem ver rec _ _
      exact pre.current n mem ver rec (checked n) (by rw [check]; trivial)
    · intro n mem ver rec _
      exact pre.later n mem ver rec (checked n)
    · intro v todo eq
      cases eq
      constructor
      · exact le_rfl
      · exact ranges.1
      · exact fun n mem => ranges.mem_iff.mp mem
      · intro n _ node hit
        have bound := inv.bounded n node hit
        omega
      · intro n mem absent
        exact absurd (ranges.mem_iff.mpr mem) absent

/-- A write takes its node off the list of those to be written. The node had the version that
was read, and now has a newer one. -/
theorem Holds.write (held : Holds og log ss) (writing : ss.phase = .writing v (eid :: rest)) :
    Holds (writeNext v ss.tx og eid) log { ss with phase := .writing v rest } := by
  have ws := held.writes v (eid :: rest) writing
  have checked : ∀ n, ss.phase.Checked n := by
    intro n
    rw [writing]
    trivial
  have pending : ∀ n ∈ eid :: rest, ss.phase.Unwritten n := by
    intro n todo
    rw [writing]
    exact todo
  obtain ⟨fresh, nodup⟩ := nodup_cons.mp ws.nodup
  have mem : eid ∈ ss.tx.writeSet := ws.listed eid mem_cons_self
  have older := ws.older eid mem_cons_self
  have frame : ∀ n ∈ rest, (writeNext v ss.tx og eid).nodes.lookup n = og.nodes.lookup n := by
    intro n lt
    apply lookup_writeNext_ne
    rintro rfl
    exact fresh lt
  constructor
  · intro n lt ver rec _ unwritten
    rw [frame n unwritten]
    exact held.current n lt ver rec (checked n) (pending n (mem_cons_of_mem _ unwritten))
  · exact fun n lt ver rec _ => held.later n lt ver rec (checked n)
  · intro ver todo eq
    cases eq
    constructor
    · rw [globalClock_writeNext]
      exact ws.drawn
    · exact nodup
    · exact fun n lt => ws.listed n (mem_cons_of_mem _ lt)
    · intro n lt node hit
      rw [frame n lt] at hit
      exact ws.older n (mem_cons_of_mem _ lt) node hit
    · intro n lt absent ver rec
      by_cases eq : n = eid
      · subst eq
        obtain ⟨node, hit, cur⟩ := held.current n lt ver rec (checked n) (pending n mem_cons_self)
        obtain ⟨properties, here⟩ := lookup_writeNext_self v og mem
        have newer := older node hit
        rw [cur] at newer
        rw [hit, Option.map_some] at here
        exact ⟨_, here, newer⟩
      · have ahead := ws.written n lt (by simp [eq, absent]) ver rec
        exact ahead.grows (grows_writeNext mem older)

theorem Bounded.write (inv : Bounded og) (mem : eid ∈ tx.writeSet)
    (drawn : v.toInt ≤ og.globalClock.toInt) :
    Bounded (writeNext v tx og eid) := by
  obtain ⟨properties, here⟩ := lookup_writeNext_self v og mem
  intro n node hit
  rw [globalClock_writeNext]
  by_cases same : n = eid
  · subst same
    rw [here] at hit
    obtain ⟨old, -, rfl⟩ := map_eq_some_iff.mp hit
    exact drawn
  · rw [lookup_writeNext_ne v tx og same] at hit
    exact inv n node hit

theorem Sound.write (inv : Sound s) (writing : (s.session t).phase = .writing v (eid :: rest)) :
    Sound { s.set t { s.session t with phase := .writing v rest } with
      graph := writeNext v (s.session t).tx s.graph eid } := by
  have ws := (inv.holds t).writes v (eid :: rest) writing
  have mem : eid ∈ (s.session t).tx.writeSet := ws.listed eid mem_cons_self
  have grows := grows_writeNext mem (ws.older eid mem_cons_self)
  apply inv.update grows
  · exact inv.bounded.write mem ws.drawn
  · exact inv.apart_of (by simp [writing]) rfl
  · intro u ne
    apply (inv.holds u).frame grows (by rw [globalClock_writeNext])
    intro busy n lt
    apply lookup_writeNext_ne
    rintro rfl
    exact inv.apart t u (Ne.symm ne) (by simp [writing]) busy n mem lt
  · exact (inv.holds t).write writing

/-- `Commit` returned nil. Whoever else is committing writes other nodes. -/
theorem Sound.finish (inv : Sound s) (writing : (s.session t).phase = .writing v []) :
    Sound { s.set t ⟨{ (s.session t).tx with status := .committed }, .active, some (.ok ())⟩ with
      log := s.log ++ [{ (s.session t).tx with status := .committed }] } := by
  have pre := inv.holds t
  have checked : ∀ n, (s.session t).phase.Checked n := by
    intro n
    rw [writing]
    trivial
  constructor
  · exact inv.bounded
  · exact apart_set inv (by simp)
  · intro u
    by_cases eq : u = t
    · subst eq
      rw [set_session]
      exact holds_active rfl
    · rw [set_session_ne s _ eq]
      have held := inv.holds u
      refine ⟨held.current, ?_, held.writes⟩
      intro n lt ver rec ok earlier mem shared
      rcases mem_append.mp mem with mem | mem
      · exact held.later n lt ver rec ok earlier mem shared
      · rw [mem_singleton.mp mem] at shared
        exact absurd lt (inv.apart t u (Ne.symm eq) (by simp [writing]) ok.committing n shared)
  · intro tx mem n lt ver rec
    rcases mem_append.mp mem with mem | mem
    · exact inv.logged tx mem n lt ver rec
    · rw [mem_singleton.mp mem] at lt rec
      exact (pre.writes v [] writing).written n lt (by simp) ver rec
  · rw [pairwise_append]
    refine ⟨inv.separate, pairwise_singleton _ _, ?_⟩
    intro earlier mem last eq
    rw [mem_singleton.mp eq]
    rintro ⟨n, ver, recordedOld, rec, shared, lt⟩
    have less := pre.later n lt ver rec (checked n) earlier mem shared ver recordedOld
    exact absurd less (lt_irrefl _)

/-- A `Commit` starts only when no other one under way writes a node that it writes. -/
def Undisturbed (s : State τ V) : Action τ V → Prop
  | .startCommit t _ => ∀ u, u ≠ t → (s.session u).phase ≠ .active →
      ∀ n ∈ (s.session t).tx.writeSet, n ∉ (s.session u).tx.writeSet
  | _ => True

variable {s' : State τ V} {action : Action τ V}

theorem Sound.step (inv : Sound s) (undisturbed : Undisturbed s action)
    (room : s.graph.globalClock.toInt < 2 ^ 63 - 1) (took : step s action = some s') :
    Sound s' := by
  cases moves_of_step took with
  | touch _ t tx active =>
    apply inv.set
    · exact fun busy => absurd active busy
    · exact holds_active active
  | start t order active ranges =>
    apply inv.set
    · exact fun _ => undisturbed
    have unchecked : ∀ n ver, (s.session t).tx.readSet.lookup n = some ver →
        ¬ (Phase.validating order).Checked n := by
      intro n ver rec ok
      exact ok (ranges.mem_iff.mpr (Finmap.mem_of_lookup_eq_some rec))
    constructor
    · exact fun n _ ver rec ok => absurd ok (unchecked n ver rec)
    · exact fun n _ ver rec ok => absurd ok (unchecked n ver rec)
    · intro v todo impossible
      cases impossible
  | conflict t eid rest msg check =>
    apply inv.set
    · exact fun busy => absurd rfl busy
    · exact holds_active rfl
  | agree t eid rest check valid => exact inv.agree check valid
  | draw t order check ranges => exact inv.draw check ranges room
  | write t v eid rest writing => exact inv.write writing
  | finish t v writing => exact inv.finish writing

theorem Sound.grows (inv : Sound s) (took : OptimisticConcurrency.step s action = some s') :
    Grows s.graph s'.graph := by
  cases moves_of_step took with
  | write t v eid rest writing =>
    have ws := (inv.holds t).writes v (eid :: rest) writing
    exact grows_writeNext (ws.listed eid (by simp)) (ws.older eid (by simp))
  | _ => exact fun n node hit => ⟨node, hit, le_rfl⟩

theorem clock_step (took : OptimisticConcurrency.step s action = some s') :
    s'.graph.globalClock.toInt ≤ s.graph.globalClock.toInt + 1 := by
  cases moves_of_step took with
  | draw t order check ranges => exact MachineInt.toInt_add_one_le s.graph.globalClock
  | write t v eid rest writing =>
    rw [globalClock_writeNext]
    omega
  | _ =>
    dsimp only [State.set]
    omega

/-- In a run in which no two overlapping commits write the same node, no update is lost and no
version goes back. -/
theorem no_lost_update (og : OptimisticGraph V)
    (bounded : ∀ n node, og.nodes.lookup n = some node → node.version ≤ og.globalClock)
    (actions : List (Action τ V)) (s : State τ V) (run : exec step (init og) actions = some s)
    (room : og.globalClock.toInt + actions.length < 2 ^ 63)
    (undisturbed : Along step Undisturbed (init og) actions) :
    s.log.Pairwise (fun a b => ¬ LostUpdate a b) ∧
    ∀ before after, actions = before ++ after → ∀ earlier : State τ V,
      exec step (init og) before = some earlier →
      ∀ n node, earlier.graph.nodes.lookup n = some node →
        ∃ node', s.graph.nodes.lookup n = some node' ∧ node.version ≤ node'.version := by
  have early : Along step (fun s _ => s.graph.globalClock.toInt < 2 ^ 63 - 1) (init og) actions :=
    along_of_room (fun s : State τ V => s.graph.globalClock.toInt)
      (fun _ _ _ stepped => clock_step stepped) (Int.le_sub_one_of_lt room)
  have guarded := undisturbed.and early
  have preserved : ∀ (s : State τ V) action s', Sound s → (Undisturbed s action ∧
      s.graph.globalClock.toInt < 2 ^ 63 - 1) → step s action = some s' → Sound s' :=
    fun s action s' sound ok stepped => sound.step ok.1 ok.2 stepped
  have sound : Sound s := exec_guarded Sound (init_sound bounded) preserved run guarded
  refine ⟨sound.separate, ?_⟩
  rintro before after rfl earlier reached n node found
  have rest := exec_resume run reached
  have start : Sound earlier := exec_guarded Sound (init_sound bounded) preserved reached
    guarded.initial
  have both : Sound s ∧ Grows earlier.graph s.graph :=
    exec_guarded (fun s => Sound s ∧ Grows earlier.graph s.graph) ⟨start, Grows.refl _⟩
      (fun s action s' held ok stepped =>
        ⟨held.1.step ok.1 ok.2 stepped, held.2.trans (held.1.grows stepped)⟩)
      rest (guarded.rest reached)
  obtain ⟨node', found', later⟩ := both.2 n node found
  exact ⟨node', found', Int64.le_iff_toInt_le.mpr later⟩

def overlappingActions : List (Action Bool Nat) :=
  [.readNode false "X", .readNode true "X", .updateNode false "X" ∅, .updateNode true "Y" ∅,
    .startCommit false ["X"], .startCommit true ["X"], .validateNext false, .validateNext true,
    .drawVersion false ["X"], .drawVersion true ["Y"], .writeNext true, .writeNext false,
    .finishCommit false, .finishCommit true]

theorem no_lost_update_overlapping :
    ∃ s, exec step (init newPair) overlappingActions = some s ∧ s.log.length = 2 ∧
      s.log.Pairwise (fun a b => ¬ LostUpdate a b) := by
  refine exists_exec (fun s => s.log.length = 2) (by decide) fun s run count => ⟨count, ?_⟩
  refine (no_lost_update newPair newPair_bounded overlappingActions s run (by decide)
    (along_of_check (fun s action => match action with
    | .startCommit t _ => decide (∀ u, u ≠ t → (s.session u).phase ≠ .active →
        ∀ n ∈ (s.session t).tx.writeSet.keys, n ∉ (s.session u).tx.writeSet.keys)
    | _ => true) ?_ (by decide))).1
  intro s action passed
  cases action with
  | startCommit t order =>
    intro u different committing n inside shared
    exact of_decide_eq_true passed u different committing n (Finmap.mem_keys.mpr inside)
      (Finmap.mem_keys.mpr shared)
  | _ => trivial

/-- Two transactions that both read and write X. Both are validated before either writes, and
the one that drew its version first writes last. -/
def racingActions : List (Action Bool Nat) :=
  [.readNode false "X", .readNode true "X", .updateNode false "X" ∅, .updateNode true "X" ∅,
    .startCommit false ["X"], .startCommit true ["X"], .validateNext false, .validateNext true,
    .drawVersion false ["X"], .drawVersion true ["X"], .writeNext true]

theorem update_lost_and_version_back :
    ∃ earlier s, exec step (init newPair) racingActions = some earlier ∧
      exec step (init newPair)
        (racingActions ++ [.writeNext false, .finishCommit false, .finishCommit true]) = some s ∧
      ¬ s.log.Pairwise (fun a b => ¬ LostUpdate a b) ∧
      (earlier.graph.nodes.lookup "X").map VersionedNode.version = some 2 ∧
      (s.graph.nodes.lookup "X").map VersionedNode.version = some 1 := by
  obtain ⟨earlier, run, two⟩ : ∃ s, exec step (init newPair) racingActions = some s ∧
      (s.graph.nodes.lookup "X").map VersionedNode.version = some 2 :=
    exists_exec_of_decide (by decide)
  obtain ⟨s, run', one, entries⟩ : ∃ s, exec step (init newPair)
        (racingActions ++ [.writeNext false, .finishCommit false, .finishCommit true]) = some s ∧
      (s.graph.nodes.lookup "X").map VersionedNode.version = some 1 ∧
      s.log.map (fun tx => (tx.readSet.lookup "X", decide ("X" ∈ tx.writeSet))) =
        [(some 0, true), (some 0, true)] := exists_exec_of_decide (by decide)
  refine ⟨earlier, s, run, run', ?_, two, one⟩
  intro separate
  obtain ⟨a, rest, log, first, others⟩ := map_eq_cons_iff.mp entries
  obtain ⟨b, last, same, second, -⟩ := map_eq_cons_iff.mp others
  rw [log, same, pairwise_cons] at separate
  apply separate.1 b (by simp)
  exact ⟨"X", 0, (Prod.mk.inj first).1, (Prod.mk.inj second).1,
    of_decide_eq_true (Prod.mk.inj first).2, of_decide_eq_true (Prod.mk.inj second).2⟩

end AsyncPractice.OptimisticConcurrency

import AsyncPractice.Checksum
import AsyncPractice.GoMap
import AsyncPractice.Runs

/- ContentAddressableStorage of solution24_object_storage.go: objects by key, the keys listed by
content hash, and the table of deduplicated blocks. -/
namespace AsyncPractice.ContentAddressable

open Option Finmap Function Runs

structure CASObject where
  key : String
  contentHash : String
  size : Int64
  refCount : Int32
  data : Bytes
  compressed : Bool

structure DedupBlock where
  hash : String
  size : Int64
  refCount : Int32
  data : Bytes

structure ContentAddressableStorage where
  objects : GoMap String CASObject
  index : GoMap String (List String)
  hashIndex : GoMap String DedupBlock
  savedSpace : Int64

def newContentAddressableStorage : ContentAddressableStorage := ⟨∅, ∅, ∅, 0⟩

/-- Keeps the first half of anything long. -/
def compress (data : Bytes) : Bytes :=
  if data.length < 100 then data else data.take (data.length / 2)

/-- Fills up with zeros to twice the length. -/
def decompress (data : Bytes) : Bytes := data ++ List.replicate data.length 0

variable (sha256 : Bytes → Bytes)

def storeNew (cas : ContentAddressableStorage) (key : String) (data : Bytes) :
    ContentAddressableStorage :=
  let contentHash := calculateChecksum sha256 data
  let compressed := compress data
  let obj : CASObject := ⟨key, contentHash, .ofNat data.length, 1, compressed, true⟩
  { cas with
    objects := cas.objects.insert key obj
    index := cas.index.insert contentHash [key]
    hashIndex := cas.hashIndex.insert contentHash ⟨contentHash, obj.size, 1, compressed⟩ }

/-- Content that is listed already: the object of the first key listed gets one more reference
and its data are shared. -/
def storeExisting (cas : ContentAddressableStorage) (key contentHash : String)
    (existingKeys : List String) (first : String) (existingObj : CASObject) :
    ContentAddressableStorage :=
  let counted := cas.objects.insert first { existingObj with refCount := existingObj.refCount + 1 }
  let obj : CASObject :=
    ⟨key, contentHash, existingObj.size, 1, existingObj.data, existingObj.compressed⟩
  { cas with
    objects := counted.insert key obj
    index := cas.index.insert contentHash (existingKeys ++ [key])
    savedSpace := cas.savedSpace + obj.size }

/-- `none` is the panic on a listed key that has no object. -/
def store (cas : ContentAddressableStorage) (key : String) (data : Bytes) :
    Option ContentAddressableStorage :=
  let contentHash := calculateChecksum sha256 data
  match cas.index.lookup contentHash with
  | none => some (storeNew sha256 cas key data)
  | some [] => some (storeNew sha256 cas key data)
  | some (first :: rest) =>
    (cas.objects.lookup first).map
      (storeExisting cas key contentHash (first :: rest) first)

def releaseBlock (hashIndex : GoMap String DedupBlock) (obj : CASObject) :
    GoMap String DedupBlock :=
  if obj.refCount - 1 ≤ 0 then
    match hashIndex.lookup obj.contentHash with
    | some block =>
      if block.refCount - 1 ≤ 0 then hashIndex.erase obj.contentHash
      else hashIndex.insert obj.contentHash { block with refCount := block.refCount - 1 }
    | none => hashIndex
  else hashIndex

def unlist (index : GoMap String (List String)) (contentHash key : String) :
    GoMap String (List String) :=
  match index.lookup contentHash with
  | some keys =>
    let newKeys := keys.filter (· ≠ key)
    if 0 < newKeys.length then index.insert contentHash newKeys else index.erase contentHash
  | none => index

def delete (cas : ContentAddressableStorage) (key : String) :
    ContentAddressableStorage × Except String Unit :=
  match cas.objects.lookup key with
  | none => (cas, .error ("object " ++ key ++ " not found"))
  | some obj =>
    ({ cas with
        objects := cas.objects.erase key
        index := unlist cas.index obj.contentHash key
        hashIndex := releaseBlock cas.hashIndex obj }, .ok ())

def retrieve (cas : ContentAddressableStorage) (key : String) : Except String Bytes :=
  match cas.objects.lookup key with
  | none => .error ("object " ++ key ++ " not found")
  | some obj => .ok (if obj.compressed then decompress obj.data else obj.data)

/-- The storage with what it is for: the content each key was last given, if the last operation
on it was a store. A panic ends the run. -/
structure State where
  cas : ContentAddressableStorage
  contents : String → Option Bytes
  panicked : Bool

def init : State := ⟨newContentAddressableStorage, fun _ => none, false⟩

inductive Op
  | store (key : String) (data : Bytes)
  | delete (key : String)

def step (sha256 : Bytes → Bytes) (s : State) : Op → Option State
  | .store key data =>
    if s.panicked then none
    else match store sha256 s.cas key data with
      | none => some { s with panicked := true }
      | some cas => some { s with cas, contents := update s.contents key (some data) }
  | .delete key =>
    if s.panicked then none
    else some { s with
      cas := (delete s.cas key).1
      contents := update s.contents key none }

theorem decompress_compress_iff (data) :
    decompress (compress data) = data ↔ data = [] ∨ 100 ≤ data.length ∧ 2 ∣ data.length ∧
        ∀ byte ∈ data.drop (data.length / 2), byte = 0 := by
  unfold compress decompress
  split
  · -- Short data are kept whole and doubled all the same.
    rename_i short
    rw [List.append_right_eq_self, List.replicate_eq_nil_iff, List.length_eq_zero_iff]
    exact ⟨Or.inl, fun h => h.resolve_right (by omega)⟩
  next long =>
    have ne : data ≠ [] := by
      rintro rfl
      exact long (by decide)
    have halved : (data.take (data.length / 2)).length = data.length / 2 := by
      rw [List.length_take]
      omega
    conv_lhs => rhs; rw [← List.take_append_drop (data.length / 2) data]
    rw [List.append_cancel_left_eq, halved, eq_comm, List.eq_replicate_iff, List.length_drop]
    have even : data.length - data.length / 2 = data.length / 2 ↔ 2 ∣ data.length := by omega
    simp only [even, ne, not_lt.mp long, false_or, true_and]

/-- What is retrieved after a store into the empty storage is what was stored only where the
second half that compression drops is as long as the first and zero. -/
theorem retrieve_store_iff (sha256 : Bytes → Bytes) (key : String) (data : Bytes) :
    (store sha256 newContentAddressableStorage key data).map (retrieve · key) = some (.ok data) ↔
      data = [] ∨ 100 ≤ data.length ∧ 2 ∣ data.length ∧
        ∀ byte ∈ data.drop (data.length / 2), byte = 0 := by
  have stored : store sha256 newContentAddressableStorage key data =
      some (storeNew sha256 newContentAddressableStorage key data) := rfl
  have read : retrieve (storeNew sha256 newContentAddressableStorage key data) key =
      .ok (decompress (compress data)) := by
    simp [retrieve, storeNew]
  rw [stored, Option.map_some, read, some.injEq, Except.ok.injEq]
  exact decompress_compress_iff data

theorem retrieve_short_padded :
    ((store id newContentAddressableStorage "a" [1]).map
      fun cas => (retrieve cas "a").toOption) = some (some [1, 0]) := by
  decide

/-- The object holds the content. -/
def Holds (sha256 : Bytes → Bytes) (data : Bytes) (obj : CASObject) : Prop :=
  obj.contentHash = calculateChecksum sha256 data ∧ obj.data = compress data

structure Faithful (sha256 : Bytes → Bytes) (s : State) : Prop where
  running : s.panicked = false
  kept : ∀ key data, s.contents key = some data →
    ∃ obj, s.cas.objects.lookup key = some obj ∧ Holds sha256 data obj

/-- A store finds nothing listed under its hash, or an object with its content there. -/
def FindsContent (sha256 : Bytes → Bytes) (s : State) : Op → Prop
  | .store _ data => ∀ first rest,
      s.cas.index.lookup (calculateChecksum sha256 data) = some (first :: rest) →
      ∃ obj, s.cas.objects.lookup first = some obj ∧ obj.data = compress data
  | .delete _ => True

section

variable {sha256 : Bytes → Bytes} {cas t : ContentAddressableStorage} {k : String} {data : Bytes}
  (stored : store sha256 cas k data = some t)
include stored

theorem store_cases :
    t = storeNew sha256 cas k data ∧
        (∀ x rest, cas.index.lookup (calculateChecksum sha256 data) ≠ some (x :: rest)) ∨
      ∃ x rest obj, cas.index.lookup (calculateChecksum sha256 data) = some (x :: rest) ∧
        cas.objects.lookup x = some obj ∧
        t = storeExisting cas k (calculateChecksum sha256 data) (x :: rest) x obj := by
  unfold store at stored
  dsimp only at stored
  split at stored
  next absent =>
    left
    exact ⟨(some.inj stored).symm, by simp [absent]⟩
  next empty =>
    left
    exact ⟨(some.inj stored).symm, by simp [empty]⟩
  next x rest listed =>
    right
    obtain ⟨obj, hit, rfl⟩ := map_eq_some_iff.mp stored
    exact ⟨x, rest, obj, listed, hit, rfl⟩

variable {other : String}

/-- Only the reference count of the first key listed may change at other keys. -/
theorem store_other (ne : other ≠ k) {obj} (hit : cas.objects.lookup other = some obj) :
    ∃ refCount, t.objects.lookup other = some { obj with refCount } := by
  rcases store_cases stored with ⟨rfl, -⟩ | ⟨x, rest, old, -, found, rfl⟩
  · refine ⟨obj.refCount, ?_⟩
    rw [storeNew, lookup_insert_of_ne _ ne]
    exact hit
  · simp only [storeExisting]
    rw [lookup_insert_of_ne _ ne, GoMap.lookup_insert_ite]
    split
    next eq =>
      subst eq
      rw [found, some.injEq] at hit
      exact ⟨_, by rw [hit]⟩
    · exact ⟨obj.refCount, hit⟩

theorem store_self :
    ∃ obj, t.objects.lookup k = some obj ∧ obj.contentHash = calculateChecksum sha256 data ∧
      ((∀ x rest, cas.index.lookup (calculateChecksum sha256 data) ≠ some (x :: rest)) →
        obj.data = compress data) ∧
      ∀ x rest old, cas.index.lookup (calculateChecksum sha256 data) = some (x :: rest) →
        cas.objects.lookup x = some old → obj.data = old.data := by
  rcases store_cases stored with ⟨rfl, absent⟩ | ⟨x, rest, old, listed, hit, rfl⟩
  · exact ⟨_, lookup_insert _, rfl, fun _ => rfl,
      fun x rest _ listed => absurd listed (absent x rest)⟩
  · refine ⟨_, lookup_insert _, rfl, fun absent => absurd listed (absent x rest), ?_⟩
    intro first' rest' existing' listed' found'
    rw [listed, some.injEq, List.cons.injEq] at listed'
    obtain ⟨rfl, -⟩ := listed'
    rw [hit, some.injEq] at found'
    rw [found']

omit stored

theorem delete_other (ne : other ≠ k) :
    (delete cas k).1.objects.lookup other = cas.objects.lookup other := by
  unfold delete
  split
  · rfl
  · exact lookup_erase_ne ne

end

variable {sha256 : Bytes → Bytes} {s t : State}

inductive Moves (sha256 : Bytes → Bytes) (s : State) : Op → State → Prop
  | panic {key : String} {data : Bytes} (missing : store sha256 s.cas key data = none) :
      Moves sha256 s (.store key data) { s with panicked := true }
  | store {key : String} {data : Bytes} {cas : ContentAddressableStorage}
      (stored : store sha256 s.cas key data = some cas) :
      Moves sha256 s (.store key data)
        ⟨cas, update s.contents key (some data), s.panicked⟩
  | delete (key : String) :
      Moves sha256 s (.delete key)
        ⟨(delete s.cas key).1, update s.contents key none, s.panicked⟩

variable {op : Op}

theorem moves_iff (running : s.panicked = false) :
    step sha256 s op = some t ↔ Moves sha256 s op t := by
  constructor
  · intro took
    cases op with
    | store k data =>
      simp only [step, running, Bool.false_eq_true, if_false] at took
      split at took
      next no =>
        exact some.inj took ▸ .panic no
      next cas stored =>
        rw [← some.inj took, ← running]
        exact .store stored
    | delete k =>
      simp only [step, running, Bool.false_eq_true, if_false, some.injEq] at took
      rw [← took, ← running]
      exact .delete k
  · intro moves
    cases moves with
    | panic no => simp [step, running, no]
    | store stored => simp [step, running, stored]
    | delete k => simp [step, running]

theorem step_faithful (faithful : Faithful sha256 s) (finds : FindsContent sha256 s op)
    (took : step sha256 s op = some t) : Faithful sha256 t := by
  cases (moves_iff faithful.running).mp took with
  | @panic k data no =>
    -- The first key listed has an object, so the store does not panic.
    exfalso
    unfold store at no
    dsimp only at no
    split at no
    · cases no
    · cases no
    next x rest listed =>
      obtain ⟨obj, found, -⟩ := finds x rest listed
      rw [found] at no
      cases no
  | @store k data cas stored =>
    refine ⟨faithful.running, ?_⟩
    intro other c last
    dsimp only at last ⊢
    by_cases same : other = k
    · subst same
      rw [update_self, some.injEq] at last
      subst last
      obtain ⟨obj, hit, hash, fresh, shared⟩ := store_self stored
      refine ⟨obj, hit, hash, ?_⟩
      rcases store_cases stored with ⟨-, absent⟩ | ⟨x, rest, old, listed, found, -⟩
      · exact fresh absent
      · obtain ⟨existing', found', right⟩ := finds x rest listed
        rw [shared x rest existing' listed found', right]
    · rw [update_of_ne same] at last
      obtain ⟨obj, hit, holds⟩ := faithful.kept other c last
      obtain ⟨refCount, still⟩ := store_other stored same hit
      exact ⟨_, still, holds⟩
  | delete k =>
    refine ⟨faithful.running, ?_⟩
    intro other c last
    dsimp only at last ⊢
    by_cases same : other = k
    · subst same
      rw [update_self] at last
      cases last
    · rw [update_of_ne same] at last
      rw [delete_other same]
      exact faithful.kept other c last

/-- Without its own content at the first key listed a store panics or shares another content. -/
theorem finds_of_step_faithful (faithful : Faithful sha256 s)
    (good : ∀ t, step sha256 s op = some t → Faithful sha256 t) : FindsContent sha256 s op := by
  cases op with
  | delete k => trivial
  | store k data =>
    intro x rest listed
    cases found : s.cas.objects.lookup x with
    | none =>
      have no : store sha256 s.cas k data = none := by
        simp only [store, listed, found, Option.map_none]
      have bad := (good _ ((moves_iff faithful.running).mpr (.panic no))).running
      cases bad
    | some obj =>
      refine ⟨obj, rfl, ?_⟩
      have stored : store sha256 s.cas k data = some (storeExisting s.cas k
          (calculateChecksum sha256 data) (x :: rest) x obj) := by
        simp only [store, listed, found, Option.map_some]
      have after := good _ ((moves_iff faithful.running).mpr (.store stored))
      obtain ⟨kept, hit, -, right⟩ := after.kept k data (update_self _ _ _)
      obtain ⟨kept', present', -, -, shared⟩ := store_self stored
      rw [present', some.injEq] at hit
      rw [← shared x rest obj listed found, hit, right]

theorem init_faithful : Faithful sha256 init := by
  refine ⟨rfl, ?_⟩
  intro k data last
  cases last

/-- In a run every key keeps the content it was last given, and no store panics, exactly when
every store that finds keys listed under its hash finds its own content at the first of them. -/
theorem content_stays_right_iff (sha256 : Bytes → Bytes) (ops : List Op) :
    Throughout (step sha256) (Faithful sha256) init ops ↔
      Along (step sha256) (FindsContent sha256) init ops :=
  throughout_iff_along (Faithful sha256) init_faithful (fun _ faithful => faithful) (fun _ => True)
    (fun _ _ _ faithful _ finds stepped => step_faithful faithful finds stepped)
    (fun _ _ faithful _ good => finds_of_step_faithful faithful good) (fun _ _ => trivial)

/-- Key a is overwritten and stays listed under its old content. A later store of that content
copies what a holds now; after a is deleted it panics. -/
theorem overwritten_key_shares_wrong_content :
    ((exec (step id) init [.store "a" [1], .store "a" [2], .store "b" [1]]).map
        fun s => (s.cas.objects.lookup "b").map (·.data)) = some (some [2]) ∧
      ((exec (step id) init [.store "a" [1], .store "a" [2], .delete "a", .store "b" [1]]).map
        (·.panicked)) = some true := by
  decide

/-- A store does not replace the content of a key by another one. -/
def KeepsContent (s : State) : Op → Prop
  | .store key data => ∀ content, s.contents key = some content → content = data
  | .delete _ => True

def Op.Uses (used : Bytes → Prop) : Op → Prop
  | .store _ data => used data
  | .delete _ => True

/-- The index lists a key under the hash of its content only. -/
structure Indexed (sha256 : Bytes → Bytes) (used : Bytes → Prop) (s : State) : Prop where
  faithful : Faithful sha256 s
  listed : ∀ hash keys, s.cas.index.lookup hash = some keys → ∀ key ∈ keys,
    ∃ content, s.contents key = some content ∧ calculateChecksum sha256 content = hash
  limited : ∀ key content, s.contents key = some content → used content

variable {used : Bytes → Prop}

theorem init_indexed : Indexed sha256 used init := by
  refine ⟨init_faithful, ?_, ?_⟩
  · intro hash keys listed
    simp [init, newContentAddressableStorage] at listed
  · intro k c last
    cases last

/-- Under the hash of a content only keys with that content are listed. -/
theorem Indexed.finds {op} (inv : Indexed sha256 used s)
    (injective : ∀ x second, used x → used second → sha256 x = sha256 second → x = second)
    (uses : op.Uses used) : FindsContent sha256 s op := by
  cases op with
  | delete k => trivial
  | store k data =>
    intro x rest listed
    obtain ⟨c, last, hash⟩ := inv.listed _ _ listed x List.mem_cons_self
    have eq : c = data :=
      injective c data (inv.limited x c last) uses (hexEncode_injective hash)
    obtain ⟨obj, hit, -, right⟩ := inv.faithful.kept x c last
    exact ⟨obj, hit, eq ▸ right⟩

variable {cas : ContentAddressableStorage} {key : String} {data : Bytes}

theorem lookup_index_store {cas'} (stored : store sha256 cas key data = some cas') :
    ∃ old, cas'.index = cas.index.insert (calculateChecksum sha256 data) (old ++ [key]) ∧
      (old = [] ∨ cas.index.lookup (calculateChecksum sha256 data) = some old) := by
  rcases store_cases stored with ⟨rfl, -⟩ | ⟨x, rest, existing, listed, -, rfl⟩
  · exact ⟨[], rfl, .inl rfl⟩
  · exact ⟨x :: rest, rfl, .inr listed⟩

theorem mem_unlist {index contentHash hash keys}
    (hit : (unlist index contentHash key).lookup hash = some keys) :
    ∃ old, index.lookup hash = some old ∧ (∀ k ∈ keys, k ∈ old) ∧
      (hash = contentHash → key ∉ keys) := by
  unfold unlist at hit
  split at hit
  next old listed =>
    dsimp only at hit
    split at hit
    · rcases GoMap.lookup_insert_cases hit with ⟨rfl, rfl⟩ | ⟨ne, hit⟩
      · exact ⟨old, listed, fun k mem => List.mem_of_mem_filter mem, by simp⟩
      · exact ⟨keys, hit, fun _ mem => mem, fun eq => absurd eq ne⟩
    · obtain ⟨ne, hit⟩ := GoMap.lookup_erase_cases hit
      exact ⟨keys, hit, fun _ mem => mem, fun eq => absurd eq ne⟩
  next missing =>
    refine ⟨keys, hit, fun _ mem => mem, fun eq => ?_⟩
    subst eq
    rw [missing] at hit
    cases hit

theorem Indexed.store (inv : Indexed sha256 used s) (keeps : KeepsContent s (.store key data))
    (uses : used data) (stored : store sha256 s.cas key data = some cas)
    (faithful : Faithful sha256 ⟨cas, update s.contents key (some data), s.panicked⟩) :
    Indexed sha256 used ⟨cas, update s.contents key (some data), s.panicked⟩ := by
  have still : ∀ other c, s.contents other = some c →
      update s.contents key (some data) other = some c := by
    intro other c last
    by_cases same : other = key
    · subst same
      rw [update_self, keeps c last]
    · rw [update_of_ne same, last]
  refine ⟨faithful, ?_, ?_⟩
  · intro hash keys listed other mem
    dsimp only at listed ⊢
    obtain ⟨old, index, pre⟩ := lookup_index_store stored
    rw [index] at listed
    rcases GoMap.lookup_insert_cases listed with ⟨rfl, rfl⟩ | ⟨-, listed⟩
    · rcases List.mem_append.mp mem with before | new
      · rcases pre with rfl | pre
        · cases before
        · obtain ⟨c, last, hash⟩ := inv.listed _ _ pre other before
          exact ⟨c, still other c last, hash⟩
      · rw [List.mem_singleton.mp new]
        exact ⟨data, update_self _ _ _, rfl⟩
    · obtain ⟨c, last, hash⟩ := inv.listed _ _ listed other mem
      exact ⟨c, still other c last, hash⟩
  · intro other c last
    dsimp only at last
    by_cases same : other = key
    · subst same
      rw [update_self, some.injEq] at last
      exact last ▸ uses
    · rw [update_of_ne same] at last
      exact inv.limited other c last

theorem Indexed.delete (inv : Indexed sha256 used s)
    (faithful : Faithful sha256 ⟨(delete s.cas key).1, update s.contents key none, s.panicked⟩) :
    Indexed sha256 used ⟨(delete s.cas key).1, update s.contents key none, s.panicked⟩ := by
  refine ⟨faithful, ?_, ?_⟩
  · intro hash keys listed other mem
    dsimp only at listed ⊢
    -- The key was listed under the hash of its content only, and there it is taken out.
    obtain ⟨old, earlier, pre, gone⟩ : ∃ old, s.cas.index.lookup hash = some old ∧
        other ∈ old ∧ other ≠ key := by
      unfold ContentAddressable.delete at listed
      split at listed
      next missing =>
        refine ⟨keys, listed, mem, ?_⟩
        rintro rfl
        obtain ⟨c, last, -⟩ := inv.listed _ _ listed other mem
        obtain ⟨obj, found, -⟩ := inv.faithful.kept other c last
        rw [missing] at found
        cases found
      next obj hit =>
        obtain ⟨old, earlier, subset, removed⟩ := mem_unlist listed
        refine ⟨old, earlier, subset other mem, ?_⟩
        rintro rfl
        obtain ⟨c, last, eq⟩ := inv.listed _ _ earlier other (subset other mem)
        obtain ⟨obj', found, hash', -⟩ := inv.faithful.kept other c last
        rw [hit, some.injEq] at found
        subst found
        exact removed (eq.symm.trans hash'.symm) mem
    obtain ⟨c, last, hash⟩ := inv.listed _ _ earlier other pre
    exact ⟨c, by rw [update_of_ne gone, last], hash⟩
  · intro other c last
    dsimp only at last
    by_cases eq : other = key
    · subst eq
      rw [update_self] at last
      cases last
    · rw [update_of_ne eq] at last
      exact inv.limited other c last

/-- Without overwriting the storage is faithful: the joint invariant of the three maps. -/
theorem faithful_of_keepsContent {ops} (injective : ∀ first second, used first → used second →
      sha256 first = sha256 second → first = second) (uses : ∀ op ∈ ops, op.Uses used)
    (keeps : Along (step sha256) KeepsContent init ops)
    (run : exec (step sha256) init ops = some s) : Faithful sha256 s := by
  have inv : Indexed sha256 used s := by
    refine exec_guarded (Indexed sha256 used) init_indexed ?_ run (keeps.and (along_of_forall uses))
    intro state op t inv met took
    have faithful := step_faithful inv.faithful (inv.finds injective met.2) took
    cases (moves_iff inv.faithful.running).mp took with
    | panic no => exact absurd faithful.running (by simp)
    | store stored => exact inv.store met.1 met.2 stored faithful
    | delete key => exact inv.delete faithful
  exact inv.faithful

theorem faithful_of_keepsContent_shared :
    ∃ s, exec (step id) init [.store "a" [1], .store "b" [1]] = some s ∧ Faithful id s := by
  refine exists_exec (fun _ => True) rfl fun s run _ =>
    faithful_of_keepsContent (fun _ _ (_ : True) _ eq => eq) ?_ ?_ run
  · simp [Op.Uses]
  · refine along_cons nofun fun _ took => along_cons ?_ fun _ _ => .nil
    cases took
    nofun

end AsyncPractice.ContentAddressable

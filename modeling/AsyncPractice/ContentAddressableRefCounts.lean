import AsyncPractice.ContentAddressable

/- The reference counts of the deduplicated blocks, over runs in which no key is stored again
while it is present. -/
namespace AsyncPractice.ContentAddressable

open Option Finmap GoMap Runs

def Referenced (cas : ContentAddressableStorage) (contentHash : String) : Prop :=
  ∃ key obj, cas.objects.lookup key = some obj ∧ obj.contentHash = contentHash

def references (cas : ContentAddressableStorage) (contentHash : String) : Nat :=
  total (fun obj => if obj.contentHash = contentHash then 1 else 0) cas.objects

structure Counted (cas : ContentAddressableStorage) : Prop where
  present : ∀ contentHash, contentHash ∈ cas.hashIndex ↔ Referenced cas contentHash
  counts : ∀ contentHash block, cas.hashIndex.lookup contentHash = some block →
    block.refCount = .ofNat (references cas contentHash)

/-- The operation does not store a key that is present. -/
def StoresFresh (s : State) : Op → Prop
  | .store key _ => s.cas.objects.lookup key = none
  | .delete _ => True

instance (s : State) : (op : Op) → Decidable (StoresFresh s op)
  | .store key _ => inferInstanceAs (Decidable (s.cas.objects.lookup key = none))
  | .delete _ => inferInstanceAs (Decidable True)

def freshStep (sha256 : Bytes → Bytes) (s : State) (op : Op) : Option State :=
  if StoresFresh s op then step sha256 s op else none

/-- A new key is not given a content that another key holds. -/
def StoresNew (sha256 : Bytes → Bytes) (s : State) : Op → Prop
  | .store key data => s.cas.objects.lookup key = none →
      ¬Referenced s.cas (calculateChecksum sha256 data)
  | .delete _ => True

/-- Every object is alone with its hash: nothing was ever shared. -/
structure Unshared (s : State) : Prop where
  running : s.panicked = false
  object : ∀ key obj, s.cas.objects.lookup key = some obj →
    obj.refCount = 1 ∧ s.cas.index.lookup obj.contentHash = some [key] ∧
    ∃ block, s.cas.hashIndex.lookup obj.contentHash = some block ∧ block.refCount = 1
  listed : ∀ contentHash, contentHash ∈ s.cas.index → Referenced s.cas contentHash
  block : ∀ contentHash, contentHash ∈ s.cas.hashIndex → Referenced s.cas contentHash

theorem init_unshared : Unshared init where
  running := rfl
  object := by
    intro k obj hit
    cases hit
  listed := by
    intro hash mem
    cases notMem_empty mem
  block := by
    intro hash mem
    cases notMem_empty mem

section

variable {sha256 : Bytes → Bytes} {s t : State} {k : String} {data : Bytes}
  (inv : Unshared s) {obj : CASObject}

include inv

theorem Unshared.unique {other obj'} (hit : s.cas.objects.lookup k = some obj)
    (present' : s.cas.objects.lookup other = some obj') (eq : obj'.contentHash = obj.contentHash) :
    other = k := by
  have x := (inv.object k obj hit).2.1
  have y := (inv.object other obj' present').2.1
  rw [eq, x] at y
  simpa using y.symm

theorem Unshared.references_eq_one (hit : s.cas.objects.lookup k = some obj) :
    references s.cas obj.contentHash = 1 := by
  show gather _ _ = 1
  rw [gather_eq _ _ k, hit, Finset.sum_eq_zero]
  · simp
  · intro x mem
    cases present' : s.cas.objects.lookup x with
    | none => rfl
    | some obj' =>
      have ne : obj'.contentHash ≠ obj.contentHash := fun eq =>
        Finset.ne_of_mem_erase mem (inv.unique hit present' eq)
      simp [ne]

theorem Unshared.counted : Counted s.cas where
  present := by
    intro hash
    constructor
    · exact inv.block hash
    · rintro ⟨k, obj, present, rfl⟩
      obtain ⟨b, hit, -⟩ := (inv.object k obj present).2.2
      exact mem_of_lookup_eq_some hit
  counts := by
    intro hash b hit
    obtain ⟨k, obj, present, rfl⟩ :=
      inv.block hash (mem_of_lookup_eq_some hit)
    obtain ⟨block', found', one⟩ := (inv.object k obj present).2.2
    rw [hit, some.injEq] at found'
    rw [inv.references_eq_one present, found', one]
    rfl

theorem Unshared.storeNew (fresh : s.cas.objects.lookup k = none)
    (new : ¬Referenced s.cas (calculateChecksum sha256 data)) (contents) :
    Unshared ⟨storeNew sha256 s.cas k data, contents, s.panicked⟩ := by
  have referenced : ∀ hash, hash = calculateChecksum sha256 data ∨ Referenced s.cas hash →
      Referenced (ContentAddressable.storeNew sha256 s.cas k data) hash := by
    rintro hash (rfl | ⟨x, obj, present, rfl⟩)
    · exact ⟨k, _, lookup_insert _, rfl⟩
    · refine ⟨x, obj, lookup_insert_new ?_ present _, rfl⟩
      exact lookup_eq_none.mp fresh
  refine ⟨inv.running, ?_, ?_, ?_⟩
  · intro x obj present
    rcases lookup_insert_cases present with ⟨rfl, rfl⟩ | ⟨-, present⟩
    · exact ⟨rfl, lookup_insert _, _, lookup_insert _, rfl⟩
    · obtain ⟨one, listed, b, hit, cnt⟩ := inv.object x obj present
      have ne : obj.contentHash ≠ calculateChecksum sha256 data :=
        fun eq => new ⟨x, obj, present, eq⟩
      refine ⟨one, ?_, b, ?_, cnt⟩
      · rw [ContentAddressable.storeNew, lookup_insert_of_ne _ ne]
        exact listed
      · rw [ContentAddressable.storeNew, lookup_insert_of_ne _ ne]
        exact hit
  · intro hash mem
    exact referenced hash ((mem_insert.mp mem).imp_right (inv.listed hash))
  · intro hash mem
    exact referenced hash ((mem_insert.mp mem).imp_right (inv.block hash))

theorem Unshared.delete_eq (present : s.cas.objects.lookup k = some obj) :
    (delete s.cas k).1 = { s.cas with
        objects := s.cas.objects.erase k
        index := s.cas.index.erase obj.contentHash
        hashIndex := s.cas.hashIndex.erase obj.contentHash } := by
  obtain ⟨one, listed, b, hit, cnt⟩ := inv.object k obj present
  simp [delete, present, unlist, listed, releaseBlock, one, hit, cnt]

theorem Unshared.delete (contents) : Unshared ⟨(delete s.cas k).1, contents, s.panicked⟩ := by
  cases present : s.cas.objects.lookup k with
  | none =>
    have eq : (ContentAddressable.delete s.cas k).1 = s.cas := by
      simp [ContentAddressable.delete, present]
    rw [eq]
    exact ⟨inv.running, inv.object, inv.listed, inv.block⟩
  | some obj =>
    rw [inv.delete_eq present]
    have referenced : ∀ hash, hash ≠ obj.contentHash → Referenced s.cas hash → ∃ x obj',
          (s.cas.objects.erase k).lookup x = some obj' ∧ obj'.contentHash = hash := by
      rintro hash ne ⟨x, obj', present', rfl⟩
      refine ⟨x, obj', ?_, rfl⟩
      rw [lookup_erase_ne]
      · exact present'
      · rintro rfl
        rw [present, some.injEq] at present'
        exact ne (by rw [present'])
    refine ⟨inv.running, ?_, ?_, ?_⟩
    · intro x obj' present'
      obtain ⟨ne, present'⟩ := lookup_erase_cases present'
      obtain ⟨one, listed, b, hit, cnt⟩ := inv.object x obj' present'
      have different : obj'.contentHash ≠ obj.contentHash :=
        fun eq => ne (inv.unique present present' eq)
      exact ⟨one, (lookup_erase_ne different).trans listed, b,
        (lookup_erase_ne different).trans hit, cnt⟩
    · intro hash mem
      obtain ⟨ne, mem⟩ := mem_erase.mp mem
      exact referenced hash ne (inv.listed hash mem)
    · intro hash mem
      obtain ⟨ne, mem⟩ := mem_erase.mp mem
      exact referenced hash ne (inv.block hash mem)

theorem Unshared.store_eq_new (new : ¬Referenced s.cas (calculateChecksum sha256 data)) :
    store sha256 s.cas k data = some (ContentAddressable.storeNew sha256 s.cas k data) := by
  have absent : s.cas.index.lookup (calculateChecksum sha256 data) = none :=
    lookup_eq_none.mpr fun mem => new (inv.listed _ mem)
  simp [store, absent]

variable {op : Op}

theorem freshStep_unshared (new : StoresNew sha256 s op) (took : freshStep sha256 s op = some t) :
    Unshared t := by
  obtain ⟨fresh, took⟩ := ite_none_right_eq_some.mp took
  cases (moves_iff inv.running).mp took with
  | panic no =>
    rw [inv.store_eq_new (new fresh)] at no
    cases no
  | store stored =>
    rw [inv.store_eq_new (new fresh), some.injEq] at stored
    subst stored
    exact inv.storeNew fresh (new fresh) _
  | delete k => exact inv.delete _

/-- Sharing a content gives its hash a second object, and its block no second reference. -/
theorem references_storeExisting {x existingKeys} (hit : s.cas.objects.lookup x = some obj)
    (fresh : s.cas.objects.lookup k = none) :
    references (storeExisting s.cas k obj.contentHash existingKeys x obj) obj.contentHash = 2 := by
  have one := inv.references_eq_one hit
  have ne : k ≠ x := by
    rintro rfl
    rw [hit] at fresh
    cases fresh
  have cnt := total_insert (fun other : CASObject =>
    if other.contentHash = obj.contentHash then 1 else 0) s.cas.objects x
    { obj with refCount := obj.refCount + 1 }
  have shared := total_insert (fun other : CASObject =>
    if other.contentHash = obj.contentHash then 1 else 0)
    (s.cas.objects.insert x { obj with refCount := obj.refCount + 1 }) k
    ⟨k, obj.contentHash, obj.size, 1, obj.data, obj.compressed⟩
  rw [lookup_insert_of_ne _ ne, fresh] at shared
  simp only [hit, Option.map_some, Option.map_none, getD_some, getD_none, if_true] at cnt shared
  simp only [references, storeExisting] at one ⊢
  omega

theorem storesNew_of_counted (good : ∀ t, freshStep sha256 s op = some t → Counted t.cas) :
    StoresNew sha256 s op := by
  cases op with
  | delete k => trivial
  | store k data =>
    rintro fresh ⟨x, obj, present, eq⟩
    obtain ⟨-, listed, b, hit, one⟩ := inv.object x obj present
    have stored : store sha256 s.cas k data =
        some (storeExisting s.cas k obj.contentHash [x] x obj) := by
      rw [eq] at listed ⊢
      simp [store, listed, present]
    have took : freshStep sha256 s (.store k data) = some _ :=
      (if_pos fresh).trans ((moves_iff inv.running).mpr (.store stored))
    have counts := (good _ took).counts obj.contentHash b hit
    rw [references_storeExisting inv present fresh, one] at counts
    cases counts

end

/-- While no key is stored again in its presence, the table of blocks counts the references in
every state of a run exactly when no content is stored that another key holds. -/
theorem blocks_counted_iff (sha256 : Bytes → Bytes) (ops : List Op) :
    Throughout (freshStep sha256) (fun s => Counted s.cas) init ops ↔
      Along (freshStep sha256) (StoresNew sha256) init ops :=
  throughout_iff_along Unshared init_unshared (fun _ unshared => unshared.counted)
    (fun _ => True) (fun _ _ _ unshared _ new stepped => freshStep_unshared unshared new stepped)
    (fun _ _ unshared _ good => storesNew_of_counted unshared good) (fun _ _ => trivial)

/-- Two keys share a content and its block counts one reference. Deleting the second key takes
the block away while the first one is still stored. -/
theorem shared_content_counted_once :
    ((exec (freshStep id) init [.store "a" [1], .store "b" [1]]).map fun s =>
        ((s.cas.hashIndex.lookup "01").map (·.refCount), references s.cas "01")) =
      some (some 1, 2) ∧
    ((exec (freshStep id) init [.store "a" [1], .store "b" [1], .delete "b"]).map fun s =>
        ((s.cas.hashIndex.lookup "01").map (·.refCount), references s.cas "01")) =
      some (none, 1) := by
  decide +kernel

end AsyncPractice.ContentAddressable

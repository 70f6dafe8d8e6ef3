import AsyncPractice.GoMap
import AsyncPractice.GoTime
import AsyncPractice.Runs

/- CouchbaseBucket of couchbase_document.go. Documents are values and every call is one step.
Instants are nanoseconds, the zero Time being 0. -/
namespace AsyncPractice.Couchbase

section

open Option

open GoTime (sub)

structure Document (D : Type) where
  id : String
  type : String
  data : D
  cas : UInt64
  createdAt : Int
  updatedAt : Int
  ttl : Option Int

/-- `indexes` leads from the name of an index and the value of a field to the ids of documents. -/
structure CouchbaseBucket (D : Type) where
  documents : GoMap String (Document D)
  indexes : GoMap String (GoMap String (List String))
  casCounter : UInt64

variable {D : Type}

def newCouchbaseBucket : CouchbaseBucket D := ⟨∅, ∅, 0⟩

def typeIndex : String := "type_index"

def updateIndexes (indexes : GoMap String (GoMap String (List String))) (doc : Document D) :
    GoMap String (GoMap String (List String)) :=
  let index := (indexes.lookup typeIndex).getD ∅
  indexes.insert typeIndex (index.insert doc.type ((index.lookup doc.type).getD [] ++ [doc.id]))

/-- The loops visit the indexes in the order `names`, and the fields of an index in the order that
`fields` gives for its name; the first occurrence of the id is removed from each list. -/
def removeFromIndexes (indexes : GoMap String (GoMap String (List String))) (id : String)
    (names : List String) (fields : String → List String) :
    GoMap String (GoMap String (List String)) :=
  names.foldl (fun indexes name =>
    GoMap.modify (GoMap.rangeUpdate (fun docs => docs.erase id) (fields name)) name indexes) indexes

section

variable (cb : CouchbaseBucket D)

/-- The check of the TTL, with the reading of the clock inside time.Since. -/
def Document.expired (doc : Document D) (now : Int) : Bool :=
  doc.ttl.any fun ttl => sub now doc.createdAt > ttl

def get (id : String) (now : Int) : Except String (Document D) :=
  match cb.documents.lookup id with
  | none => .error ("document not found: " ++ id)
  | some doc => if doc.expired now then .error ("document expired: " ++ id) else .ok doc

/-- What Set and SetWithCAS do once they have settled the times of the document. -/
def store (doc : Document D) : CouchbaseBucket D :=
  let cas := cb.casCounter + 1
  let doc := { doc with cas }
  { documents := cb.documents.insert doc.id doc
    indexes := updateIndexes cb.indexes doc
    casCounter := cas }

/-- `updated` and `created` are its two readings of the clock. -/
def set (doc : Document D) (updated created : Int) : CouchbaseBucket D :=
  match cb.documents.lookup doc.id with
  | none => store cb { doc with updatedAt := updated, createdAt := created }
  | some _ => store cb { doc with updatedAt := updated }

def setWithCAS (doc : Document D) (expectedCAS : UInt64) (now : Int) :
    CouchbaseBucket D × Except String Unit :=
  match cb.documents.lookup doc.id with
  | none => (cb, .error ("document not found for CAS update: " ++ doc.id))
  | some existing =>
    if existing.cas ≠ expectedCAS then
      (cb, .error ("CAS mismatch: expected " ++ toString expectedCAS ++ ", got " ++
        toString existing.cas))
    else (store cb { doc with updatedAt := now }, .ok ())

def delete (id : String) (names : List String) (fields : String → List String) :
    CouchbaseBucket D × Except String Unit :=
  match cb.documents.lookup id with
  | none => (cb, .error ("document not found: " ++ id))
  | some _ =>
    ({ cb with
        documents := cb.documents.erase id
        indexes := removeFromIndexes cb.indexes id names fields }, .ok ())

end

/-- The bucket with the CAS values its documents were stored with, and the id and expected value of
each SetWithCAS that went through, which only observe. -/
structure State (D : Type) where
  bucket : CouchbaseBucket D
  assigned : List UInt64
  swapped : List (String × UInt64)

def start : State D := ⟨newCouchbaseBucket, [], []⟩

inductive Event (D : Type)
  | get (id : String) (now : Int)
  | set (doc : Document D) (updated created : Int)
  | setWithCAS (doc : Document D) (expectedCAS : UInt64) (now : Int)
  | delete (id : String) (names : List String) (fields : String → List String)

/-- The orders in which the loops of a Delete may visit the indexes. -/
def Visits (cb : CouchbaseBucket D) (names : List String) (fields : String → List String) : Prop :=
  GoMap.Ranges names cb.indexes ∧
    ∀ name ∈ names, GoMap.Ranges (fields name) ((cb.indexes.lookup name).getD ∅)

instance (cb : CouchbaseBucket D) (names : List String) (fields : String → List String) :
    Decidable (Visits cb names fields) :=
  inferInstanceAs (Decidable (_ ∧ _))

def step (s : State D) : Event D → Option (State D)
  | .get _ _ => some s
  | .set doc updated created =>
    let bucket := set s.bucket doc updated created
    some { s with bucket, assigned := s.assigned ++ [bucket.casCounter] }
  | .setWithCAS doc expectedCAS now =>
    match setWithCAS s.bucket doc expectedCAS now with
    | (bucket, .ok ()) =>
      some { bucket
             assigned := s.assigned ++ [bucket.casCounter]
             swapped := s.swapped ++ [(doc.id, expectedCAS)] }
    | (bucket, .error _) => some { s with bucket }
  | .delete id names fields =>
    if Visits s.bucket names fields then
      some { s with bucket := (delete s.bucket id names fields).1 }
    else none

section

variable {s t : State D} {e : Event D}

/-- What a step can do: nothing, store a document under its id, or delete one. -/
inductive Moves (s : State D) : Event D → State D → Prop
  | get (id : String) (now : Int) : Moves s (.get id now) s
  | set (doc : Document D) (updated created : Int) {stored : Document D} (id : stored.id = doc.id)
      (type : stored.type = doc.type) :
      Moves s (.set doc updated created) { s with
        bucket := store s.bucket stored
        assigned := s.assigned ++ [s.bucket.casCounter + 1] }
  | swap (doc : Document D) (now : Int) {existing : Document D}
      (present : s.bucket.documents.lookup doc.id = some existing) :
      Moves s (.setWithCAS doc existing.cas now) {
        bucket := store s.bucket { doc with updatedAt := now }
        assigned := s.assigned ++ [s.bucket.casCounter + 1]
        swapped := s.swapped ++ [(doc.id, existing.cas)] }
  | refuse (doc : Document D) (expectedCAS : UInt64) (now : Int)
      (failed : ∀ existing, s.bucket.documents.lookup doc.id = some existing →
        existing.cas ≠ expectedCAS) : Moves s (.setWithCAS doc expectedCAS now) s
  | delete (id : String) (names : List String) (fields : String → List String)
      {existing : Document D} (present : s.bucket.documents.lookup id = some existing)
      (visits : Visits s.bucket names fields) :
      Moves s (.delete id names fields) { s with
        bucket := { s.bucket with
          documents := s.bucket.documents.erase id
          indexes := removeFromIndexes s.bucket.indexes id names fields } }
  | miss (id : String) (names : List String) (fields : String → List String)
      (absent : s.bucket.documents.lookup id = none) : Moves s (.delete id names fields) s

theorem set_eq_store (cb doc updated made) :
    ∃ stored : Document D, stored.id = doc.id ∧ stored.type = doc.type ∧
      set cb doc updated made = store cb stored := by
  unfold set
  split
  · exact ⟨{ doc with updatedAt := updated, createdAt := made }, rfl, rfl, rfl⟩
  · exact ⟨{ doc with updatedAt := updated }, rfl, rfl, rfl⟩

theorem moves_of_step (took : step s e = some t) : Moves s e t := by
  cases e with
  | get id now =>
    obtain rfl := some.inj took
    exact .get id now
  | set doc updated made =>
    obtain ⟨stored, id, type, eq⟩ := set_eq_store s.bucket doc updated made
    simp only [step, eq] at took
    obtain rfl := some.inj took
    exact .set doc updated made id type
  | setWithCAS doc expectedCAS now =>
    simp only [step, setWithCAS] at took
    cases hit : s.bucket.documents.lookup doc.id with
    | none =>
      simp only [hit] at took
      obtain rfl := some.inj took
      refine .refuse doc expectedCAS now fun old found => ?_
      rw [hit] at found
      cases found
    | some old =>
      simp only [hit] at took
      by_cases eq : old.cas = expectedCAS
      · rw [if_neg (not_not.mpr eq)] at took
        obtain rfl := some.inj took
        subst eq
        exact .swap doc now hit
      · rw [if_pos eq] at took
        obtain rfl := some.inj took
        refine .refuse doc expectedCAS now fun x found => ?_
        rw [hit, some.injEq] at found
        exact found ▸ eq
  | delete id ns fields =>
    obtain ⟨visits, took⟩ := ite_none_right_eq_some.mp took
    obtain rfl := some.inj took
    unfold Couchbase.delete
    split
    next absent =>
      exact .miss id ns fields absent
    next old hit =>
      exact .delete id ns fields hit visits

end

end

/- How long a document can be read. Set gives a new document its creation time only when its id is
not stored yet; otherwise the document keeps the zero Time, and its TTL counts from there. -/
section

open GoTime Runs

variable {D : Type} {cb : CouchbaseBucket D} {doc : Document D} {updated made : Int}

def setDocument (cb : CouchbaseBucket D) (doc : Document D) (updated created : Int) : Document D :=
  { doc with
    cas := cb.casCounter + 1
    updatedAt := updated
    createdAt := if (cb.documents.lookup doc.id).isNone then created else doc.createdAt }

theorem lookup_set (cb) (doc : Document D) (updated made) :
    (set cb doc updated made).documents.lookup doc.id = some (setDocument cb doc updated made) := by
  unfold set
  split
  next absent =>
    simp [store, setDocument, absent]
  next existing hit =>
    simp [store, setDocument, hit]

theorem get_of_lookup {id} (hit : cb.documents.lookup id = some doc) (now) :
    get cb id now = .ok doc ↔ doc.expired now = false := by
  unfold get
  rw [hit]
  by_cases expired : doc.expired now = true
  · simp [expired]
  · simp [expired]

/-- The call writes or deletes the document with the id, or tries to. -/
def Event.Touches (id : String) : Event D → Prop
  | .get _ _ => False
  | .set doc _ _ => doc.id = id
  | .setWithCAS doc _ _ => doc.id = id
  | .delete other _ _ => other = id

variable {s next : State D} {e : Event D} {id : String}

theorem lookup_moves (moves : Moves s e next) (other : ¬ e.Touches id) :
    next.bucket.documents.lookup id = s.bucket.documents.lookup id := by
  cases moves with
  | get _ now => rfl
  | set doc updated made eq type =>
    have ne : id ≠ doc.id := Ne.symm other
    exact Finmap.lookup_insert_of_ne _ (eq ▸ ne)
  | swap doc now hit => exact Finmap.lookup_insert_of_ne _ (Ne.symm other)
  | refuse doc expectedCAS now failed => rfl
  | delete _ ns fields hit visits => exact Finmap.lookup_erase_ne (Ne.symm other)
  | miss _ ns fields absent => rfl

theorem lookup_run {es} (run : exec step s es = some next) (others : ∀ e ∈ es, ¬ e.Touches id) :
    next.bucket.documents.lookup id = s.bucket.documents.lookup id :=
  exec_guarded (fun t : State D => t.bucket.documents.lookup id = s.bucket.documents.lookup id) rfl
    (fun _ _ _ held x took => (lookup_moves (moves_of_step took) x).trans held)
    run (along_of_forall others)

/-- A new document with a TTL that is stored at `t` is returned by every Get within the TTL exactly
if its id was not stored before, or the TTL is not over even when counted from the zero Time. -/
theorem lives_for_ttl_iff {before middle : List (Event D)} {prior final : State D}
    {ttl t u : Int} (earlier : exec step start before = some prior)
    (run : exec step start (before ++ .set doc updated created :: middle) = some final)
    (new : doc.createdAt = 0) (lives : doc.ttl = some ttl) (clock : t ≤ created) (later : t ≤ u)
    (within : u ≤ t + ttl) (untouched : ∀ event ∈ middle, ¬ event.Touches doc.id) :
    get final.bucket doc.id u = .ok (setDocument prior.bucket doc updated created) ↔
      prior.bucket.documents.lookup doc.id = none ∨ sub u 0 ≤ ttl := by
  obtain ⟨stored, stepped, rest⟩ := exec_cons_some.mp (exec_resume run earlier)
  cases stepped
  have present : final.bucket.documents.lookup doc.id =
      some (setDocument prior.bucket doc updated created) :=
    (lookup_run rest untouched).trans (lookup_set prior.bucket doc updated created)
  rw [get_of_lookup present]
  simp only [Document.expired, setDocument, lives, Option.any_some, gt_iff_lt,
    decide_eq_false_iff_not, Int.not_lt, new]
  cases found : prior.bucket.documents.lookup doc.id with
  | none =>
    have low : minDuration ≤ ttl := by
      unfold minDuration
      omega
    simp only [Option.isNone_none, if_true, true_or, iff_true]
    exact sub_le low (by omega)
  | some existing => simp

def session : Document Nat := ⟨"a", "session", 1, 0, 0, 0, some (3600 * second)⟩

def today : Int := 63800000000 * second

theorem new_session_lives :
    ∃ final, exec step start [.set session today today, .get "a" today] = some final ∧
      get final.bucket "a" (today + 3600 * second) =
        .ok { session with cas := 1, createdAt := today, updatedAt := today } := by
  have begun : exec step (start : State Nat) [] = some start := rfl
  obtain ⟨final, run⟩ : ∃ final,
      exec step start ([] ++ .set session today today :: [.get "a" today]) = some final := ⟨_, rfl⟩
  have untouched : ∀ event ∈ [(.get "a" today : Event Nat)], ¬ event.Touches session.id := by
    simp [Event.Touches]
  have lives := lives_for_ttl_iff (u := today + 3600 * second) begun run rfl rfl (Int.le_refl _)
    (by decide) (Int.le_refl _) untouched
  exact ⟨final, run, lives.mpr (Or.inl rfl)⟩

/-- A session that replaces another is over at once. -/
theorem replaced_session_expired :
    ∃ final, exec step start [.set session today today, .set session today today] = some final ∧
      get final.bucket "a" today = .error "document expired: a" :=
  ⟨_, rfl, rfl⟩

end

/- The index over the types of the documents. Every write appends the id to the list of its type and
nothing but Delete takes one away. -/
open Option List Runs

variable {D : Type}

/-- The list indexes["type_index"][type]. -/
def index (cb : CouchbaseBucket D) (type : String) : List String :=
  (((cb.indexes.lookup typeIndex).getD ∅).lookup type).getD []

/-- Every list has the ids of the stored documents of its type once, and no other id. -/
def Mirrors (cb : CouchbaseBucket D) : Prop :=
  ∀ type id, (index cb type).count id =
    if (cb.documents.lookup id).map Document.type = some type then 1 else 0

/-- No write goes through for an id that is stored. -/
def Fresh (s : State D) : Event D → Prop
  | .set doc _ _ => s.bucket.documents.lookup doc.id = none
  | .setWithCAS doc expectedCAS _ =>
    ∀ existing, s.bucket.documents.lookup doc.id = some existing → existing.cas ≠ expectedCAS
  | _ => True

variable {cb : CouchbaseBucket D}

theorem index_store (doc type) :
    index (store cb doc) type =
      if type = doc.type then index cb type ++ [doc.id] else index cb type := by
  simp only [index, store, updateIndexes, Finmap.lookup_insert, getD_some, GoMap.lookup_insert_ite]
  split
  next eq =>
    rw [eq, getD_some]
  · rfl

theorem lookup_store (doc id) :
    ((store cb doc).documents.lookup id).map Document.type =
      if id = doc.id then some doc.type else (cb.documents.lookup id).map Document.type := by
  simp only [store, GoMap.lookup_insert_ite]
  split <;> rfl

variable {id : String} {ns : List String} {fields : String → List String}

theorem index_removeFromIndexes (visits : Visits cb ns fields)
    (documents : GoMap String (Document D)) (type : String) :
    index { cb with
      documents
      indexes := removeFromIndexes cb.indexes id ns fields } type = (index cb type).erase id := by
  simp only [index, removeFromIndexes]
  rw [GoMap.lookup_foldl_modify
    (fun name => GoMap.rangeUpdate (fun docs : List String => docs.erase id) (fields name))
    visits.1.1]
  cases found : cb.indexes.lookup typeIndex with
  | none => simp
  | some es =>
    have mem : typeIndex ∈ ns :=
      visits.1.mem_iff.mpr (Finmap.mem_of_lookup_eq_some found)
    have ranges := visits.2 typeIndex mem
    rw [found, getD_some] at ranges
    rw [if_pos mem, Option.map_some, getD_some, getD_some, ranges.lookup_rangeUpdate]
    cases es.lookup type <;> simp

theorem Mirrors.store (mirrors : Mirrors cb) (doc) (fresh : cb.documents.lookup doc.id = none) :
    Mirrors (store cb doc) := by
  intro type id
  have pre := mirrors type id
  rw [index_store, lookup_store]
  by_cases own : id = doc.id
  · rw [own, fresh] at pre
    simp only [own, if_true, some.injEq]
    by_cases same : type = doc.type
    · rw [if_pos same, if_pos same.symm, count_append, pre]
      simp
    · rw [if_neg same, if_neg (Ne.symm same), pre]
      simp
  · rw [if_neg own, ← pre]
    split
    · rw [count_append, count_singleton, if_neg (by simpa using Ne.symm own), Nat.add_zero]
    · rfl

/-- A write over a stored document leaves its id in the list of the old type, and adds it to the
list of the new one. -/
theorem not_mirrors_store (mirrors : Mirrors cb) (doc) {existing}
    (hit : cb.documents.lookup doc.id = some existing) : ¬ Mirrors (store cb doc) := by
  intro after
  have pre := mirrors existing.type doc.id
  have now := after existing.type doc.id
  rw [hit, Option.map_some, if_pos rfl] at pre
  simp only [index_store, lookup_store, if_true, some.injEq] at now
  by_cases same : existing.type = doc.type
  · rw [if_pos same, if_pos same.symm, count_append, pre] at now
    simp at now
  · rw [if_neg same, if_neg (Ne.symm same), pre] at now
    cases now

theorem Mirrors.delete (mirrors : Mirrors cb) (visits : Visits cb ns fields) :
    Mirrors { cb with
      documents := cb.documents.erase id
      indexes := removeFromIndexes cb.indexes id ns fields } := by
  intro type x
  rw [index_removeFromIndexes visits, count_erase, mirrors type x]
  rw [GoMap.lookup_erase_ite]
  by_cases own : x = id
  · rw [own]
    simp only [beq_self_eq_true, if_true, Option.map_none, reduceCtorEq, if_false]
    split <;> rfl
  · have ne : ¬ (id == x) = true := by simpa using Ne.symm own
    rw [if_neg own, if_neg ne, Nat.sub_zero]

section

variable {s next : State D} {event : Event D} {events : List (Event D)} {final : State D}

theorem Mirrors.moves (mirrors : Mirrors s.bucket) (fresh : Fresh s event)
    (moves : Moves s event next) : Mirrors next.bucket := by
  cases moves with
  | get id now => exact mirrors
  | set doc updated made id type => exact mirrors.store _ (id ▸ fresh)
  | swap doc now hit => exact absurd rfl (fresh _ hit)
  | refuse doc expectedCAS now failed => exact mirrors
  | delete id ns fields hit visits => exact mirrors.delete visits
  | miss id ns fields absent => exact mirrors

theorem fresh_of_mirrors (mirrors : Mirrors s.bucket) (moves : Moves s event next)
    (after : Mirrors next.bucket) : Fresh s event := by
  cases moves with
  | get id now => trivial
  | @set doc updated made stored id type =>
    by_contra hit
    obtain ⟨old, hit⟩ := ne_none_iff_exists'.mp hit
    exact not_mirrors_store mirrors stored (id ▸ hit) after
  | @swap doc now old hit =>
    exact absurd after (not_mirrors_store mirrors { doc with updatedAt := now } hit)
  | refuse doc expectedCAS now failed => exact failed
  | delete id ns fields hit visits => trivial
  | miss id ns fields absent => trivial

/-- In every state of a run the index has the ids of the stored documents under their types, each
once, exactly if no write goes through for an id that is stored. -/
theorem type_index_mirrors_iff (run : exec step start events = some final) :
    Throughout step (fun s : State D => Mirrors s.bucket) start events ↔
      Along step Fresh start events := by
  refine throughout_iff_along_of_run (fun s : State D => Mirrors s.bucket) ?_ (fun _ held => held)
    ?_ ?_ run
  · intro type id
    simp [start, newCouchbaseBucket, index]
  · intro s event next mirrors fresh stepped
    exact mirrors.moves fresh (moves_of_step stepped)
  · intro s event next mirrors stepped after
    exact fresh_of_mirrors mirrors (moves_of_step stepped) after

end

section

instance (s : State D) (event : Event D) : Decidable (Fresh s event) :=
  match event with
  | .get _ _ | .delete _ _ _ => isTrue trivial
  | .set doc _ _ =>
    decidable_of_iff ((s.bucket.documents.lookup doc.id).isNone = true) Option.isNone_iff_eq_none
  | .setWithCAS doc expectedCAS _ =>
    decidable_of_iff (∀ existing ∈ s.bucket.documents.lookup doc.id, existing.cas ≠ expectedCAS)
      Iff.rfl

def typed (id type : String) : Document Unit := ⟨id, type, (), 0, 0, 0, none⟩

def rewritten : List (Event Unit) :=
  [.set (typed "a" "user") 0 0, .set (typed "b" "user") 0 0,
    .delete "a" [typeIndex] (fun _ => ["user"]), .set (typed "a" "order") 1 1]

theorem rewritten_index_mirrors :
    ∃ final, exec step start rewritten = some final ∧ index final.bucket "user" = ["b"] ∧
      index final.bucket "order" = ["a"] ∧ Mirrors final.bucket := by
  refine exists_exec (fun s => index s.bucket "user" = ["b"] ∧ index s.bucket "order" = ["a"])
    (by decide) ?_
  intro final run ⟨user, order⟩
  have fresh : Along step Fresh start rewritten :=
    along_of_decide (by decide)
  exact ⟨user, order, ((type_index_mirrors_iff run).mpr fresh).last run⟩

/-- A document is stored twice and changes its type. -/
theorem changed_type_indexed_twice :
    ∃ final, exec step start [.set (typed "a" "user") 0 0, .set (typed "a" "order") 1 1] =
        some final ∧
      (final.bucket.documents.lookup "a").map Document.type = some "order" ∧
      index final.bucket "user" = ["a"] ∧ index final.bucket "order" = ["a"] :=
  ⟨_, rfl, by decide, by decide, by decide⟩

end

end AsyncPractice.Couchbase

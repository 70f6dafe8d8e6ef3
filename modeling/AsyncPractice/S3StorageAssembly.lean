import AsyncPractice.LastWrite
import AsyncPractice.S3StorageMultipart

/- What CompleteMultipartUpload makes of the parts of an upload, the calls one after another. -/
namespace AsyncPractice.S3

open LastWrite (last last_snoc)
open List
open Multipart (putObject_isOk)
open SliceSort (eq_sortSlice sortSlice sortSlice_perm sortSlice_sorted)

structure PartCall where
  uploadID : String
  partNumber : Int
  data : Bytes

def PartCall.writes (uploadID : String) (n : Int) (call : PartCall) : Option Bytes :=
  if call.uploadID = uploadID ∧ call.partNumber = n then some call.data else none

def uploadParts (md5 : Bytes → Bytes) (s3 : S3CompatibleStorage) (calls : List PartCall) :
    S3CompatibleStorage :=
  calls.foldl (fun s3 call => (uploadPart md5 s3 call.uploadID call.partNumber call.data).1) s3

def Holds (uploadID bucket key : String) (data : Int → Option Bytes) (s3 : S3CompatibleStorage) :
    Prop :=
  ∃ upload, s3.multipartUploads.lookup uploadID = some upload ∧ upload.bucket = bucket ∧
    upload.key = key ∧ ∀ n, (upload.parts.lookup n).map Part.data = data n

/-- The data of the listed parts, or an error for the first that is missing. -/
def assemble (data : Int → Option Bytes) (parts : List Int) : Except String Bytes :=
  match parts.find? fun n => (data n).isNone with
  | none => .ok (parts.flatMap fun n => (data n).getD [])
  | some n => .error ("part " ++ toString n ++ " not found")

variable {uploadID bucket k : String} {data : Int → Option Bytes} {s3 : S3CompatibleStorage}

theorem combineParts_eq {stored} (holds : ∀ n, (stored.lookup n).map Part.data = data n) (parts) :
    combineParts stored parts = assemble data parts := by
  induction parts with
  | nil => rfl
  | cons n parts ih =>
    unfold combineParts assemble
    rw [find?_cons, flatMap_cons, ← holds n]
    cases stored.lookup n with
    | none => rfl
    | some part =>
      rw [ih, assemble]
      cases parts.find? fun n => (data n).isNone <;> rfl

theorem assemble_isOk (parts) : (assemble data parts).isOk ↔ ∀ n ∈ parts, (data n).isSome := by
  have complete : (parts.find? fun n => (data n).isNone) = none ↔ ∀ n ∈ parts, (data n).isSome := by
    simp [find?_eq_none, Option.isSome_iff_ne_none]
  unfold assemble
  cases found : parts.find? fun n => (data n).isNone with
  | none => exact iff_of_true rfl (complete.mp found)
  | some no => exact iff_of_false nofun fun all => by simp [complete.mpr all] at found

theorem uploadPart_buckets (md5) (c : PartCall) :
    (uploadPart md5 s3 c.uploadID c.partNumber c.data).1.buckets = s3.buckets := by
  unfold uploadPart
  split <;> rfl

theorem Holds.uploadPart (md5) (holds : Holds uploadID bucket k data s3) (c : PartCall) :
    Holds uploadID bucket k (fun n => (c.writes uploadID n).or (data n))
      (uploadPart md5 s3 c.uploadID c.partNumber c.data).1 := by
  obtain ⟨upload, known, toBucket, underKey, parts⟩ := holds
  unfold S3.uploadPart
  by_cases same : c.uploadID = uploadID
  · rw [same, known]
    refine ⟨_, Finmap.lookup_insert _, toBucket, underKey, fun n => ?_⟩
    rw [GoMap.lookup_insert_ite]
    by_cases here : c.partNumber = n
    · simp [PartCall.writes, same, here]
    · simpa [PartCall.writes, here, Ne.symm here] using parts n
  · have ws : ∀ n, (c.writes uploadID n).or (data n) = data n :=
      fun n => by simp [PartCall.writes, same]
    simp only [ws]
    split
    · exact ⟨upload, known, toBucket, underKey, parts⟩
    · refine ⟨upload, ?_, toBucket, underKey, parts⟩
      rwa [Finmap.lookup_insert_of_ne _ (Ne.symm same)]

theorem Holds.uploadParts (md5) (holds : Holds uploadID bucket k data s3) (cs : List PartCall) :
    Holds uploadID bucket k (fun n => (last (PartCall.writes uploadID n) cs).or (data n))
      (uploadParts md5 s3 cs) ∧ (uploadParts md5 s3 cs).buckets = s3.buckets := by
  unfold S3.uploadParts
  induction cs using List.reverseRecOn with
  | nil => exact ⟨holds, rfl⟩
  | append_singleton cs c ih =>
    rw [foldl_concat]
    simp only [last_snoc, Option.or_assoc]
    exact ⟨ih.1.uploadPart md5 c, (uploadPart_buckets md5 c).trans ih.2⟩

theorem putObject_data {md5 r obj} (stored : (putObject md5 s3 r).2 = .ok obj) :
    obj.data = r.data := by
  unfold putObject at stored
  split at stored <;> cases stored
  rfl

/-- What becomes of the storage: the object is stored and the upload forgotten, or nothing is
changed. -/
def Settled (uploadID bucket key : String) (s3 next : S3CompatibleStorage) :
    Except String Object → Prop
  | .ok obj => (next.buckets.lookup bucket).bind (·.objects.lookup key) = some obj ∧
      next.multipartUploads.lookup uploadID = none
  | .error _ => next = s3

theorem Holds.complete (md5 : Bytes → Bytes) (holds : Holds uploadID bucket k data s3)
    (parts : List Int) (clock : PutClock) :
    let done := completeMultipartUpload md5 s3 uploadID parts clock
    (done.2 = (assemble data (sortSlice (· < ·) parts)).bind fun bytes =>
      (putObject md5 s3 ⟨bucket, k, bytes, ∅, clock⟩).2) ∧
    Settled uploadID bucket k s3 done.1 done.2 := by
  obtain ⟨upload, known, rfl, rfl, holds⟩ := holds
  unfold completeMultipartUpload MultipartUpload.combine
  simp only [known, combineParts_eq holds]
  cases assemble data (sortSlice (· < ·) parts) with
  | error err => exact ⟨rfl, rfl⟩
  | ok bytes =>
    cases found : s3.buckets.lookup upload.bucket with
    | none => simp [putObject, found, Except.bind, Settled]
    | some b => simp [putObject, found, Except.bind, Settled]

theorem Holds.complete_isOk (md5) (holds : Holds uploadID bucket k data s3) (parts clock) :
    (completeMultipartUpload md5 s3 uploadID parts clock).2.isOk ↔
      (∀ n ∈ parts, (data n).isSome) ∧ (s3.buckets.lookup bucket).isSome := by
  have listed : (∀ n ∈ parts, (data n).isSome) ↔
      (assemble data (sortSlice (· < ·) parts)).isOk := by
    rw [assemble_isOk]
    exact forall_congr' fun n => imp_congr_left (sortSlice_perm _ parts).mem_iff.symm
  rw [(holds.complete md5 parts clock).1, listed]
  cases assemble data (sortSlice (· < ·) parts) with
  | error err => exact iff_of_false nofun fun both => nomatch both.1
  | ok bytes =>
    rw [← putObject_isOk md5 s3 ⟨bucket, k, bytes, ∅, clock⟩]
    exact (and_iff_right rfl).symm

theorem Holds.createBucket (holds : Holds uploadID bucket k data s3) (name) :
    Holds uploadID bucket k data (createBucket s3 name).1 ∧
      ((createBucket s3 name).1.buckets.lookup name).isSome := by
  unfold S3.createBucket
  split
  next hit =>
    exact ⟨holds, hit⟩
  · exact ⟨holds, by simp⟩

def partData (uploadID : String) (calls : List PartCall) (n : Int) : Option Bytes :=
  last (PartCall.writes uploadID n) calls

/-- The storage after an upload was initiated and parts were uploaded, also for other uploads. -/
def uploaded (md5 : Bytes → Bytes) (s3 : S3CompatibleStorage) (bucket key : String)
    (nanos now : Int) (calls : List PartCall) : S3CompatibleStorage :=
  uploadParts md5 (initiateMultipartUpload s3 bucket key nanos now).1 calls

theorem uploaded_holds (md5 : Bytes → Bytes) (s3 : S3CompatibleStorage) (bucket k : String)
    (nanos now : Int) (cs : List PartCall) :
    let uploadID := (initiateMultipartUpload s3 bucket k nanos now).2
    let after := uploaded md5 s3 bucket k nanos now cs
    Holds uploadID bucket k (partData uploadID cs) after ∧ after.buckets = s3.buckets := by
  intro uploadID after
  have fresh : Holds uploadID bucket k (fun _ => none)
      (initiateMultipartUpload s3 bucket k nanos now).1 :=
    ⟨_, Finmap.lookup_insert _, rfl, rfl, fun _ => rfl⟩
  have run := fresh.uploadParts md5 cs
  simp only [Option.or_none] at run
  exact run

/-- Completion succeeds with all listed parts and the bucket there. The object is then made of the
last data of the parts in ascending order, whatever the order of the list and of uploads of
different parts. After a failure the upload can be completed once what was missing is there. -/
theorem assembly_of_parts (md5 : Bytes → Bytes) (s3 : S3CompatibleStorage) (bucket key : String)
    (nanos now : Int) (calls : List PartCall) (parts : List Int) (clock : PutClock) :
    let uploadID := (initiateMultipartUpload s3 bucket key nanos now).2
    let before := uploaded md5 s3 bucket key nanos now
    let done := completeMultipartUpload md5 (before calls) uploadID parts clock
    let data := partData uploadID calls
    (done.2.isOk ↔ (∀ n ∈ parts, (data n).isSome) ∧ (s3.buckets.lookup bucket).isSome) ∧
    Settled uploadID bucket key (before calls) done.1 done.2 ∧
    (∀ obj (sorted : List Int), done.2 = .ok obj → sorted.Perm parts → sorted.Pairwise (· ≤ ·) →
      obj.data = sorted.flatMap fun n => (data n).getD []) ∧
    (∀ (parts' : List Int) (calls' : List PartCall), parts'.Perm parts →
      (∀ n, calls'.filterMap (PartCall.writes uploadID n) =
        calls.filterMap (PartCall.writes uploadID n)) →
      (completeMultipartUpload md5 (before calls') uploadID parts' clock).2 = done.2) ∧
    (¬done.2.isOk → ∀ more clock',
      (∀ n ∈ parts, (data n).isSome ∨ (partData uploadID more n).isSome) →
      (completeMultipartUpload md5 (uploadParts md5 (createBucket done.1 bucket).1 more) uploadID
        parts clock').2.isOk) := by
  intro uploadID before done data
  obtain ⟨holds, buckets⟩ := uploaded_holds md5 s3 bucket key nanos now calls
  obtain ⟨result, settled⟩ := holds.complete md5 parts clock
  have sorts : ∀ sorted : List Int, sorted.Perm parts → sorted.Pairwise (· ≤ ·) →
      sorted = sortSlice (· < ·) parts :=
    fun _ perm => eq_sortSlice (fun _ _ _ _ same => same) (fun _ _ => Iff.rfl) perm
  refine ⟨?_, settled, ?_, ?_, ?_⟩
  · rw [← buckets]
    exact holds.complete_isOk md5 parts clock
  · intro obj sorted ok perm ascending
    obtain rfl := sorts sorted perm ascending
    change done.2 = _ at result
    rw [ok] at result
    unfold assemble at result
    split at result
    · exact putObject_data result.symm
    · cases result
  · intro parts' calls' perm same
    have data' : partData uploadID calls' = data := funext fun n => congrArg getLast? (same n)
    obtain ⟨holds', buckets'⟩ := uploaded_holds md5 s3 bucket key nanos now calls'
    have order : sortSlice (· < ·) parts' = sortSlice (· < ·) parts :=
      sorts _ ((sortSlice_perm _ parts').trans perm) (sortSlice_sorted (fun _ _ => Iff.rfl) parts')
    rw [(holds'.complete md5 parts' clock).1, data', order, result]
    refine congrArg _ (funext fun bytes => ?_)
    unfold putObject
    rw [buckets', buckets]
    cases s3.buckets.lookup bucket <;> rfl
  · intro failed more clock' uploaded
    have unchanged : done.1 = before calls := by
      change Settled _ _ _ _ done.1 done.2 at settled
      cases result : done.2 with
      | error err => rwa [result] at settled
      | ok obj => exact absurd (congrArg Except.isOk result) failed
    rw [unchanged]
    obtain ⟨created, present⟩ := holds.createBucket bucket
    obtain ⟨filled, kept⟩ := created.uploadParts md5 more
    refine (filled.complete_isOk md5 parts clock').mpr ⟨fun n listed => ?_, ?_⟩
    · rw [Option.isSome_or, Bool.or_eq_true]
      exact (uploaded n listed).symm
    · rwa [kept]

end AsyncPractice.S3

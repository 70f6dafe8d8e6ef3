import AsyncPractice.Checksum
import AsyncPractice.GoMap
import AsyncPractice.SliceSort
import AsyncPractice.Runs

/- S3CompatibleStorage of solution24_object_storage.go: buckets of objects with their versions,
multipart uploads, lifecycle rules and the metrics. Here the calls run one after another. The
hash MD5 and the age in days, which the code computes in floating point, are parameters. -/
namespace AsyncPractice.S3

section

open SliceSort (sortSlice)

structure ObjectVersion where
  versionID : String
  size : Int64
  etag : String
  lastModified : Int
  isLatest : Bool
  data : Bytes

structure Object where
  key : String
  size : Int64
  etag : String
  lastModified : Int
  metadata : GoMap String String
  data : Bytes
  versions : List ObjectVersion
  storageClass : String

structure Bucket where
  name : String
  objects : GoMap String Object
  versioning : Bool

structure Part where
  partNumber : Int
  etag : String
  size : Int64
  data : Bytes

structure MultipartUpload where
  uploadID : String
  bucket : String
  key : String
  parts : GoMap Int Part
  initiatedAt : Int

structure StorageTransition where
  days : Int
  storageClass : String

structure LifecycleRule where
  id : String
  status : String
  expiration : Int
  transition : StorageTransition

structure StorageMetrics where
  totalObjects : Int64
  totalSize : Int64
  totalBuckets : Int64
  uploadBytes : Int64

structure S3CompatibleStorage where
  buckets : GoMap String Bucket
  multipartUploads : GoMap String MultipartUpload
  versioning : Bool
  rules : List LifecycleRule
  metrics : StorageMetrics

/-- No function adds a lifecycle rule, so they are given here. -/
def newS3CompatibleStorage (rules : List LifecycleRule) : S3CompatibleStorage :=
  ⟨∅, ∅, true, rules, ⟨0, 0, 0, 0⟩⟩

def createBucket (s3 : S3CompatibleStorage) (name : String) :
    S3CompatibleStorage × Except String Unit :=
  if (s3.buckets.lookup name).isSome then
    (s3, .error ("bucket " ++ name ++ " already exists"))
  else
    ({ s3 with
        buckets := s3.buckets.insert name ⟨name, ∅, s3.versioning⟩
        metrics := { s3.metrics with totalBuckets := s3.metrics.totalBuckets + 1 } }, .ok ())

structure PutClock where
  nanos : Int
  version : Int
  modified : Int

structure PutRequest where
  bucket : String
  key : String
  data : Bytes
  metadata : GoMap String String
  clock : PutClock

def newObject (key : String) : Object := ⟨key, 0, "", 0, ∅, [], [], ""⟩

variable (md5 : Bytes → Bytes)

def newVersion (data : Bytes) (clock : PutClock) : ObjectVersion :=
  ⟨"v-" ++ toString clock.nanos, .ofNat data.length, hexEncode (md5 data), clock.version, true,
    data⟩

def Object.put (obj : Object) (versioning : Bool) (request : PutRequest) : Object :=
  { obj with
    versions :=
      if versioning then
        obj.versions.map (fun v => { v with isLatest := false }) ++
          [newVersion md5 request.data request.clock]
      else obj.versions
    size := .ofNat request.data.length
    etag := hexEncode (md5 request.data)
    lastModified := request.clock.modified
    data := request.data
    storageClass := "STANDARD"
    metadata := request.metadata ∪ obj.metadata }

def putObject (s3 : S3CompatibleStorage) (request : PutRequest) :
    S3CompatibleStorage × Except String Object :=
  match s3.buckets.lookup request.bucket with
  | none => (s3, .error ("bucket " ++ request.bucket ++ " not found"))
  | some b =>
    let existing := b.objects.lookup request.key
    let obj := (existing.getD (newObject request.key)).put md5 b.versioning request
    ({ s3 with
        buckets := s3.buckets.insert request.bucket
          { b with objects := b.objects.insert request.key obj }
        metrics := { s3.metrics with
          totalObjects :=
            if existing.isSome then s3.metrics.totalObjects else s3.metrics.totalObjects + 1
          totalSize := s3.metrics.totalSize + obj.size
          uploadBytes := s3.metrics.uploadBytes + obj.size } }, .ok obj)

def initiateMultipartUpload (s3 : S3CompatibleStorage) (bucket key : String) (nanos now : Int) :
    S3CompatibleStorage × String :=
  let uploadID := "upload-" ++ toString nanos
  ({ s3 with
      multipartUploads :=
        s3.multipartUploads.insert uploadID ⟨uploadID, bucket, key, ∅, now⟩ }, uploadID)

def uploadPart (s3 : S3CompatibleStorage) (uploadID : String) (partNumber : Int) (data : Bytes) :
    S3CompatibleStorage × Except String String :=
  match s3.multipartUploads.lookup uploadID with
  | none => (s3, .error ("upload " ++ uploadID ++ " not found"))
  | some upload =>
    let etag := hexEncode (md5 data)
    let part : Part := ⟨partNumber, etag, .ofNat data.length, data⟩
    ({ s3 with
        multipartUploads := s3.multipartUploads.insert uploadID
          { upload with parts := upload.parts.insert partNumber part } }, .ok etag)

def combineParts (parts : GoMap Int Part) : List Int → Except String Bytes
  | [] => .ok []
  | partNum :: rest =>
    match parts.lookup partNum with
    | none => .error ("part " ++ toString partNum ++ " not found")
    | some part => (combineParts parts rest).map (part.data ++ ·)

def MultipartUpload.combine (upload : MultipartUpload) (parts : List Int) : Except String Bytes :=
  combineParts upload.parts (sortSlice (· < ·) parts)

def completeMultipartUpload (s3 : S3CompatibleStorage) (uploadID : String) (parts : List Int)
    (clock : PutClock) : S3CompatibleStorage × Except String Object :=
  match s3.multipartUploads.lookup uploadID with
  | none => (s3, .error ("upload " ++ uploadID ++ " not found"))
  | some upload =>
    match upload.combine parts with
    | .error err => (s3, .error err)
    | .ok data =>
      let stored := putObject md5 s3 ⟨upload.bucket, upload.key, data, ∅, clock⟩
      match stored.2 with
      | .error err => (stored.1, .error err)
      | .ok obj =>
        ({ stored.1 with
            multipartUploads := stored.1.multipartUploads.erase uploadID }, .ok obj)

def LifecycleRule.Expires (rule : LifecycleRule) (days : Int) : Prop :=
  rule.status = "Enabled" ∧ rule.expiration > 0 ∧ days > rule.expiration

instance (rule : LifecycleRule) (days : Int) : Decidable (rule.Expires days) :=
  inferInstanceAs (Decidable (_ ∧ _))

def StorageMetrics.expire (metrics : StorageMetrics) (size : Int64) : StorageMetrics :=
  { metrics with
    totalObjects := metrics.totalObjects - 1
    totalSize := metrics.totalSize - size }

/-- One rule on one object, which may be deleted already by a rule before. -/
def applyRule (days : Int) (key : String) (size : Int64)
    (state : GoMap String Object × StorageMetrics) (rule : LifecycleRule) :
    GoMap String Object × StorageMetrics :=
  if rule.status ≠ "Enabled" then state
  else
    let expired :=
      if rule.expiration > 0 ∧ days > rule.expiration then
        (state.1.erase key, state.2.expire size)
      else state
    if rule.transition.days > 0 ∧ days > rule.transition.days then
      (GoMap.modify (fun obj => { obj with storageClass := rule.transition.storageClass }) key
        expired.1, expired.2)
    else expired

/-- What a pass over all objects reads: the clock at each object and the orders of the maps. -/
structure LifecyclePass where
  now : String → String → Int
  buckets : List String
  objects : String → List String

variable (age : Int → Int)

def applyObject (rules : List LifecycleRule) (now : String → Int)
    (state : GoMap String Object × StorageMetrics) (key : String) :
    GoMap String Object × StorageMetrics :=
  match state.1.lookup key with
  | none => state
  | some obj => rules.foldl (applyRule (age (now key - obj.lastModified)) key obj.size) state

def applyBucket (pass : LifecyclePass) (s3 : S3CompatibleStorage) (name : String) :
    S3CompatibleStorage :=
  match s3.buckets.lookup name with
  | none => s3
  | some b =>
    let applied := (pass.objects name).foldl (applyObject age s3.rules (pass.now name))
      (b.objects, s3.metrics)
    { s3 with
      buckets := s3.buckets.insert name { b with objects := applied.1 }
      metrics := applied.2 }

def applyLifecycleRules (s3 : S3CompatibleStorage) (pass : LifecyclePass) : S3CompatibleStorage :=
  pass.buckets.foldl (applyBucket age pass) s3

/-- The orders name every bucket and every object once. -/
def LifecyclePass.Legal (pass : LifecyclePass) (s3 : S3CompatibleStorage) : Prop :=
  GoMap.Ranges pass.buckets s3.buckets ∧ ∀ name ∈ pass.buckets,
    GoMap.Ranges (pass.objects name) (((s3.buckets.lookup name).map (·.objects)).getD ∅)

instance (pass : LifecyclePass) (s3 : S3CompatibleStorage) : Decidable (pass.Legal s3) :=
  inferInstanceAs (Decidable (_ ∧ _))

/-- The number of rules by which an object of this age expires. -/
def expirations (rules : List LifecycleRule) (days : Int) : Nat :=
  rules.countP fun rule => rule.Expires days

def Object.plain (obj : Object) : Object := { obj with storageClass := "" }

variable {rules : List LifecycleRule} {days : Int} {k : String} {size : Int64} {age : Int → Int}
  {now : String → Int}

theorem applyRule_metrics (s rule) :
    (applyRule days k size s rule).2 = if rule.Expires days then s.2.expire size else s.2 := by
  unfold applyRule LifecycleRule.Expires
  by_cases enabled : rule.status = "Enabled"
  · by_cases old : rule.expiration > 0 ∧ days > rule.expiration
    · simp only [enabled, old, ne_eq, not_true_eq_false, if_false, and_self, if_true]
      split <;> rfl
    · simp only [enabled, old, ne_eq, not_true_eq_false, if_false, true_and]
      split <;> rfl
  · simp [enabled]

theorem lookup_applyRule (s rule j) :
    ((applyRule days k size s rule).1.lookup j).map Object.plain =
      if j = k ∧ rule.Expires days then none else (s.1.lookup j).map Object.plain := by
  have classed : ∀ (objects : GoMap String Object) (storageClass : String),
      ((GoMap.modify (fun obj => { obj with storageClass }) k objects).lookup j).map
        Object.plain = (objects.lookup j).map Object.plain := by
    intro objects storageClass
    rw [GoMap.lookup_modify]
    split
    · rw [Option.map_map]
      rfl
    · rfl
  have deleted : ((if rule.expiration > 0 ∧ days > rule.expiration then
        (s.1.erase k, s.2.expire size) else s).1.lookup j).map Object.plain =
      if j = k ∧ rule.expiration > 0 ∧ days > rule.expiration then none
      else (s.1.lookup j).map Object.plain := by
    by_cases old : rule.expiration > 0 ∧ days > rule.expiration
    · rw [if_pos old, GoMap.lookup_erase_ite]
      by_cases same : j = k <;> simp [same, old]
    · simp [old]
  unfold applyRule LifecycleRule.Expires
  by_cases enabled : rule.status = "Enabled"
  · simp only [enabled, ne_eq, not_true_eq_false, if_false, true_and]
    split
    · rw [classed, deleted]
    · rw [deleted]
  · simp [enabled]

theorem expirations_cons (rule rules days) :
    expirations (rule :: rules) days =
      expirations rules days + if rule.Expires days then 1 else 0 := by
  simp [expirations, List.countP_cons]

theorem lookup_foldl_applyRule (s j) :
    ((rules.foldl (applyRule days k size) s).1.lookup j).map Object.plain =
      if j = k ∧ 0 < expirations rules days then none
      else (s.1.lookup j).map Object.plain := by
  induction rules generalizing s with
  | nil => simp [expirations]
  | cons rule rules ih =>
    rw [List.foldl_cons, ih, lookup_applyRule, expirations_cons]
    by_cases same : j = k
    · by_cases expires : rule.Expires days <;> simp [same, expires]
    · simp [same]

theorem lookup_applyObject (age rules now s k j) :
    ((applyObject age rules now s k).1.lookup j).map Object.plain = if j = k ∧ (s.1.lookup k).any
          (fun obj => 0 < expirations rules (age (now k - obj.lastModified))) then none
      else (s.1.lookup j).map Object.plain := by
  unfold applyObject
  split
  next absent =>
    simp [absent]
  next obj hit =>
    rw [lookup_foldl_applyRule, hit]
    simp

theorem plain_of_foldl_applyObject {keys : List String} {s : GoMap String Object × StorageMetrics}
    {j : String} {obj : Object}
    (left : ((keys.foldl (applyObject age rules now) s).1.lookup j).map Object.plain = some obj) :
    (s.1.lookup j).map Object.plain = some obj := by
  induction keys generalizing s with
  | nil => exact left
  | cons k keys ih =>
    have pre := ih left
    rw [lookup_applyObject] at pre
    split at pre
    · cases pre
    · exact pre

variable {s3 : S3CompatibleStorage} {pass : LifecyclePass} {name : String}

theorem applyBucket_present {b} (hit : s3.buckets.lookup name = some b) :
    applyBucket age pass s3 name = { s3 with
        buckets := s3.buckets.insert name { b with
          objects := ((pass.objects name).foldl (applyObject age s3.rules (pass.now name))
            (b.objects, s3.metrics)).1 }
        metrics := ((pass.objects name).foldl (applyObject age s3.rules (pass.now name))
          (b.objects, s3.metrics)).2 } := by
  simp [applyBucket, hit]

theorem applyBucket_rules : (applyBucket age pass s3 name).rules = s3.rules := by
  unfold applyBucket
  split <;> rfl

theorem lookup_applyBucket_other {other} (ne : other ≠ name) :
    (applyBucket age pass s3 name).buckets.lookup other = s3.buckets.lookup other := by
  unfold applyBucket
  split
  · rfl
  · exact Finmap.lookup_insert_of_ne _ ne

inductive Op
  | createBucket (name : String)
  | putObject (request : PutRequest)
  | initiateMultipartUpload (bucket key : String) (nanos now : Int)
  | uploadPart (uploadID : String) (partNumber : Int) (data : Bytes)
  | completeMultipartUpload (uploadID : String) (parts : List Int) (clock : PutClock)
  | applyLifecycleRules (pass : LifecyclePass)

def step (md5 : Bytes → Bytes) (age : Int → Int) (s3 : S3CompatibleStorage) :
    Op → Option S3CompatibleStorage
  | .createBucket name => some (createBucket s3 name).1
  | .putObject request => some (putObject md5 s3 request).1
  | .initiateMultipartUpload bucket key nanos now =>
    some (initiateMultipartUpload s3 bucket key nanos now).1
  | .uploadPart uploadID partNumber data => some (uploadPart md5 s3 uploadID partNumber data).1
  | .completeMultipartUpload uploadID parts clock =>
    some (completeMultipartUpload md5 s3 uploadID parts clock).1
  | .applyLifecycleRules pass =>
    if pass.Legal s3 then some (applyLifecycleRules age s3 pass) else none

def putRequest (s3 : S3CompatibleStorage) : Op → Option PutRequest
  | .putObject request => some request
  | .completeMultipartUpload uploadID parts clock =>
    (s3.multipartUploads.lookup uploadID).bind fun upload =>
      (upload.combine parts).toOption.map fun data =>
        ⟨upload.bucket, upload.key, data, ∅, clock⟩
  | _ => none

variable {md5 : Bytes → Bytes} {t : S3CompatibleStorage}

/-- Two storages with the same buckets and metrics: the uploads may differ. -/
structure SameContents (s3 next : S3CompatibleStorage) : Prop where
  buckets : next.buckets = s3.buckets
  metrics : next.metrics = s3.metrics

inductive Changes (md5 : Bytes → Bytes) (age : Int → Int) (s3 next : S3CompatibleStorage) :
    Op → Prop
  | idle {op : Op} (none : putRequest s3 op = none)
      (other : ∀ pass, op ≠ .applyLifecycleRules pass) (same : SameContents s3 next) :
      Changes md5 age s3 next op
  | create {name : String} (new : s3.buckets.lookup name = none)
      (same : next = (createBucket s3 name).1) : Changes md5 age s3 next (.createBucket name)
  | put {op : Op} (request : PutRequest) (puts : putRequest s3 op = some request)
      (same : SameContents (putObject md5 s3 request).1 next) : Changes md5 age s3 next op
  | pass {pass : LifecyclePass} (legal : pass.Legal s3)
      (same : next = applyLifecycleRules age s3 pass) :
      Changes md5 age s3 next (.applyLifecycleRules pass)

theorem step_changes {op} (took : step md5 age s3 op = some t) : Changes md5 age s3 t op := by
  cases op with
  | createBucket name =>
    cases took
    cases hit : s3.buckets.lookup name with
    | none => exact .create hit rfl
    | some b =>
      have eq : (createBucket s3 name).1 = s3 := by simp [createBucket, hit]
      rw [eq]
      exact .idle rfl (by simp) ⟨rfl, rfl⟩
  | putObject r =>
    cases took
    exact .put r rfl ⟨rfl, rfl⟩
  | initiateMultipartUpload bucket k nanos now =>
    cases took
    exact .idle rfl (by simp) ⟨rfl, rfl⟩
  | uploadPart uploadID partNumber data =>
    cases took
    refine .idle rfl (by simp) ?_
    unfold uploadPart
    split <;> exact ⟨rfl, rfl⟩
  | completeMultipartUpload uploadID parts clock =>
    cases took
    unfold completeMultipartUpload
    split
    next absent =>
      exact .idle (by simp [putRequest, absent]) (by simp) ⟨rfl, rfl⟩
    next upload hit =>
      split
      next err missing =>
        exact .idle (by simp [putRequest, hit, missing, Except.toOption]) (by simp) ⟨rfl, rfl⟩
      next data combined =>
        refine .put ⟨upload.bucket, upload.key, data, ∅, clock⟩
          (by simp [putRequest, hit, combined, Except.toOption]) ?_
        dsimp only
        split <;> exact ⟨rfl, rfl⟩
  | applyLifecycleRules pass =>
    obtain ⟨legal, rest⟩ := Option.ite_none_right_eq_some.mp took
    exact .pass legal (Option.some.inj rest).symm

end

/- The version history of the objects in a bucket with versioning. -/
open Option List

open Runs (exec exec_invariant exists_exec_of_decide)

/-- The storage with the contents put under each bucket and key since the object there was last
created. -/
structure Tracked where
  s3 : S3CompatibleStorage
  contents : String → String → List Bytes

/-- The contents of the object at a bucket and key once the request is served. -/
def contentsAfter (t : Tracked) (request : PutRequest) : List Bytes :=
  match (t.s3.buckets.lookup request.bucket).bind (·.objects.lookup request.key) with
  | none => [request.data]
  | some _ => t.contents request.bucket request.key ++ [request.data]

def recordPut (t : Tracked) (op : Op) (bucket key : String) : List Bytes :=
  match putRequest t.s3 op with
  | none => t.contents bucket key
  | some request =>
    if bucket = request.bucket ∧ key = request.key then contentsAfter t request
    else t.contents bucket key

def trackStep (md5 : Bytes → Bytes) (age : Int → Int) (t : Tracked) (op : Op) : Option Tracked :=
  (step md5 age t.s3 op).map fun next => ⟨next, recordPut t op⟩

def track (s3 : S3CompatibleStorage) : Tracked := ⟨s3, fun _ _ => []⟩

/-- The versions of an object are the given contents, the last one is the only latest one, and the
object itself holds what that version does. -/
structure History (md5 : Bytes → Bytes) (contents : List Bytes) (obj : Object) : Prop where
  contents : obj.versions.map (·.data) = contents
  described : ∀ v ∈ obj.versions, v.size = .ofNat v.data.length ∧ v.etag = hexEncode (md5 v.data)
  latest : ∃ earlier last, obj.versions = earlier ++ [last] ∧
    (∀ v ∈ earlier, v.isLatest = false) ∧ last.isLatest = true ∧
    obj.data = last.data ∧ obj.size = last.size ∧ obj.etag = last.etag

def Recorded (md5 : Bytes → Bytes) (t : Tracked) : Prop :=
  ∀ name b, t.s3.buckets.lookup name = some b → b.versioning = true →
    ∀ key obj, b.objects.lookup key = some obj → History md5 (t.contents name key) obj

variable {md5 : Bytes → Bytes} {age : Int → Int}

theorem History.of_plain {contents obj other} (hist : History md5 contents obj)
    (eq : other.plain = obj.plain) : History md5 contents other := by
  have plain : History md5 contents obj.plain :=
    ⟨hist.contents, hist.described, hist.latest⟩
  rw [← eq] at plain
  exact ⟨plain.contents, plain.described, plain.latest⟩

theorem Object.put_history (contents) (obj : Object) (req)
    (told : obj.versions.map (·.data) = contents)
    (described : ∀ v ∈ obj.versions,
      v.size = .ofNat v.data.length ∧ v.etag = hexEncode (md5 v.data)) :
    History md5 (contents ++ [req.data]) (obj.put md5 true req) := by
  refine ⟨?_, ?_, ?_⟩
  · simp only [Object.put, if_true, List.map_append, List.map_map, map_cons, map_nil]
    rw [← told]
    rfl
  · intro v mem
    rcases mem_append.mp mem with old | new
    · obtain ⟨pre, hit, rfl⟩ := List.mem_map.mp old
      exact described pre hit
    · obtain rfl := List.mem_singleton.mp new
      exact ⟨rfl, rfl⟩
  · refine ⟨_, _, rfl, ?_, rfl, rfl, rfl, rfl⟩
    intro v mem
    obtain ⟨pre, -, rfl⟩ := List.mem_map.mp mem
    rfl

theorem bucket_before_pass {ns : List String} {pass : LifecyclePass} {s3 : S3CompatibleStorage}
    {name : String} {after : Bucket}
    (found : (ns.foldl (applyBucket age pass) s3).buckets.lookup name = some after) :
    ∃ b, s3.buckets.lookup name = some b ∧ after.versioning = b.versioning ∧
      ∀ k obj, (after.objects.lookup k).map Object.plain = some obj →
        (b.objects.lookup k).map Object.plain = some obj := by
  induction ns generalizing s3 with
  | nil => exact ⟨after, found, rfl, fun _ _ left => left⟩
  | cons x ns ih =>
    obtain ⟨b, hit, versioning, kept⟩ := ih found
    by_cases same : name = x
    · subst same
      cases bucket : s3.buckets.lookup name with
      | none =>
        have unchanged : applyBucket age pass s3 name = s3 := by simp [applyBucket, bucket]
        rw [unchanged, bucket] at hit
        cases hit
      | some old =>
        rw [applyBucket_present bucket, Finmap.lookup_insert, some.injEq] at hit
        subst hit
        exact ⟨old, rfl, versioning, fun k obj left =>
          plain_of_foldl_applyObject (kept k obj left)⟩
    · rw [lookup_applyBucket_other same] at hit
      exact ⟨b, hit, versioning, kept⟩

theorem recorded_step {t next : Tracked} {op : Op} (rec : Recorded md5 t)
    (took : trackStep md5 age t op = some next) : Recorded md5 next := by
  obtain ⟨s3, moved, rfl⟩ := map_eq_some_iff.mp took
  intro name after bucket versioned k obj found
  cases step_changes moved with
  | idle none other eq =>
    rw [eq.buckets] at bucket
    simpa only [recordPut, none] using rec name after bucket versioned k obj found
  | @create made new eq =>
    simp only [eq, createBucket, new, isSome_none, Bool.false_eq_true, if_false] at bucket
    rcases GoMap.lookup_insert_cases bucket with ⟨-, rfl⟩ | ⟨-, bucket⟩
    · cases found
    · exact rec name after bucket versioned k obj found
  | put req puts eq =>
    rw [eq.buckets] at bucket
    simp only [recordPut, puts]
    cases hit : t.s3.buckets.lookup req.bucket with
    | none =>
      have no : name ≠ req.bucket := by
        rintro rfl
        simp [putObject, hit] at bucket
      simp only [putObject, hit] at bucket
      rw [if_neg fun both => no both.1]
      exact rec name after bucket versioned k obj found
    | some b =>
      simp only [putObject, hit] at bucket
      rcases GoMap.lookup_insert_cases bucket with ⟨rfl, rfl⟩ | ⟨ne, bucket⟩
      · rcases GoMap.lookup_insert_cases found with ⟨rfl, rfl⟩ | ⟨ne, found⟩
        · rw [if_pos ⟨rfl, rfl⟩, contentsAfter, hit, Option.bind_some,
            show b.versioning = true from versioned]
          cases existing : b.objects.lookup req.key with
          | none =>
            apply Object.put_history [] (newObject req.key) req rfl
            intro v mem
            cases mem
          | some old =>
            have hist := rec req.bucket b hit versioned req.key old existing
            exact Object.put_history _ old req hist.contents hist.described
        · rw [if_neg fun both => ne both.2]
          exact rec req.bucket b hit versioned k obj found
      · rw [if_neg fun both => ne both.1]
        exact rec name after bucket versioned k obj found
  | pass legal eq =>
    rw [eq] at bucket
    obtain ⟨b, hit, versioning, kept⟩ := bucket_before_pass bucket
    obtain ⟨old, existing, plain⟩ := map_eq_some_iff.mp (kept k obj.plain (by rw [found]; rfl))
    have hist := rec name b hit (versioning ▸ versioned) k old existing
    exact hist.of_plain plain.symm

/-- After any run, the versions of every object in a versioned bucket are the contents put under
its key since it was last created, in order; the last one alone is the latest, and the object's
data, size and ETag are its own. -/
theorem versions_faithful {md5 : Bytes → Bytes} {age : Int → Int} {rules : List LifecycleRule}
    {ops : List Op} {t : Tracked}
    (run : exec (trackStep md5 age) (track (newS3CompatibleStorage rules)) ops = some t)
    {name key : String} {b : Bucket} {obj : Object} (bucket : t.s3.buckets.lookup name = some b)
    (versioned : b.versioning = true) (found : b.objects.lookup key = some obj) :
    History md5 (t.contents name key) obj := by
  have recorded : Recorded md5 t := by
    refine exec_invariant (Recorded md5) ?_
      (fun _ _ _ held stepped => recorded_step held stepped) run
    intro name b bucket
    cases bucket
  exact recorded name b bucket versioned key obj found

def recreated : List Op :=
  [.createBucket "b", .putObject ⟨"b", "k", [1], ∅, ⟨1, 0, 0⟩⟩,
    .applyLifecycleRules ⟨fun _ _ => 10, ["b"], fun _ => ["k"]⟩,
    .putObject ⟨"b", "k", [2, 3], ∅, ⟨2, 10, 10⟩⟩, .initiateMultipartUpload "b" "k" 7 10,
    .uploadPart "upload-7" 2 [5], .uploadPart "upload-7" 1 [4],
    .completeMultipartUpload "upload-7" [2, 1] ⟨3, 11, 11⟩]

theorem recreated_history :
    ∃ t b obj, exec (trackStep id id) (track (newS3CompatibleStorage
        [⟨"r", "Enabled", 5, ⟨0, ""⟩⟩])) recreated = some t ∧
      t.s3.buckets.lookup "b" = some b ∧ b.objects.lookup "k" = some obj ∧
      t.contents "b" "k" = [[2, 3], [4, 5]] ∧ History id [[2, 3], [4, 5]] obj := by
  obtain ⟨t, run, contents, b, present, versioned, stored⟩ : ∃ t, exec (trackStep id id)
        (track (newS3CompatibleStorage [⟨"r", "Enabled", 5, ⟨0, ""⟩⟩])) recreated = some t ∧
      t.contents "b" "k" = [[2, 3], [4, 5]] ∧ ∃ b ∈ t.s3.buckets.lookup "b",
        b.versioning = true ∧ (b.objects.lookup "k").isSome = true :=
    exists_exec_of_decide (by decide +kernel)
  obtain ⟨obj, found⟩ := isSome_iff_exists.mp stored
  have history := versions_faithful run present versioned found
  rw [contents] at history
  exact ⟨t, b, obj, run, present, found, contents, history⟩

end AsyncPractice.S3

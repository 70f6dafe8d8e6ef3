import AsyncPractice.S3CompatibleStorage

/- The metrics of the storage against its contents. PutObject adds the size of the new data and
never takes off that of the old, and every expiring rule that matches an object counts it. -/
namespace AsyncPractice.S3

open GoMap Option Runs

def sumObjects (weight : Object → Nat) (s3 : S3CompatibleStorage) : Nat :=
  total (fun b => total weight b.objects) s3.buckets

structure Accurate (s3 : S3CompatibleStorage) : Prop where
  objects : s3.metrics.totalObjects = .ofNat (sumObjects (fun _ => 1) s3)
  bytes : s3.metrics.totalSize = .ofNat (sumObjects (fun obj => obj.data.length) s3)

/-- The size field of every object is the length of its data. -/
def Sized (objects : GoMap String Object) : Prop :=
  ∀ key obj, objects.lookup key = some obj → obj.size = .ofNat obj.data.length

section

variable (age : Int → Int) (rules : List LifecycleRule) (weight : Object → Nat)

/-- What the rules after the first one that expires an object take off once more. -/
def objectSurplus (objects : GoMap String Object) (now : String → Int) (key : String) : Nat :=
  match objects.lookup key with
  | none => 0
  | some obj => (expirations rules (age (now key - obj.lastModified)) - 1) * weight obj

def bucketSurplus (objects : GoMap String Object) (now : String → Int) : List String → Nat
  | [] => 0
  | key :: keys =>
    objectSurplus age rules weight objects now key + bucketSurplus objects now keys

def passSurplus (buckets : GoMap String Bucket) (pass : LifecyclePass) : List String → Nat
  | [] => 0
  | name :: names =>
    bucketSurplus age rules weight (((buckets.lookup name).map (·.objects)).getD ∅)
      (pass.now name) (pass.objects name) + passSurplus buckets pass names

end

/-- A put does not replace data, and a pass counts nothing twice: both up to overflow. -/
def CountsOnce (age : Int → Int) (s3 : S3CompatibleStorage) (op : Op) : Prop :=
  (∀ request b obj, putRequest s3 op = some request →
    s3.buckets.lookup request.bucket = some b → b.objects.lookup request.key = some obj →
    obj.size = 0) ∧
  ∀ pass, op = .applyLifecycleRules pass → pass.Legal s3 →
    Int64.ofNat (passSurplus age s3.rules (fun _ => 1) s3.buckets pass pass.buckets) = 0 ∧
    Int64.ofNat (passSurplus age s3.rules (fun obj => obj.data.length) s3.buckets pass
      pass.buckets) = 0

/-- A metric and what each object should add to it. -/
inductive Gauge
  | objects
  | bytes

def Gauge.weight : Gauge → Object → Nat
  | .objects, _ => 1
  | .bytes, obj => obj.data.length

def Gauge.read : Gauge → StorageMetrics → Int64
  | .objects, metrics => metrics.totalObjects
  | .bytes, metrics => metrics.totalSize

/-- How far a metric is from what some objects add up to. -/
def Gauge.drift (gauge : Gauge) (objects : GoMap String Object) (metrics : StorageMetrics) :
    Int64 :=
  gauge.read metrics - .ofNat (total gauge.weight objects)

variable {obj : Object}

theorem Gauge.read_expire (gauge : Gauge) (sized : obj.size = .ofNat obj.data.length) (metrics) :
    gauge.read (metrics.expire obj.size) = gauge.read metrics - .ofNat (gauge.weight obj) := by
  cases gauge with
  | objects => rfl
  | bytes =>
    show metrics.totalSize - obj.size = metrics.totalSize - .ofNat obj.data.length
    rw [sized]

theorem read_foldl_applyRule (rules : List LifecycleRule) (days) (k : String) (gauge : Gauge)
    (sized : obj.size = .ofNat obj.data.length) (s : GoMap String Object × StorageMetrics) :
    gauge.read (rules.foldl (applyRule days k obj.size) s).2 =
      gauge.read s.2 - .ofNat (expirations rules days * gauge.weight obj) := by
  induction rules generalizing s with
  | nil => simp [expirations]
  | cons rule rules ih =>
    rw [List.foldl_cons, ih, applyRule_metrics, expirations_cons]
    by_cases expires : rule.Expires days
    · rw [if_pos expires, if_pos expires, gauge.read_expire sized, Nat.add_mul, Nat.one_mul,
        Int64.ofNat_add]
      grind
    · rw [if_neg expires, if_neg expires, Nat.add_zero]

section

variable {age : Int → Int} {rules : List LifecycleRule} {now : String → Int}

/-- Maps with the same objects up to their storage class. -/
def SamePlain (before after : GoMap String Object) : Prop :=
  ∀ j, (after.lookup j).map Object.plain = (before.lookup j).map Object.plain

variable {pre after : GoMap String Object}

theorem Gauge.total_congr (gauge : Gauge) (eq : SamePlain pre after) :
    total gauge.weight after = total gauge.weight pre := by
  apply gather_congr
  intro j
  have weights := congrArg (Option.map gauge.weight) (eq j)
  rw [map_map, map_map] at weights
  cases gauge <;> exact weights

theorem objectSurplus_congr (gauge : Gauge) {k}
    (eq : (after.lookup k).map Object.plain = (pre.lookup k).map Object.plain) :
    objectSurplus age rules gauge.weight after now k =
      objectSurplus age rules gauge.weight pre now k := by
  have surplus : ∀ objects : GoMap String Object,
      objectSurplus age rules gauge.weight objects now k =
        (((objects.lookup k).map Object.plain).map fun obj =>
          (expirations rules (age (now k - obj.lastModified)) - 1) * gauge.weight obj).getD 0 := by
    intro objects
    unfold objectSurplus
    cases objects.lookup k with
    | none => rfl
    | some obj => cases gauge <;> rfl
  rw [surplus, surplus, eq]

variable {keys : List String}

theorem bucketSurplus_congr (gauge : Gauge)
    (eq : ∀ k ∈ keys, (after.lookup k).map Object.plain = (pre.lookup k).map Object.plain) :
    bucketSurplus age rules gauge.weight after now keys =
      bucketSurplus age rules gauge.weight pre now keys := by
  induction keys with
  | nil => rfl
  | cons k keys ih =>
    rw [bucketSurplus, bucketSurplus, objectSurplus_congr gauge (eq k List.mem_cons_self),
      ih fun other mem => eq other (List.mem_cons_of_mem _ mem)]

theorem Sized.of_plain (sized : Sized pre)
    (kept : ∀ j obj, (after.lookup j).map Object.plain = some obj →
      (pre.lookup j).map Object.plain = some obj) : Sized after := by
  intro k obj found
  have earlier := kept k obj.plain (by rw [found]; rfl)
  obtain ⟨old, hit, eq⟩ := map_eq_some_iff.mp earlier
  show obj.plain.size = .ofNat obj.plain.data.length
  rw [← eq]
  exact sized k old hit

/-- One object moves a metric by what its rules take off more than once. -/
theorem drift_applyObject (gauge : Gauge) {s} (sized : Sized s.1) (k) :
    gauge.drift (applyObject age rules now s k).1 (applyObject age rules now s k).2 =
      gauge.drift s.1 s.2 - .ofNat (objectSurplus age rules gauge.weight s.1 now k) := by
  cases present : s.1.lookup k with
  | none => simp [applyObject, objectSurplus, present]
  | some obj =>
    have applied : applyObject age rules now s k =
        rules.foldl (applyRule (age (now k - obj.lastModified)) k obj.size) s := by
      simp [applyObject, present]
    have lookups := lookup_applyObject age rules now s k
    have read := read_foldl_applyRule rules (age (now k - obj.lastModified)) k gauge
      (sized k obj present) s
    rw [← applied] at read
    simp only [objectSurplus, present, Gauge.drift, read]
    simp only [present, any_some] at lookups
    generalize expirations rules (age (now k - obj.lastModified)) = count at lookups ⊢
    cases count with
    | zero =>
      have eq : SamePlain s.1 (applyObject age rules now s k).1 :=
        fun j => by simpa using lookups j
      rw [gauge.total_congr eq]
      simp
    | succ more =>
      have erased : SamePlain (s.1.erase k) (applyObject age rules now s k).1 := by
        intro j
        rw [lookups, lookup_erase_ite]
        by_cases eq : j = k <;> simp [eq]
      have total := total_erase gauge.weight present
      rw [gauge.total_congr erased, ← total, Nat.add_sub_cancel, Nat.add_mul, Nat.one_mul,
        Int64.ofNat_add, Int64.ofNat_add]
      grind

theorem drift_foldl_applyObject (age : Int → Int) (rules) (now : String → Int) (gauge : Gauge)
    (nodup : keys.Nodup) (s : GoMap String Object × StorageMetrics) (sized : Sized s.1) :
    gauge.drift (keys.foldl (applyObject age rules now) s).1
        (keys.foldl (applyObject age rules now) s).2 =
      gauge.drift s.1 s.2 - .ofNat (bucketSurplus age rules gauge.weight s.1 now keys) := by
  induction keys generalizing s with
  | nil => simp [bucketSurplus]
  | cons k keys ih =>
    obtain ⟨outside, nodup⟩ := List.nodup_cons.mp nodup
    have after : Sized (applyObject age rules now s k).1 := by
      apply sized.of_plain
      intro j obj left
      rw [lookup_applyObject] at left
      split at left
      · cases left
      · exact left
    have rest : bucketSurplus age rules gauge.weight (applyObject age rules now s k).1 now
        keys = bucketSurplus age rules gauge.weight s.1 now keys := by
      apply bucketSurplus_congr
      intro other mem
      rw [lookup_applyObject]
      have ne : other ≠ k := ne_of_mem_of_not_mem mem outside
      simp [ne]
    rw [List.foldl_cons, ih nodup _ after, drift_applyObject gauge sized, rest, bucketSurplus,
      Int64.ofNat_add]
    grind

end

/-- How far a metric is from the contents of the storage. -/
def Gauge.storageDrift (gauge : Gauge) (s3 : S3CompatibleStorage) : Int64 :=
  gauge.read s3.metrics - .ofNat (sumObjects gauge.weight s3)

def AllSized (buckets : GoMap String Bucket) : Prop :=
  ∀ name b, buckets.lookup name = some b → Sized b.objects

theorem accurate_iff {s3} : Accurate s3 ↔ ∀ gauge : Gauge, gauge.storageDrift s3 = 0 := by
  have zero : ∀ a b : Int64, a - b = 0 ↔ a = b := by
    intro a b
    constructor <;> grind
  constructor
  · intro accurate gauge
    cases gauge with
    | objects => exact (zero _ _).mpr accurate.objects
    | bytes => exact (zero _ _).mpr accurate.bytes
  · intro level
    exact ⟨(zero _ _).mp (level .objects), (zero _ _).mp (level .bytes)⟩

section

variable {age : Int → Int} {s3 : S3CompatibleStorage} {pass : LifecyclePass} {name : String}

theorem allSized_applyBucket (sized : AllSized s3.buckets) :
    AllSized (applyBucket age pass s3 name).buckets := by
  cases present : s3.buckets.lookup name with
  | none => simpa [applyBucket, present] using sized
  | some b =>
    rw [applyBucket_present present]
    intro x after hit
    rcases lookup_insert_cases hit with ⟨rfl, rfl⟩ | ⟨-, hit⟩
    · apply (sized x b present).of_plain
      intro j obj left
      exact plain_of_foldl_applyObject left
    · exact sized x after hit

theorem drift_applyBucket (gauge : Gauge) (sized : AllSized s3.buckets) {b}
    (hit : s3.buckets.lookup name = some b) (nodup : (pass.objects name).Nodup) :
    gauge.storageDrift (applyBucket age pass s3 name) =
      gauge.storageDrift s3 - .ofNat (bucketSurplus age s3.rules gauge.weight b.objects
        (pass.now name) (pass.objects name)) := by
  have moved := drift_foldl_applyObject age s3.rules (pass.now name) gauge nodup
    (b.objects, s3.metrics) (sized name b hit)
  rw [applyBucket_present hit]
  generalize (pass.objects name).foldl (applyObject age s3.rules (pass.now name))
    (b.objects, s3.metrics) = applied at moved ⊢
  have new := total_insert (fun b : Bucket => total gauge.weight b.objects)
    s3.buckets name { b with objects := applied.1 }
  have wrapped := congrArg Int64.ofNat new
  rw [Int64.ofNat_add, Int64.ofNat_add] at wrapped
  simp only [Gauge.drift] at moved
  simp only [Gauge.storageDrift, sumObjects]
  grind

variable {ns : List String}

theorem passSurplus_congr (weight : Object → Nat) (rules) {before after}
    (eq : ∀ name ∈ ns, after.lookup name = before.lookup name) :
    passSurplus age rules weight after pass ns = passSurplus age rules weight before pass ns := by
  induction ns with
  | nil => rfl
  | cons name ns ih =>
    rw [passSurplus, passSurplus, eq name List.mem_cons_self,
      ih fun other mem => eq other (List.mem_cons_of_mem _ mem)]

theorem foldl_applyBucket (nodup : ns.Nodup) (orders : ∀ name ∈ ns, (pass.objects name).Nodup)
    (hit : ∀ name ∈ ns, name ∈ s3.buckets) (sized : AllSized s3.buckets) :
    AllSized (ns.foldl (applyBucket age pass) s3).buckets ∧
      ∀ gauge : Gauge, gauge.storageDrift (ns.foldl (applyBucket age pass) s3) =
        gauge.storageDrift s3 -
          .ofNat (passSurplus age s3.rules gauge.weight s3.buckets pass ns) := by
  induction ns generalizing s3 with
  | nil => simp [passSurplus, sized]
  | cons name ns ih =>
    obtain ⟨outside, nodup⟩ := List.nodup_cons.mp nodup
    have others : ∀ other ∈ ns,
        (applyBucket age pass s3 name).buckets.lookup other = s3.buckets.lookup other := by
      intro other mem
      exact lookup_applyBucket_other (ne_of_mem_of_not_mem mem outside)
    have still : ∀ other ∈ ns, other ∈ (applyBucket age pass s3 name).buckets := by
      intro other mem
      rw [← Finmap.lookup_isSome, others other mem, Finmap.lookup_isSome]
      exact hit other (List.mem_cons_of_mem _ mem)
    obtain ⟨after, moved⟩ := ih nodup
      (fun other mem => orders other (List.mem_cons_of_mem _ mem)) still
      (allSized_applyBucket sized)
    refine ⟨after, fun gauge => ?_⟩
    obtain ⟨b, found⟩ := isSome_iff_exists.mp
      (Finmap.lookup_isSome.mpr (hit name List.mem_cons_self))
    rw [List.foldl_cons, moved, drift_applyBucket gauge sized found
      (orders name List.mem_cons_self), applyBucket_rules, passSurplus_congr _ _ others,
      passSurplus, found, map_some, getD_some, Int64.ofNat_add]
    grind

theorem drift_pass (legal : pass.Legal s3) (sized : AllSized s3.buckets) :
    AllSized (applyLifecycleRules age s3 pass).buckets ∧
      ∀ gauge : Gauge, gauge.storageDrift (applyLifecycleRules age s3 pass) =
        gauge.storageDrift s3 -
          .ofNat (passSurplus age s3.rules gauge.weight s3.buckets pass pass.buckets) :=
  foldl_applyBucket legal.1.1 (fun name mem => (legal.2 name mem).1)
    (fun _ mem => legal.1.mem_iff.mp mem) sized

end

section

variable {md5 : Bytes → Bytes} {s3 : S3CompatibleStorage} {req : PutRequest}

/-- What a put writes over, by the gauge that does not notice it. -/
def Gauge.overwritten (gauge : Gauge) (s3 : S3CompatibleStorage) (request : PutRequest) : Int64 :=
  match gauge with
  | .objects => 0
  | .bytes => (((s3.buckets.lookup request.bucket).bind
      (·.objects.lookup request.key)).map (·.size)).getD 0

theorem drift_put (gauge : Gauge) (sized : AllSized s3.buckets) :
    gauge.storageDrift (putObject md5 s3 req).1 =
      gauge.storageDrift s3 + gauge.overwritten s3 req := by
  cases present : s3.buckets.lookup req.bucket with
  | none =>
    have none : gauge.overwritten s3 req = 0 := by
      cases gauge <;> simp [Gauge.overwritten, present]
    have eq : (putObject md5 s3 req).1 = s3 := by simp [putObject, present]
    rw [eq, none, Int64.add_zero]
  | some b =>
    -- The new object replaces the old one in its bucket, and its bucket in the storage.
    have stored : ∀ obj : Object,
        Int64.ofNat (total (fun b : Bucket => total gauge.weight b.objects)
          (s3.buckets.insert req.bucket { b with objects := b.objects.insert req.key obj })) +
          .ofNat (((b.objects.lookup req.key).map gauge.weight).getD 0) =
        .ofNat (sumObjects gauge.weight s3) + .ofNat (gauge.weight obj) := by
      intro obj
      have inner := total_insert gauge.weight b.objects req.key obj
      have outer := total_insert (fun b : Bucket => total gauge.weight b.objects)
        s3.buckets req.bucket { b with objects := b.objects.insert req.key obj }
      simp only [present, map_some, getD_some] at outer
      rw [← Int64.ofNat_add, ← Int64.ofNat_add]
      unfold sumObjects
      congr 1
      omega
    have new := stored
      (((b.objects.lookup req.key).getD (newObject req.key)).put md5 b.versioning req)
    simp only [putObject, present, Gauge.storageDrift, Gauge.overwritten, bind_some]
    simp only [sumObjects] at new ⊢
    cases existing : b.objects.lookup req.key with
    | none =>
      cases gauge <;> simp only [existing, Gauge.weight, Gauge.read, map_none, getD_none,
        isSome_none, Bool.false_eq_true, if_false, Object.put] at new ⊢ <;> grind
    | some old =>
      have size := sized req.bucket b present req.key old existing
      cases gauge <;> simp only [existing, Gauge.weight, Gauge.read, map_some, getD_some,
        isSome_some, if_true, Object.put, size] at new ⊢ <;> grind

theorem allSized_put (sized : AllSized s3.buckets) : AllSized (putObject md5 s3 req).1.buckets := by
  cases present : s3.buckets.lookup req.bucket with
  | none => simpa [putObject, present] using sized
  | some b =>
    simp only [putObject, present]
    intro name after hit
    rcases lookup_insert_cases hit with ⟨rfl, rfl⟩ | ⟨-, hit⟩
    · intro k obj hit
      rcases lookup_insert_cases hit with ⟨rfl, rfl⟩ | ⟨-, hit⟩
      · rfl
      · exact sized req.bucket b present k obj hit
    · exact sized name after hit

end

section

variable {md5 : Bytes → Bytes} {age : Int → Int} {s3 t : S3CompatibleStorage} {name : String}

theorem drift_create (gauge : Gauge) (new : s3.buckets.lookup name = none) :
    gauge.storageDrift (createBucket s3 name).1 = gauge.storageDrift s3 := by
  have cnt := total_insert (fun b : Bucket => total gauge.weight b.objects)
    s3.buckets name ⟨name, ∅, s3.versioning⟩
  simp only [new, map_none, getD_none, Nat.add_zero] at cnt
  simp only [createBucket, new, isSome_none, Bool.false_eq_true, if_false,
    Gauge.storageDrift, sumObjects, cnt]
  cases gauge <;> rfl

theorem allSized_create (sized : AllSized s3.buckets) (new : s3.buckets.lookup name = none) :
    AllSized (createBucket s3 name).1.buckets := by
  simp only [createBucket, new, isSome_none, Bool.false_eq_true, if_false]
  intro x b found
  rcases lookup_insert_cases found with ⟨-, rfl⟩ | ⟨-, found⟩
  · intro k obj hit
    cases hit
  · exact sized x b found

theorem SameContents.drift (eq : SameContents s3 t) (gauge : Gauge) :
    gauge.storageDrift t = gauge.storageDrift s3 := by
  unfold Gauge.storageDrift sumObjects
  rw [eq.buckets, eq.metrics]

/-- What an operation adds to the drift of a metric. -/
def Gauge.added (gauge : Gauge) (age : Int → Int) (s3 : S3CompatibleStorage) (op : Op) : Int64 :=
  match op with
  | .applyLifecycleRules pass =>
    - .ofNat (passSurplus age s3.rules gauge.weight s3.buckets pass pass.buckets)
  | op => ((putRequest s3 op).map (gauge.overwritten s3)).getD 0

variable {op : Op}

theorem Gauge.added_put (gauge : Gauge) (other : ∀ pass, op ≠ .applyLifecycleRules pass) :
    gauge.added age s3 op = ((putRequest s3 op).map (gauge.overwritten s3)).getD 0 := by
  cases op with
  | applyLifecycleRules pass => exact absurd rfl (other pass)
  | createBucket _ => rfl
  | putObject _ => rfl
  | initiateMultipartUpload _ _ _ _ => rfl
  | uploadPart _ _ _ => rfl
  | completeMultipartUpload _ _ _ => rfl

theorem step_drift (sized : AllSized s3.buckets) (took : step md5 age s3 op = some t) :
    AllSized t.buckets ∧ ∀ gauge : Gauge, gauge.storageDrift t =
        gauge.storageDrift s3 + gauge.added age s3 op := by
  cases step_changes took with
  | idle none other eq =>
    rw [eq.buckets]
    refine ⟨sized, fun gauge => ?_⟩
    rw [eq.drift, gauge.added_put other, none]
    exact (Int64.add_zero _).symm
  | create new eq =>
    rw [eq]
    refine ⟨allSized_create sized new, fun gauge => ?_⟩
    rw [drift_create gauge new]
    exact (Int64.add_zero _).symm
  | put req puts eq =>
    rw [eq.buckets]
    refine ⟨allSized_put sized, fun gauge => ?_⟩
    have other : ∀ pass, op ≠ .applyLifecycleRules pass := by
      rintro pass rfl
      cases puts
    rw [eq.drift, drift_put gauge sized, gauge.added_put other, puts]
    rfl
  | pass legal eq =>
    rw [eq]
    obtain ⟨after, moved⟩ := drift_pass legal sized
    refine ⟨after, fun gauge => ?_⟩
    rw [moved, Gauge.added, Int64.sub_eq_add_neg]

def Enabled (s3 : S3CompatibleStorage) (op : Op) : Prop :=
  ∀ pass, op = .applyLifecycleRules pass → pass.Legal s3

theorem neg_eq_zero_iff (n : Int64) : -n = 0 ↔ n = 0 := by
  constructor <;> grind

theorem CountsOnce.added_eq_zero (once : CountsOnce age s3 op) (enabled : Enabled s3 op)
    (gauge : Gauge) : gauge.added age s3 op = 0 := by
  by_cases lifecycle : ∃ pass, op = .applyLifecycleRules pass
  · obtain ⟨pass, rfl⟩ := lifecycle
    obtain ⟨objects, bytes⟩ := once.2 pass rfl (enabled pass rfl)
    cases gauge with
    | objects => exact (neg_eq_zero_iff _).mpr objects
    | bytes => exact (neg_eq_zero_iff _).mpr bytes
  · rw [gauge.added_put fun pass eq => lifecycle ⟨pass, eq⟩]
    cases puts : putRequest s3 op with
    | none => rfl
    | some req =>
      cases gauge with
      | objects => rfl
      | bytes =>
        simp only [map_some, getD_some, Gauge.overwritten]
        cases bucket : s3.buckets.lookup req.bucket with
        | none => rfl
        | some b =>
          cases found : b.objects.lookup req.key with
          | none => simp [found]
          | some obj => simp [found, once.1 req b obj puts bucket found]

theorem countsOnce_of_added (level : Enabled s3 op → ∀ gauge : Gauge, gauge.added age s3 op = 0) :
    CountsOnce age s3 op := by
  constructor
  · intro req b obj puts bucket hit
    have other : ∀ pass, op ≠ .applyLifecycleRules pass := by
      rintro pass rfl
      cases puts
    have bytes := level (fun pass eq => absurd eq (other pass)) .bytes
    rw [Gauge.added_put _ other, puts] at bytes
    simpa [Gauge.overwritten, bucket, hit] using bytes
  · rintro pass rfl legal
    have enabled : Enabled s3 (.applyLifecycleRules pass) := by
      intro pass' eq
      exact Op.applyLifecycleRules.inj eq ▸ legal
    exact ⟨(neg_eq_zero_iff _).mp (level enabled .objects),
      (neg_eq_zero_iff _).mp (level enabled .bytes)⟩

theorem enabled_iff (md5 : Bytes → Bytes) (age) :
    (∃ t, step md5 age s3 op = some t) ↔ Enabled s3 op := by
  cases op with
  | applyLifecycleRules pass =>
    constructor
    · rintro ⟨t, took⟩ pass' same
      exact Op.applyLifecycleRules.inj same ▸ (ite_none_right_eq_some.mp took).1
    · intro enabled
      exact ⟨_, if_pos (enabled pass rfl)⟩
  | createBucket _ | putObject _ | initiateMultipartUpload _ _ _ _ | uploadPart _ _ _
  | completeMultipartUpload _ _ _ => simp [step, Enabled]

end

/-- In any run of bucket creations, puts, uploads and lifecycle passes the metrics count the
stored objects and their bytes in every state exactly when no put writes over an object with data
and no lifecycle pass takes an object off more than once. -/
theorem metrics_accurate_iff (md5 : Bytes → Bytes) (age : Int → Int) (rules : List LifecycleRule)
    (ops : List Op) :
    Throughout (step md5 age) Accurate (newS3CompatibleStorage rules) ops ↔
      Along (step md5 age) (CountsOnce age) (newS3CompatibleStorage rules) ops := by
  refine throughout_iff_along (fun s3 => AllSized s3.buckets ∧ Accurate s3) ⟨?_, rfl, rfl⟩
    (fun s3 held => held.2) (fun _ => True) ?_ ?_ (fun _ _ => trivial)
  · intro name b found
    cases found
  · intro s3 op next held _ once stepped
    obtain ⟨sized, moved⟩ := step_drift held.1 stepped
    refine ⟨sized, accurate_iff.mpr fun gauge => ?_⟩
    rw [moved, accurate_iff.mp held.2 gauge,
      once.added_eq_zero ((enabled_iff md5 age).mp ⟨next, stepped⟩)]
    rfl
  · intro s3 op held _ good
    apply countsOnce_of_added
    intro enabled gauge
    obtain ⟨next, stepped⟩ := (enabled_iff md5 age).mpr enabled
    have moved := (step_drift held.1 stepped).2 gauge
    rw [accurate_iff.mp (good next stepped) gauge, accurate_iff.mp held.2 gauge,
      Int64.zero_add] at moved
    exact moved.symm

/-- Replaced data stay in the total size, and two rules take one object off twice. -/
theorem metrics_go_wrong :
    ((exec (step id fun _ => 10) (newS3CompatibleStorage [])
        [.createBucket "b", .putObject ⟨"b", "k", [1, 2], ∅, ⟨0, 0, 0⟩⟩,
          .putObject ⟨"b", "k", [3], ∅, ⟨1, 1, 1⟩⟩]).map fun s3 =>
      (s3.metrics.totalSize, sumObjects (fun obj => obj.data.length) s3)) = some (3, 1) ∧
    ((exec (step id fun _ => 10) (newS3CompatibleStorage
          [⟨"r", "Enabled", 1, ⟨0, ""⟩⟩, ⟨"q", "Enabled", 2, ⟨0, ""⟩⟩])
        [.createBucket "b", .putObject ⟨"b", "k", [1, 2], ∅, ⟨0, 0, 0⟩⟩,
          .applyLifecycleRules ⟨fun _ _ => 0, ["b"], fun _ => ["k"]⟩]).map fun s3 =>
      (s3.metrics.totalObjects, sumObjects (fun _ => 1) s3)) = some (-1, 0) := by
  decide +kernel

end AsyncPractice.S3

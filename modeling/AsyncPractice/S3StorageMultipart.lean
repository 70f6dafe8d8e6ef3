import AsyncPractice.S3CompatibleStorage

/- Concurrent calls of CompleteMultipartUpload. A call looks its upload up, combines the parts,
puts the object and deletes the upload, each in a critical section of its own. -/
namespace AsyncPractice.S3.Multipart

open List Function Runs

inductive Phase
  | start
  | found (upload : MultipartUpload)
  | combined (upload : MultipartUpload) (data : Bytes)
  | stored
  | returned
  | failed (err : String)

variable {ι : Type}

/-- `added` lists the upload for every version that a call has added to an object. -/
structure State (ι : Type) where
  s3 : S3CompatibleStorage
  phase : ι → Phase
  added : List String

def init (s3 : S3CompatibleStorage) : State ι := ⟨s3, fun _ => .start, []⟩

structure Request where
  uploadID : String
  parts : List Int

def versionCount (s3 : S3CompatibleStorage) (bucket key : String) : Nat :=
  (((s3.buckets.lookup bucket).bind (·.objects.lookup key)).map (·.versions.length)).getD 0

section

variable [DecidableEq ι] (md5 : Bytes → Bytes) (request : ι → Request)

def State.move (s : State ι) (i : ι) (phase : Phase) : State ι :=
  { s with phase := update s.phase i phase }

def State.store (s : State ι) (i : ι) (put : PutRequest) : State ι :=
  let after := (putObject md5 s.s3 put).1
  let versions := versionCount after put.bucket put.key - versionCount s.s3 put.bucket put.key
  { s3 := after
    phase := update s.phase i .stored
    added := s.added ++ List.replicate versions (request i).uploadID }

def State.remove (s : State ι) (i : ι) : State ι :=
  let uploads := s.s3.multipartUploads.erase (request i).uploadID
  { s with
    s3 := { s.s3 with multipartUploads := uploads }
    phase := update s.phase i .returned }

def step (s : State ι) (act : ι × PutClock) : Option (State ι) :=
  let i := act.1
  match s.phase i with
  | .start =>
    match s.s3.multipartUploads.lookup (request i).uploadID with
    | none => some (s.move i (.failed ("upload " ++ (request i).uploadID ++ " not found")))
    | some upload => some (s.move i (.found upload))
  | .found upload =>
    match upload.combine (request i).parts with
    | .error err => some (s.move i (.failed err))
    | .ok data => some (s.move i (.combined upload data))
  | .combined upload data =>
    let put : PutRequest := ⟨upload.bucket, upload.key, data, ∅, act.2⟩
    match (putObject md5 s.s3 put).2 with
    | .error err => some (s.move i (.failed err))
    | .ok _ => some (s.store md5 request i put)
  | .stored => some (s.remove request i)
  | .returned => none
  | .failed _ => none

end

/-- The call has found its upload and will complete it, or has done so. -/
def Completes (buckets : GoMap String Bucket) (parts : List Int) : Phase → Prop
  | .found upload => (upload.combine parts).isOk ∧ (buckets.lookup upload.bucket).isSome
  | .combined upload _ => (buckets.lookup upload.bucket).isSome
  | .stored | .returned => True
  | .start | .failed _ => False

/-- Every upload was completed by at most one call and has added at most one version. -/
structure CompletedOnce (request : ι → Request) (s : State ι) : Prop where
  calls : ∀ i j, (request i).uploadID = (request j).uploadID →
    s.phase i = .returned → s.phase j = .returned → i = j
  versions : ∀ uploadID, s.added.count uploadID ≤ 1

/-- The call completes its upload in this state. -/
def State.Completing (s : State ι) (request : ι → Request) (j : ι) : Prop :=
  Completes s.s3.buckets (request j).parts (s.phase j)

/-- A call that finds its upload and can complete it finds no other one that is completing it and
has not deleted it yet. -/
def FindsAlone (request : ι → Request) (s : State ι) (act : ι × PutClock) : Prop :=
  s.phase act.1 = .start → ∀ upload,
    s.s3.multipartUploads.lookup (request act.1).uploadID = some upload →
    Completes s.s3.buckets (request act.1).parts (.found upload) →
    ∀ j, (request j).uploadID = (request act.1).uploadID → s.phase j ≠ .returned →
      ¬s.Completing request j

section

variable [DecidableEq ι] {md5 : Bytes → Bytes} {r : ι → Request} {s t : State ι}

@[simp] theorem State.move_phase_self (i phase) :
    (s.move i phase).phase i = phase := update_self _ _ _

@[simp] theorem State.store_phase_self (i put) :
    (s.store md5 r i put).phase i = .stored := update_self _ _ _

@[simp] theorem State.remove_phase_self (i) :
    (s.remove r i).phase i = .returned := update_self _ _ _

theorem lookup_putObject_isSome (s3 put name) :
    ((putObject md5 s3 put).1.buckets.lookup name).isSome = (s3.buckets.lookup name).isSome := by
  unfold putObject
  split
  · rfl
  next b hit =>
    rw [GoMap.lookup_insert_ite]
    split
    next eq =>
      rw [eq, hit]
      rfl
    · rfl

theorem putObject_uploads (s3 put) :
    (putObject md5 s3 put).1.multipartUploads = s3.multipartUploads := by
  unfold putObject
  split <;> rfl

theorem versionCount_putObject (md5 s3 put) :
    versionCount (putObject md5 s3 put).1 put.bucket put.key ≤
      versionCount s3 put.bucket put.key + 1 := by
  unfold versionCount putObject
  split
  · exact Nat.le_succ _
  next b hit =>
    simp only [Finmap.lookup_insert, Option.bind_some, Option.map_some, Option.getD_some, hit]
    cases existing : b.objects.lookup put.key with
    | none => cases b.versioning <;> simp [Object.put, newObject]
    | some obj => cases b.versioning <;> simp [Object.put]

/-- All that a step can do: what becomes of the call, of the storage and of the notes. -/
inductive Moves (md5 : Bytes → Bytes) (request : ι → Request) (s : State ι) (i : ι) :
    State ι → Prop
  | look {upload : MultipartUpload} (here : s.phase i = .start)
      (present : s.s3.multipartUploads.lookup (request i).uploadID = some upload) :
      Moves md5 request s i (s.move i (.found upload))
  | combine {upload : MultipartUpload} {data : Bytes} (here : s.phase i = .found upload)
      (combined : upload.combine (request i).parts = .ok data) :
      Moves md5 request s i (s.move i (.combined upload data))
  | fail {err : String}
      (hopeless : ¬Completes s.s3.buckets (request i).parts (s.phase i)) :
      Moves md5 request s i (s.move i (.failed err))
  | store {upload : MultipartUpload} {data : Bytes} {clock : PutClock}
      (here : s.phase i = .combined upload data)
      (bucket : (s.s3.buckets.lookup upload.bucket).isSome) :
      Moves md5 request s i
        (s.store md5 request i ⟨upload.bucket, upload.key, data, ∅, clock⟩)
  | delete (here : s.phase i = .stored) :
      Moves md5 request s i (s.remove request i)

theorem putObject_isOk (md5 s3 put) :
    (putObject md5 s3 put).2.isOk = (s3.buckets.lookup put.bucket).isSome := by
  unfold putObject
  split
  next absent =>
    rw [absent]
    rfl
  next b hit =>
    rw [hit]
    rfl

variable {act : ι × PutClock} {j : ι}

theorem step_moves (took : step md5 r s act = some t) : Moves md5 r s act.1 t := by
  unfold step at took
  dsimp only at took
  split at took
  next here =>
    split at took
    · cases took
      apply Moves.fail
      rw [here]
      exact id
    next upload hit =>
      cases took
      exact .look here hit
  next upload here =>
    split at took
    next err missing =>
      cases took
      apply Moves.fail
      rw [here]
      simp [Completes, missing, Except.isOk, Except.toBool]
    next data combined =>
      cases took
      exact .combine here combined
  next upload data here =>
    have res := putObject_isOk md5 s.s3 ⟨upload.bucket, upload.key, data, ∅, act.2⟩
    split at took
    next err refused =>
      cases took
      rw [refused] at res
      apply Moves.fail
      rw [here]
      simpa [Completes, Except.isOk, Except.toBool] using res
    next obj served =>
      cases took
      rw [served] at res
      exact .store here res.symm
  next here =>
    cases took
    exact .delete here
  · cases took
  · cases took

theorem completes_congr {before after parts phase}
    (eq : ∀ name, (after.lookup name).isSome = (before.lookup name).isSome) :
    Completes after parts phase ↔ Completes before parts phase := by
  cases phase <;> simp [Completes, eq]

omit [DecidableEq ι] in
theorem completing_congr {after : State ι} (phase : after.phase j = s.phase j)
    (eq : ∀ name, (after.s3.buckets.lookup name).isSome = (s.s3.buckets.lookup name).isSome) :
    after.Completing r j ↔ s.Completing r j := by
  unfold State.Completing
  rw [phase, completes_congr eq]

section

variable {i : ι} (moves : Moves md5 r s i t)

include moves

theorem Moves.buckets (name) :
    (t.s3.buckets.lookup name).isSome = (s.s3.buckets.lookup name).isSome := by
  cases moves with
  | look _ _ => rfl
  | combine _ _ => rfl
  | fail _ => rfl
  | store _ _ => exact lookup_putObject_isSome s.s3 _ name
  | delete _ => rfl

theorem Moves.other (ne : j ≠ i) : t.phase j = s.phase j := by
  cases moves <;> exact update_of_ne ne _ _

theorem Moves.completing (pre : s.Completing r j) : t.Completing r j := by
  by_cases same : j = i
  · subst same
    unfold State.Completing at pre ⊢
    cases moves with
    | look here _ =>
      rw [here] at pre
      cases pre
    | combine here _ =>
      rw [here] at pre
      rw [State.move_phase_self]
      exact pre.2
    | fail hopeless => exact absurd pre hopeless
    | store here _ =>
      rw [State.store_phase_self]
      trivial
    | delete here =>
      rw [State.remove_phase_self]
      trivial
  · exact (completing_congr (moves.other same) moves.buckets).mpr pre

theorem Moves.completing_inv (after : t.Completing r j) :
    s.Completing r j ∨ j = i ∧ s.phase i = .start ∧ ∃ upload,
      s.s3.multipartUploads.lookup (r i).uploadID = some upload ∧
      Completes s.s3.buckets (r i).parts (.found upload) := by
  by_cases same : j = i
  · subst same
    unfold State.Completing at after ⊢
    cases moves with
    | look here hit =>
      rw [State.move_phase_self] at after
      exact .inr ⟨rfl, here, _, hit, after⟩
    | combine here combined =>
      rw [State.move_phase_self] at after
      rw [here]
      left
      exact ⟨by rw [combined]; rfl, after⟩
    | fail hopeless =>
      rw [State.move_phase_self] at after
      cases after
    | store here bucket =>
      rw [here]
      exact .inl bucket
    | delete here =>
      rw [here]
      exact .inl trivial
  · exact .inl ((completing_congr (moves.other same) moves.buckets).mp after)

theorem Moves.past (past : s.phase j = .stored ∨ s.phase j = .returned) :
    t.phase j = .stored ∨ t.phase j = .returned := by
  by_cases same : j = i
  · subst same
    cases moves with
    | look here _ | combine here _ | store here _ => simp [here] at past
    | fail hopeless =>
      rcases past with stored | returned
      · simp [stored, Completes] at hopeless
      · simp [returned, Completes] at hopeless
    | delete _ => exact .inr (State.remove_phase_self j)
  · rw [moves.other same]
    exact past

theorem Moves.uploads {uploadID} (gone : s.s3.multipartUploads.lookup uploadID = none) :
    t.s3.multipartUploads.lookup uploadID = none := by
  cases moves with
  | look _ _ => exact gone
  | combine _ _ => exact gone
  | fail _ => exact gone
  | store _ _ =>
    show (putObject md5 s.s3 _).1.multipartUploads.lookup uploadID = none
    rw [putObject_uploads]
    exact gone
  | delete _ =>
    show (s.s3.multipartUploads.erase _).lookup uploadID = none
    rw [GoMap.lookup_erase_ite, gone, ite_self]

theorem Moves.returned (ret : t.phase j = .returned) :
    s.phase j = .returned ∨ t.s3.multipartUploads.lookup (r j).uploadID = none := by
  by_cases same : j = i
  · subst same
    cases moves with
    | look _ _ | combine _ _ | fail _ | store _ _ => simp at ret
    | delete _ => exact .inr (Finmap.lookup_erase _ _)
  · rw [moves.other same] at ret
    exact .inl ret

end

/-- At most one call completes an upload, one that has returned has deleted it, and the versions
are those of the calls past their put. -/
structure Guarded (request : ι → Request) (s : State ι) : Prop where
  unique : ∀ i j, (request i).uploadID = (request j).uploadID →
    s.Completing request i → s.Completing request j → i = j
  gone : ∀ i, s.phase i = .returned →
    s.s3.multipartUploads.lookup (request i).uploadID = none
  noted : ∀ uploadID ∈ s.added, ∃ i, (request i).uploadID = uploadID ∧
    (s.phase i = .stored ∨ s.phase i = .returned)
  once : ∀ uploadID, s.added.count uploadID ≤ 1

omit [DecidableEq ι] in
/-- A call that finds its upload finds no other one completing it, returned or not. -/
theorem Guarded.alone (inv : Guarded r s) (alone : FindsAlone r s act)
    (here : s.phase act.1 = .start) {upload}
    (hit : s.s3.multipartUploads.lookup (r act.1).uploadID = some upload)
    (completes : Completes s.s3.buckets (r act.1).parts (.found upload))
    (eq : (r j).uploadID = (r act.1).uploadID) : ¬s.Completing r j := by
  by_cases returned : s.phase j = .returned
  · have gone := inv.gone j returned
    rw [eq, hit] at gone
    cases gone
  · exact alone here upload hit completes j eq returned

theorem Guarded.unique_next (inv : Guarded r s) (alone : FindsAlone r s act)
    (moves : Moves md5 r s act.1 t) (i j) (eq : (r i).uploadID = (r j).uploadID)
    (x : t.Completing r i) (y : t.Completing r j) : i = j := by
  rcases moves.completing_inv x with old | ⟨rfl, here, upload, hit, completes⟩
  · rcases moves.completing_inv y with old' | ⟨rfl, here, upload, hit, completes⟩
    · exact inv.unique i j eq old old'
    · exact absurd old (inv.alone alone here hit completes eq)
  · rcases moves.completing_inv y with old' | ⟨rfl, -⟩
    · exact absurd old' (inv.alone alone here hit completes eq.symm)
    · rfl

theorem Guarded.step (inv : Guarded r s) (alone : FindsAlone r s act)
    (took : Multipart.step md5 r s act = some t) : Guarded r t := by
  have moves := step_moves took
  have kept : ∀ uploadID ∈ s.added, ∃ i, (r i).uploadID = uploadID ∧
      (t.phase i = .stored ∨ t.phase i = .returned) := by
    intro uploadID mem
    obtain ⟨i, eq, past⟩ := inv.noted uploadID mem
    exact ⟨i, eq, moves.past past⟩
  refine ⟨inv.unique_next alone moves, ?_, ?_, ?_⟩
  · intro i ret
    rcases moves.returned ret with before | gone
    · exact moves.uploads (inv.gone i before)
    · exact gone
  · cases moves with
    | look _ _ | combine _ _ | fail _ | delete _ => exact kept
    | store _ _ =>
      intro uploadID mem
      rcases mem_append.mp mem with old | new
      · exact kept uploadID old
      · exact ⟨act.1, (eq_of_mem_replicate new).symm, .inl (State.store_phase_self _ _)⟩
  · cases moves with
    | look _ _ | combine _ _ | fail _ | delete _ => exact inv.once
    | @store upload data clock here bucket =>
      intro uploadID
      have few := versionCount_putObject md5 s.s3 ⟨upload.bucket, upload.key, data, ∅, clock⟩
      -- Another version of this upload would be that of a second call completing it.
      have new : (r act.1).uploadID ∉ s.added := by
        intro mem
        obtain ⟨i, eq, past⟩ := inv.noted _ mem
        have completing : s.Completing r i := by
          unfold State.Completing
          rcases past with stored | ret
          · rw [stored]
            trivial
          · rw [ret]
            trivial
        have mine : s.Completing r act.1 := by
          unfold State.Completing
          rw [here]
          exact bucket
        rw [inv.unique i act.1 eq completing mine, here] at past
        simp at past
      have count := inv.once uploadID
      simp only [State.store, count_append, count_replicate]
      by_cases eq : (r act.1).uploadID = uploadID
      · rw [← eq, count_eq_zero_of_not_mem new]
        simp only [beq_self_eq_true, if_true]
        dsimp only at few
        omega
      · simp [eq, count]

omit [DecidableEq ι] in
theorem init_guarded (r : ι → Request) (s3) :
    Guarded r (init s3) where
  unique := by
    intro i j _ completing
    cases completing
  gone := by
    intro i ret
    cases ret
  noted := by simp [init]
  once := by simp [init]

omit [DecidableEq ι] in
theorem Guarded.completedOnce (inv : Guarded r s) : CompletedOnce r s where
  calls := by
    intro i j eq x y
    apply inv.unique i j eq
    · unfold State.Completing
      rw [x]
      trivial
    · unfold State.Completing
      rw [y]
      trivial
  versions := inv.once

/-- A call that completes its upload has done so at the end. -/
theorem completing_run {acts final} (run : exec (step md5 r) s acts = some final)
    (completing : s.Completing r j) : final.Completing r j :=
  exec_invariant (fun state => state.Completing r j) completing
    (fun _ _ _ held took => (step_moves took).completing held) run

end

def Finished (s : State ι) : Prop :=
  ∀ i, s.phase i = .start ∨ s.phase i = .returned ∨ ∃ err, s.phase i = .failed err

/-- Once all calls that began have ended, every upload was completed by at most one of them and
has added at most one version exactly when no call that can complete its upload has found it
between another one's look-up and deletion. -/
theorem completed_once_iff [DecidableEq ι] {md5 : Bytes → Bytes} {request : ι → Request}
    {s3 : S3CompatibleStorage} {acts : List (ι × PutClock)} {final : State ι}
    (run : exec (step md5 request) (init s3) acts = some final) (finished : Finished final) :
    CompletedOnce request final ↔ Along (step md5 request) (FindsAlone request) (init s3) acts := by
  constructor
  · intro once before act after split state reached here upload present completes j same _
      completing
    -- Both calls complete the upload and so both have returned.
    have ended : ∀ i, final.Completing request i → final.phase i = .returned := by
      intro i completing
      unfold State.Completing at completing
      rcases finished i with start | returned | ⟨err, failed⟩
      · rw [start] at completing
        cases completing
      · exact returned
      · rw [failed] at completing
        cases completing
    obtain ⟨next, stepped, rest⟩ := exec_cons_some.mp (exec_resume (split ▸ run) reached)
    have moves := step_moves stepped
    have mine : next.Completing request act.1 := by
      unfold State.Completing
      simp only [step, here, present, Option.some.injEq] at stepped
      rw [← stepped, State.move_phase_self]
      exact completes
    have equal := once.calls j act.1 same
      (ended j (completing_run rest (moves.completing completing)))
      (ended act.1 (completing_run rest mine))
    subst equal
    unfold State.Completing at completing
    rw [here] at completing
    cases completing
  · intro alone
    exact (exec_guarded (Guarded request) (init_guarded request s3)
      (fun _ _ _ held met stepped => held.step met stepped) run alone).completedOnce

instance (buckets : GoMap String Bucket) (parts : List Int) :
    (phase : Phase) → Decidable (Completes buckets parts phase)
  | .found _ => inferInstanceAs (Decidable (_ ∧ _))
  | .combined _ _ => inferInstanceAs (Decidable (_ = true))
  | .stored | .returned => inferInstanceAs (Decidable True)
  | .start | .failed _ => inferInstanceAs (Decidable False)

def Phase.isReturned : Phase → Bool
  | .returned => true
  | _ => false

def aloneTest (request : Bool → Request) (s : State Bool) (act : Bool × PutClock) : Bool :=
  match s.phase act.1 with
  | .start => (s.s3.multipartUploads.lookup (request act.1).uploadID).all fun _ =>
    [true, false].all fun j => (s.phase j).isReturned ||
      !decide (Completes s.s3.buckets (request j).parts (s.phase j))
  | _ => true

theorem findsAlone_of_test (r s act) (ok : aloneTest r s act = true) : FindsAlone r s act := by
  intro here upload hit _ j _ running completing
  unfold State.Completing at completing
  simp only [aloneTest, here, hit, Option.all_some, all_eq_true] at ok
  have tested := ok j (by cases j <;> simp)
  cases phase : s.phase j <;> simp_all [Phase.isReturned]

def oneUpload : S3CompatibleStorage :=
  (uploadPart id (initiateMultipartUpload (createBucket (newS3CompatibleStorage []) "b").1
    "b" "k" 7 0).1 "upload-7" 1 [1]).1

def bothComplete : Bool → Request := fun _ => ⟨"upload-7", [1]⟩

/-- The second call comes after the first one has returned, and fails. -/
theorem retry_after_return_fails :
    ∃ final, exec (step id bothComplete) (init oneUpload)
        (List.replicate 4 (true, ⟨1, 1, 1⟩) ++ [(false, ⟨2, 2, 2⟩)]) = some final ∧
      CompletedOnce bothComplete final := by
  refine exists_exec (fun s => ([true, false].all fun i => match s.phase i with
    | .start | .returned | .failed _ => true
    | _ => false) = true) (by decide +kernel) ?_
  intro final run ended
  refine (completed_once_iff run fun i => ?_).mpr (along_of_check
    (aloneTest bothComplete) (findsAlone_of_test bothComplete) (by decide +kernel))
  rw [all_eq_true] at ended
  have phases := ended i (by cases i <;> simp)
  cases phase : final.phase i <;> simp_all

/-- Both calls find the upload before one of them deletes it: both return the object, and it gets
two versions. -/
theorem both_calls_complete :
    ((exec (step id bothComplete) (init oneUpload)
        [(true, ⟨1, 1, 1⟩), (false, ⟨2, 2, 2⟩), (true, ⟨3, 3, 3⟩), (false, ⟨4, 4, 4⟩),
          (true, ⟨5, 5, 5⟩), (false, ⟨6, 6, 6⟩), (true, ⟨7, 7, 7⟩), (false, ⟨8, 8, 8⟩)]).map
      fun s => ((s.phase true).isReturned, (s.phase false).isReturned, s.added,
        versionCount s.s3 "b" "k")) =
      some (true, true, ["upload-7", "upload-7"], 2) := by
  decide +kernel

end AsyncPractice.S3.Multipart

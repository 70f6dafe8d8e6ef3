import Mathlib.Data.Finset.Sort
import Mathlib.Data.String.Basic
import AsyncPractice.S3CompatibleStorage

/- ListObjects of S3CompatibleStorage. It stops collecting at the limit and then sorts what it has
got, so which objects these are is up to the order of the map. -/
namespace AsyncPractice.S3

open List
open SliceSort (eq_sortSlice sortSlice sortSlice_perm sortSlice_strict)

def hasPrefix (s keyPrefix : String) : Bool := keyPrefix.toList.isPrefixOf s.toList

/-- The loop over the objects of the bucket, in the order of their keys in the map. -/
def collectObjects (b : Bucket) (keyPrefix : String) (maxKeys : Int) :
    List String → List Object → List Object
  | [], objects => objects
  | key :: keys, objects =>
    if 0 < maxKeys ∧ maxKeys ≤ objects.length then objects
    else if keyPrefix = "" ∨ hasPrefix key keyPrefix then
      collectObjects b keyPrefix maxKeys keys (objects ++ (b.objects.lookup key).toList)
    else collectObjects b keyPrefix maxKeys keys objects

def listObjects (s3 : S3CompatibleStorage) (bucket keyPrefix : String) (maxKeys : Int)
    (order : List String) : Except String (List Object) :=
  match s3.buckets.lookup bucket with
  | none => .error ("bucket " ++ bucket ++ " not found")
  | some b =>
    .ok (sortSlice (fun a b => a.key < b.key) (collectObjects b keyPrefix maxKeys order []))

theorem collectObjects_eq (b keyPrefix) {maxKeys : Int} (pos : 0 < maxKeys) (order objects) :
    collectObjects b keyPrefix maxKeys order objects = objects ++
      ((order.filter (hasPrefix · keyPrefix)).filterMap b.objects.lookup).take
        (maxKeys - objects.length).toNat := by
  induction order generalizing objects with
  | nil => simp [collectObjects]
  | cons key order ih =>
    have listed : (keyPrefix = "" ∨ hasPrefix key keyPrefix = true) ↔ hasPrefix key keyPrefix := by
      refine or_iff_right_of_imp ?_
      rintro rfl
      rfl
    simp only [collectObjects, pos, true_and, listed]
    split
    next full =>
      rw [show (maxKeys - objects.length).toNat = 0 by omega, take_zero, append_nil]
    next room =>
      split
      next matching =>
        rw [ih, filter_cons, if_pos matching]
        cases found : b.objects.lookup key with
        | none => simp [found]
        | some obj =>
          rw [show (maxKeys - objects.length).toNat =
            (maxKeys - (objects.length + 1)).toNat + 1 by omega]
          simp [found]
      next other =>
        rw [ih, filter_cons, if_neg other]

def photos : S3CompatibleStorage :=
  let s3 := (createBucket (newS3CompatibleStorage []) "photos").1
  let s3 := (putObject id s3 ⟨"photos", "a", [1], ∅, ⟨0, 0, 0⟩⟩).1
  (putObject id s3 ⟨"photos", "b", [2], ∅, ⟨1, 1, 1⟩⟩).1

end AsyncPractice.S3

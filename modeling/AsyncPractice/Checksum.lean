import Mathlib.Logic.Function.Basic

/- Byte strings and the hex text of their hash, which solution24_object_storage.go uses as
checksum and as content address. The hash itself is a parameter. -/
namespace AsyncPractice

abbrev Bytes := List UInt8

def hexDigits (byte : UInt8) : List Char :=
  [Nat.digitChar (byte.toNat / 16), Nat.digitChar (byte.toNat % 16)]

def hexEncode (data : Bytes) : String := String.ofList (data.flatMap hexDigits)

def calculateChecksum (sha256 : Bytes → Bytes) (data : Bytes) : String := hexEncode (sha256 data)

theorem hexDigits_injective : Function.Injective hexDigits := by
  have digits : ∀ a < 16, ∀ b < 16, Nat.digitChar a = Nat.digitChar b → a = b := by decide
  intro x y equal
  simp only [hexDigits, List.cons.injEq, and_true] at equal
  have low := x.toNat_lt
  have low' := y.toNat_lt
  have high := digits _ (by omega) _ (by omega) equal.1
  have rest := digits _ (Nat.mod_lt _ (by decide)) _ (Nat.mod_lt _ (by decide)) equal.2
  apply UInt8.toNat_inj.mp
  omega

theorem hexEncode_injective : Function.Injective hexEncode := by
  intro x y equal
  replace equal := String.ofList_injective equal
  induction x generalizing y with
  | nil =>
    cases y with
    | nil => rfl
    | cons byte y => simp [hexDigits] at equal
  | cons byte x ih =>
    cases y with
    | nil => simp [hexDigits] at equal
    | cons other y =>
      obtain ⟨head, tail⟩ := List.append_inj equal rfl
      rw [hexDigits_injective head, ih tail]

end AsyncPractice

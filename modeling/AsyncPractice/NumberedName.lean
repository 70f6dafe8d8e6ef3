import Mathlib.Data.List.Basic

/- Names made of a text, a separator and a decimal number, as Sprintf("%s_%d") makes them. -/
namespace AsyncPractice.NumberedName

open List

variable {α : Type} {as bs xs ys : List α} {sep : α}

/-- Two texts split at the last occurrence of a separator have equal parts. -/
theorem split_at_last (left : sep ∉ as) (right : sep ∉ bs)
    (eq : xs ++ sep :: as = ys ++ sep :: bs) : xs = ys ∧ as = bs := by
  rcases append_eq_append_iff.mp eq with ⟨gap, rfl, tail⟩ | ⟨gap, rfl, tail⟩
  all_goals cases gap with
    | nil => simp_all
    | cons x gap =>
      obtain ⟨-, rfl⟩ := cons.inj tail
      simp at left right

theorem split_at_first (left : sep ∉ xs) (right : sep ∉ ys)
    (eq : xs ++ sep :: as = ys ++ sep :: bs) : xs = ys ∧ as = bs := by
  have mirrored := congrArg reverse eq
  simp only [reverse_append, reverse_cons, append_assoc, singleton_append] at mirrored
  obtain ⟨tails, heads⟩ := split_at_last (by simpa using left) (by simpa using right) mirrored
  exact ⟨reverse_injective heads, reverse_injective tails⟩

theorem notMem_toString {sep} (separator : sep.isDigit = false) (n : Nat) :
    sep ∉ (toString n).toList := by
  intro mem
  rw [Nat.toString_eq_repr, Nat.toList_repr] at mem
  have digit := Nat.isDigit_of_mem_toDigits (by decide) (by decide) mem
  rw [separator] at digit
  cases digit

variable {n : Nat}

theorem toString_injective {k} (eq : toString n = toString k) : n = k := by
  have digits := congrArg String.toList eq
  simpa using congrArg (fun text => Nat.ofDigitChars 10 text 0) digits

theorem toString_int_injective {n k : Int} (eq : toString n = toString k) : n = k := by
  have sign : ∀ i j : Nat, toString (Int.ofNat i) ≠ toString (Int.negSucc j) := by
    intro i j equal
    have dash : '-' ∈ (toString (Int.negSucc j)).toList := by
      change '-' ∈ ("-" ++ toString (j + 1)).toList
      simp
    rw [← equal] at dash
    exact notMem_toString rfl i dash
  cases n with
  | ofNat i =>
    cases k with
    | ofNat j => exact congrArg Int.ofNat (toString_injective eq)
    | negSucc j => exact absurd eq (sign i j)
  | negSucc i =>
    cases k with
    | ofNat j => exact absurd eq.symm (sign j i)
    | negSucc j =>
      have digits := congrArg String.toList eq
      change ("-" ++ toString (i + 1)).toList = ("-" ++ toString (j + 1)).toList at digits
      rw [String.toList_append, String.toList_append] at digits
      have numbers := toString_injective (String.toList_inj.mp (append_cancel_left digits))
      rw [Nat.succ.inj numbers]

/-- The name determines the text and the number, whatever the text. -/
theorem numbered_injective (sep : Char) (separator : sep.isDigit = false) {text text' n'}
    (eq : text ++ String.ofList [sep] ++ toString n = text' ++ String.ofList [sep] ++ toString n') :
    text = text' ∧ n = n' := by
  have texts := congrArg String.toList eq
  simp only [String.toList_append, append_assoc, String.toList_ofList, singleton_append] at texts
  obtain ⟨ns, digits⟩ :=
    split_at_last (notMem_toString separator n) (notMem_toString separator n') texts
  exact ⟨String.toList_inj.mp ns, toString_injective (String.toList_inj.mp digits)⟩

end AsyncPractice.NumberedName

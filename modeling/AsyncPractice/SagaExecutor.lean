import Mathlib.Data.List.Range
import Mathlib.Tactic.NormNum

/- executeSaga and createOrderSaga of solution2_SagaPattern in challenge12_solution.go. The steps
work on a state they share; what a call of Execute or Compensate reads elsewhere, the clock say, is
an argument. -/
namespace AsyncPractice.SagaExecutor

open List

/-- What a run does to the shared state, with the position of the step. -/
inductive Action
  | execute (i : Nat)
  | compensate (i : Nat)
  deriving DecidableEq

structure SagaStep (σ ω : Type) where
  name : String
  execute : ω → σ → σ × Option String
  compensate : ω → σ → σ × Option String
  executed : Bool
  failed : Bool

/-- The saga's steps with their flags, the shared state, the error and the calls that were made. -/
structure Outcome (σ ω : Type) where
  steps : List (SagaStep σ ω)
  shared : σ
  err : Option String
  log : List Action

variable {σ ω : Type} (reading : Action → ω)

/-- The loop over the steps before the failing one, which come the last one first. The error of a
Compensate is only printed. -/
def compensateSteps : List (SagaStep σ ω) → σ → σ × List Action
  | [], shared => (shared, [])
  | step :: earlier, shared =>
    if step.executed then
      let undo := Action.compensate earlier.length
      let rest := compensateSteps earlier (step.compensate (reading undo) shared).1
      (rest.1, undo :: rest.2)
    else compensateSteps earlier shared

/-- The loop over the steps. Those it has passed come the last one first. -/
def executeSteps (passed : List (SagaStep σ ω)) : List (SagaStep σ ω) → σ → Outcome σ ω
  | [], shared => ⟨passed.reverse, shared, none, []⟩
  | step :: rest, shared =>
    let run := Action.execute passed.length
    match step.execute (reading run) shared with
    | (shared, some err) =>
      let undone := compensateSteps reading passed shared
      ⟨passed.reverse ++ { step with failed := true } :: rest, undone.1, some err, run :: undone.2⟩
    | (shared, none) =>
      let outcome := executeSteps ({ step with executed := true } :: passed) rest shared
      { outcome with log := run :: outcome.log }

def executeSaga (steps : List (SagaStep σ ω)) (shared : σ) : Outcome σ ω :=
  executeSteps reading [] steps shared

/-- A failing Execute changes nothing, and Compensate takes a successful one back. -/
structure SagaStep.Undoable (step : SagaStep σ ω) : Prop where
  fails : ∀ reading shared err, (step.execute reading shared).2 = some err →
    (step.execute reading shared).1 = shared
  undoes : ∀ reading again shared, (step.execute reading shared).2 = none →
    step.compensate again (step.execute reading shared).1 = (shared, none)

variable {rd : Action → ω} {ok rest : List (SagaStep σ ω)} {shared start : σ}

/-- The steps have brought the state from `start` to where it is, and each can be taken back. -/
inductive Brought (start : σ) : List (SagaStep σ ω) → σ → Prop
  | start : Brought start [] start
  | step {step : SagaStep σ ω} {earlier : List (SagaStep σ ω)} {before shared : σ}
      (way : Brought start earlier before) (executed : step.executed = true)
      (undoes : ∀ reading, step.compensate reading shared = (before, none)) :
      Brought start (step :: earlier) shared

theorem compensateSteps_eq (way : Brought start ok shared) :
    compensateSteps rd ok shared = (start, (List.range ok.length).reverse.map .compensate) := by
  induction way with
  | start => rfl
  | step way ran undoes ih =>
    rw [compensateSteps, if_pos ran]
    dsimp only
    rw [undoes, ih, length_cons, range_succ, reverse_append]
    rfl

theorem executeSteps_failed (way : Brought start ok shared)
    (undoable : ∀ step ∈ rest, step.Undoable) {err}
    (failed : (executeSteps rd ok rest shared).err = some err) :
    ∃ k < rest.length, (executeSteps rd ok rest shared).log =
        (List.range' ok.length (k + 1)).map .execute ++
          (List.range (ok.length + k)).reverse.map .compensate ∧
      (executeSteps rd ok rest shared).shared = start := by
  induction rest generalizing ok shared with
  | nil => cases failed
  | cons step rest ih =>
    obtain ⟨fails, undoes⟩ := undoable step mem_cons_self
    specialize fails (rd (.execute ok.length)) shared
    specialize undoes (rd (.execute ok.length))
    unfold executeSteps at failed ⊢
    dsimp only at failed ⊢
    split at failed
    · -- This step fails, and those before it are taken back.
      rename_i now err' ran
      rw [ran] at fails
      obtain rfl : now = shared := fails err' rfl
      rw [compensateSteps_eq way]
      exact ⟨0, Nat.succ_pos _, rfl, rfl⟩
    next now ran =>
      have back : ∀ again, step.compensate again now = (shared, none) := by
        intro again
        have undone := undoes again shared (by rw [ran])
        rwa [ran] at undone
      have further : Brought start ({ step with executed := true } :: ok) now :=
        .step way rfl back
      obtain ⟨k, lt, log, restored⟩ := ih further
        (fun other mem => undoable other (mem_cons_of_mem _ mem)) failed
      refine ⟨k + 1, Nat.succ_lt_succ lt, ?_, restored⟩
      dsimp only
      rw [log, length_cons, Nat.add_right_comm]
      rfl

/-- Whatever flags earlier runs have left: a run that returns an error has executed the steps up to
one that failed, has compensated each step before that one once, in reverse order, and leaves the
shared state as it was. -/
theorem failed_saga_restores (steps : List (SagaStep σ ω))
    (undoable : ∀ step ∈ steps, step.Undoable) (reading : Action → ω) (shared : σ) {err : String}
    (failed : (executeSaga reading steps shared).err = some err) :
    ∃ i < steps.length,
      (executeSaga reading steps shared).log =
        (List.range (i + 1)).map .execute ++ (List.range i).reverse.map .compensate ∧
      (executeSaga reading steps shared).shared = shared := by
  obtain ⟨i, inside, log, restored⟩ := executeSteps_failed .start undoable failed
  rw [length_nil, Nat.zero_add, ← range_eq_range'] at log
  exact ⟨i, inside, log, restored⟩

/-- A step that adds to a counter, up to what it may hold. -/
def adding (amount limit : Int) (executed : Bool) : SagaStep Int Unit where
  name := "add"
  execute _ n := if n + amount ≤ limit then (n + amount, none) else (n, some "full")
  compensate _ n := (n - amount, none)
  executed := executed
  failed := false

theorem adding_undoable (amount limit executed) : (adding amount limit executed).Undoable := by
  constructor
  · intro _ n err failed
    dsimp only [adding] at failed ⊢
    split at failed
    · cases failed
    next full =>
      rw [if_neg full]
  · intro _ _ n added
    dsimp only [adding] at added ⊢
    split at added
    next room =>
      rw [if_pos room, Int.add_sub_cancel]
    · cases added

/-- The third step finds no room, in a saga of which an earlier run has come further. -/
theorem third_step_fails :
    let steps := [adding 1 9 true, adding 2 9 true, adding 3 9 true]
    (executeSaga (fun _ => ()) steps 5).log =
        [.execute 0, .execute 1, .execute 2, .compensate 1, .compensate 0] ∧
      ∃ i < steps.length, (executeSaga (fun _ => ()) steps 5).log =
          (List.range (i + 1)).map .execute ++ (List.range i).reverse.map .compensate ∧
        (executeSaga (fun _ => ()) steps 5).shared = 5 := by
  refine ⟨by decide, failed_saga_restores _ ?_ _ 5 (by decide : _ = some "full")⟩
  simp only [forall_mem_cons, adding_undoable, true_and]
  exact nofun

structure Shop where
  inventory : Int32
  balance : Int32
  deriving DecidableEq

/-- The delivery depends on what UnixNano reads. -/
def createOrderSaga (quantity price : Int32) : List (SagaStep Shop Int) :=
  [{  name := "在庫予約"
      execute _ shop :=
        if shop.inventory < quantity then
          (shop, some ("在庫不足: " ++ toString shop.inventory ++ " < " ++ toString quantity))
        else ({ shop with inventory := shop.inventory + -quantity }, none)
      compensate _ shop := ({ shop with inventory := shop.inventory + quantity }, none)
      executed := false
      failed := false },
    { name := "支払い処理"
      execute _ shop :=
        let total := quantity * price
        if shop.balance < total then
          (shop, some ("残高不足: " ++ toString shop.balance ++ " < " ++ toString total))
        else ({ shop with balance := shop.balance + -total }, none)
      compensate _ shop := ({ shop with balance := shop.balance + quantity * price }, none)
      executed := false
      failed := false },
    { name := "配送手配"
      execute nanos shop :=
        (shop, if nanos.tmod 2 = 0 then some "配送サービス一時的に利用不可" else none)
      compensate _ shop := (shop, none)
      executed := false
      failed := false }]

def order (clock : Action → Int) (quantity price : Int32) (shop : Shop) : Outcome Shop Int :=
  executeSaga clock (createOrderSaga quantity price) shop

theorem order_succeeded {clock quantity price shop}
    (succeeded : (order clock quantity price shop).err = none) :
    quantity ≤ shop.inventory ∧ quantity * price ≤ shop.balance ∧
      (order clock quantity price shop).shared =
        ⟨shop.inventory - quantity, shop.balance - quantity * price⟩ := by
  simp only [order, executeSaga, createOrderSaga, executeSteps, Int32.sub_eq_add_neg] at succeeded ⊢
  by_cases stock : shop.inventory < quantity
  · simp [stock] at succeeded
  by_cases funds : shop.balance < quantity * price
  · simp [stock, funds] at succeeded
  refine ⟨Int32.not_lt.mp stock, Int32.not_lt.mp funds, ?_⟩
  by_cases nanos : (clock (.execute 2)).tmod 2 = 0
  · simp [stock, funds, nanos] at succeeded
  · simp [stock, funds, nanos]

theorem toInt_sub {a b : Int32} (pos : 0 ≤ b.toInt) (le : b ≤ a) :
    (a - b).toInt = a.toInt - b.toInt ∧ 0 ≤ (a - b).toInt := by
  have high := a.toInt_lt
  have small := Int32.le_iff_toInt_le.mp le
  have exact : (a - b).toInt = a.toInt - b.toInt := by
    rw [Int32.toInt_sub]
    apply Int.bmod_eq_of_le <;> norm_num at * <;> omega
  exact ⟨exact, by omega⟩

/-- An order that goes through costs the product of quantity and price, and leaves nothing negative,
exactly when the product fits into an int32. -/
theorem order_charged_iff {clock : Action → Int} {quantity price : Int32} {shop : Shop}
    (ordered : 0 < quantity.toInt) (priced : 0 < price.toInt)
    (succeeded : (order clock quantity price shop).err = none) :
    ((order clock quantity price shop).shared.balance.toInt =
          shop.balance.toInt - quantity.toInt * price.toInt ∧
        0 ≤ (order clock quantity price shop).shared.balance.toInt ∧
        (order clock quantity price shop).shared.inventory.toInt =
          shop.inventory.toInt - quantity.toInt ∧
        0 ≤ (order clock quantity price shop).shared.inventory.toInt) ↔
      quantity.toInt * price.toInt < 2 ^ 31 := by
  obtain ⟨enough, paid, left⟩ := order_succeeded succeeded
  rw [left]
  constructor
  · rintro ⟨balance, pos, -⟩
    have high := shop.balance.toInt_lt
    omega
  · intro small
    have product : 0 ≤ quantity.toInt * price.toInt := by positivity
    have total : (quantity * price).toInt = quantity.toInt * price.toInt := by
      rw [Int32.toInt_mul]
      apply Int.bmod_eq_of_le <;> norm_num at * <;> omega
    rw [← total]
    exact and_assoc.mp ⟨toInt_sub (by omega) paid, toInt_sub (by omega) enough⟩

theorem order_charged_three :
    (order (fun _ => 1) 3 200 ⟨10, 1000⟩).shared.balance.toInt = 1000 - 3 * 200 ∧
      (order (fun _ => 1) 3 200 ⟨10, 1000⟩).shared.inventory.toInt = 10 - 3 := by
  obtain ⟨balance, -, inventory, -⟩ := (order_charged_iff (by decide) (by decide)
    (by decide : (order (fun _ => 1) 3 200 ⟨10, 1000⟩).err = none)).mpr (by decide)
  exact ⟨balance, inventory⟩

/-- The price of 65536 pieces at 65536 is 0. -/
theorem order_overflows :
    (order (fun _ => 1) 65536 65536 ⟨65536, 1000⟩).err = none ∧
      (order (fun _ => 1) 65536 65536 ⟨65536, 1000⟩).shared = ⟨0, 1000⟩ := by
  decide

end AsyncPractice.SagaExecutor

import Mathlib.Algebra.GroupWithZero.Nat
import AsyncPractice.LastWrite
import AsyncPractice.Runs

/- publishEvent and updateProjections of solution2_ProjectionSeparation in challenge13_solution.go.
Every publication starts a goroutine that updates the read model; the goroutines run in any order,
each under the lock of the read model from beginning to end. -/
namespace AsyncPractice.OrderProjections

open List
open LastWrite (foldl_last last)
open Runs (exec exec_invariant)

/-- The types that updateProjections knows, and any other text. -/
inductive EventType
  | orderCreated
  | itemAdded
  | orderShipped
  | other (name : String)
  deriving DecidableEq

/-- What an interface{} of the data holds, as far as updateProjections looks at it. -/
inductive Value (A : Type)
  | number (amount : A)
  | text (s : String)
  | other

/-- Instants are counted from the zero time.Time. -/
structure OrderEvent (A : Type) where
  orderID : String
  type : EventType
  timestamp : Int
  data : GoMap String (Value A)

/-- The text of the field, which starts empty. -/
inductive Status
  | empty
  | created
  | shipped
  deriving DecidableEq

structure OrderSummary (A : Type) where
  orderID : String
  status : Status
  totalAmount : A
  itemCount : Nat
  lastUpdated : Int

structure CustomerView (A : Type) where
  customerID : String
  orderCount : Nat
  totalSpent : A
  lastOrderDate : Int

structure ReadModel (A : Type) where
  orderSummary : GoMap String (OrderSummary A)
  customerView : GoMap String (CustomerView A)

variable {A : Type}

def OrderEvent.amount (event : OrderEvent A) : Option A :=
  match event.data.lookup "amount" with
  | some (.number amount) => some amount
  | _ => none

def OrderEvent.customerID (event : OrderEvent A) : Option String :=
  match event.data.lookup "customer_id" with
  | some (.text customerID) => some customerID
  | _ => none

variable [Zero A] [Add A]

def updateSummary (summary : OrderSummary A) (event : OrderEvent A) : OrderSummary A :=
  match event.type with
  | .orderCreated => { summary with status := .created, lastUpdated := event.timestamp }
  | .itemAdded =>
    { summary with
      itemCount := summary.itemCount + 1
      totalAmount := match event.amount with
        | some amount => summary.totalAmount + amount
        | none => summary.totalAmount
      lastUpdated := event.timestamp }
  | .orderShipped => { summary with status := .shipped, lastUpdated := event.timestamp }
  | .other _ => summary

def updateView (view : CustomerView A) (event : OrderEvent A) : CustomerView A :=
  let view := if event.type = .orderCreated then
      { view with orderCount := view.orderCount + 1, lastOrderDate := event.timestamp }
    else view
  match event.amount with
  | some amount => { view with totalSpent := view.totalSpent + amount }
  | none => view

def newSummary (orderID : String) : OrderSummary A := ⟨orderID, .empty, 0, 0, 0⟩

def newView (customerID : String) : CustomerView A := ⟨customerID, 0, 0, 0⟩

def updateProjections (model : ReadModel A) (event : OrderEvent A) : ReadModel A where
  orderSummary := model.orderSummary.insert event.orderID <|
    updateSummary ((model.orderSummary.lookup event.orderID).getD (newSummary event.orderID)) event
  customerView :=
    match event.customerID with
    | some customerID => model.customerView.insert customerID
        (updateView ((model.customerView.lookup customerID).getD (newView customerID)) event)
    | none => model.customerView

/-- `pending` are the goroutines that have not run yet; `applied` lists the events of those that
have, and only observes. -/
structure State (A : Type) where
  events : List (OrderEvent A)
  readModel : ReadModel A
  pending : List (OrderEvent A)
  applied : List (OrderEvent A)

def emptyModel : ReadModel A := ⟨∅, ∅⟩

def start : State A := ⟨[], emptyModel, [], []⟩

inductive Event (A : Type)
  | publish (event : OrderEvent A)
  | update (i : Nat)

def publishEvent (s : State A) (event : OrderEvent A) : State A :=
  { s with events := s.events ++ [event], pending := s.pending ++ [event] }

def step (s : State A) : Event A → Option (State A)
  | .publish event => some (publishEvent s event)
  | .update i => s.pending[i]?.map fun event =>
    { s with
      readModel := updateProjections s.readModel event
      pending := s.pending.eraseIdx i
      applied := s.applied ++ [event] }

def project (events : List (OrderEvent A)) : ReadModel A :=
  events.foldl updateProjections emptyModel

def OrderSummary.shown (summary : OrderSummary A) : Status × Nat × Int :=
  (summary.status, summary.itemCount, summary.lastUpdated)

def CustomerView.shown (view : CustomerView A) : Nat × Int := (view.orderCount, view.lastOrderDate)

/-- The same orders and customers with the same fields, the amounts apart. -/
structure Agrees (model other : ReadModel A) : Prop where
  orders : ∀ orderID, (model.orderSummary.lookup orderID).map OrderSummary.shown =
    (other.orderSummary.lookup orderID).map OrderSummary.shown
  customers : ∀ customerID, (model.customerView.lookup customerID).map CustomerView.shown =
    (other.customerView.lookup customerID).map CustomerView.shown

def statusOf (orderID : String) (event : OrderEvent A) : Option Status :=
  if event.orderID = orderID then
    match event.type with
    | .orderCreated => some .created
    | .orderShipped => some .shipped
    | _ => none
  else none

def updateOf (orderID : String) (event : OrderEvent A) : Option Int :=
  if event.orderID = orderID then
    match event.type with
    | .other _ => none
    | _ => some event.timestamp
  else none

def orderDateOf (customerID : String) (event : OrderEvent A) : Option Int :=
  if event.customerID = some customerID ∧ event.type = .orderCreated then some event.timestamp
  else none

def countsItem (orderID : String) (event : OrderEvent A) : Bool :=
  event.orderID = orderID ∧ event.type = .itemAdded

def countsOrder (customerID : String) (event : OrderEvent A) : Bool :=
  event.customerID = some customerID ∧ event.type = .orderCreated

/-- In either order, what is written last is the same. -/
structure SameLast (events other : List (OrderEvent A)) : Prop where
  status : ∀ orderID, last (statusOf orderID) events = last (statusOf orderID) other
  updated : ∀ orderID, last (updateOf orderID) events = last (updateOf orderID) other
  ordered : ∀ customerID, last (orderDateOf customerID) events = last (orderDateOf customerID) other

section

variable (model : ReadModel A) (e : OrderEvent A) (es : List (OrderEvent A)) (id cust : String)

theorem lookup_orderSummary : (updateProjections model e).orderSummary.lookup id =
    if id = e.orderID then
      some (updateSummary ((model.orderSummary.lookup id).getD (newSummary id)) e)
    else model.orderSummary.lookup id := by
  unfold updateProjections
  rw [GoMap.lookup_insert_ite]
  split
  next eq =>
    rw [eq]
  · rfl

theorem lookup_customerView : (updateProjections model e).customerView.lookup cust =
    if e.customerID = some cust then
      some (updateView ((model.customerView.lookup cust).getD (newView cust)) e)
    else model.customerView.lookup cust := by
  unfold updateProjections
  cases found : e.customerID with
  | none => simp
  | some x =>
    rw [GoMap.lookup_insert_ite]
    by_cases same : cust = x
    · rw [if_pos same, same, if_pos rfl]
    · rw [if_neg same, if_neg fun equal => same (Option.some.inj equal).symm]

def summaryOf (model : ReadModel A) (orderID : String) : OrderSummary A :=
  (model.orderSummary.lookup orderID).getD (newSummary orderID)

def viewOf (model : ReadModel A) (customerID : String) : CustomerView A :=
  (model.customerView.lookup customerID).getD (newView customerID)

theorem summaryOf_update : summaryOf (updateProjections model e) id =
    if e.orderID = id then updateSummary (summaryOf model id) e
    else summaryOf model id := by
  unfold summaryOf
  rw [lookup_orderSummary]
  by_cases same : id = e.orderID
  · rw [if_pos same, if_pos same.symm]
    rfl
  · rw [if_neg same, if_neg (Ne.symm same)]

theorem viewOf_update : viewOf (updateProjections model e) cust =
    if e.customerID = some cust then updateView (viewOf model cust) e
    else viewOf model cust := by
  unfold viewOf
  rw [lookup_customerView]
  split <;> rfl

omit id cust in
theorem project_snoc : project (es ++ [e]) = updateProjections (project es) e :=
  foldl_concat ..

theorem status_project :
    (summaryOf (project es) id).status = (last (statusOf id) es).getD .empty := by
  refine foldl_last (statusOf id) (fun model => (summaryOf model id).status) ?_ emptyModel es
  intro model e
  rw [summaryOf_update, statusOf]
  split
  · unfold updateSummary
    cases e.type <;> rfl
  · rfl

theorem lastUpdated_project :
    (summaryOf (project es) id).lastUpdated = (last (updateOf id) es).getD 0 := by
  refine foldl_last (updateOf id) (fun model => (summaryOf model id).lastUpdated) ?_ emptyModel es
  intro model e
  rw [summaryOf_update, updateOf]
  split
  · unfold updateSummary
    cases e.type <;> rfl
  · rfl

theorem lastOrderDate_project :
    (viewOf (project es) cust).lastOrderDate = (last (orderDateOf cust) es).getD 0 := by
  refine foldl_last (orderDateOf cust) (fun model => (viewOf model cust).lastOrderDate)
    ?_ emptyModel es
  intro model e
  rw [viewOf_update, orderDateOf]
  by_cases own : e.customerID = some cust
  · unfold updateView
    by_cases created : e.type = .orderCreated
    · cases e.amount <;> simp [own, created]
    · cases e.amount <;> simp [own, created]
  · simp [own]

theorem itemCount_project :
    (summaryOf (project es) id).itemCount = es.countP (countsItem id) := by
  induction es using reverseRecOn with
  | nil => rfl
  | append_singleton es e ih =>
    rw [project_snoc, summaryOf_update, countP_append, countP_singleton, ← ih]
    by_cases own : e.orderID = id
    · unfold updateSummary
      cases type : e.type <;> simp [countsItem, own, type]
    · simp [countsItem, own]

theorem orderCount_project :
    (viewOf (project es) cust).orderCount = es.countP (countsOrder cust) := by
  induction es using reverseRecOn with
  | nil => rfl
  | append_singleton es e ih =>
    rw [project_snoc, viewOf_update, countP_append, countP_singleton, ← ih]
    by_cases own : e.customerID = some cust
    · unfold updateView
      by_cases created : e.type = .orderCreated
      · cases e.amount <;> simp [countsOrder, own, created]
      · cases e.amount <;> simp [countsOrder, own, created]
    · simp [countsOrder, own]

theorem order_known : ((project es).orderSummary.lookup id).isSome = true ↔
    ∃ e ∈ es, e.orderID = id := by
  induction es using reverseRecOn with
  | nil => simp [project, emptyModel]
  | append_singleton es e ih =>
    rw [project_snoc, lookup_orderSummary]
    by_cases same : id = e.orderID
    · simp [same]
    · rw [if_neg same, ih]
      simp [Ne.symm same]

theorem customer_known : ((project es).customerView.lookup cust).isSome = true ↔
    ∃ e ∈ es, e.customerID = some cust := by
  induction es using reverseRecOn with
  | nil => simp [project, emptyModel]
  | append_singleton es e ih =>
    rw [project_snoc, lookup_customerView]
    by_cases same : e.customerID = some cust
    · simp [same]
    · rw [if_neg same, ih]
      simp [same]

end

variable {es x : List (OrderEvent A)}

/-- Values that are present or absent together can be compared with a default for the absent. -/
theorem getD_eq_iff {W : Type} {x y : Option W} (eq : x.isSome = y.isSome) (default) :
    x.getD default = y.getD default ↔ x = y := by
  cases x <;> cases y <;> simp at eq <;> simp

theorem map_eq_iff {V W : Type} {x y : Option V} (eq : x.isSome = y.isSome) (default) (f : V → W) :
    x.map f = y.map f ↔ f (x.getD default) = f (y.getD default) := by
  cases x <;> cases y <;> simp at eq <;> simp

theorem orders_agree_iff (eq : es.Perm x) (id) :
    ((project es).orderSummary.lookup id).map OrderSummary.shown =
        ((project x).orderSummary.lookup id).map OrderSummary.shown ↔
      last (statusOf id) es = last (statusOf id) x ∧
        last (updateOf id) es = last (updateOf id) x := by
  have known : ((project es).orderSummary.lookup id).isSome =
      ((project x).orderSummary.lookup id).isSome := by
    rw [Bool.eq_iff_iff, order_known, order_known]
    simp only [eq.mem_iff]
  have cnt : (summaryOf (project es) id).itemCount = (summaryOf (project x) id).itemCount := by
    rw [itemCount_project, itemCount_project, eq.countP_eq]
  rw [map_eq_iff known (newSummary id)]
  change (summaryOf _ _).shown = (summaryOf _ _).shown ↔ _
  unfold OrderSummary.shown
  rw [Prod.mk.injEq, Prod.mk.injEq, cnt, status_project, status_project, lastUpdated_project,
    lastUpdated_project, getD_eq_iff (LastWrite.last_isSome_of_perm _ eq),
    getD_eq_iff (LastWrite.last_isSome_of_perm _ eq)]
  exact and_congr_right fun _ => and_iff_right rfl

theorem customers_agree_iff (eq : es.Perm x) (cust) :
    ((project es).customerView.lookup cust).map CustomerView.shown =
        ((project x).customerView.lookup cust).map CustomerView.shown ↔
      last (orderDateOf cust) es = last (orderDateOf cust) x := by
  have known : ((project es).customerView.lookup cust).isSome =
      ((project x).customerView.lookup cust).isSome := by
    rw [Bool.eq_iff_iff, customer_known, customer_known]
    simp only [eq.mem_iff]
  have cnt : (viewOf (project es) cust).orderCount = (viewOf (project x) cust).orderCount := by
    rw [orderCount_project, orderCount_project, eq.countP_eq]
  rw [map_eq_iff known (newView cust)]
  change (viewOf _ _).shown = (viewOf _ _).shown ↔ _
  unfold CustomerView.shown
  rw [Prod.mk.injEq, cnt, lastOrderDate_project, lastOrderDate_project,
    getD_eq_iff (LastWrite.last_isSome_of_perm _ eq)]
  exact and_iff_right rfl

theorem agrees_iff (eq : es.Perm x) :
    Agrees (project es) (project x) ↔ SameLast es x := by
  constructor
  · intro inv
    refine ⟨fun id => ?_, fun id => ?_, fun cust => ?_⟩
    · exact ((orders_agree_iff eq id).mp (inv.orders id)).1
    · exact ((orders_agree_iff eq id).mp (inv.orders id)).2
    · exact (customers_agree_iff eq cust).mp (inv.customers cust)
  · intro lasts
    refine ⟨fun id => ?_, fun cust => ?_⟩
    · exact (orders_agree_iff eq id).mpr ⟨lasts.status id, lasts.updated id⟩
    · exact (customers_agree_iff eq cust).mpr (lasts.ordered cust)

structure Projected (s : State A) : Prop where
  model : s.readModel = project s.applied
  started : (s.applied ++ s.pending).Perm s.events

theorem start_projected : Projected (start : State A) := ⟨rfl, List.Perm.nil⟩

theorem Projected.step {s t : State A} (projected : Projected s) {e : Event A}
    (took : step s e = some t) : Projected t := by
  cases e with
  | publish e =>
    cases took
    refine ⟨projected.model, ?_⟩
    unfold publishEvent
    dsimp only
    rw [← append_assoc]
    exact projected.started.append_right [e]
  | update i =>
    obtain ⟨e, here, rfl⟩ := Option.map_eq_some_iff.mp took
    obtain ⟨lt, hit⟩ := List.getElem?_eq_some_iff.mp here
    refine ⟨?_, ?_⟩
    · dsimp only
      rw [project_snoc, projected.model]
    · have moved : (e :: s.pending.eraseIdx i).Perm s.pending := by
        rw [← hit]
        exact getElem_cons_eraseIdx_perm lt
      rw [append_assoc]
      exact (moved.append_left s.applied).trans projected.started

theorem projections_agree_iff {steps : List (Event A)} {final : State A}
    (run : exec step start steps = some final) (settled : final.pending = []) :
    Agrees final.readModel (project final.events) ↔ SameLast final.applied final.events := by
  have projected : Projected final :=
    exec_invariant Projected start_projected (fun _ _ _ held stepped => held.step stepped) run
  have same := projected.started
  rw [settled, append_nil] at same
  rw [projected.model]
  exact agrees_iff same

def created (orderID customerID : String) (timestamp : Int) : OrderEvent Nat :=
  ⟨orderID, .orderCreated, timestamp, (∅ : GoMap String (Value Nat)).insert "customer_id"
    (.text customerID)⟩

def shipped (orderID : String) (timestamp : Int) : OrderEvent Nat :=
  ⟨orderID, .orderShipped, timestamp, ∅⟩

/-- Events of different orders and customers may change places. -/
theorem other_order_first :
    let first := created "a" "alice" 1
    let second := created "b" "bob" 2
    let final : State Nat := ⟨[first, second], project [second, first], [], [second, first]⟩
    exec step start [.publish first, .publish second, .update 1, .update 0] = some final ∧
      Agrees final.readModel (project final.events) := by
  intro first second final
  have run : exec step start [.publish first, .publish second, .update 1, .update 0] =
      some final := rfl
  refine ⟨run, (projections_agree_iff run rfl).mpr ⟨?_, ?_, ?_⟩⟩
  · intro orderID
    by_cases own : "a" = orderID
    · subst own
      decide
    · simp [last, statusOf, final, first, second, created, own]
  · intro orderID
    by_cases own : "a" = orderID
    · subst own
      decide
    · simp [last, updateOf, final, first, second, created, own]
  · intro customerID
    have names : first.customerID = some "alice" ∧ second.customerID = some "bob" := by decide
    by_cases own : "alice" = customerID
    · subst own
      simp [last, orderDateOf, final, names]
    · simp [last, orderDateOf, final, names, own]

/-- An order is shipped before it is created in the read model. -/
theorem created_after_shipped :
    let first := created "a" "alice" 1
    let second := shipped "a" 2
    let final : State Nat := ⟨[first, second], project [second, first], [], [second, first]⟩
    exec step start [.publish first, .publish second, .update 1, .update 0] = some final ∧
      (final.readModel.orderSummary.lookup "a").map OrderSummary.shown = some (.created, 0, 1) ∧
      ((project final.events).orderSummary.lookup "a").map OrderSummary.shown =
        some (.shipped, 0, 2) := by
  intro first second final
  exact ⟨rfl, by decide, by decide⟩

end AsyncPractice.OrderProjections

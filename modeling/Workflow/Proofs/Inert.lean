import Workflow.Proofs.Lawful

/-!
# Inert actions

An action is inert if the world is afterwards as it was, up to the effects that are granted to it,
whether it ends with a value or with a fault (`Action.Inert`).  The combinators have no effects of
their own, so what they do is inert if the functions that they call are.  Which functions those
are is not known in advance: they come out of the values that are passed about.  So a predicate is
carried along on values: a value is tame if every function in it is one of the library's, other
than an executor, or has code for which the caller vouches (`Value.Tame`).

A host is tame if such code is inert as long as the functions that it calls are (`Host.Tame`).
Then every call of a tame function on tame values is inert and gives tame values
(`Host.Tame.dispatch`).
-/

namespace Workflow

variable {κ β σ α γ : Type}

/-! ## Tame values -/

/-- What a caller vouches for. -/
structure Terms (κ : Type) where
  /-- The code that asks no backend and calls no executor and no driver. -/
  codes : κ → Prop
  /-- Whether there is only such code in the continuations of operations too.  Otherwise they may
  be any values at all. -/
  continuations : Prop

mutual

/-- The functions in the value are vouched for, except perhaps in continuations. -/
inductive Value.Tame (t : Terms κ) : Value κ → Prop
  | null : Value.Tame t .null
  | bool (b : Bool) : Value.Tame t (.bool b)
  | int (n : Int) : Value.Tame t (.int n)
  | float (digits : String) : Value.Tame t (.float digits)
  | text (s : String) : Value.Tame t (.text s)
  | bytes (content : List UInt8) : Value.Tame t (.bytes content)
  | list {items : List (Value κ)} :
      (∀ item ∈ items, Value.Tame t item) → Value.Tame t (.list items)
  | tuple {items : List (Value κ)} :
      (∀ item ∈ items, Value.Tame t item) → Value.Tame t (.tuple items)
  | dict {members : List (String × Value κ)} :
      (∀ member ∈ members, Value.Tame t member.2) → Value.Tame t (.dict members)
  | fn {f : Callable κ} : Callable.Tame t f → Value.Tame t (.fn f)
  | terminal {value : Value κ} : Value.Tame t value → Value.Tame t (.terminal value)
  | pending {waiting : Value κ} : Value.Tame t waiting → Value.Tame t (.pending waiting)
  | query {program : Value κ} : Value.Tame t program → Value.Tame t (.query program)
  | operation {request : Request (Value κ)} {next : Value κ} :
      (∀ operand ∈ request.operands, Value.Tame t operand) →
      (t.continuations → Value.Tame t next) → Value.Tame t (.operation ⟨request, next⟩)

/-- The function is vouched for, and so are the values that it has captured. -/
inductive Callable.Tame (t : Terms κ) : Callable κ → Prop
  | callback {code : κ} {captured : Scope κ} :
      t.codes code → (∀ member ∈ captured, Value.Tame t member.2) →
      Callable.Tame t (.callback code captured)
  | routine {code : κ} {captured : Scope κ} :
      t.codes code → (∀ member ∈ captured, Value.Tame t member.2) →
      Callable.Tame t (.routine code captured)
  | resumeRest {code : κ} {captured : Scope κ} {arguments received : List (Value κ)} :
      t.codes code → (∀ member ∈ captured, Value.Tame t member.2) →
      (∀ argument ∈ arguments, Value.Tame t argument) →
      (∀ value ∈ received, Value.Tame t value) →
      Callable.Tame t (.resumeRest code captured arguments received)
  | finish : Callable.Tame t .finish
  | asProgram : Callable.Tame t .asProgram
  | always {value : Value κ} : Value.Tame t value → Callable.Tame t (.always value)
  | misfit : Callable.Tame t .misfit
  | pairWith {first : Value κ} : Value.Tame t first → Callable.Tame t (.pairWith first)
  | compose {outer inner : Value κ} :
      Value.Tame t outer → Value.Tame t inner → Callable.Tame t (.compose outer inner)
  | mapRest {f : Value κ} : Value.Tame t f → Callable.Tame t (.mapRest f)
  | thenRest {f : Value κ} : Value.Tame t f → Callable.Tame t (.thenRest f)
  | pairRest {second : Value κ} : Value.Tame t second → Callable.Tame t (.pairRest second)
  | sequenceRest {remaining results : List (Value κ)} :
      (∀ program ∈ remaining, Value.Tame t program) →
      (∀ result ∈ results, Value.Tame t result) →
      Callable.Tame t (.sequenceRest remaining results)

end

/-- The named values are tame. -/
def Scope.Tame (t : Terms κ) (scope : Scope κ) : Prop :=
  ∀ member ∈ scope, member.2.Tame t

/-- The value that a fault was raised over, for those that carry one. -/
def Fault.carried? : Fault κ → Option (Value κ)
  | .invalidProgram value | .unknownOperation value | .notCallable value | .notIterable value
  | .missingMember value _ | .notRoutine value | .missingKey value => some value
  | .raised _ _ | .escapedStop _ | .ignoredExit | .wrongArity | .unbound _ | .badOperand _ => none

/-- Whoever handles the fault is given tame values only. -/
def Fault.Tame (t : Terms κ) (cause : Fault κ) : Prop :=
  ∀ value, cause.carried? = some value → value.Tame t

variable {t : Terms κ}

namespace Value

variable {items : List (Value κ)} {members : Scope κ} {v : Value κ}

@[simp] theorem tame_list : (Value.list items).Tame t ↔ ∀ item ∈ items, item.Tame t :=
  ⟨fun h => by cases h; assumption, .list⟩

@[simp] theorem tame_tuple : (Value.tuple items).Tame t ↔ ∀ item ∈ items, item.Tame t :=
  ⟨fun h => by cases h; assumption, .tuple⟩

@[simp] theorem tame_dict : (Value.dict members).Tame t ↔ members.Tame t :=
  ⟨fun h => by cases h; assumption, .dict⟩

@[simp] theorem tame_pending : v.pending.Tame t ↔ v.Tame t :=
  ⟨fun h => by cases h; assumption, .pending⟩

@[simp] theorem tame_query : v.query.Tame t ↔ v.Tame t :=
  ⟨fun h => by cases h; assumption, .query⟩

@[simp] theorem tame_operation {op : Operation (Value κ)} :
    (Value.operation op).Tame t ↔
      (∀ operand ∈ op.request.operands, operand.Tame t) ∧ (t.continuations → op.next.Tame t) :=
  ⟨fun h => by cases h with | operation hoperands hnext => exact ⟨hoperands, hnext⟩,
    fun h => .operation h.1 h.2⟩

end Value

namespace Scope

variable {name : String} {value : Value κ}

theorem Tame.get {scope : Scope κ} (h : scope.Tame t) (hvalue : scope.get? name = some value) :
    value.Tame t := by
  rcases Option.map_eq_some_iff.1 hvalue with ⟨member, hfound, rfl⟩
  exact h member (List.mem_of_find?_eq_some hfound)

theorem Tame.set (hvalue : value.Tame t) :
    ∀ {scope : Scope κ}, scope.Tame t → (scope.set name value).Tame t
  | [], _ => List.forall_mem_singleton.2 hvalue
  | (key, other) :: rest, h => by
      rcases List.forall_mem_cons.1 h with ⟨hother, hrest⟩
      unfold Scope.set
      split
      · exact List.forall_mem_cons.2 ⟨hvalue, hrest⟩
      · exact List.forall_mem_cons.2 ⟨hother, Tame.set hvalue hrest⟩

end Scope

namespace Fault

theorem tame_of_carried {cause : Fault κ} {value : Value κ} (h : cause.carried? = some value)
    (hvalue : value.Tame t) : cause.Tame t := by
  intro v hv
  rw [h] at hv
  cases hv
  exact hvalue

theorem tame_of_none {cause : Fault κ} (h : cause.carried? = none) : cause.Tame t := by
  intro v hv
  rw [h] at hv
  cases hv

theorem Tame.crossing {cause : Fault κ} (h : cause.Tame t) (boundary : Boundary) :
    (cause.crossing boundary).Tame t := by
  unfold Fault.crossing
  split
  · exact tame_of_none rfl
  · exact h

end Fault

/-- What is found at once is tame: a result in `P`, or a fault. -/
inductive Found (t : Terms κ) (P : α → Prop) : Except (Fault κ) α → Prop
  | ok {a : α} : P a → Found t P (.ok a)
  | error {cause : Fault κ} : cause.Tame t → Found t P (.error cause)

theorem Found.bind {P : α → Prop} {Q : γ → Prop} {result : Except (Fault κ) α}
    {f : α → Except (Fault κ) γ} (h : Found t P result) (hf : ∀ a, P a → Found t Q (f a)) :
    Found t Q (result >>= f) := by
  cases h with
  | ok ha => exact hf _ ha
  | error hcause => exact .error hcause

theorem Found.mapM {P : γ → Prop} {f : α → Except (Fault κ) γ} :
    ∀ items : List α, (∀ item ∈ items, Found t P (f item)) →
      Found t (fun answers => ∀ answer ∈ answers, P answer) (items.mapM f)
  | [], _ => .ok (by simp)
  | item :: rest, hall => by
      have hfirst : Found t P (f item) := hall item (by simp)
      have hrest := Found.mapM rest fun other hother =>
        hall other (List.mem_cons_of_mem item hother)
      rw [List.mapM_cons]
      refine hfirst.bind fun answer hanswer => hrest.bind fun answers hanswers => .ok ?_
      simpa using ⟨hanswer, hanswers⟩

/-! ## Effects -/

/-- Which changes of the world are granted to an action; one after the other, they are granted
too. -/
structure Effects (κ β : Type) where
  allows : World κ β → World κ β → Prop
  refl : ∀ w, allows w w
  trans : ∀ {u v w : World κ β}, allows u v → allows v w → allows u w

/-- The second effects grant whatever the first ones do. -/
def Effects.Within (E E' : Effects κ β) : Prop :=
  ∀ {w v : World κ β}, E.allows w v → E'.allows w v

namespace Action

/-- However the action ends, it has no other effects than these, its values are in `P`, and its
faults are tame. -/
structure Inert (t : Terms κ) (E : Effects κ β) (P : α → Prop) (x : Action κ β α) : Prop where
  value : ∀ {w v : World κ β} {a : α}, x.run w = .value a v → P a ∧ E.allows w v
  fault : ∀ {w v : World κ β} {cause : Fault κ}, x.run w = .fault cause v →
    cause.Tame t ∧ E.allows w v

namespace Inert

variable {E E' : Effects κ β} {P : α → Prop} {x : Action κ β α}

theorem within (hE : E.Within E') (h : x.Inert t E P) : x.Inert t E' P where
  value hx := ⟨(h.value hx).1, hE (h.value hx).2⟩
  fault hx := ⟨(h.fault hx).1, hE (h.fault hx).2⟩

theorem allows (h : x.Inert t E P) {w v : World κ β} (hx : (x.run w).world? = some v) :
    E.allows w v := by
  cases hrun : x.run w with
  | value a u =>
      rw [hrun] at hx
      cases hx
      exact (h.value hrun).2
  | fault cause u =>
      rw [hrun] at hx
      cases hx
      exact (h.fault hrun).2
  | unfinished =>
      rw [hrun] at hx
      cases hx

protected theorem pure {a : α} (h : P a) : (pure a : Action κ β α).Inert t E P where
  value hx := by
    cases hx
    exact ⟨h, E.refl _⟩
  fault hx := by cases hx

protected theorem fail {cause : Fault κ} (h : cause.Tame t) :
    (Action.fail cause : Action κ β α).Inert t E P where
  value hx := by cases hx
  fault hx := by
    cases hx
    exact ⟨h, E.refl _⟩

protected theorem unfinished : (Action.unfinished : Action κ β α).Inert t E P where
  value hx := by cases hx
  fault hx := by cases hx

theorem lift {result : Except (Fault κ) α} (h : Found t P result) :
    (liftM result : Action κ β α).Inert t E P := by
  cases h with
  | ok ha => exact .pure ha
  | error hcause => exact .fail hcause

theorem bind {Q : γ → Prop} {f : α → Action κ β γ} (hx : x.Inert t E P)
    (hf : ∀ a, P a → (f a).Inert t E Q) : (x >>= f).Inert t E Q where
  value hrun := by
    rcases exists_of_run_bind_value hrun with ⟨a, u, hfirst, hrest⟩
    have ha := hx.value hfirst
    have hb := (hf a ha.1).value hrest
    exact ⟨hb.1, E.trans ha.2 hb.2⟩
  fault hrun := by
    rcases run_bind_fault_cases hrun with hfirst | ⟨a, u, hfirst, hrest⟩
    · exact hx.fault hfirst
    · have ha := hx.value hfirst
      have hb := (hf a ha.1).fault hrest
      exact ⟨hb.1, E.trans ha.2 hb.2⟩

theorem attempt (h : x.Inert t E P) : x.attempt.Inert t E (Found t P) where
  value {w v result} hrun := by
    cases hx : x.run w with
    | value a u =>
        rw [run_attempt, hx] at hrun
        cases hrun
        exact ⟨.ok (h.value hx).1, (h.value hx).2⟩
    | fault cause u =>
        rw [run_attempt, hx] at hrun
        cases hrun
        exact ⟨.error (h.fault hx).1, (h.fault hx).2⟩
    | unfinished =>
        rw [run_attempt, hx] at hrun
        cases hrun
  fault {w v cause} hrun := by
    rw [run_attempt] at hrun
    cases hx : x.run w <;> rw [hx] at hrun <;> cases hrun

theorem inside (boundary : Boundary) (h : x.Inert t E P) : (x.within boundary).Inert t E P := by
  rw [Action.within, Action.mapFault_eq_attempt]
  refine h.attempt.bind fun result hresult => ?_
  cases hresult with
  | ok ha => exact .pure ha
  | error hcause => exact .fail (hcause.crossing boundary)

theorem record {event : Event κ}
    (h : ∀ w : World κ β, E.allows w { w with journal := event :: w.journal }) :
    (Action.record event : Action κ β Unit).Inert t E fun _ => True where
  value hx := by
    cases hx
    exact ⟨trivial, h _⟩
  fault hx := by cases hx

theorem limit {family : Nat → Action κ β α} (h : ∀ depth, (family depth).Inert t E P) :
    (Action.limit family).Inert t E P where
  value hx := by
    rcases Rising.exists_of_limit hx trivial with ⟨depth, hd⟩
    exact (h depth).value hd
  fault hx := by
    rcases Rising.exists_of_limit hx trivial with ⟨depth, hd⟩
    exact (h depth).fault hd

end Inert

end Action

/-- Every call of a tame function on tame values is inert and gives a tame value. -/
def Dispatch.Tame (t : Terms κ) (E : Effects κ β) (d : Dispatch κ β) : Prop :=
  ∀ f arguments, f.Tame t → (∀ argument ∈ arguments, argument.Tame t) →
    (d.apply f arguments).Inert t E (Value.Tame t)

end Workflow

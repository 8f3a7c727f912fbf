import Mathlib.Data.List.Forall2
import Workflow.Proofs.Matching
import Workflow.Proofs.Runs

/-!
# Executors that only call continuations

Drivers hand operations to an executor, and what an executor may do with the continuation of one
is to call it, as often as it likes and on whatever outcomes it likes.  Such an executor cannot
tell two operations apart that make the same request and whose continuations answer alike
(`Host.CallsOnly`).  The executors over a backend are of this kind.

Programs that nobody can tell apart run in matching ways under every driver with every such
executor (`Host.Same.driven`).
-/

namespace Workflow

variable {κ β σ : Type}

/-! ## Values that differ in their continuations -/

namespace Fault

/-- The same fault, or faults of one cause that refuse values which `R` relates. -/
inductive Lift (R : Value κ → Value κ → Prop) : Fault κ → Fault κ → Prop
  | same (cause : Fault κ) : Lift R cause cause
  | invalidProgram {v v' : Value κ} : R v v' → Lift R (.invalidProgram v) (.invalidProgram v')
  | unknownOperation {v v' : Value κ} :
      R v v' → Lift R (.unknownOperation v) (.unknownOperation v')
  | notCallable {v v' : Value κ} : R v v' → Lift R (.notCallable v) (.notCallable v')
  | notIterable {v v' : Value κ} : R v v' → Lift R (.notIterable v) (.notIterable v')
  | missingMember {v v' : Value κ} (member : String) :
      R v v' → Lift R (.missingMember v member) (.missingMember v' member)
  | notRoutine {v v' : Value κ} : R v v' → Lift R (.notRoutine v) (.notRoutine v')
  | missingKey {v v' : Value κ} : R v v' → Lift R (.missingKey v) (.missingKey v')

namespace Lift

variable {R S : Value κ → Value κ → Prop} {cause cause' : Fault κ}

theorem mono (hRS : ∀ v v', R v v' → S v v') (h : Lift R cause cause') : Lift S cause cause' := by
  cases h with
  | same => exact .same _
  | invalidProgram h => exact .invalidProgram (hRS _ _ h)
  | unknownOperation h => exact .unknownOperation (hRS _ _ h)
  | notCallable h => exact .notCallable (hRS _ _ h)
  | notIterable h => exact .notIterable (hRS _ _ h)
  | missingMember member h => exact .missingMember member (hRS _ _ h)
  | notRoutine h => exact .notRoutine (hRS _ _ h)
  | missingKey h => exact .missingKey (hRS _ _ h)

/-- No fault that carries a value is a stop signal, so both leave a body as they are. -/
theorem crossing (boundary : Boundary) (h : Lift R cause cause') :
    Lift R (cause.crossing boundary) (cause'.crossing boundary) := by
  have hkind : cause = cause' ∨ cause.kind ≠ .stop ∧ cause'.kind ≠ .stop := by
    cases h with
    | same => exact Or.inl rfl
    | _ => exact Or.inr ⟨by simp [kind], by simp [kind]⟩
  rcases hkind with rfl | ⟨hstop, hstop'⟩
  · exact .same _
  · rw [crossing_of_ne boundary hstop, crossing_of_ne boundary hstop']
    exact h

end Lift

end Fault

namespace Value

mutual

/-- Whether there is no operation anywhere in the value, functions aside. -/
def plain : Value κ → Bool
  | .list items | .tuple items => plainItems items
  | .dict members => plainMembers members
  | .terminal value | .pending value | .query value => plain value
  | .operation _ => false
  | _ => true

def plainItems : List (Value κ) → Bool
  | [] => true
  | item :: rest => plain item && plainItems rest

def plainMembers : List (String × Value κ) → Bool
  | [] => true
  | (_, item) :: rest => plain item && plainMembers rest

end

end Value

namespace Host

/-- Two values of one shape with operations of the same requests in the same places, whose
continuations answer alike as far as `R` can tell. -/
inductive Resembles (host : Host κ β σ) (R : Value κ → Value κ → Prop) :
    Value κ → Value κ → Prop
  | same (v : Value κ) : Resembles host R v v
  | operation (request : Request (Value κ)) {next next' : Value κ} :
      (∀ outcome, (host.result next [outcome]).Matches R (Fault.Lift R)
        (host.result next' [outcome])) →
      Resembles host R (.operation ⟨request, next⟩) (.operation ⟨request, next'⟩)
  | terminal {v v' : Value κ} : R v v' → Resembles host R (.terminal v) (.terminal v')
  | pending {v v' : Value κ} : R v v' → Resembles host R (.pending v) (.pending v')
  | query {v v' : Value κ} : R v v' → Resembles host R (.query v) (.query v')
  | list {vs vs' : List (Value κ)} :
      List.Forall₂ R vs vs' → Resembles host R (.list vs) (.list vs')
  | tuple {vs vs' : List (Value κ)} :
      List.Forall₂ R vs vs' → Resembles host R (.tuple vs) (.tuple vs')
  | dict {vs vs' : List (String × Value κ)} :
      List.Forall₂ (fun m m' => m.1 = m'.1 ∧ R m.2 m'.2) vs vs' →
      Resembles host R (.dict vs) (.dict vs')

/-- Calling continuations is not enough to tell the two values apart. -/
def Akin (host : Host κ β σ) (v v' : Value κ) : Prop :=
  ∃ R, (∀ a a', R a a' → host.Resembles R a a') ∧ R v v'

variable {host : Host κ β σ}

theorem Resembles.mono {R S : Value κ → Value κ → Prop} (hRS : ∀ a a', R a a' → S a a')
    {v v' : Value κ} (h : host.Resembles R v v') : host.Resembles S v v' := by
  cases h with
  | same => exact .same _
  | operation request hnext =>
      exact .operation request fun outcome =>
        (hnext outcome).mono hRS fun _ _ hcause => hcause.mono hRS
  | terminal h => exact .terminal (hRS _ _ h)
  | pending h => exact .pending (hRS _ _ h)
  | query h => exact .query (hRS _ _ h)
  | list h => exact .list (h.imp hRS)
  | tuple h => exact .tuple (h.imp hRS)
  | dict h => exact .dict (h.imp fun _ _ hm => ⟨hm.1, hRS _ _ hm.2⟩)

theorem Akin.refl (v : Value κ) : host.Akin v v :=
  ⟨Eq, fun a _ h => h ▸ .same a, rfl⟩

theorem Akin.resembles {v v' : Value κ} (h : host.Akin v v') :
    host.Resembles host.Akin v v' := by
  rcases h with ⟨R, hR, hv⟩
  exact (hR v v' hv).mono fun a a' ha => ⟨R, hR, ha⟩

/-- The same fault up to continuations. -/
abbrev AkinFault (host : Host κ β σ) : Fault κ → Fault κ → Prop :=
  Fault.Lift host.Akin

/-- Of two akin values both are finished programs, both wait, or neither is a program. -/
theorem Akin.program_cases {p q : Value κ} (h : host.Akin p q) :
    (∃ v v', p = .terminal v ∧ q = .terminal v' ∧ host.Akin v v') ∨
      (∃ v v', p = .pending v ∧ q = .pending v' ∧ host.Akin v v') ∨
      (p.isProgram = false ∧ q.isProgram = false) := by
  cases h.resembles with
  | same =>
      cases p with
      | terminal v => exact Or.inl ⟨v, v, rfl, rfl, .refl v⟩
      | pending v => exact Or.inr (Or.inl ⟨v, v, rfl, rfl, .refl v⟩)
      | _ => exact Or.inr (Or.inr ⟨rfl, rfl⟩)
  | terminal hv => exact Or.inl ⟨_, _, rfl, rfl, hv⟩
  | pending hv => exact Or.inr (Or.inl ⟨_, _, rfl, rfl, hv⟩)
  | operation | query | list | tuple | dict => exact Or.inr (Or.inr ⟨rfl, rfl⟩)

mutual

/-- Akin values show the same. -/
theorem Akin.bare_eq : ∀ {v v' : Value κ}, host.Akin v v' → v.bare = v'.bare
  | .list items, _, h => by
      cases h.resembles with
      | same => rfl
      | list hitems => exact congrArg Value.list (Akin.bareItems_eq hitems)
  | .tuple items, _, h => by
      cases h.resembles with
      | same => rfl
      | tuple hitems => exact congrArg Value.tuple (Akin.bareItems_eq hitems)
  | .dict members, _, h => by
      cases h.resembles with
      | same => rfl
      | dict hmembers => exact congrArg Value.dict (Akin.bareMembers_eq hmembers)
  | .terminal value, _, h => by
      cases h.resembles with
      | same => rfl
      | terminal hvalue => exact congrArg Value.terminal (Akin.bare_eq hvalue)
  | .pending waiting, _, h => by
      cases h.resembles with
      | same => rfl
      | pending hwaiting => exact congrArg Value.pending (Akin.bare_eq hwaiting)
  | .query program, _, h => by
      cases h.resembles with
      | same => rfl
      | query hprogram => exact congrArg Value.query (Akin.bare_eq hprogram)
  | .operation op, _, h => by
      cases h.resembles with
      | same => rfl
      | operation => rfl
  | .null, _, h | .bool _, _, h | .int _, _, h | .float _, _, h | .text _, _, h | .bytes _, _, h
  | .fn _, _, h => by
      cases h.resembles
      rfl

theorem Akin.bareItems_eq : ∀ {items items' : List (Value κ)},
    List.Forall₂ host.Akin items items' → Value.bareItems items = Value.bareItems items'
  | [], _, .nil => rfl
  | _ :: _, _, .cons hitem hrest => by
      simp only [Value.bareItems, Akin.bare_eq hitem, Akin.bareItems_eq hrest]

theorem Akin.bareMembers_eq : ∀ {members members' : List (String × Value κ)},
    List.Forall₂ (fun m m' => m.1 = m'.1 ∧ host.Akin m.2 m'.2) members members' →
      Value.bareMembers members = Value.bareMembers members'
  | [], _, .nil => rfl
  | (key, _) :: _, (_, _) :: _, .cons hmember hrest => by
      rcases hmember with ⟨rfl, hitem⟩
      simp only [Value.bareMembers, Akin.bare_eq hitem, Akin.bareMembers_eq hrest]

end

mutual

/-- What is akin to a value without operations is that value. -/
theorem Akin.eq_of_plain : ∀ {v v' : Value κ}, host.Akin v v' → v.plain = true → v = v'
  | .list items, _, h, hplain => by
      cases h.resembles with
      | same => rfl
      | list hitems => exact congrArg Value.list (Akin.items_eq_of_plain hitems hplain)
  | .tuple items, _, h, hplain => by
      cases h.resembles with
      | same => rfl
      | tuple hitems => exact congrArg Value.tuple (Akin.items_eq_of_plain hitems hplain)
  | .dict members, _, h, hplain => by
      cases h.resembles with
      | same => rfl
      | dict hmembers => exact congrArg Value.dict (Akin.members_eq_of_plain hmembers hplain)
  | .terminal value, _, h, hplain => by
      cases h.resembles with
      | same => rfl
      | terminal hvalue => exact congrArg Value.terminal (Akin.eq_of_plain hvalue hplain)
  | .pending waiting, _, h, hplain => by
      cases h.resembles with
      | same => rfl
      | pending hwaiting => exact congrArg Value.pending (Akin.eq_of_plain hwaiting hplain)
  | .query program, _, h, hplain => by
      cases h.resembles with
      | same => rfl
      | query hprogram => exact congrArg Value.query (Akin.eq_of_plain hprogram hplain)
  | .operation op, _, _, hplain => by simp [Value.plain] at hplain
  | .null, _, h, _ | .bool _, _, h, _ | .int _, _, h, _ | .float _, _, h, _ | .text _, _, h, _
  | .bytes _, _, h, _ | .fn _, _, h, _ => by
      cases h.resembles
      rfl

theorem Akin.items_eq_of_plain : ∀ {items items' : List (Value κ)},
    List.Forall₂ host.Akin items items' → Value.plainItems items = true → items = items'
  | [], _, .nil, _ => rfl
  | _ :: _, _, .cons hitem hrest, hplain => by
      rw [Value.plainItems, Bool.and_eq_true] at hplain
      rw [Akin.eq_of_plain hitem hplain.1, Akin.items_eq_of_plain hrest hplain.2]

theorem Akin.members_eq_of_plain : ∀ {members members' : List (String × Value κ)},
    List.Forall₂ (fun m m' => m.1 = m'.1 ∧ host.Akin m.2 m'.2) members members' →
      Value.plainMembers members = true → members = members'
  | [], _, .nil, _ => rfl
  | (_, _) :: _, (_, _) :: _, .cons hmember hrest, hplain => by
      rcases hmember with ⟨hkey, hitem⟩
      simp only at hkey hitem
      rw [Value.plainMembers, Bool.and_eq_true] at hplain
      rw [hkey, Akin.eq_of_plain hitem hplain.1, Akin.members_eq_of_plain hrest hplain.2]

end

/-- Programs that nobody can tell apart are akin, and so are the operations they wait on. -/
theorem Same.akin (lawful : host.Lawful) {p q : Value κ} (h : host.Same p q) :
    host.Akin p q := by
  refine ⟨fun v v' => host.Same v v' ∨ host.Same (.pending v) (.pending v'), ?_, Or.inl h⟩
  rintro v v' (hsame | hsame)
  · cases same_bisimulation v v' hsame with
    | waiting request hnext => exact .pending (Or.inr hsame)
    | idle => exact .same _
  · cases same_bisimulation _ _ hsame with
    | waiting request hnext =>
        refine .operation request fun outcome => ?_
        exact (lawful.result_blind _ [outcome]).matches_of_related .same fun w =>
          (hnext outcome w).mono fun _ _ => Or.inl
    | idle => exact .same _

/-! ## Calling only -/

/-- The values of a run under a driver that are taken for one: those of an eager run have no
operations of that run in them, since each operation stands there for a value. -/
def SameValue (host : Host κ β σ) : Driver → Value κ → Value κ → Prop
  | .eager => Eq
  | .stepped | .awaited => host.Akin

/-- The faults of a run under a driver that are taken for one. -/
def SameFault (host : Host κ β σ) : Driver → Fault κ → Fault κ → Prop
  | .eager => Eq
  | .stepped | .awaited => host.AkinFault

/-- The executor uses continuations only by calling them.

To an eager evaluation it answers a value, and that depends on what calls of the continuation
answer which nest one call less deep.  To a driver that loops it answers a program, and it does
not tell akin values apart. -/
def CallsOnly (host : Host κ β σ) (executor : Value κ) : Driver → Prop
  | .eager => ∀ depth request next next',
      (∀ outcome, (host.call depth next [outcome]).Below Eq Eq (host.result next' [outcome])) →
      (host.call (depth + 1) executor [.operation ⟨request, next⟩]).Below Eq Eq
        (host.result executor [.operation ⟨request, next'⟩])
  | .stepped | .awaited => ∀ v v', host.Akin v v' →
      (host.result executor [v]).Matches host.Akin host.AkinFault (host.result executor [v'])

/-- Data that holds no operations is taken for itself alone. -/
theorem SameValue.eq_of_plain {driver : Driver} {v v' : Value κ} (h : host.SameValue driver v v')
    (hplain : v.plain = true) : v = v' := by
  cases driver with
  | eager => exact h
  | stepped | awaited => exact Akin.eq_of_plain h hplain

theorem SameFault.refl (driver : Driver) (cause : Fault κ) :
    host.SameFault driver cause cause := by
  cases driver with
  | eager => rfl
  | stepped | awaited => exact .same cause

/-! ## Executors over a backend -/

variable {driver : Driver} {b : Backend (Value κ)}

/-- The executor over a backend asks it and calls the continuation on the answer. -/
theorem result_executorOver (lawful : host.Lawful) (driver : Driver) (b : Backend (Value κ))
    (op : Operation (Value κ)) :
    host.result (driver.executorOver b) [.operation op] =
      ((host.ask b op.request).mapFault driver.leaving >>= fun outcome =>
        host.result op.next [outcome]) := by
  cases driver with
  | eager | stepped =>
      have hcall : host.result (.fn (.executor b)) [.operation op] = host.turn b op := by
        rw [lawful.result_fn, turn_eq_fully lawful]
        rfl
      simp only [Driver.leaving, Action.mapFault_id]
      exact hcall
  | awaited =>
      have hsplit := lawful.fully_bind (f := fun d => await (b.resolve d (.operation op)))
        (g := fun d outcome => d.apply op.next [outcome])
        (fun h => Congruence.await (Congruence.resolve h b _)) fun outcome => fun h =>
          h.apply op.next [outcome]
      have hask : host.fully (fun d => await (b.resolve d (.operation op))) =
          (host.ask b op.request).mapFault (Fault.crossing .coroutine) :=
        Action.limit_mapFault (lawful.rising (deepens_resolve b _)) _
      rw [hask] at hsplit
      -- What the awaited backend is asked is what the plain one is asked.
      simp only [← Backend.await_resolveAsync] at hsplit
      exact (lawful.result_fn (.asyncExecutor b) [.operation op]).trans hsplit

/-- It refuses what is no operation. -/
theorem result_executorOver_refused (lawful : host.Lawful) (driver : Driver)
    (b : Backend (Value κ)) {v : Value κ} (h : ∀ op, v ≠ .operation op) :
    host.result (driver.executorOver b) [v] = .fail (.missingMember v "next") := by
  cases driver with
  | eager | stepped | awaited =>
      refine (lawful.result_fn _ [v]).trans ?_
      cases v with
      | operation op => exact absurd rfl (h op)
      | _ => exact fully_const host _

theorem callsOnly_executorOver (lawful : host.Lawful) (driver : Driver)
    (b : Backend (Value κ)) : host.CallsOnly (driver.executorOver b) driver := by
  by_cases hloop : driver = .eager
  · subst hloop
    intro depth request next next' hnext
    rw [result_executorOver lawful]
    simp only [Driver.leaving, Action.mapFault_id]
    -- Both ask the backend, which does not depend on the continuation.
    have hask : (b.resolve (host.dispatch depth) (.operation ⟨request, next⟩)).Below Eq Eq
        (host.ask b request) :=
      ((ask_blind lawful b request).matches_self (fun _ => rfl) fun _ => rfl).below.of_approx
        (lawful.approx_fully (deepens_resolve b _) depth)
    exact hask.bind fun outcome _ h => h ▸ hnext outcome
  · have hakin : ∀ v v', host.Akin v v' → (host.result (driver.executorOver b) [v]).Matches
        host.Akin host.AkinFault (host.result (driver.executorOver b) [v']) := by
      intro v v' h
      have hsame : ∀ v, (host.result (driver.executorOver b) [v]).Matches host.Akin
          host.AkinFault (host.result (driver.executorOver b) [v]) := fun v =>
        (lawful.result_blind _ [v]).matches_self .refl .same
      have hrefused : (∀ op, v ≠ .operation op) → (∀ op, v' ≠ .operation op) →
          (host.result (driver.executorOver b) [v]).Matches host.Akin host.AkinFault
            (host.result (driver.executorOver b) [v']) := by
        intro hv hv'
        rw [result_executorOver_refused lawful driver b hv,
          result_executorOver_refused lawful driver b hv']
        exact Action.fail_matches (.missingMember "next" h)
      cases h.resembles with
      | same => exact hsame v
      | operation request hnext =>
          rw [result_executorOver lawful, result_executorOver lawful]
          have hask : ((host.ask b request).mapFault driver.leaving).Blind :=
            (Congruence.mapFault (C := Congruence.blind) driver.leaving
              ⟨rfl, ask_blind lawful b request⟩).2
          exact (hask.matches_self (V := Eq) (fun _ => rfl) .same).bind fun outcome _ h =>
            h ▸ hnext outcome
      | terminal | pending | query | list | tuple | dict =>
          exact hrefused (fun _ h => by cases h) fun _ h => by cases h
    cases driver with
    | eager => exact absurd rfl hloop
    | stepped | awaited => exact hakin

/-! ## Runs of the same program -/

variable {executor : Value κ}

/-- An eager evaluation, without its first and its last line, at unbounded depth. -/
noncomputable def evaluated (host : Host κ β σ) (executor p : Value κ) : Action κ β (Value κ) :=
  host.fully fun d => evaluateRest d executor p

theorem deepens_evaluateRest (executor p : Value κ) :
    Deepens fun d : Dispatch κ β => evaluateRest d executor p :=
  fun h => Congruence.evaluateRest h executor p

/-- The executor is called on an operation that evaluates the rest of the program. -/
theorem evaluated_operation (lawful : host.Lawful) (executor : Value κ)
    (op : Operation (Value κ)) :
    host.evaluated executor (.pending (.operation op)) =
      (Action.log (Driver.eager.stepLine 0 (.operation op)) >>= fun _ =>
        host.result executor
          [.operation ⟨op.request, .fn (.compose (.fn (.evalRest executor)) op.next)⟩]) :=
  lawful.fully_bind_left _ fun _ => fun h => h.apply _ _

theorem evaluated_blind (lawful : host.Lawful) (executor p : Value κ) :
    (host.evaluated executor p).Blind :=
  lawful.fully_blind (deepens_evaluateRest executor p) fun depth =>
    (Congruence.evaluateRest (lawful.dispatch_blind depth) executor p).2

theorem evaluateRest_waiting (d : Dispatch κ β) (executor : Value κ)
    (op : Operation (Value κ)) :
    evaluateRest d executor (.pending (.operation op)) =
      (Action.log (Driver.eager.stepLine 0 (.operation op)) >>= fun _ =>
        d.apply executor
          [.operation ⟨op.request, .fn (.compose (.fn (.evalRest executor)) op.next)⟩]) :=
  rfl

/-- A step is announced alike for values that show the same. -/
theorem stepLine_matches (driver : Driver) (steps : Nat) {waiting waiting' : Value κ}
    {F : Fault κ → Fault κ → Prop} (h : waiting.bare = waiting'.bare) :
    (Action.log (driver.stepLine steps waiting) : Action κ β Unit).Matches Eq F
      (.log (driver.stepLine steps waiting')) := by
  apply Action.log_matches
  cases driver <;> simp only [Driver.stepLine, Event.bare, h]

theorem Same.evaluateRest_below (lawful : host.Lawful) (hE : host.CallsOnly executor .eager) :
    ∀ (depth : Nat) {p q : Value κ}, host.Same p q →
      (evaluateRest (host.dispatch depth) executor p).Below Eq Eq (host.evaluated executor q) := by
  -- On the depth, since the rest is evaluated in a call that nests deeper.
  intro depth
  induction depth with
  | zero =>
      intro p q h
      cases same_bisimulation p q h with
      | waiting request hnext =>
          rw [evaluateRest_waiting, evaluated_operation lawful]
          refine Action.Below.bind (stepLine_matches .eager 0 ?_).below fun _ _ _ => ?_
          · rfl
          · exact Action.unfinished_below
      | idle =>
          exact ((evaluated_blind lawful executor p).matches_self (fun _ => rfl)
            fun _ => rfl).below.of_approx (lawful.approx_fully (deepens_evaluateRest _ _) 0)
  | succ depth ih =>
      intro p q h
      cases same_bisimulation p q h with
      | @waiting request next next' hnext =>
          rw [evaluateRest_waiting, evaluated_operation lawful]
          refine Action.Below.bind (stepLine_matches .eager 0 ?_).below fun _ _ _ => ?_
          · rfl
          refine hE depth request _ _ fun outcome => ?_
          -- The programs that the continuations answer are the same again.
          have hmatch : (host.result next [outcome]).Matches host.Same Eq
              (host.result next' [outcome]) :=
            (lawful.result_blind _ _).matches_of_related (fun _ => rfl) (hnext outcome)
          have hrest : (host.result next [outcome] >>=
              evaluateRest (host.dispatch depth) executor).Below Eq Eq
                (host.result next' [outcome] >>= host.evaluated executor) :=
            hmatch.below.bind fun p' q' hsame => ih hsame
          rw [lawful.result_compose]
          simp only [lawful.result_fn (.evalRest executor)]
          exact hrest.of_approx (call_compose_approx lawful executor next outcome depth)
      | idle =>
          exact ((evaluated_blind lawful executor p).matches_self (fun _ => rfl)
            fun _ => rfl).below.of_approx (lawful.approx_fully (deepens_evaluateRest _ _) _)

/-- What a driver does after its first line, with an executor, at unbounded depth. -/
noncomputable def going (host : Host κ β σ) (driver : Driver) (executor : Value κ) (steps : Nat)
    (p : Value κ) : Action κ β (Value κ) :=
  host.fully fun d => driver.goOn d executor steps p

theorem going_terminal (lawful : host.Lawful) (hloop : driver ≠ .eager) (executor : Value κ)
    (steps : Nat) (value : Value κ) :
    (Action.log (driver.finishLine steps) >>= fun _ => pure value).Approx
      (host.going driver executor steps (.terminal value)) := by
  have hgoOn : (Action.log (driver.finishLine steps) >>= fun _ => pure value) =
      driver.goOn (host.dispatch 1) executor steps (.terminal value) := by
    cases driver with
    | eager => exact absurd rfl hloop
    | stepped | awaited => rfl
  rw [hgoOn]
  exact lawful.approx_fully (deepens_goOn driver executor steps _) 1

theorem going_invalid (lawful : host.Lawful) (hloop : driver ≠ .eager) (executor : Value κ)
    (steps : Nat) {p : Value κ} (hp : p.isProgram = false) :
    (Action.fail (.invalidProgram p)).Approx (host.going driver executor steps p) := by
  have hgoOn : .fail (.invalidProgram p) =
      driver.goOn (host.dispatch 1) executor steps p := by
    cases p with
    | terminal value => cases hp
    | pending waiting => cases hp
    | _ =>
        cases driver with
        | eager => exact absurd rfl hloop
        | stepped | awaited => rfl
  rw [hgoOn]
  exact lawful.approx_fully (deepens_goOn driver executor steps p) 1

/-- A loop that waits does a step and goes on. -/
theorem going_pending (lawful : host.Lawful) (hloop : driver ≠ .eager) (executor : Value κ)
    (steps : Nat) (waiting : Value κ) :
    (Action.log (driver.stepLine steps waiting) >>= fun _ =>
      (host.result executor [waiting]).mapFault driver.leaving >>=
        host.going driver executor (steps + 1)).Approx
      (host.going driver executor steps (.pending waiting)) := by
  have hhand : host.fully (fun d => driver.hand d executor waiting) =
      (host.result executor [waiting]).mapFault driver.leaving :=
    Action.limit_mapFault (lawful.rising_call executor [waiting]) _
  have hrest := lawful.fully_bind (deepens_hand driver executor waiting) fun q =>
    deepens_goOn (β := β) driver executor (steps + 1) q
  have hwhole := lawful.fully_bind_left (Action.log (driver.stepLine steps waiting)) fun _ => by
    intro d d' h
    exact (deepens_hand driver executor waiting h).bind fun q =>
      deepens_goOn driver executor (steps + 1) q h
  have hstep : (Action.log (driver.stepLine steps waiting) >>= fun _ =>
      (host.result executor [waiting]).mapFault driver.leaving >>=
        host.going driver executor (steps + 1)) =
      host.fully fun d => Action.log (driver.stepLine steps waiting) >>= fun _ =>
        driver.hand d executor waiting >>= driver.goOn d executor (steps + 1) := by
    rw [hwhole, hrest, hhand]
    rfl
  rw [hstep]
  -- At each depth the loop has done the step one call deeper.
  refine Action.limit_approx fun depth => ?_
  refine (loop_step_approx lawful hloop executor depth steps waiting).trans ?_
  exact lawful.approx_fully (deepens_goOn driver executor steps _) (depth + 1)

theorem AkinFault.leaving (driver : Driver) {cause cause' : Fault κ}
    (h : host.AkinFault cause cause') :
    host.AkinFault (driver.leaving cause) (driver.leaving cause') := by
  cases driver with
  | eager | stepped => exact h
  | awaited => exact Fault.Lift.crossing .coroutine h

theorem Akin.loop_below (lawful : host.Lawful) (hloop : driver ≠ .eager)
    (hE : ∀ v v', host.Akin v v' →
      (host.result executor [v]).Matches host.Akin host.AkinFault (host.result executor [v']))
    (depth : Nat) :
    ∀ (rounds steps : Nat) {p q : Value κ}, host.Akin p q →
      (driver.loop (driver.hand (host.dispatch depth) executor) rounds steps p).Below
        host.Akin host.AkinFault (host.going driver executor steps q)
  | 0, _, _, _, _ => Action.unfinished_below
  | rounds + 1, steps, p, q, h => by
      rcases h.program_cases with ⟨v, v', rfl, rfl, hv⟩ | ⟨v, v', rfl, rfl, hv⟩ | ⟨hp, hq⟩
      · refine Action.Below.approx (Action.Below.bind (V := Eq) ?_ fun _ _ _ => ?_)
          (going_terminal lawful hloop executor steps v')
        · exact (Action.log_matches rfl).below
        · exact (Action.pure_matches hv).below
      · refine Action.Below.approx ?_ (going_pending lawful hloop executor steps v')
        refine (stepLine_matches driver steps hv.bare_eq).below.bind fun _ _ _ => ?_
        have hhand : (driver.hand (host.dispatch depth) executor v).Below host.Akin
            host.AkinFault ((host.result executor [v']).mapFault driver.leaving) :=
          Action.Below.mapFault (fun _ _ => AkinFault.leaving driver)
            ((hE v v' hv).below.of_approx (lawful.call_approx depth executor [v]))
        exact hhand.bind fun p' q' hnext =>
          Akin.loop_below lawful hloop hE depth rounds (steps + 1) hnext
      · have hloop' : driver.loop (driver.hand (host.dispatch depth) executor) (rounds + 1) steps
            p = .fail (.invalidProgram p) := by
          cases p with
          | terminal v => cases hp
          | pending v => cases hp
          | _ => rfl
        rw [hloop']
        exact Action.Below.approx (Action.fail_matches (.invalidProgram h)).below
          (going_invalid lawful hloop executor steps hq)

theorem Same.going_below (lawful : host.Lawful) (hE : host.CallsOnly executor driver)
    (steps : Nat) {p q : Value κ} (h : host.Same p q) :
    (host.going driver executor steps p).Below (host.SameValue driver) (host.SameFault driver)
      (host.going driver executor steps q) := by
  refine Action.Below.limit fun depth => ?_
  cases driver with
  | eager =>
      have hgoing : host.going .eager executor steps q =
          (host.evaluated executor q >>= fun value =>
            Action.log (Driver.eager.finishLine steps) >>= fun _ => pure value) :=
        lawful.fully_bind_right (deepens_evaluateRest executor q) _
      rw [hgoing]
      refine (h.evaluateRest_below lawful hE depth).bind fun value _ heq => ?_
      subst heq
      refine Action.Below.bind (V := Eq) (Action.log_matches rfl).below fun _ _ _ => ?_
      exact (Action.pure_matches rfl).below
  | stepped =>
      exact (h.akin lawful).loop_below lawful (by simp) hE depth depth steps
  | awaited =>
      exact (h.akin lawful).loop_below lawful (by simp) hE depth depth steps

/-- Programs that nobody can tell apart run in matching ways, whatever the driver and with every
executor that only calls continuations. -/
theorem Same.driven (lawful : host.Lawful) (hE : host.CallsOnly executor driver)
    {p q : Value κ} (h : host.Same p q) :
    (host.driven driver executor p).Matches (host.SameValue driver) (host.SameFault driver)
      (host.driven driver executor q) := by
  rw [driven_eq lawful, driven_eq lawful]
  refine Action.Matches.bind (V := Eq) (Action.log_matches rfl) fun _ _ _ => ?_
  exact (h.going_below lawful hE 0).matches (h.symm.going_below lawful hE 0)

end Host

end Workflow

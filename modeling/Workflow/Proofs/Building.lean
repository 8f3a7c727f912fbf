import Workflow.Proofs.Calm
import Workflow.Proofs.Facade

/-!
# Building is inert

An expression that builds programs is put together from operations, the helpers and combinators of
programs, calls of functions and routines, and the methods of queries (`Building`).  Evaluating
it acts at once on programs that have finished: callbacks are called, routine bodies run, and
sequences are gone through.  All of that leaves the store and the logging state alone, if the code
of the callbacks and the bodies does (`Host.building_inert`).

Programs that wait are left as they are.  Their continuations may be functions that call a backend
or no functions at all, since building calls none of them.
-/

namespace Workflow

open Script (Verb Method)

variable {κ β σ : Type}

/-! ## Expressions -/

namespace Building

/-- What an expression does with the values of its operands, all of them evaluated before. -/
inductive Form (κ : Type) where
  | list
  | tuple
  /-- A function of the caller, closed over the operands under these names. -/
  | function (code : κ) (names : List String)
  /-- The function that builds the programs of a routine body. -/
  | routine (code : κ) (names : List String)
  /-- A routine made of what is no body. -/
  | routineOf
  | call
  | operationOf (asked : RequestKind)
  | mapOperation
  | pending
  /-- The helper that goes by the name of the verb. -/
  | programOf (verb : Verb)
  | programThen (asked : RequestKind)
  | isProgram
  | ensureProgram
  | mapProgram
  | andThen
  | pair
  | sequence
  | traverse
  | asProgram
  | query
  /-- A verb on the class of queries. -/
  | start (verb : Verb)
  | querySequence
  | queryProgram
  | display

end Building

/-- An expression that builds programs. -/
inductive Building (κ : Type) where
  | lit (value : Value κ)
  | strict (form : Building.Form κ) (operands : List (Building κ))
  /-- A method of the query that an expression comes to. -/
  | method (query : Building κ) (chosen : Method) (operands : List (Building κ))

namespace Script

def Verb.name : Verb → String
  | .request asked => asked.verb
  | .finished => "finished"

def Method.name : Method → String
  | .verb word => word.name
  | .map => "map"
  | .zip => "zip"
  | .zipProgram => "zip_"
  | .andThen => "and_then"
  | .andThenProgram => "and_then_"
  | .sequence => "sequence"

end Script

namespace Building

/-- The operation that the operands make, the last of them its continuation. -/
def operation? (asked : RequestKind) (operands : List (Value κ)) : Option (Operation (Value κ)) :=
  match asked.request? operands with
  | some (made, [next]) => some ⟨made, next⟩
  | _ => none

/-- A form that calls nothing. -/
def Form.found : Form κ → List (Value κ) → Except (Fault κ) (Value κ)
  | .list, items => .ok (.list items)
  | .tuple, items => .ok (.tuple items)
  | .function code names, captured => .ok (.fn (.callback code (names.zip captured)))
  | .routine code names, captured => .ok (.fn (.routine code (names.zip captured)))
  | .routineOf, [v] => .error (.notRoutine v)
  | .operationOf asked, operands =>
      match operation? asked operands with
      | some op => .ok (.operation op)
      | none => .error .wrongArity
  | .mapOperation, [f, v] => Workflow.mapOperation f v
  | .pending, [v] => .ok (.pending v)
  | .programOf verb, operands =>
      match verb.program? operands with
      | some p => .ok p
      | none => .error .wrongArity
  | .programThen asked, operands =>
      match operation? asked operands with
      | some op => .ok (.pending (.operation op))
      | none => .error .wrongArity
  | .isProgram, [v] => .ok (.bool v.isProgram)
  | .ensureProgram, [v] => Workflow.ensureProgram v
  | .asProgram, [v] => Workflow.asProgram v
  | .query, [v] => Query.ofProgram v
  | .start verb, operands =>
      match verb.program? operands with
      | some p => Query.ofProgram p
      | none => .error .wrongArity
  | .queryProgram, [.query p] => .ok p
  | .queryProgram, [v] => .error (.missingMember v "program")
  | .display, [v] => .ok (.text v.display)
  | _, _ => .error .wrongArity

def Form.run (d : Dispatch κ β) : Form κ → List (Value κ) → Action κ β (Value κ)
  | .call, f :: arguments => d.apply f arguments
  | .mapProgram, [f, p] => Workflow.mapProgram d f p
  | .andThen, [p, f] => Workflow.andThen d p f
  | .pair, [p, q] => Workflow.pair d p q
  | .sequence, [v] => Workflow.sequence d v
  | .traverse, [f, v] => Workflow.traverse d f v
  | .querySequence, [v] => Query.sequence d v
  | form, operands => liftM (form.found operands)

mutual

def evaluate (d : Dispatch κ β) : Building κ → Action κ β (Value κ)
  | .lit v => pure v
  | .strict form operands => evaluateAll d operands >>= form.run d
  | .method query chosen operands =>
      query.evaluate d >>= Facade.onQuery chosen.name fun program =>
        evaluateAll d operands >>= chosen.run d program

/-- The values of expressions, from left to right. -/
def evaluateAll (d : Dispatch κ β) : List (Building κ) → Action κ β (List (Value κ))
  | [] => pure []
  | e :: rest => do
      let value ← e.evaluate d
      return value :: (← evaluateAll d rest)

end

/-- The code in a form is vouched for. -/
def Form.Tame (t : Terms κ) : Form κ → Prop
  | .function code _ | .routine code _ => t.codes code
  | _ => True

/-- All code and all values in the expression are vouched for. -/
inductive Tame (t : Terms κ) : Building κ → Prop
  | lit {v : Value κ} : v.Tame t → Tame t (.lit v)
  | strict {form : Form κ} {operands : List (Building κ)} :
      form.Tame t → (∀ e ∈ operands, Tame t e) → Tame t (.strict form operands)
  | method {query : Building κ} (chosen : Method) {operands : List (Building κ)} :
      Tame t query → (∀ e ∈ operands, Tame t e) → Tame t (.method query chosen operands)

end Building

/-! ## Depth -/

namespace Congruence

variable {C : Congruence κ β} {d d' : Dispatch κ β}

theorem formRun (h : C.Dispatches d d') (form : Building.Form κ) (operands : List (Value κ)) :
    C.rel (form.run d operands) (form.run d' operands) := by
  unfold Building.Form.run
  split
  · exact h.apply _ _
  · exact mapProgram h _ _
  · exact andThen h _ _
  · exact pair h _ _
  · exact sequence h _
  · exact traverse h _ _
  · exact querySequence h _
  · exact lift _

mutual

theorem buildingEvaluate (h : C.Dispatches d d') :
    ∀ e : Building κ, C.rel (e.evaluate d) (e.evaluate d')
  | .lit _ => C.value _
  | .strict form operands => C.bind (buildingEvaluateAll h operands) fun _ => formRun h form _
  | .method query chosen operands =>
      C.bind (buildingEvaluate h query) (onQuery fun _ =>
        C.bind (buildingEvaluateAll h operands) fun _ => chosen.run_respects h _ _)

theorem buildingEvaluateAll (h : C.Dispatches d d') :
    ∀ es : List (Building κ), C.rel (Building.evaluateAll d es) (Building.evaluateAll d' es)
  | [] => C.value _
  | e :: rest =>
      C.bind (buildingEvaluate h e) fun _ =>
        C.bind (buildingEvaluateAll h rest) fun _ => C.value _

end

end Congruence

/-! ## Evaluating -/

namespace Building

variable {t : Terms κ} {E : Effects κ β} {d : Dispatch κ β} {operands : List (Value κ)}

theorem operation?_tame (hoperands : ∀ operand ∈ operands, operand.Tame t) {asked : RequestKind}
    {op : Operation (Value κ)} (h : operation? asked operands = some op) :
    (Value.operation op).Tame t := by
  unfold operation? at h
  split at h
  · cases h
    exact Script.operation_tame hoperands ‹_›
  · cases h

theorem Form.found_tame (hoperands : ∀ operand ∈ operands, operand.Tame t) {form : Form κ}
    (hform : form.Tame t) : Found t (Value.Tame t) (form.found operands) := by
  have hfirst : ∀ {one : Value κ} {rest : List (Value κ)}, operands = one :: rest →
      one.Tame t := fun h => hoperands _ (by simp [h])
  have hcaptured : ∀ names : List String, Scope.Tame t (names.zip operands) :=
    fun names member hmember => hoperands _ (List.of_mem_zip hmember).2
  unfold Form.found
  split
  · exact .ok (.list hoperands)
  · exact .ok (.tuple hoperands)
  · exact .ok (.fn (.callback hform (hcaptured _)))
  · exact .ok (.fn (.routine hform (hcaptured _)))
  · exact .error (Fault.tame_of_carried rfl (hfirst rfl))
  · split
    · exact .ok (operation?_tame hoperands ‹_›)
    · exact .error (Fault.tame_of_none rfl)
  · exact mapOperation_found (hfirst rfl) (hoperands _ (by simp))
  · exact .ok (.pending (hfirst rfl))
  · split
    · exact .ok (Verb.program?_tame hoperands ‹_›)
    · exact .error (Fault.tame_of_none rfl)
  · split
    · exact .ok (.pending (operation?_tame hoperands ‹_›))
    · exact .error (Fault.tame_of_none rfl)
  · exact .ok (.bool _)
  · exact ensureProgram_found (hfirst rfl)
  · exact asProgram_found (hfirst rfl)
  · exact Query.ofProgram_found (hfirst rfl)
  · split
    · exact Query.ofProgram_found (Verb.program?_tame hoperands ‹_›)
    · exact .error (Fault.tame_of_none rfl)
  · exact .ok (Value.tame_query.1 (hfirst rfl))
  · exact .error (Fault.tame_of_carried rfl (hfirst rfl))
  · exact .ok (.text _)
  · exact .error (Fault.tame_of_none rfl)

theorem Form.run_inert (hd : d.Tame t E) (hoperands : ∀ operand ∈ operands, operand.Tame t)
    {form : Form κ} (hform : form.Tame t) : (form.run d operands).Inert t E (Value.Tame t) := by
  have hfirst : ∀ {one : Value κ} {rest : List (Value κ)}, operands = one :: rest →
      one.Tame t := fun h => hoperands _ (by simp [h])
  have hsecond : ∀ {one other : Value κ} {rest : List (Value κ)},
      operands = one :: other :: rest → other.Tame t := fun h => hoperands _ (by simp [h])
  unfold Form.run
  split
  · exact hd _ _ (hfirst rfl) (List.forall_mem_cons.1 hoperands).2
  · exact mapProgram_inert hd (hfirst rfl) (hsecond rfl)
  · exact andThen_inert hd (hfirst rfl) (hsecond rfl)
  · exact pair_inert hd (hfirst rfl) (hsecond rfl)
  · exact sequence_inert hd (hfirst rfl)
  · exact traverse_inert hd (hfirst rfl) (hsecond rfl)
  · exact Query.sequence_inert hd (hfirst rfl)
  · exact .lift (Form.found_tame hoperands hform)

theorem onQuery_inert {v : Value κ} (hv : v.Tame t) {member : String}
    {body : Value κ → Action κ β (Value κ)}
    (hbody : ∀ program, program.Tame t → (body program).Inert t E (Value.Tame t)) :
    (Facade.onQuery member body v).Inert t E (Value.Tame t) := by
  cases hv with
  | query hprogram => exact hbody _ hprogram
  | _ => exact .fail (Fault.tame_of_carried rfl (by constructor <;> assumption))

mutual

/-- Evaluating an expression calls tame functions on tame values, and nothing else. -/
theorem evaluate_inert (hd : d.Tame t E) :
    ∀ e : Building κ, e.Tame t → (e.evaluate d).Inert t E (Value.Tame t)
  | .lit _, .lit hv => .pure hv
  | .strict _ operands, .strict hform hoperands =>
      (evaluateAll_inert hd operands hoperands).bind fun _ hvalues =>
        Form.run_inert hd hvalues hform
  | .method query chosen operands, .method _ hquery hoperands =>
      (evaluate_inert hd query hquery).bind fun _ hvalue =>
        onQuery_inert hvalue fun _ hprogram =>
          (evaluateAll_inert hd operands hoperands).bind fun _ hvalues =>
            Method.run_inert hd hprogram hvalues chosen

theorem evaluateAll_inert (hd : d.Tame t E) :
    ∀ es : List (Building κ), (∀ e ∈ es, e.Tame t) →
      (evaluateAll d es).Inert t E fun values => ∀ value ∈ values, value.Tame t
  | [], _ => .pure (by simp)
  | e :: rest, hall => by
      rcases List.forall_mem_cons.1 hall with ⟨he, hrest⟩
      refine (evaluate_inert hd e he).bind fun value hvalue => ?_
      exact (evaluateAll_inert hd rest hrest).bind fun values hvalues =>
        .pure (List.forall_mem_cons.2 ⟨hvalue, hvalues⟩)

end

end Building

/-! ## Callbacks -/

/-- The combinators that are handed a callback for the result of a program. -/
inductive Continuing where
  | mapProgram
  | andThen
  | queryMap
  | queryAndThen
  | queryAndThenProgram

namespace Continuing

/-- Builds with a callback on a program, or on the query of it. -/
def build (d : Dispatch κ β) (f p : Value κ) : Continuing → Action κ β (Value κ)
  | .mapProgram => Workflow.mapProgram d f p
  | .andThen => Workflow.andThen d p f
  | .queryMap => Query.map d p f
  | .queryAndThen => Query.andThen d p f
  | .queryAndThenProgram => Query.andThenProgram d p f

/-- What becomes of the answer of the callback. -/
def made (answer : Value κ) : Continuing → Except (Fault κ) (Value κ)
  | .mapProgram => .ok (.terminal answer)
  | .andThen => .ok answer
  | .queryMap => Query.ofProgram (.terminal answer)
  | .queryAndThen => asProgram answer >>= Query.ofProgram
  | .queryAndThenProgram => Query.ofProgram answer

/-- On a program that has finished, the callback is called on its value, and nothing else is
called. -/
theorem build_terminal {host : Host κ β σ} (lawful : host.Lawful) (c : Continuing)
    (f value : Value κ) :
    (host.fully fun d => c.build d f (.terminal value)) =
      host.result f [value] >>= fun answer => liftM (c.made answer) := by
  have hsplit : ∀ (g : Value κ) (next : Value κ → Except (Fault κ) (Value κ)),
      (host.fully fun d => d.apply g [value] >>= fun answer => liftM (next answer)) =
        host.result g [value] >>= fun answer => liftM (next answer) := fun g next =>
    lawful.fully_bind_right (fun h => h.apply g [value]) _
  cases c with
  | mapProgram => exact hsplit f fun answer => .ok (.terminal answer)
  | andThen => exact (bind_pure (host.result f [value])).symm
  | queryMap =>
      have hbuild : (fun d : Dispatch κ β => Query.map d (.terminal value) f) = fun d =>
          d.apply f [value] >>= fun answer => liftM (Query.ofProgram (.terminal answer)) := by
        funext d
        simp only [Query.map, Query.wrapping, Workflow.mapProgram, bind_assoc, pure_bind]
      exact (congrArg host.fully hbuild).trans
        (hsplit f fun answer => Query.ofProgram (.terminal answer))
  | queryAndThen =>
      calc (host.fully fun d => Query.andThen d (.terminal value) f)
          = host.result (.fn (.compose (.fn .asProgram) f)) [value] >>= fun program =>
              liftM (Query.ofProgram program) := hsplit _ Query.ofProgram
        _ = host.result f [value] >>= fun answer =>
              host.result (.fn .asProgram) [answer] >>= fun program =>
                liftM (Query.ofProgram program) := by
            rw [lawful.result_compose, bind_assoc]
        _ = host.result f [value] >>= fun answer =>
              liftM (asProgram answer >>= Query.ofProgram) := by
            refine congrArg (host.result f [value] >>= ·) (funext fun answer => ?_)
            rw [Host.result_asProgram lawful]
            cases asProgram answer <;> rfl
  | queryAndThenProgram => exact hsplit f Query.ofProgram

/-- On a program that waits, nothing is called: what is built does not depend on what calls
do. -/
theorem build_pending (c : Continuing) (f waiting : Value κ) :
    ∃ result : Except (Fault κ) (Value κ), ∀ d : Dispatch κ β,
      c.build d f (.pending waiting) = liftM result := by
  -- The callback is put after the continuation, or there is no operation to put it into.
  have hmap : ∃ result : Except (Fault κ) (Value κ), ∀ d : Dispatch κ β,
      Workflow.mapProgram d f (.pending waiting) = liftM result := by
    simp only [Workflow.mapProgram]
    cases mapOperation (.fn (.mapRest f)) waiting with
    | ok op => exact ⟨.ok (.pending op), fun _ => rfl⟩
    | error cause => exact ⟨.error cause, fun _ => rfl⟩
  have handThen : ∀ g : Value κ, ∃ result : Except (Fault κ) (Value κ), ∀ d : Dispatch κ β,
      Workflow.andThen d (.pending waiting) g = liftM result := by
    intro g
    simp only [Workflow.andThen]
    cases mapOperation (.fn (.thenRest g)) waiting with
    | ok op => exact ⟨.ok (.pending op), fun _ => rfl⟩
    | error cause => exact ⟨.error cause, fun _ => rfl⟩
  have hwrapping : ∀ {x : Dispatch κ β → Action κ β (Value κ)},
      (∃ result : Except (Fault κ) (Value κ), ∀ d, x d = liftM result) →
      ∃ result : Except (Fault κ) (Value κ), ∀ d, Query.wrapping (x d) = liftM result := by
    rintro x ⟨result, hresult⟩
    refine ⟨result >>= Query.ofProgram, fun d => ?_⟩
    rw [hresult d]
    cases result <;> rfl
  cases c with
  | mapProgram => exact hmap
  | andThen => exact handThen f
  | queryMap => exact hwrapping hmap
  | queryAndThen => exact hwrapping (handThen _)
  | queryAndThenProgram => exact hwrapping (handThen f)

end Continuing

/-! ## Inertness -/

namespace Host

variable {host : Host κ β σ} {t : Terms κ}

/-- Building is inert.  Let the code in an expression, that of its callbacks and routine bodies,
leave no more than certain marks in the world, as long as the functions that it calls do; the
continuations of its operations may be anything.  However evaluating the expression ends, the
store and the logging state are then as they were, no call of a backend and no line of the log has
been noted down, and nobody else's code has been run, that of continuations included: a recorded
host shows no other code than what was vouched for.

A callback that is handed to a combinator is called once, and nothing besides, on the value of a
program that has finished; the rest is no more than a check of its answer.  On a program that waits
it is not called, and neither is anything else. -/
theorem building_inert (lawful : host.Lawful) {S : Type} (store : β → S)
    {marks : String → Value κ → Prop} {At : σ → Prop}
    (tame : host.Tame t (.leaving store marks) At) {e : Building κ} (he : e.Tame t) :
    (∀ w v, ((host.fully fun d => e.evaluate d).run w).world? = some v →
      World.Untouched store marks w v) ∧
    (∀ w v, ((host.recorded.fully fun d => e.evaluate d).run w).world? = some v →
      World.Untouched store (fun label value => marks label value ∨ Asked t.codes label value)
        w v) ∧
    (∀ (c : Continuing) (f value : Value κ),
      (host.fully fun d => c.build d f (.terminal value)) =
        host.result f [value] >>= fun answer => liftM (c.made answer)) ∧
    ∀ (c : Continuing) (f waiting : Value κ), ∃ result : Except (Fault κ) (Value κ),
      ∀ d : Dispatch κ β, c.build d f (.pending waiting) = liftM result := by
  have hinert : (host.fully fun d => e.evaluate d).Inert t (.leaving store marks) (Value.Tame t) :=
    .limit fun depth => Building.evaluate_inert (tame.dispatch depth) e he
  -- The recorded host leaves marks of its own besides, one for whatever it is asked to do.
  let shown : Effects κ β := .leaving store fun label value =>
    marks label value ∨ Asked t.codes label value
  have hrecorded : host.recorded.Tame t shown At :=
    tame.recorded (Effects.leaving_within fun _ _ => Or.inl) fun _ _ hasked =>
      Effects.leaving_allows (Or.inr hasked)
  have hshown : (host.recorded.fully fun d => e.evaluate d).Inert t shown (Value.Tame t) :=
    .limit fun depth => Building.evaluate_inert (hrecorded.dispatch depth) e he
  exact ⟨fun _ _ => hinert.allows, fun _ _ => hshown.allows, Continuing.build_terminal lawful,
    Continuing.build_pending⟩

/-- A query on a program that waits, with a continuation that would ask the store, is zipped with
the pair of what a script visits, leaving a mark each time, and of what a routine body comes to. -/
theorem building_inert_waiting :
    let host := Script.host []
    let a : Script.Allowance := { labels := ["visit"] }
    let waiting : Value Script.Code :=
      .pending (.operation ⟨.getAll, .fn (.executor (Script.Stores.backend 0))⟩)
    let visit : Script.Code :=
      .function ["id"] (.strict (.programOf .getById) [.trace "visit" (.var "id")])
    let body : Script.Code := .routine []
      [.yield "one" (.strict .terminal [.lit (.int 1)]), .ret (.var "one")]
    let e : Building Script.Code := .method (.strict .query [.lit waiting]) .zipProgram
      [.strict .pair
        [.strict .traverse [.strict (.function visit []) [], .lit (.list [.text "a", .text "b"])],
          .strict .call [.strict (.routine body []) []]]]
    host.Lawful ∧ host.Tame a.terms (.leaving id a.marks) (Script.Body.Tame a) ∧ e.Tame a.terms ∧
      ∃ value v, (host.fully fun d => e.evaluate d).run Script.emptyStore = .value value v ∧
        v.journal = [.trace "visit" (.text "b"), .trace "visit" (.text "a")] ∧
        World.Untouched id a.marks Script.emptyStore v := by
  intro host a waiting visit body e
  have lawful : host.Lawful := Script.host_lawful []
  have tame : host.Tame a.terms (.leaving id a.marks) (Script.Body.Tame a) :=
    Script.host_tame (by simp [Scope.Tame]) (a.granted_leaving id)
  have hwaiting : waiting.Tame a.terms := .pending (.operation (by simp [Request.operands]) nofun)
  have hvisits : (Building.strict .traverse [.strict (.function visit []) [],
      .lit (.list [.text "a", .text "b"])]).Tame a.terms := by
    refine .strict trivial (List.forall_mem_cons.2 ⟨.strict rfl (by simp), ?_⟩)
    refine List.forall_mem_singleton.2 (.lit (.list ?_))
    exact List.forall_mem_cons.2 ⟨.text "a", List.forall_mem_singleton.2 (.text "b")⟩
  have hbody : (Building.strict .call [.strict (.routine body []) []]).Tame a.terms :=
    .strict trivial (List.forall_mem_singleton.2 (.strict rfl (by simp)))
  have he : e.Tame a.terms :=
    .method _ (.strict trivial (List.forall_mem_singleton.2 (.lit hwaiting)))
      (List.forall_mem_singleton.2 (.strict trivial
        (List.forall_mem_cons.2 ⟨hvisits, List.forall_mem_singleton.2 hbody⟩)))
  have hends : ∃ value v, (e.evaluate (host.dispatch 12)).run Script.emptyStore = .value value v ∧
      v.journal = [.trace "visit" (.text "b"), .trace "visit" (.text "a")] :=
    ⟨_, _, rfl, rfl⟩
  rcases hends with ⟨value, v, hrun, hjournal⟩
  have hfully : (host.fully fun d => e.evaluate d).run Script.emptyStore = .value value v :=
    (lawful.approx_fully (fun h => Congruence.buildingEvaluate h e) 12).run_eq hrun trivial
  refine ⟨lawful, tame, he, value, v, hfully, hjournal, ?_⟩
  exact (building_inert lawful id tame he).1 _ v (by rw [hfully]; rfl)

end Host

end Workflow

import Workflow.Proofs.Runs
import Workflow.Script.Body

/-!
# Scripts are lawful

Everything a script does is put together from the operations on actions, so the host that
scripts are respects every congruence.  In particular it is lawful: what is shown of lawful hosts
holds of every program that a script can write.
-/

namespace Workflow.Script

variable {C : Congruence Code Stores} {d d' : Dispatch Code Stores}

/-! ## Strict forms -/

theorem presentBackend_respects : C.rel presentBackend presentBackend :=
  C.bind C.outside fun _ => C.value _

theorem askStore_respects (number : Nat) (request : Request (Value Code)) :
    C.rel (askStore number request) (askStore number request) := by
  refine C.bind C.outside fun stores => ?_
  cases stores.memories[number]? with
  | none => exact C.fault _
  | some memory =>
      refine C.bind (C.modifyOutside _) fun _ => ?_
      exact Congruence.lift (memory.answer request).1

theorem Method.run_respects {κ β : Type} {C : Congruence κ β} {d d' : Dispatch κ β}
    (h : C.Dispatches d d') (program : Value κ) (method : Method) (operands : List (Value κ)) :
    C.rel (method.run d program operands) (method.run d' program operands) := by
  unfold Method.run
  split
  · exact Congruence.wrapping (Congruence.andThen h _ _)
  · exact Congruence.wrapping (Congruence.mapProgram h _ _)
  · exact Congruence.queryZip h _ _
  · exact Congruence.wrapping (Congruence.pair h _ _)
  · exact Congruence.wrapping (Congruence.andThen h _ _)
  · exact Congruence.wrapping (Congruence.andThen h _ _)
  · exact Congruence.querySequence h _
  · exact C.fault _

theorem Primitive.run_respects (h : C.Dispatches d d') (primitive : Primitive)
    (operands : List (Value Code)) :
    C.rel (primitive.run d operands) (primitive.run d' operands) := by
  unfold Primitive.run
  split
  · exact h.apply _ _
  · exact Congruence.lift _
  · exact h.apply _ _
  · exact Congruence.mapProgram h _ _
  · exact Congruence.andThen h _ _
  · exact Congruence.pair h _ _
  · exact Congruence.sequence h _
  · exact Congruence.traverse h _ _
  · exact Congruence.lift _
  · exact Congruence.lift _
  · exact Method.run_respects h _ _ _
  · exact Congruence.querySequence h _
  · exact Congruence.lift _
  · exact C.bind presentBackend_respects fun b => Congruence.resolve h b _
  · exact C.bind presentBackend_respects fun _ => C.value _
  · exact Congruence.runStepped h _ _
  · exact Congruence.evaluate h _ _
  · exact C.fault _
  · split
    · exact C.value _
    · exact C.fault _

/-! ## Expressions -/

variable (globals : Scope Code)

mutual

theorem Expr.eval_respects (h : C.Dispatches d d') :
    ∀ (e : Expr) (scope : Scope Code), C.rel (e.eval globals d scope) (e.eval globals d' scope)
  | .lit data, scope => by
      simp only [Expr.eval]
      exact C.value _
  | .var name, scope => by
      simp only [Expr.eval]
      exact Congruence.lift (lookup globals scope name)
  | .bind name value body, scope => by
      simp only [Expr.eval]
      exact C.bind (Expr.eval_respects h value scope) fun _ => Expr.eval_respects h body _
  | .function parameters body, scope => by
      simp only [Expr.eval]
      exact C.value _
  | .routine parameters body, scope => by
      simp only [Expr.eval]
      exact C.value _
  | .branch test whenTrue whenFalse, scope => by
      simp only [Expr.eval]
      refine C.bind (Expr.eval_respects h test scope) fun answer => ?_
      split
      · exact Expr.eval_respects h whenTrue scope
      · exact Expr.eval_respects h whenFalse scope
      · exact C.fault _
  | .trace label value, scope => by
      simp only [Expr.eval]
      refine C.bind (Expr.eval_respects h value scope) fun _ => ?_
      exact C.bind (C.record _) fun _ => C.value _
  | .raise kind message, scope => by
      simp only [Expr.eval]
      exact C.fault _
  | .guarded body kind handler, scope => by
      simp only [Expr.eval]
      refine C.bind (C.attempt (Expr.eval_respects h body scope)) fun answer => ?_
      split
      · exact C.value _
      · split
        · exact C.bind (Expr.eval_respects h handler scope) fun f => h.apply f _
        · exact C.fault _
  | .dict members, scope => by
      simp only [Expr.eval]
      exact C.bind (Expr.evalMembers_respects h members scope []) fun _ => C.value _
  | .strict primitive operands, scope => by
      simp only [Expr.eval]
      refine C.bind (Expr.evalAll_respects h operands scope) fun values => ?_
      exact Primitive.run_respects h primitive values

theorem Expr.evalAll_respects (h : C.Dispatches d d') :
    ∀ (operands : List Expr) (scope : Scope Code),
      C.rel (Expr.evalAll globals d scope operands) (Expr.evalAll globals d' scope operands)
  | [], scope => by
      simp only [Expr.evalAll]
      exact C.value _
  | operand :: rest, scope => by
      simp only [Expr.evalAll]
      refine C.bind (Expr.eval_respects h operand scope) fun _ => ?_
      exact C.bind (Expr.evalAll_respects h rest scope) fun _ => C.value _

theorem Expr.evalMembers_respects (h : C.Dispatches d d') :
    ∀ (members : List (String × Expr)) (scope found : Scope Code),
      C.rel (Expr.evalMembers globals d scope members found)
        (Expr.evalMembers globals d' scope members found)
  | [], scope, found => by
      simp only [Expr.evalMembers]
      exact C.value _
  | (key, member) :: rest, scope, found => by
      simp only [Expr.evalMembers]
      refine C.bind (Expr.eval_respects h member scope) fun _ => ?_
      exact Expr.evalMembers_respects h rest scope _

end

/-! ## Bodies -/

theorem valueIn_respects (h : C.Dispatches d d') (scope : Scope Code) (e : Expr) :
    C.rel (valueIn globals d scope e) (valueIn globals d' scope e) :=
  C.attempt (Congruence.within _ (Expr.eval_respects globals h e scope))

theorem Stmt.turn_respects {value? value?' : Expr → Act (Except (Fault Code) (Value Code))}
    (h : ∀ e, C.rel (value? e) (value?' e)) (scope : Scope Code) (rest : List Stmt)
    (frames : List Frame) (statement : Stmt) :
    C.rel (statement.turn value? scope rest frames) (statement.turn value?' scope rest frames) := by
  cases statement with
  | guarded body kind name handler final => exact C.value _
  | yield name e | assign name e | ret e | branch e whenTrue whenFalse | loop name e body =>
      refine C.bind (h e) fun answer => ?_
      split <;> exact C.value _

theorem turn_respects (h : C.Dispatches d d') (scope : Scope Code) (control : Control)
    (frames : List Frame) :
    C.rel (turn globals d scope control frames) (turn globals d' scope control frames) := by
  unfold turn
  split
  · exact C.value _
  · exact Stmt.turn_respects (valueIn_respects globals h scope) scope _ _ _
  · exact C.value _
  · exact C.value _

theorem runBlocks_respects (h : C.Dispatches d d') {m n : Nat} (hr : C.Rounds m n) :
    ∀ (scope : Scope Code) (control : Control) (frames : List Frame),
      C.rel (runBlocks globals d m scope control frames)
        (runBlocks globals d' n scope control frames) := by
  refine Congruence.Rounds.recursion (motive := fun m n => ∀ scope control frames,
    C.rel (runBlocks globals d m scope control frames)
      (runBlocks globals d' n scope control frames)) ?_ ?_ hr
  · intro n hr scope control frames
    exact hr.unfinished_rel (fun n => runBlocks globals d' n scope control frames) rfl
  · intro m n _ ih scope control frames
    refine C.bind (turn_respects globals h scope control frames) fun next => ?_
    cases next with
    | stop stop => exact C.value _
    | goOn scope control frames => exact ih scope control frames

theorem closeBlocks_respects (h : C.Dispatches d d') {m n : Nat} (hr : C.Rounds m n) :
    ∀ (again : Bool) (scope : Scope Code) (completion : Completion) (frames : List Frame),
      C.rel (closeBlocks globals d again m scope completion frames)
        (closeBlocks globals d' again n scope completion frames) := by
  refine Congruence.Rounds.recursion (motive := fun m n => ∀ again scope completion frames,
    C.rel (closeBlocks globals d again m scope completion frames)
      (closeBlocks globals d' again n scope completion frames)) ?_ ?_ hr
  · intro n hr again scope completion frames
    exact hr.unfinished_rel (fun n => closeBlocks globals d' again n scope completion frames) rfl
  · intro m n _ ih again scope completion frames
    cases frames with
    | nil => exact C.value _
    | cons frame frames =>
        refine C.bind (runBlocks_respects globals h h.rounds _ _ _) fun stop => ?_
        split
        · exact ih again _ _ frames
        · exact ih again _ _ frames
        · split
          · exact C.value _
          · exact C.bind (ih true _ _ _) fun _ => ih again _ _ frames

theorem Body.advance_respects (h : C.Dispatches d d') (body : Body) (sent : Value Code) :
    C.rel (body.advance globals d sent) (body.advance globals d' sent) := by
  refine C.bind (runBlocks_respects globals h h.rounds _ _ _) fun stop => ?_
  split
  · exact C.value _
  · exact C.value _
  · exact C.fault _
  · exact C.value _
  · exact C.value _

theorem Body.close_respects (h : C.Dispatches d d') (body : Body) :
    C.rel (body.close globals d) (body.close globals d') := by
  refine C.bind (closeBlocks_respects globals h h.rounds _ _ _ _) fun _ => ?_
  split
  · exact C.fault _
  · exact C.value _

/-! ## The host -/

theorem callCode_respects (h : C.Dispatches d d') (code : Code) (captured : Scope Code)
    (arguments : List (Value Code)) :
    C.rel (callCode globals d code captured arguments)
      (callCode globals d' code captured arguments) := by
  cases code with
  | function parameters body =>
      exact C.bind (Congruence.lift _) fun scope => Expr.eval_respects globals h body scope
  | routine parameters body => exact C.fault _
  | store number kind =>
      simp only [callCode]
      split
      · exact askStore_respects number _
      · exact C.fault _

theorem host_respects (C : Congruence Code Stores) : (host globals).Respects C where
  callback h code captured arguments := callCode_respects globals h code captured arguments
  start code captured arguments := Congruence.lift (Body.ofCode code captured arguments)
  advance h body sent := Body.advance_respects globals h body sent
  close h body := Body.close_respects globals h body

theorem host_lawful : (host globals).Lawful :=
  ⟨host_respects globals Congruence.approx, host_respects globals Congruence.blind⟩

/-- A world with one store that holds nothing; the debug log is on. -/
def emptyStore : World Code Stores where
  journal := []
  debug := ⟨none, true⟩
  outside := ⟨[{}]⟩

/-! ## Stores -/

/-- A function of a store's backend asks the store. -/
theorem result_functionFor (number : Nat) (request : Request (Value Code)) :
    (host []).result ((Stores.backend number).functionFor request) request.operands =
      askStore number request := by
  cases request with
  | getById | getAll | update | create =>
      exact ((host_lawful []).result_fn _ _).trans (Host.fully_const (host []) _)

/-- Asking a store replaces it by what it has become, and no other. -/
theorem askStore_run {number : Nat} {memory : Memory Code} {w : World Code Stores}
    (h : w.outside.memories[number]? = some memory) (request : Request (Value Code)) :
    (askStore number request).run w =
      (liftM (memory.answer request).1 : Act (Value Code)).run
        { w with outside := ⟨w.outside.memories.set number (memory.answer request).2⟩ } := by
  simp [askStore, Action.run, Bind.bind, Action.bind, Action.outside, Action.modifyOutside, h]

/-- A callback that calls nothing answers in the same way at every depth. -/
theorem result_callback {code : Code} {captured : Scope Code} {arguments : List (Value Code)}
    {answer : Value Code} (h : ∀ d, callCode [] d code captured arguments = pure answer) :
    (host []).result (.fn (.callback code captured)) arguments = pure answer := by
  rw [(host_lawful []).result_fn]
  exact (congrArg (host []).fully (funext h)).trans (Host.fully_const (host []) _)

/-- A step over a store that answers: the store becomes what it has become, and the continuation
makes the next program out of what it is told. -/
theorem turn_store {memory memory' : Memory Code} {op : Operation (Value Code)}
    {answer outcome q : Value Code} {w : World Code Stores} (h : w.outside = ⟨[memory]⟩)
    (hanswer : memory.answer op.request = (.ok answer, memory'))
    (houtcome : op.request.outcome answer = .ok outcome)
    (hnext : (host []).result op.next [outcome] = pure q) :
    ∃ v, ((host []).turn (Stores.backend 0) op).run w = .value q v ∧ v.outside = ⟨[memory']⟩ := by
  have hpresent : (w.recorded (.call op.request)).outside.memories[0]? = some memory := by
    rw [World.recorded, h]
    rfl
  have hanswered : (askStore 0 op.request).run (w.recorded (.call op.request)) =
      .value answer { w.recorded (.call op.request) with outside := ⟨[memory']⟩ } := by
    rw [askStore_run hpresent, hanswer, World.recorded, h]
    rfl
  have hasked : ((host []).ask (Stores.backend 0) op.request).run w =
      .value outcome { w.recorded (.call op.request) with outside := ⟨[memory']⟩ } := by
    rw [Host.ask_eq_result (host_lawful []), result_functionFor]
    show (askStore 0 op.request >>= fun answer => liftM (op.request.outcome answer)).run
      (w.recorded (.call op.request)) = _
    rw [Action.run_bind_of_value _ hanswered, houtcome]
    rfl
  refine ⟨{ w.recorded (.call op.request) with outside := ⟨[memory']⟩ }, ?_, rfl⟩
  rw [Host.turn, Action.run_bind_of_value _ hasked, hnext]
  rfl

/-- A run over a store takes such a step and goes on. -/
theorem exists_runs_store {driver : Driver} {steps : Nat} {memory memory' : Memory Code}
    {op : Operation (Value Code)} {answer outcome q value : Value Code}
    {ops : List (Operation (Value Code))} {w : World Code Stores} (h : w.outside = ⟨[memory]⟩)
    (hanswer : memory.answer op.request = (.ok answer, memory'))
    (houtcome : op.request.outcome answer = .ok outcome)
    (hnext : (host []).result op.next [outcome] = pure q)
    (hrest : ∀ v : World Code Stores, v.outside = ⟨[memory']⟩ → ∃ u,
      (host []).Runs driver (Stores.backend 0) (steps + 1) q v ops (.value value u)) :
    ∃ u, (host []).Runs driver (Stores.backend 0) steps (.pending (.operation op)) w (op :: ops)
      (.value value u) := by
  have hwritten : (w.write (driver.stepLine steps (.operation op))).outside = ⟨[memory]⟩ := by
    rw [World.write_outside, h]
  rcases turn_store hwritten hanswer houtcome hnext with ⟨v, hturn, hv⟩
  rcases hrest v hv with ⟨u, hruns⟩
  exact ⟨u, .more hturn hruns⟩

/-! ## A program of several steps -/

/-- Stores a document, fetches it, stores it again in a list, and lists all documents.  A callback
makes each step out of what the steps before have brought. -/
def amendingSteps : List (Operation (Value Code)) :=
  let listing : Expr := .strict (.programOf .getAll) []
  let changing : Expr := .strict (.programThen .update)
    [.lit (.int 1), .strict .list [.var "doc"], .function ["done"] listing]
  let fetching : Expr := .strict (.programThen .getById)
    [.lit (.int 1), .function ["doc"] changing]
  [⟨.update (.int 1) (.text "a"), .fn (.callback (.function ["done"] fetching) [])⟩,
    ⟨.getById (.int 1), .fn (.callback (.function ["doc"] changing) [("done", .null)])⟩,
    ⟨.update (.int 1) (.list [.text "a"]), .fn (.callback (.function ["done"] listing)
      [("done", .null), ("doc", .text "a")])⟩,
    ⟨.getAll, .fn .finish⟩]

/-- The program that begins with the first of these steps. -/
def amending : Value Code :=
  .pending (.operation (amendingSteps.head (by simp [amendingSteps])))

theorem amending_runs (driver : Driver) : ∃ u,
    (host []).Runs driver (Stores.backend 0) 0 amending (emptyStore.write (.started driver))
      amendingSteps (.value (.list [.list [.text "a"]]) u) := by
  have hfinish : ∀ value, (host []).result (.fn .finish) [value] = pure (.terminal value) :=
    fun value => ((host_lawful []).result_fn .finish [value]).trans (Host.fully_const (host []) _)
  have hstart : (emptyStore.write (.started driver)).outside = ⟨[{}]⟩ := by
    rw [World.write_outside, emptyStore]
  exact exists_runs_store hstart rfl rfl (result_callback fun d => rfl) fun v hv =>
    exists_runs_store hv rfl rfl (result_callback fun d => rfl) fun u hu =>
      exists_runs_store hu rfl rfl (result_callback fun d => rfl) fun x hx =>
        exists_runs_store hx rfl rfl (hfinish _) fun y _ => ⟨_, .done (.finished _ y)⟩

end Workflow.Script

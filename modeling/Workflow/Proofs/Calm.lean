import Workflow.Proofs.Scripts
import Workflow.Proofs.Tame

/-!
# Calm scripts

A script is calm if no form that asks a backend, makes an executor or runs a driver stands
anywhere in it, the bodies of its functions and routines included (`Expr.calm`).  It may build
programs, call functions, raise and handle faults, and leave marks under given labels.

The functions of calm scripts may be vouched for: with globals to match, the host that scripts are
is tame (`Script.host_tame`).
-/

namespace Workflow.Script

/-! ## Calm expressions -/

/-- What a calm script may do besides building. -/
structure Allowance where
  /-- The labels that it may leave marks under. -/
  labels : List String := []
  /-- Whether it may call the continuation of an operation. -/
  continuations : Bool := false

def Primitive.calm (a : Allowance) : Primitive → Bool
  | .resolve | .executor | .runStepped | .evaluate => false
  | .next => a.continuations
  | _ => true

mutual

def Expr.calm (a : Allowance) : Expr → Bool
  | .lit _ | .var _ | .raise _ _ => true
  | .bind _ value body => value.calm a && body.calm a
  | .function _ body => body.calm a
  | .routine _ body => Stmt.allCalm a body
  | .branch test whenTrue whenFalse => test.calm a && whenTrue.calm a && whenFalse.calm a
  | .trace label value => a.labels.contains label && value.calm a
  | .guarded body _ handler => body.calm a && handler.calm a
  | .dict members => Expr.membersCalm a members
  | .strict primitive operands => primitive.calm a && Expr.allCalm a operands

def Expr.allCalm (a : Allowance) : List Expr → Bool
  | [] => true
  | e :: rest => e.calm a && Expr.allCalm a rest

def Expr.membersCalm (a : Allowance) : List (String × Expr) → Bool
  | [] => true
  | (_, e) :: rest => e.calm a && Expr.membersCalm a rest

def Stmt.calm (a : Allowance) : Stmt → Bool
  | .yield _ e | .assign _ e | .ret e => e.calm a
  | .branch test whenTrue whenFalse =>
      test.calm a && Stmt.allCalm a whenTrue && Stmt.allCalm a whenFalse
  | .loop _ items body => items.calm a && Stmt.allCalm a body
  | .guarded body _ _ handler final =>
      Stmt.allCalm a body && Stmt.allCalm a handler && Stmt.allCalm a final

def Stmt.allCalm (a : Allowance) : List Stmt → Bool
  | [] => true
  | statement :: rest => statement.calm a && Stmt.allCalm a rest

end

/-- The functions of a store belong to a backend. -/
def Code.calm (a : Allowance) : Code → Bool
  | .function _ body => body.calm a
  | .routine _ body => Stmt.allCalm a body
  | .store _ _ => false

/-- The code of calm scripts is vouched for. -/
def Allowance.terms (a : Allowance) : Terms Code where
  codes code := code.calm a = true
  continuations := a.continuations = true

variable {a : Allowance} {E : Effects Code Stores} {d : Dispatch Code Stores}

theorem lookup_found {globals scope : Scope Code} (hglobals : globals.Tame a.terms)
    (hscope : scope.Tame a.terms) (name : String) :
    Found a.terms (Value.Tame a.terms) (lookup globals scope name) := by
  unfold lookup
  split
  · exact .ok (hscope.get ‹_›)
  · split
    · exact .ok (hglobals.get ‹_›)
    · exact .error (Fault.tame_of_none rfl)

theorem bindParameters_found {captured : Scope Code} (hcaptured : captured.Tame a.terms)
    (parameters : List String) {arguments : List (Value Code)}
    (harguments : ∀ argument ∈ arguments, argument.Tame a.terms) :
    Found a.terms (Scope.Tame a.terms) (bindParameters captured parameters arguments) := by
  -- Each argument is bound in a scope that is tame already.
  have hfold : ∀ (entries : List (String × Value Code)) (scope : Scope Code),
      (∀ entry ∈ entries, entry.2.Tame a.terms) → scope.Tame a.terms →
      Scope.Tame a.terms (entries.foldl (fun scope entry => scope.set entry.1 entry.2) scope) := by
    intro entries
    induction entries with
    | nil => exact fun scope _ hscope => hscope
    | cons entry rest ih =>
        intro scope hentries hscope
        exact ih _ (fun e he => hentries e (List.mem_cons_of_mem entry he))
          (hscope.set (hentries entry (by simp)))
  unfold bindParameters
  split
  · exact .ok (hfold _ _ (fun entry h => harguments _ (List.of_mem_zip h).2) hcaptured)
  · exact .error (Fault.tame_of_none rfl)

theorem report_tame (cause : Fault Code) : Scope.Tame a.terms (report cause) := by
  refine List.forall_mem_cons.2 ⟨.text _, ?_⟩
  exact List.forall_mem_singleton.2 (.text _)

theorem carried_of_offender {cause : Fault Code} {value : Value Code}
    (h : cause.offender? = some value) : cause.carried? = some value := by
  cases cause <;> first | exact h | cases h

theorem fullReport_tame {cause : Fault Code} (h : cause.Tame a.terms) :
    Scope.Tame a.terms (fullReport cause) := by
  unfold fullReport
  split
  · intro member hmember
    rcases List.mem_append.1 hmember with hreport | hvalue
    · exact report_tame cause member hreport
    · cases List.mem_singleton.1 hvalue
      exact h _ (carried_of_offender ‹_›)
  · exact report_tame cause

mutual

theorem ofWritten_tame : ∀ data : Json, (Value.ofWritten data : Value Code).Tame a.terms
  | .null => .null
  | .bool b => .bool b
  | .int n => .int n
  | .text s => .text s
  | .array items => .list (ofWrittenItems_tame items)
  | .object members => by
      have hmembers := ofWrittenMembers_tame members
      unfold Value.ofWritten
      split
      -- A tuple is written as an object, whose one member is the list of its items.
      case h_6 items h =>
          cases h
          have hlist : (Value.list (Value.ofWrittenItems items) : Value Code).Tame a.terms :=
            hmembers ("$tuple", _) (List.mem_singleton_self _)
          cases hlist with
          | list hitems => exact .tuple hitems
      case h_7 => exact .int _
      case h_8 => exact .float _
      case h_9 => exact .bytes _
      case h_10 h =>
          cases h
          exact .dict hmembers
      all_goals contradiction

theorem ofWrittenItems_tame : ∀ items : List Json,
    ∀ item ∈ (Value.ofWrittenItems items : List (Value Code)), item.Tame a.terms
  | [] => by simp [Value.ofWrittenItems]
  | item :: rest => List.forall_mem_cons.2 ⟨ofWritten_tame item, ofWrittenItems_tame rest⟩

theorem ofWrittenMembers_tame : ∀ members : List (String × Json),
    Scope.Tame a.terms (Value.ofWrittenMembers members)
  | [] => by simp [Value.ofWrittenMembers, Scope.Tame]
  | (_, item) :: rest => List.forall_mem_cons.2 ⟨ofWritten_tame item, ofWrittenMembers_tame rest⟩

end

/-! ## Strict forms -/

theorem itemAt?_tame {items : List (Value Code)} (hitems : ∀ item ∈ items, item.Tame a.terms)
    {index : Int} {value : Value Code} (h : itemAt? items index = some value) :
    value.Tame a.terms := by
  unfold itemAt? at h
  split at h
  · exact hitems value (List.mem_of_getElem? h)
  · cases h

theorem mem_operands_of_id? {request : Request (Value Code)} {id : Value Code}
    (h : request.id? = some id) : id ∈ request.operands := by
  cases request <;> cases h <;> simp [Request.operands]

theorem mem_operands_of_doc? {request : Request (Value Code)} {doc : Value Code}
    (h : request.doc? = some doc) : doc ∈ request.operands := by
  cases request <;> cases h <;> simp [Request.operands]

variable {operands : List (Value Code)}

/-- The forms that compute with plain data give nothing that was not in their operands. -/
theorem Primitive.data?_tame (hoperands : ∀ operand ∈ operands, operand.Tame a.terms)
    {primitive : Primitive} {value : Value Code} (h : primitive.data? operands = some value) :
    value.Tame a.terms := by
  unfold Primitive.data? at h
  split at h
  case h_1 =>
      cases h
      exact .list hoperands
  case h_2 =>
      cases h
      exact .tuple hoperands
  case h_9 =>
      cases h
      rcases List.forall_mem_cons.1 hoperands with ⟨hleft, hrest⟩
      have hright := List.forall_mem_singleton.1 hrest
      exact .list (List.forall_mem_append.2 ⟨Value.tame_list.1 hleft, Value.tame_list.1 hright⟩)
  case h_14 =>
      have hmembers : Scope.Tame a.terms _ := Value.tame_dict.1 (hoperands _ List.mem_cons_self)
      exact hmembers.get h
  case h_15 => exact itemAt?_tame (Value.tame_list.1 (hoperands _ List.mem_cons_self)) h
  case h_16 => exact itemAt?_tame (Value.tame_tuple.1 (hoperands _ List.mem_cons_self)) h
  case h_17 =>
      cases h
      have hmembers : Scope.Tame a.terms _ := Value.tame_dict.1 (hoperands _ List.mem_cons_self)
      exact .dict (hmembers.set (hoperands _ (by simp)))
  case h_18 =>
      cases h
      refine .list fun item hitem => ?_
      rcases List.mem_map.1 hitem with ⟨n, _, rfl⟩
      exact .int _
  case h_21 =>
      have hop := Value.tame_operation.1 (hoperands _ List.mem_cons_self)
      exact hop.1 value (mem_operands_of_id? h)
  case h_22 =>
      have hop := Value.tame_operation.1 (hoperands _ List.mem_cons_self)
      exact hop.1 value (mem_operands_of_doc? h)
  case h_23 =>
      cases h
      exact Value.tame_pending.1 (List.forall_mem_singleton.1 hoperands)
  case h_24 =>
      cases h
      exact .terminal (List.forall_mem_singleton.1 hoperands)
  case h_25 =>
      cases h
      exact .pending (List.forall_mem_singleton.1 hoperands)
  case h_27 =>
      cases h
      exact Value.tame_query.1 (List.forall_mem_singleton.1 hoperands)
  case h_28 =>
      split at h
      · cases h
        exact operation_tame hoperands ‹_›
      · cases h
  case h_30 =>
      split at h
      · cases h
        exact .pending (operation_tame hoperands ‹_›)
      · cases h
  case h_29 =>
      split at h
      · cases h
        exact toProgram_tame (request?_tame hoperands ‹_›).1
      · cases h
  case h_31 =>
      rcases Option.map_eq_some_iff.1 h with ⟨program, hprogram, rfl⟩
      exact .query (Verb.program?_tame hoperands hprogram)
  case h_32 => cases h
  -- The other forms give numbers, truth values and texts.
  all_goals
    cases h
    constructor

theorem Primitive.run_inert (hd : d.Tame a.terms E) {primitive : Primitive}
    (hcalm : primitive.calm a = true) (hoperands : ∀ operand ∈ operands, operand.Tame a.terms) :
    (primitive.run d operands).Inert a.terms E (Value.Tame a.terms) := by
  have hfirst : ∀ {one : Value Code} {rest : List (Value Code)}, operands = one :: rest →
      one.Tame a.terms := fun h => hoperands _ (by simp [h])
  have hsecond : ∀ {one other : Value Code} {rest : List (Value Code)},
      operands = one :: other :: rest → other.Tame a.terms := fun h => hoperands _ (by simp [h])
  unfold Primitive.run
  split
  · exact hd _ _ (hfirst rfl) (List.forall_mem_cons.1 hoperands).2
  · exact .lift (mapOperation_found (hfirst rfl) (hsecond rfl))
  · -- The continuation may be called only if it is vouched for.
    have hnext := (Value.tame_operation.1 (hfirst rfl)).2 hcalm
    exact hd _ _ hnext (List.forall_mem_singleton.2 (hsecond rfl))
  · exact mapProgram_inert hd (hfirst rfl) (hsecond rfl)
  · exact andThen_inert hd (hfirst rfl) (hsecond rfl)
  · exact pair_inert hd (hfirst rfl) (hsecond rfl)
  · exact sequence_inert hd (hfirst rfl)
  · exact traverse_inert hd (hfirst rfl) (hsecond rfl)
  · exact .lift (ensureProgram_found (hfirst rfl))
  · exact .lift (Query.ofProgram_found (hfirst rfl))
  · exact Method.run_inert hd (Value.tame_query.1 (hfirst rfl))
      (List.forall_mem_cons.1 hoperands).2 _
  · exact Query.sequence_inert hd (hfirst rfl)
  · exact .lift (asProgram_found (hfirst rfl))
  -- Asking a backend, making an executor and the two drivers are not calm.
  · cases hcalm
  · cases hcalm
  · cases hcalm
  · cases hcalm
  · exact .fail (Fault.tame_of_carried rfl (hfirst rfl))
  · split
    · exact .pure (Primitive.data?_tame hoperands ‹_›)
    · exact .fail (Fault.tame_of_none rfl)

/-! ## Expressions -/

/-- The marks that the script may leave are among the effects. -/
def Allowance.Granted (a : Allowance) (E : Effects Code Stores) : Prop :=
  ∀ label value, label ∈ a.labels → ∀ w : World Code Stores,
    E.allows w { w with journal := .trace label value :: w.journal }

/-- The marks that the script may leave. -/
def Allowance.marks (a : Allowance) : String → Value Code → Prop :=
  fun label _ => label ∈ a.labels

theorem Allowance.granted_leaving (a : Allowance) {S : Type} (store : Stores → S) :
    a.Granted (.leaving store a.marks) :=
  fun _ _ hlabel => Effects.leaving_allows hlabel

section Expressions

variable {globals : Scope Code}

mutual

theorem Expr.eval_inert (hglobals : globals.Tame a.terms) (hE : a.Granted E)
    (hd : d.Tame a.terms E) :
    ∀ (e : Expr) {scope : Scope Code}, e.calm a = true → scope.Tame a.terms →
      (e.eval globals d scope).Inert a.terms E (Value.Tame a.terms)
  | .lit data, scope, _, _ => by
      simp only [Expr.eval]
      exact .pure (ofWritten_tame data)
  | .var name, scope, _, hscope => by
      simp only [Expr.eval]
      exact .lift (lookup_found hglobals hscope name)
  | .bind name value body, scope, hcalm, hscope => by
      simp only [Expr.calm, Bool.and_eq_true] at hcalm
      simp only [Expr.eval]
      exact (Expr.eval_inert hglobals hE hd value hcalm.1 hscope).bind fun _ hbound =>
        Expr.eval_inert hglobals hE hd body hcalm.2 (hscope.set hbound)
  | .function parameters body, scope, hcalm, hscope => by
      simp only [Expr.eval]
      exact .pure (.fn (.callback hcalm hscope))
  | .routine parameters body, scope, hcalm, hscope => by
      simp only [Expr.eval]
      exact .pure (.fn (.routine hcalm hscope))
  | .branch test whenTrue whenFalse, scope, hcalm, hscope => by
      simp only [Expr.calm, Bool.and_eq_true] at hcalm
      rcases hcalm with ⟨⟨htest, htrue⟩, hfalse⟩
      simp only [Expr.eval]
      refine (Expr.eval_inert hglobals hE hd test htest hscope).bind fun answer _ => ?_
      split
      · exact Expr.eval_inert hglobals hE hd whenTrue htrue hscope
      · exact Expr.eval_inert hglobals hE hd whenFalse hfalse hscope
      · exact .fail (Fault.tame_of_none rfl)
  | .trace label value, scope, hcalm, hscope => by
      simp only [Expr.calm, Bool.and_eq_true] at hcalm
      simp only [Expr.eval]
      refine (Expr.eval_inert hglobals hE hd value hcalm.2 hscope).bind fun marked hmarked => ?_
      exact (Action.Inert.record (hE label marked (List.contains_iff_mem.1 hcalm.1))).bind
        fun _ _ => .pure hmarked
  | .raise kind message, scope, _, _ => by
      simp only [Expr.eval]
      refine .fail ?_
      cases kind with
      | key => exact Fault.tame_of_carried rfl (.text message)
      | _ => exact Fault.tame_of_none rfl
  | .guarded body kind handler, scope, hcalm, hscope => by
      simp only [Expr.calm, Bool.and_eq_true] at hcalm
      simp only [Expr.eval]
      have hbody := Expr.eval_inert hglobals hE hd body hcalm.1 hscope
      refine hbody.attempt.bind fun answer hanswer => ?_
      cases hanswer with
      | ok hvalue => exact .pure hvalue
      | @error cause hcause =>
          -- The handler is told of the fault, with the value that was refused.
          simp only
          split
          · refine (Expr.eval_inert hglobals hE hd handler hcalm.2 hscope).bind fun f hf => ?_
            exact hd f _ hf (List.forall_mem_singleton.2 (.dict (fullReport_tame hcause)))
          · exact .fail hcause
  | .dict members, scope, hcalm, hscope => by
      simp only [Expr.eval]
      have hfound : Scope.Tame a.terms [] := by simp [Scope.Tame]
      exact (Expr.evalMembers_inert hglobals hE hd members hcalm hscope hfound).bind fun _ h =>
        .pure (.dict h)
  | .strict primitive operands, scope, hcalm, hscope => by
      simp only [Expr.calm, Bool.and_eq_true] at hcalm
      simp only [Expr.eval]
      exact (Expr.evalAll_inert hglobals hE hd operands hcalm.2 hscope).bind fun _ hvalues =>
        Primitive.run_inert hd hcalm.1 hvalues

theorem Expr.evalAll_inert (hglobals : globals.Tame a.terms) (hE : a.Granted E)
    (hd : d.Tame a.terms E) :
    ∀ (operands : List Expr) {scope : Scope Code}, Expr.allCalm a operands = true →
      scope.Tame a.terms →
      (Expr.evalAll globals d scope operands).Inert a.terms E fun values =>
        ∀ value ∈ values, value.Tame a.terms
  | [], scope, _, _ => by
      simp only [Expr.evalAll]
      exact .pure (by simp)
  | operand :: rest, scope, hcalm, hscope => by
      simp only [Expr.allCalm, Bool.and_eq_true] at hcalm
      simp only [Expr.evalAll]
      refine (Expr.eval_inert hglobals hE hd operand hcalm.1 hscope).bind fun value hvalue => ?_
      exact (Expr.evalAll_inert hglobals hE hd rest hcalm.2 hscope).bind fun values hvalues =>
        .pure (List.forall_mem_cons.2 ⟨hvalue, hvalues⟩)

theorem Expr.evalMembers_inert (hglobals : globals.Tame a.terms) (hE : a.Granted E)
    (hd : d.Tame a.terms E) :
    ∀ (members : List (String × Expr)) {scope found : Scope Code},
      Expr.membersCalm a members = true → scope.Tame a.terms → found.Tame a.terms →
      (Expr.evalMembers globals d scope members found).Inert a.terms E (Scope.Tame a.terms)
  | [], scope, found, _, _, hfound => by
      simp only [Expr.evalMembers]
      exact .pure hfound
  | (key, member) :: rest, scope, found, hcalm, hscope, hfound => by
      simp only [Expr.membersCalm, Bool.and_eq_true] at hcalm
      simp only [Expr.evalMembers]
      exact (Expr.eval_inert hglobals hE hd member hcalm.1 hscope).bind fun _ hvalue =>
        Expr.evalMembers_inert hglobals hE hd rest hcalm.2 hscope (hfound.set hvalue)

end

end Expressions

/-! ## Bodies -/

/-- What ends a block is tame: the value that it returns or the fault that it fails with. -/
inductive Completion.Tame (a : Allowance) : Completion → Prop
  | done : Completion.Tame a .done
  | returned {value : Value Code} : value.Tame a.terms → Completion.Tame a (.returned value)
  | failed {cause : Fault Code} : cause.Tame a.terms → Completion.Tame a (.failed cause)
  | closed : Completion.Tame a .closed

inductive Context.Tame (a : Allowance) : Context → Prop
  | branch : Context.Tame a .branch
  | loop {name : String} {items : List (Value Code)} {body : List Stmt} :
      (∀ item ∈ items, item.Tame a.terms) → Stmt.allCalm a body = true →
      Context.Tame a (.loop name items body)
  | guarded {kind name : String} {handler final : List Stmt} :
      Stmt.allCalm a handler = true → Stmt.allCalm a final = true →
      Context.Tame a (.guarded kind name handler final)
  | handling {final : List Stmt} : Stmt.allCalm a final = true → Context.Tame a (.handling final)
  | finishing {before : Completion} : before.Tame a → Context.Tame a (.finishing before)

structure Frame.Tame (a : Allowance) (frame : Frame) : Prop where
  context : frame.context.Tame a
  rest : Stmt.allCalm a frame.rest = true

/-- Calm statements are left in the body, and it holds tame values. -/
structure Body.Tame (a : Allowance) (body : Body) : Prop where
  scope : body.scope.Tame a.terms
  rest : Stmt.allCalm a body.rest = true
  frames : ∀ frame ∈ body.frames, frame.Tame a

inductive Control.Tame (a : Allowance) : Control → Prop
  | run {statements : List Stmt} :
      Stmt.allCalm a statements = true → Control.Tame a (.run statements)
  | finish {completion : Completion} : completion.Tame a → Control.Tame a (.finish completion)

inductive Stop.Tame (a : Allowance) : Stop → Prop
  | yielded {value : Value Code} {body : Body} :
      value.Tame a.terms → body.Tame a → Stop.Tame a (.yielded value body)
  | ended {completion : Completion} {scope : Scope Code} :
      completion.Tame a → scope.Tame a.terms → Stop.Tame a (.ended completion scope)

inductive Turn.Tame (a : Allowance) : Turn → Prop
  | stop {stop : Stop} : stop.Tame a → Turn.Tame a (.stop stop)
  | goOn {scope : Scope Code} {control : Control} {frames : List Frame} :
      scope.Tame a.terms → control.Tame a → (∀ frame ∈ frames, frame.Tame a) →
      Turn.Tame a (.goOn scope control frames)

section Bodies

variable {globals scope : Scope Code} {frames : List Frame}

theorem valueIn_inert (hglobals : globals.Tame a.terms) (hE : a.Granted E)
    (hd : d.Tame a.terms E) {e : Expr} (hcalm : e.calm a = true) (hscope : scope.Tame a.terms) :
    (valueIn globals d scope e).Inert a.terms E (Found a.terms (Value.Tame a.terms)) :=
  ((Expr.eval_inert hglobals hE hd e hcalm hscope).inside .generator).attempt

theorem Stmt.turn_inert {value? : Expr → Act (Except (Fault Code) (Value Code))}
    (hvalue : ∀ e : Expr, e.calm a = true →
      (value? e).Inert a.terms E (Found a.terms (Value.Tame a.terms)))
    {statement : Stmt} {rest : List Stmt} (hcalm : statement.calm a = true)
    (hscope : scope.Tame a.terms) (hrest : Stmt.allCalm a rest = true)
    (hframes : ∀ frame ∈ frames, frame.Tame a) :
    (statement.turn value? scope rest frames).Inert a.terms E (Turn.Tame a) := by
  have hfails : ∀ {cause : Fault Code}, cause.Tame a.terms →
      (Turn.fail scope frames cause).Tame a := fun hcause =>
    .goOn hscope (.finish (.failed hcause)) hframes
  have henter : ∀ {context : Context}, context.Tame a →
      ∀ frame ∈ (⟨context, rest⟩ :: frames : List Frame), frame.Tame a := fun hcontext =>
    List.forall_mem_cons.2 ⟨⟨hcontext, hrest⟩, hframes⟩
  cases statement with
  | yield name e =>
      refine (hvalue e hcalm).bind fun result hresult => ?_
      cases hresult with
      | ok hyielded => exact .pure (.stop (.yielded hyielded ⟨hscope, hrest, hframes⟩))
      | error hcause => exact .pure (hfails hcause)
  | assign name e =>
      refine (hvalue e hcalm).bind fun result hresult => ?_
      cases hresult with
      | ok hassigned => exact .pure (.goOn (hscope.set hassigned) (.run hrest) hframes)
      | error hcause => exact .pure (hfails hcause)
  | ret e =>
      refine (hvalue e hcalm).bind fun result hresult => ?_
      cases hresult with
      | ok hreturned => exact .pure (.goOn hscope (.finish (.returned hreturned)) hframes)
      | error hcause => exact .pure (hfails hcause)
  | branch test whenTrue whenFalse =>
      simp only [Stmt.calm, Bool.and_eq_true] at hcalm
      rcases hcalm with ⟨⟨htest, htrue⟩, hfalse⟩
      refine (hvalue test htest).bind fun result hresult => ?_
      split
      · exact .pure (.goOn hscope (.run htrue) (henter .branch))
      · exact .pure (.goOn hscope (.run hfalse) (henter .branch))
      · exact .pure (hfails (Fault.tame_of_none rfl))
      · cases hresult with
        | error hcause => exact .pure (hfails hcause)
  | loop name e body =>
      simp only [Stmt.calm, Bool.and_eq_true] at hcalm
      refine (hvalue e hcalm.1).bind fun result hresult => ?_
      split
      · cases hresult with
        | ok hlist =>
            have hitems := Value.tame_list.1 hlist
            exact .pure (.goOn hscope (.finish .done) (henter (.loop hitems hcalm.2)))
      · exact .pure (hfails (Fault.tame_of_none rfl))
      · cases hresult with
        | error hcause => exact .pure (hfails hcause)
  | guarded body kind name handler final =>
      simp only [Stmt.calm, Bool.and_eq_true] at hcalm
      rcases hcalm with ⟨⟨hbody, hhandler⟩, hfinal⟩
      exact .pure (.goOn hscope (.run hbody) (henter (.guarded hhandler hfinal)))

theorem Frame.turn_tame {frame : Frame} {completion : Completion} (hframe : frame.Tame a)
    (hscope : scope.Tame a.terms) (hframes : ∀ frame ∈ frames, frame.Tame a)
    (hcompletion : completion.Tame a) : (frame.turn scope frames completion).Tame a := by
  rcases frame with ⟨context, rest⟩
  rcases hframe with ⟨hcontext, hrest⟩
  have henter : ∀ {context : Context}, context.Tame a →
      ∀ frame ∈ (⟨context, rest⟩ :: frames : List Frame), frame.Tame a := fun hcontext =>
    List.forall_mem_cons.2 ⟨⟨hcontext, hrest⟩, hframes⟩
  have hgoOn : (Turn.goOn scope (.run rest) frames).Tame a := .goOn hscope (.run hrest) hframes
  unfold Frame.turn
  dsimp only
  split
  · exact hgoOn
  · exact hgoOn
  · cases hcontext with
    | loop hitems hbody =>
        rcases List.forall_mem_cons.1 hitems with ⟨hitem, hitems⟩
        exact .goOn (hscope.set hitem) (.run hbody) (henter (.loop hitems hbody))
  · cases hcontext with
    | guarded hhandler hfinal =>
        split
        · exact .goOn (hscope.set (.dict (report_tame _))) (.run hhandler)
            (henter (.handling hfinal))
        · exact .goOn hscope (.run hfinal) (henter (.finishing hcompletion))
  · cases hcontext with
    | guarded hhandler hfinal =>
        exact .goOn hscope (.run hfinal) (henter (.finishing hcompletion))
  · cases hcontext with
    | handling hfinal => exact .goOn hscope (.run hfinal) (henter (.finishing hcompletion))
  · exact hgoOn
  · exact hgoOn
  · cases hcontext with
    | finishing hbefore => exact .goOn hscope (.finish hbefore) hframes
  · cases hcontext with
    | finishing hbefore => exact .goOn hscope (.finish hbefore) hframes
  · exact .goOn hscope (.finish hcompletion) hframes

theorem turn_inert (hglobals : globals.Tame a.terms) (hE : a.Granted E) (hd : d.Tame a.terms E)
    {control : Control} (hscope : scope.Tame a.terms) (hcontrol : control.Tame a)
    (hframes : ∀ frame ∈ frames, frame.Tame a) :
    (turn globals d scope control frames).Inert a.terms E (Turn.Tame a) := by
  unfold turn
  split
  · exact .pure (.goOn hscope (.finish .done) hframes)
  · cases hcontrol with
    | run hstatements =>
        simp only [Stmt.allCalm, Bool.and_eq_true] at hstatements
        exact Stmt.turn_inert (fun e he => valueIn_inert hglobals hE hd he hscope) hstatements.1
          hscope hstatements.2 hframes
  · cases hcontrol with
    | finish hcompletion => exact .pure (.stop (.ended hcompletion hscope))
  · cases hcontrol with
    | finish hcompletion =>
        rcases List.forall_mem_cons.1 hframes with ⟨hframe, hframes⟩
        exact .pure (Frame.turn_tame hframe hscope hframes hcompletion)

theorem runBlocks_inert (hglobals : globals.Tame a.terms) (hE : a.Granted E)
    (hd : d.Tame a.terms E) :
    ∀ (rounds : Nat) {scope : Scope Code} {control : Control} {frames : List Frame},
      scope.Tame a.terms → control.Tame a → (∀ frame ∈ frames, frame.Tame a) →
      (runBlocks globals d rounds scope control frames).Inert a.terms E (Stop.Tame a)
  | 0, _, _, _, _, _, _ => .unfinished
  | rounds + 1, scope, control, frames, hscope, hcontrol, hframes => by
      refine (turn_inert hglobals hE hd hscope hcontrol hframes).bind fun next hnext => ?_
      cases hnext with
      | stop hstop => exact .pure hstop
      | goOn hscope hcontrol hframes =>
          exact runBlocks_inert hglobals hE hd rounds hscope hcontrol hframes

theorem closeBlocks_inert (hglobals : globals.Tame a.terms) (hE : a.Granted E)
    (hd : d.Tame a.terms E) :
    ∀ (again : Bool) (rounds : Nat) {scope : Scope Code} {completion : Completion}
      {frames : List Frame}, scope.Tame a.terms → completion.Tame a →
      (∀ frame ∈ frames, frame.Tame a) →
      (closeBlocks globals d again rounds scope completion frames).Inert a.terms E fun ended =>
        ended.1.Tame a ∧ ended.2.Tame a.terms
  | _, 0, _, _, _, _, _, _ => .unfinished
  | _, _ + 1, _, _, [], hscope, hcompletion, _ => .pure ⟨hcompletion, hscope⟩
  | again, rounds + 1, scope, completion, frame :: frames, hscope, hcompletion, hframes => by
      rcases List.forall_mem_cons.1 hframes with ⟨hframe, hframes⟩
      have hblock := runBlocks_inert hglobals hE hd d.rounds hscope (.finish hcompletion)
        (List.forall_mem_singleton.2 hframe)
      simp only [closeBlocks]
      refine hblock.bind fun stop hstop => ?_
      split
      · cases hstop with
        | ended hended hscope =>
            exact closeBlocks_inert hglobals hE hd again rounds hscope hended hframes
      · cases hstop with
        | ended hended hscope =>
            exact closeBlocks_inert hglobals hE hd again rounds hscope .closed hframes
      · cases hstop with
        | yielded hvalue hbody =>
            have hignored : (Completion.failed .ignoredExit).Tame a :=
              .failed (Fault.tame_of_none rfl)
            split
            · exact .pure ⟨hignored, hbody.scope⟩
            · refine (closeBlocks_inert hglobals hE hd true rounds hbody.scope .closed
                hbody.frames).bind fun ended hended => ?_
              exact closeBlocks_inert hglobals hE hd again rounds hended.2 hignored hframes

theorem Body.advance_inert (hglobals : globals.Tame a.terms) (hE : a.Granted E)
    (hd : d.Tame a.terms E) {body : Body} (hbody : body.Tame a) {sent : Value Code}
    (hsent : sent.Tame a.terms) :
    (body.advance globals d sent).Inert a.terms E (Progress.Tame a.terms (Body.Tame a)) := by
  have hscope : (body.scopeWith sent).Tame a.terms := by
    unfold Body.scopeWith
    split
    · exact hbody.scope.set hsent
    · exact hbody.scope
  unfold Body.advance
  refine (runBlocks_inert hglobals hE hd _ hscope (.run hbody.rest) hbody.frames).bind
    fun stop hstop => ?_
  cases hstop with
  | yielded hvalue hbody => exact .pure (.yielded hvalue hbody)
  | ended hended hscope =>
      cases hended with
      | returned hvalue => exact .pure (.returned hvalue)
      | failed hcause => exact .fail hcause
      | done | closed => exact .pure (.returned .null)

theorem Body.close_inert (hglobals : globals.Tame a.terms) (hE : a.Granted E)
    (hd : d.Tame a.terms E) {body : Body} (hbody : body.Tame a) :
    (body.close globals d).Inert a.terms E fun _ => True := by
  unfold Body.close
  refine (closeBlocks_inert hglobals hE hd false _ hbody.scope .closed hbody.frames).bind
    fun ended hended => ?_
  split
  · cases hended.1 with
    | failed hcause => exact .fail hcause
  · exact .pure trivial

/-! ## The host -/

theorem Body.ofCode_found {code : Code} (hcode : code.calm a = true) {captured : Scope Code}
    (hcaptured : captured.Tame a.terms) {arguments : List (Value Code)}
    (harguments : ∀ argument ∈ arguments, argument.Tame a.terms) :
    Found a.terms (Body.Tame a) (Body.ofCode code captured arguments) := by
  cases code with
  | routine parameters body =>
      exact (bindParameters_found hcaptured parameters harguments).bind fun scope hscope =>
        .ok ⟨hscope, hcode, by simp⟩
  | function | store => exact .error (Fault.tame_of_none rfl)

theorem callCode_inert (hglobals : globals.Tame a.terms) (hE : a.Granted E)
    (hd : d.Tame a.terms E) {code : Code} (hcode : code.calm a = true) {captured : Scope Code}
    (hcaptured : captured.Tame a.terms) {arguments : List (Value Code)}
    (harguments : ∀ argument ∈ arguments, argument.Tame a.terms) :
    (callCode globals d code captured arguments).Inert a.terms E (Value.Tame a.terms) := by
  cases code with
  | function parameters body =>
      exact (Action.Inert.lift (bindParameters_found hcaptured parameters harguments)).bind
        fun scope hscope => Expr.eval_inert hglobals hE hd body hcode hscope
  | routine parameters body => exact .fail (Fault.tame_of_none rfl)
  | store number kind => cases hcode

end Bodies

/-- With calm globals, scripts are a tame host. -/
theorem host_tame {globals : Scope Code} (hglobals : globals.Tame a.terms) (hE : a.Granted E) :
    (host globals).Tame a.terms E (Body.Tame a) where
  callback hwithin hd _ _ _ hcode hcaptured harguments :=
    callCode_inert hglobals (fun label value hlabel w => hwithin (hE label value hlabel w)) hd hcode
      hcaptured harguments
  start hcode hcaptured harguments := .lift (Body.ofCode_found hcode hcaptured harguments)
  advance hwithin hd _ _ hbody hsent :=
    Body.advance_inert hglobals (fun label value hlabel w => hwithin (hE label value hlabel w)) hd
      hbody hsent
  close hwithin hd _ hbody :=
    Body.close_inert hglobals (fun label value hlabel w => hwithin (hE label value hlabel w)) hd
      hbody

end Workflow.Script

import Workflow.Proofs.Inert
import Workflow.Proofs.Parts

/-!
# Disciplines that actions keep

A discipline grants effects, among them whatever the library does by itself: recording events that
are no log lines, writing lines through the log, and changing the outside.  An action keeps the
discipline if it has no other effects, however it ends (`Action.Keeps`).  Calls keep it if the host
does (`Host.Keeps.call`), and so do the drivers, whatever executor they are given.

Unlike a congruence a discipline says something about single runs, and it may tell log lines apart
from all other events.  Scripts keep every discipline (`Script.host_keeps`).
-/

namespace Workflow

variable {κ β σ α γ : Type}

/-- Effects among which there is all that the library does by itself. -/
structure Discipline (κ β : Type) extends Effects κ β where
  record : ∀ {event : Event κ}, event.isLine = false → ∀ w : World κ β,
    allows w { w with journal := event :: w.journal }
  write : ∀ (line : LogLine κ) (w : World κ β), allows w (w.write line)
  outside : ∀ (change : β → β) (w : World κ β), allows w { w with outside := change w.outside }

namespace Action

/-- However the action ends, what it has done to the world is granted. -/
structure Keeps (D : Discipline κ β) (x : Action κ β α) : Prop where
  allows : ∀ {w v : World κ β}, (x.run w).world? = some v → D.allows w v

namespace Keeps

variable {D : Discipline κ β} {x : Action κ β α}

protected theorem pure (a : α) : (pure a : Action κ β α).Keeps D where
  allows h := by
    cases h
    exact D.refl _

protected theorem fail (cause : Fault κ) : (Action.fail cause : Action κ β α).Keeps D where
  allows h := by
    cases h
    exact D.refl _

protected theorem unfinished : (Action.unfinished : Action κ β α).Keeps D where
  allows h := by cases h

theorem bind {f : α → Action κ β γ} (hx : x.Keeps D) (hf : ∀ a, (f a).Keeps D) :
    (x >>= f).Keeps D where
  allows {w v} h := by
    cases hrun : x.run w with
    | value a u =>
        have hfirst : D.allows w u := hx.allows (by rw [hrun]; rfl)
        rw [run_bind_of_value f hrun] at h
        exact D.trans hfirst ((hf a).allows h)
    | fault cause u =>
        rw [run_bind_of_fault f hrun] at h
        exact hx.allows (by rw [hrun]; exact h)
    | unfinished =>
        rw [run_bind_of_unfinished f hrun] at h
        cases h

theorem attempt (hx : x.Keeps D) : x.attempt.Keeps D where
  allows {w v} h := by
    -- The world is left as the action leaves it, whatever becomes of a fault.
    have hworld : (x.attempt.run w).world? = (x.run w).world? := by
      rw [run_attempt]
      cases x.run w <;> rfl
    rw [hworld] at h
    exact hx.allows h

theorem lift (result : Except (Fault κ) α) : (liftM result : Action κ β α).Keeps D := by
  cases result with
  | ok a => exact .pure a
  | error cause => exact .fail cause

theorem mapFault (change : Fault κ → Fault κ) (hx : x.Keeps D) : (x.mapFault change).Keeps D := by
  rw [mapFault_eq_attempt]
  refine hx.attempt.bind fun result => ?_
  cases result with
  | ok a => exact .pure a
  | error cause => exact .fail _

theorem await (hx : x.Keeps D) : (Workflow.await x).Keeps D :=
  hx.mapFault _

theorem record {event : Event κ} (h : event.isLine = false) :
    (Action.record event : Action κ β Unit).Keeps D where
  allows hv := by
    cases hv
    exact D.record h _

theorem log (line : LogLine κ) : (Action.log line : Action κ β Unit).Keeps D where
  allows h := by
    rw [run_log] at h
    cases h
    exact D.write line _

protected theorem outside : (Action.outside : Action κ β β).Keeps D where
  allows h := by
    cases h
    exact D.refl _

theorem modifyOutside (change : β → β) :
    (Action.modifyOutside change : Action κ β Unit).Keeps D where
  allows h := by
    cases h
    exact D.outside change _

theorem limit {family : Nat → Action κ β α} (h : ∀ depth, (family depth).Keeps D) :
    (Action.limit family).Keeps D where
  allows {w v} hv := by
    -- What the limit does one of its members does.
    obtain ⟨depth, hd⟩ := Rising.exists_of_limit rfl (Outcome.finished_of_world? hv)
    rw [← hd] at hv
    exact (h depth).allows hv

end Keeps

end Action

/-- All calls keep the discipline. -/
def Dispatch.Keeps (D : Discipline κ β) (d : Dispatch κ β) : Prop :=
  ∀ f arguments, (d.apply f arguments).Keeps D

namespace Dispatch.Keeps

open Action.Keeps

variable {D : Discipline κ β} {d : Dispatch κ β}

/-! ## Programs and queries -/

theorem mapProgram (h : d.Keeps D) (f program : Value κ) :
    (Workflow.mapProgram d f program).Keeps D := by
  cases program with
  | terminal value => exact (h f [value]).bind fun _ => .pure _
  | pending operation => exact (lift _).bind fun _ => .pure _
  | _ => exact .fail _

theorem andThen (h : d.Keeps D) (program f : Value κ) :
    (Workflow.andThen d program f).Keeps D := by
  cases program with
  | terminal value => exact h f [value]
  | pending operation => exact (lift _).bind fun _ => .pure _
  | _ => exact .fail _

theorem sequenceFrom (h : d.Keeps D) :
    ∀ programs results : List (Value κ), (Workflow.sequenceFrom d programs results).Keeps D
  | [], _ => .pure _
  | program :: remaining, results => by
      cases program with
      | terminal value => exact sequenceFrom h remaining (value :: results)
      | _ => exact h.andThen _ _

theorem mapItems (h : d.Keeps D) (f : Value κ) :
    ∀ items : List (Value κ), (Workflow.mapItems d f items).Keeps D
  | [] => .pure _
  | item :: rest => (h f [item]).bind fun _ => (mapItems h f rest).bind fun _ => .pure _

theorem traverse (h : d.Keeps D) (f items : Value κ) : (Workflow.traverse d f items).Keeps D :=
  (lift _).bind fun listed => (h.mapItems f listed).bind fun _ => h.sequenceFrom _ _

theorem wrapping {x : Action κ β (Value κ)} (hx : x.Keeps D) : (Query.wrapping x).Keeps D :=
  hx.bind fun _ => lift _

theorem querySequence (h : d.Keeps D) (queries : Value κ) :
    (Query.sequence d queries).Keeps D :=
  (lift _).bind fun _ => wrapping (h.sequenceFrom _ _)

/-! ## Backends and drivers -/

theorem resolve (h : d.Keeps D) (backend : Backend (Value κ)) (operation : Value κ) :
    (backend.resolve d operation).Keeps D := by
  cases operation with
  | operation op =>
      rcases op with ⟨request, next⟩
      refine (record rfl).bind fun _ => ?_
      cases request with
      | getById id => exact h _ _
      | getAll => exact (h _ _).bind fun _ => (lift _).bind fun _ => .pure _
      | update id doc => exact (h _ _).bind fun _ => .pure _
      | create doc => exact h _ _
  | _ => exact .fail _

theorem resolveAsync (h : d.Keeps D) (backend : Backend (Value κ)) (operation : Value κ) :
    (backend.resolveAsync d operation).Keeps D := by
  cases operation with
  | operation op =>
      rcases op with ⟨request, next⟩
      refine (record rfl).bind fun _ => ?_
      cases request with
      | getById id => exact (h _ _).await
      | getAll => exact (h _ _).await.bind fun _ => (lift _).bind fun _ => .pure _
      | update id doc => exact (h _ _).await.bind fun _ => .pure _
      | create doc => exact (h _ _).await
  | _ => exact .fail _

theorem execute (h : d.Keeps D) (backend : Backend (Value κ)) (operation : Value κ) :
    (backend.execute d operation).Keeps D := by
  cases operation with
  | operation op => exact (h.resolve backend _).bind fun _ => h _ _
  | _ => exact .fail _

theorem executeAsync (h : d.Keeps D) (backend : Backend (Value κ)) (operation : Value κ) :
    (backend.executeAsync d operation).Keeps D := by
  cases operation with
  | operation op => exact (h.resolveAsync backend _).await.bind fun _ => h _ _
  | _ => exact .fail _

theorem evaluateRest (h : d.Keeps D) (executor program : Value κ) :
    (Workflow.evaluateRest d executor program).Keeps D := by
  cases program with
  | terminal value => exact .pure _
  | pending operation => exact (log _).bind fun _ => (lift _).bind fun _ => h _ _
  | _ => exact .fail _

theorem loop (driver : Driver) {hand : Value κ → Action κ β (Value κ)}
    (h : ∀ operation, (hand operation).Keeps D) :
    ∀ (rounds steps : Nat) (current : Value κ), (driver.loop hand rounds steps current).Keeps D
  | 0, _, _ => .unfinished
  | rounds + 1, steps, current => by
      -- Only a step goes on to another round.
      cases current with
      | terminal value => exact (log _).bind fun _ => .pure _
      | pending operation =>
          refine (log _).bind fun _ => (h operation).bind fun next => ?_
          exact loop driver h rounds (steps + 1) next
      | _ => exact .fail _

theorem goOn (h : d.Keeps D) (driver : Driver) (executor : Value κ) (steps : Nat) (p : Value κ) :
    (driver.goOn d executor steps p).Keeps D := by
  cases driver with
  | eager =>
      exact (h.evaluateRest executor p).bind fun _ => (log _).bind fun _ => .pure _
  | stepped | awaited =>
      exact loop _ (fun operation => (h executor [operation]).mapFault _) d.rounds steps p

theorem drive (h : d.Keeps D) (driver : Driver) (executor p : Value κ) :
    (driver.drive d executor p).Keeps D := by
  rw [Driver.drive_eq]
  exact (log _).bind fun _ => h.goOn driver executor 0 p

end Dispatch.Keeps

/-! ## Hosts -/

/-- What the host does keeps the discipline if the calls that it makes do. -/
structure Host.Keeps (host : Host κ β σ) (D : Discipline κ β) : Prop where
  callback : ∀ {d : Dispatch κ β}, d.Keeps D → ∀ code captured arguments,
    (host.callback d code captured arguments).Keeps D
  start : ∀ code captured arguments, (host.start code captured arguments).Keeps D
  advance : ∀ {d : Dispatch κ β}, d.Keeps D → ∀ body sent, (host.advance d body sent).Keeps D
  close : ∀ {d : Dispatch κ β}, d.Keeps D → ∀ body, (host.close d body).Keeps D

namespace Host.Keeps

variable {host : Host κ β σ} {D : Discipline κ β} {d : Dispatch κ β}

theorem feed (hk : host.Keeps D) (h : d.Keeps D) :
    ∀ (values : List (Value κ)) (progress : Progress κ σ), (host.feed d progress values).Keeps D
  | [], _ => by
      simp only [Host.feed]
      exact .pure _
  | sent :: rest, progress => by
      cases progress with
      | yielded value body => exact (hk.advance h body sent).bind fun _ => feed hk h rest _
      | returned value => exact .pure _

theorem closeWith (hk : host.Keeps D) (h : d.Keeps D) (body : σ) (cause : Fault κ) :
    (host.closeWith d body cause).Keeps D :=
  (hk.close h body).bind fun _ => .fail cause

theorem settle (hk : host.Keeps D) (h : d.Keeps D) (rest : List (Value κ) → Value κ) :
    ∀ (rounds : Nat) (received : List (Value κ)) (progress : Progress κ σ),
      (host.settle d rest rounds received progress).Keeps D
  | 0, _, _ => .unfinished
  | rounds + 1, received, progress => by
      cases progress with
      | returned value => exact .pure _
      | yielded value body =>
          simp only [Host.settle]
          -- What is yielded is refused, is finished, or waits.
          split
          · exact hk.closeWith h body _
          · exact (hk.advance h body _).bind fun _ => settle hk h rest rounds _ _
          · exact (hk.close h body).bind fun _ => h.andThen _ _

theorem resume (hk : host.Keeps D) (h : d.Keeps D) (code : κ) (captured : Scope κ)
    (arguments received : List (Value κ)) :
    (host.resume d code captured arguments received).Keeps D := by
  refine (hk.start code captured arguments).bind fun body => ?_
  refine (hk.advance h body .null).bind fun first => ?_
  exact (hk.feed h received first).bind fun _ => hk.settle h _ _ _ _

theorem invoke (hk : host.Keeps D) (h : d.Keeps D) (f : Callable κ)
    (arguments : List (Value κ)) : (host.invoke d f arguments).Keeps D := by
  unfold Host.invoke
  split
  · exact hk.callback h _ _ _
  · exact hk.resume h _ _ _ _
  · exact hk.resume h _ _ _ _
  · exact h.execute _ _
  · exact h.executeAsync _ _
  · exact .pure _
  · exact .lift _
  · exact .pure _
  · exact .pure _
  · exact (h _ _).bind fun _ => h _ _
  · exact h.mapProgram _ _
  · exact h.andThen _ _
  · exact h.evaluateRest _ _
  · exact h.mapProgram _ _
  · exact h.sequenceFrom _ _
  · exact .fail _

theorem call (hk : host.Keeps D) :
    ∀ (depth : Nat) (f : Value κ) (arguments : List (Value κ)),
      (host.call depth f arguments).Keeps D
  | 0, _, _ => .unfinished
  | depth + 1, f, arguments => by
      -- A call hands its parts the calls of one level less.
      have hd : Dispatch.Keeps D ⟨host.call depth, depth⟩ := fun f arguments =>
        call hk depth f arguments
      cases f with
      | fn f => exact hk.invoke hd f arguments
      | _ => exact .fail _

theorem dispatch (hk : host.Keeps D) (depth : Nat) : (host.dispatch depth).Keeps D :=
  hk.call depth

/-- The marks that a host leaves are no log lines. -/
theorem recorded (hk : host.Keeps D) : host.recorded.Keeps D where
  callback h code captured arguments :=
    (Action.Keeps.record rfl).bind fun _ => hk.callback h code captured arguments
  start code captured arguments :=
    (Action.Keeps.record rfl).bind fun _ => hk.start code captured arguments
  advance h body sent := (Action.Keeps.record rfl).bind fun _ => hk.advance h body sent
  close h body := (Action.Keeps.record rfl).bind fun _ => hk.close h body

end Host.Keeps

/-! ## Scripts -/

namespace Script

open Action.Keeps

variable {D : Discipline Code Stores} {d : Dispatch Code Stores}

theorem presentBackend_keeps : presentBackend.Keeps D :=
  Action.Keeps.outside.bind fun _ => .pure _

theorem askStore_keeps (number : Nat) (request : Request (Value Code)) :
    (askStore number request).Keeps D := by
  refine Action.Keeps.outside.bind fun stores => ?_
  cases stores.memories[number]? with
  | none => exact .fail _
  | some memory => exact (modifyOutside _).bind fun _ => lift (memory.answer request).1

theorem Method.run_keeps (h : d.Keeps D) (program : Value Code) (method : Method)
    (operands : List (Value Code)) : (method.run d program operands).Keeps D := by
  unfold Method.run
  split
  · exact Dispatch.Keeps.wrapping (h.andThen _ _)
  · exact Dispatch.Keeps.wrapping (h.mapProgram _ _)
  · unfold Query.zip
    split
    · exact Dispatch.Keeps.wrapping (h.andThen _ _)
    · exact .fail _
  · exact Dispatch.Keeps.wrapping (h.andThen _ _)
  · exact Dispatch.Keeps.wrapping (h.andThen _ _)
  · exact Dispatch.Keeps.wrapping (h.andThen _ _)
  · exact h.querySequence _
  · exact .fail _

theorem Primitive.run_keeps (h : d.Keeps D) (primitive : Primitive)
    (operands : List (Value Code)) : (primitive.run d operands).Keeps D := by
  unfold Primitive.run
  split
  · exact h _ _
  · exact lift _
  · exact h _ _
  · exact h.mapProgram _ _
  · exact h.andThen _ _
  · exact h.andThen _ _
  · exact (lift _).bind fun _ => h.sequenceFrom _ _
  · exact h.traverse _ _
  · exact lift _
  · exact lift _
  · exact Method.run_keeps h _ _ _
  · exact h.querySequence _
  · exact lift _
  · exact presentBackend_keeps.bind fun b => h.resolve b _
  · exact presentBackend_keeps.bind fun _ => .pure _
  · exact h.drive .stepped _ _
  · exact h.drive .eager _ _
  · exact .fail _
  · split
    · exact .pure _
    · exact .fail _

variable (globals : Scope Code)

mutual

theorem Expr.eval_keeps (h : d.Keeps D) :
    ∀ (e : Expr) (scope : Scope Code), (e.eval globals d scope).Keeps D
  | .lit data, scope => by
      simp only [Expr.eval]
      exact .pure _
  | .var name, scope => by
      simp only [Expr.eval]
      exact lift (lookup globals scope name)
  | .bind name value body, scope => by
      simp only [Expr.eval]
      exact (Expr.eval_keeps h value scope).bind fun _ => Expr.eval_keeps h body _
  | .function parameters body, scope => by
      simp only [Expr.eval]
      exact .pure _
  | .routine parameters body, scope => by
      simp only [Expr.eval]
      exact .pure _
  | .branch test whenTrue whenFalse, scope => by
      simp only [Expr.eval]
      refine (Expr.eval_keeps h test scope).bind fun answer => ?_
      split
      · exact Expr.eval_keeps h whenTrue scope
      · exact Expr.eval_keeps h whenFalse scope
      · exact .fail _
  | .trace label value, scope => by
      simp only [Expr.eval]
      refine (Expr.eval_keeps h value scope).bind fun _ => ?_
      exact (record rfl).bind fun _ => .pure _
  | .raise kind message, scope => by
      simp only [Expr.eval]
      exact .fail _
  | .guarded body kind handler, scope => by
      simp only [Expr.eval]
      refine (Expr.eval_keeps h body scope).attempt.bind fun answer => ?_
      split
      · exact .pure _
      · split
        · exact (Expr.eval_keeps h handler scope).bind fun f => h f _
        · exact .fail _
  | .dict members, scope => by
      simp only [Expr.eval]
      exact (Expr.evalMembers_keeps h members scope []).bind fun _ => .pure _
  | .strict primitive operands, scope => by
      simp only [Expr.eval]
      refine (Expr.evalAll_keeps h operands scope).bind fun values => ?_
      exact Primitive.run_keeps h primitive values

theorem Expr.evalAll_keeps (h : d.Keeps D) :
    ∀ (operands : List Expr) (scope : Scope Code),
      (Expr.evalAll globals d scope operands).Keeps D
  | [], scope => by
      simp only [Expr.evalAll]
      exact .pure _
  | operand :: rest, scope => by
      simp only [Expr.evalAll]
      refine (Expr.eval_keeps h operand scope).bind fun _ => ?_
      exact (Expr.evalAll_keeps h rest scope).bind fun _ => .pure _

theorem Expr.evalMembers_keeps (h : d.Keeps D) :
    ∀ (members : List (String × Expr)) (scope found : Scope Code),
      (Expr.evalMembers globals d scope members found).Keeps D
  | [], scope, found => by
      simp only [Expr.evalMembers]
      exact .pure _
  | (key, member) :: rest, scope, found => by
      simp only [Expr.evalMembers]
      refine (Expr.eval_keeps h member scope).bind fun _ => ?_
      exact Expr.evalMembers_keeps h rest scope _

end

theorem Stmt.turn_keeps {value? : Expr → Act (Except (Fault Code) (Value Code))}
    (h : ∀ e, (value? e).Keeps D) (scope : Scope Code) (rest : List Stmt) (frames : List Frame)
    (statement : Stmt) : (statement.turn value? scope rest frames).Keeps D := by
  cases statement with
  | guarded body kind name handler final => exact .pure _
  | yield name e | assign name e | ret e | branch e whenTrue whenFalse | loop name e body =>
      refine (h e).bind fun answer => ?_
      split <;> exact .pure _

theorem turn_keeps (h : d.Keeps D) (scope : Scope Code) (control : Control)
    (frames : List Frame) : (turn globals d scope control frames).Keeps D := by
  unfold turn
  split
  · exact .pure _
  · exact Stmt.turn_keeps (fun e => ((Expr.eval_keeps globals h e scope).mapFault _).attempt) scope
      _ _ _
  · exact .pure _
  · exact .pure _

theorem runBlocks_keeps (h : d.Keeps D) :
    ∀ (rounds : Nat) (scope : Scope Code) (control : Control) (frames : List Frame),
      (runBlocks globals d rounds scope control frames).Keeps D
  | 0, _, _, _ => .unfinished
  | rounds + 1, scope, control, frames => by
      refine (turn_keeps globals h scope control frames).bind fun next => ?_
      cases next with
      | stop stop => exact .pure _
      | goOn scope control frames => exact runBlocks_keeps h rounds scope control frames

theorem closeBlocks_keeps (h : d.Keeps D) :
    ∀ (rounds : Nat) (again : Bool) (scope : Scope Code) (completion : Completion)
      (frames : List Frame), (closeBlocks globals d again rounds scope completion frames).Keeps D
  | 0, _, _, _, _ => .unfinished
  | _ + 1, _, _, _, [] => .pure _
  | rounds + 1, again, scope, completion, frame :: frames => by
      refine (runBlocks_keeps globals h _ _ _ _).bind fun stop => ?_
      split
      · exact closeBlocks_keeps h rounds again _ _ frames
      · exact closeBlocks_keeps h rounds again _ _ frames
      · split
        · exact .pure _
        · exact (closeBlocks_keeps h rounds true _ _ _).bind fun _ =>
            closeBlocks_keeps h rounds again _ _ frames

theorem Body.advance_keeps (h : d.Keeps D) (body : Body) (sent : Value Code) :
    (body.advance globals d sent).Keeps D := by
  refine (runBlocks_keeps globals h _ _ _ _).bind fun stop => ?_
  split
  · exact .pure _
  · exact .pure _
  · exact .fail _
  · exact .pure _
  · exact .pure _

theorem Body.close_keeps (h : d.Keeps D) (body : Body) : (body.close globals d).Keeps D := by
  refine (closeBlocks_keeps globals h _ _ _ _ _).bind fun _ => ?_
  split
  · exact .fail _
  · exact .pure _

theorem callCode_keeps (h : d.Keeps D) (code : Code) (captured : Scope Code)
    (arguments : List (Value Code)) : (callCode globals d code captured arguments).Keeps D := by
  cases code with
  | function parameters body =>
      exact (lift _).bind fun scope => Expr.eval_keeps globals h body scope
  | routine parameters body => exact .fail _
  | store number kind =>
      simp only [callCode]
      split
      · exact askStore_keeps number _
      · exact .fail _

/-- Whatever a script does is put together from what every discipline grants. -/
theorem host_keeps (D : Discipline Code Stores) : (host globals).Keeps D where
  callback h code captured arguments := callCode_keeps globals h code captured arguments
  start code captured arguments := lift (Body.ofCode code captured arguments)
  advance h body sent := Body.advance_keeps globals h body sent
  close h body := Body.close_keeps globals h body

end Script

end Workflow

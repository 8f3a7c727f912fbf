import Workflow.Proofs.Associativity
import Workflow.Proofs.Unlogged

/-!
# Evaluating what was built

The eager driver hands every operation to the executor together with a continuation that evaluates
the rest, and the executor may call it as often as it likes.  So an evaluation is a tree, and a
combinator has changed the continuation at each of its nodes.  It may as well be evaluated in one
go (`evaluateInto`): the program goes through the executor as it is, and at each leaf the function
`k` is called on the value that the program has finished with.

Evaluating a program that `f` follows is evaluating the program into the evaluation of what `f`
answers; evaluating a program with `f` applied to its result is evaluating it into `f`
(`Host.evaluate_built`).  The two sides write different log lines, which are left out.
-/

namespace Workflow

variable {κ β σ : Type}

/-- Evaluates a program and calls `k` on its value; `rest` does the same with the program that a
continuation answers. -/
def evaluateInto (d : Dispatch κ β) (executor k rest : Value κ) : Value κ → Action κ β (Value κ)
  | .terminal value => d.apply k [value]
  | .pending waiting => do d.apply executor [← mapOperation rest waiting]
  | value => .fail (.invalidProgram value)

namespace Host

variable {host : Host κ β σ} {executor k rest f p : Value κ}

/-- Calls of `rest` on programs evaluate them into `k`. -/
def EvaluatesInto (host : Host κ β σ) (executor k rest : Value κ) : Prop :=
  ∀ depth p, host.call (depth + 1) rest [p] =
    evaluateInto (host.dispatch depth) executor k rest p

/-- The executor uses continuations only by calling them, and it does not see what is written to
the debug log meanwhile: what it answers depends on what calls of the continuation answer which
nest one call less deep. -/
def CallsUnlogged (host : Host κ β σ) (executor : Value κ) : Prop :=
  ∀ depth request next next',
    (∀ outcome, (host.call depth next [outcome]).unlogged.Below Eq Eq
      (host.result next' [outcome]).unlogged) →
    (host.call (depth + 1) executor [.operation ⟨request, next⟩]).unlogged.Below Eq Eq
      (host.result executor [.operation ⟨request, next'⟩]).unlogged

/-! ## Evaluating into a function -/

/-- A program evaluated into `k`, at unbounded depth. -/
noncomputable def evaluatedInto (host : Host κ β σ) (executor k rest p : Value κ) :
    Action κ β (Value κ) :=
  host.fully fun d => evaluateInto d executor k rest p

theorem evaluatedInto_refused (executor k rest : Value κ) {waiting : Value κ}
    (h : ∀ op, waiting ≠ .operation op) :
    host.evaluatedInto executor k rest (.pending waiting) = .fail (.unknownOperation waiting) := by
  have hfail : ∀ d : Dispatch κ β, evaluateInto d executor k rest (.pending waiting) =
      .fail (.unknownOperation waiting) := by
    intro d
    simp only [evaluateInto, mapOperation_refused _ h]
    rfl
  simp only [evaluatedInto, hfail]
  exact fully_const host _

theorem evaluatedInto_invalid (executor k rest : Value κ) (h : p.isProgram = false) :
    host.evaluatedInto executor k rest p = .fail (.invalidProgram p) := by
  cases p with
  | terminal value => cases h
  | pending waiting => cases h
  | _ => exact fully_const host _

/-- What the function does that goes on with an evaluation is the evaluation. -/
theorem EvaluatesInto.result_eq (lawful : host.Lawful)
    (hrest : host.EvaluatesInto executor k rest) (p : Value κ) :
    host.result rest [p] = host.evaluatedInto executor k rest p := by
  have hshift := Action.limit_shift (lawful.rising_call rest [p])
  simp only [hrest _ p] at hshift
  exact hshift.symm

theorem call_blind (lawful : host.Lawful) (depth : Nat) (g : Value κ)
    (arguments : List (Value κ)) : (host.call depth g arguments).Blind :=
  ((lawful.dispatch_blind depth).apply g arguments).2

theorem evaluateRest_blind (lawful : host.Lawful) (depth : Nat) (executor p : Value κ) :
    (evaluateRest (host.dispatch depth) executor p).Blind :=
  (Congruence.evaluateRest (lawful.dispatch_blind depth) executor p).2

/-- The operation that an eager evaluation hands to the executor. -/
def Operation.evaluating (executor : Value κ) (op : Operation (Value κ)) : Value κ :=
  .operation ⟨op.request, .fn (.compose (.fn (.evalRest executor)) op.next)⟩

/-- The line of a step left out, an evaluation is a call of the executor. -/
theorem evaluateRest_operation_unlogged (lawful : host.Lawful) (depth : Nat) (executor : Value κ)
    (op : Operation (Value κ)) :
    (evaluateRest (host.dispatch depth) executor (.pending (.operation op))).unlogged =
      (host.call depth executor [Operation.evaluating executor op]).unlogged := by
  rw [evaluateRest_waiting]
  exact Action.unlogged_log_bind (f := fun _ => host.call depth executor _) _
    (call_blind lawful depth _ _)

theorem evaluated_operation_unlogged (lawful : host.Lawful) (executor : Value κ)
    (op : Operation (Value κ)) :
    (host.evaluated executor (.pending (.operation op))).unlogged =
      (host.result executor [Operation.evaluating executor op]).unlogged := by
  rw [evaluated_operation lawful]
  exact Action.unlogged_log_bind _ (lawful.result_blind _ _)

/-! ## A combinator and the evaluation of what it builds -/

/-- A combinator finishes into `k` if evaluating what it makes of a finished program is calling
`k` on the value. -/
structure FinishesInto (host : Host κ β σ) (executor k : Value κ)
    (T : Value κ → Action κ β (Value κ)) : Prop extends host.Walks T where
  blind : ∀ p, (T p).Blind
  finished : ∀ value, (T (.terminal value) >>= host.evaluated executor).unlogged =
    (host.result k [value]).unlogged

namespace FinishesInto

variable {T : Value κ → Action κ β (Value κ)}

theorem evaluated_blind (lawful : host.Lawful) (hT : host.FinishesInto executor k T)
    (p : Value κ) : (T p >>= host.evaluated executor).Blind :=
  (hT.blind p).bind fun q => Host.evaluated_blind lawful executor q

/-- Where no operation is waited on, evaluating what was built is evaluating into `k`. -/
theorem idle (hT : host.FinishesInto executor k T) (rest : Value κ)
    (hp : ∀ op, p ≠ .pending (.operation op)) :
    (T p >>= host.evaluated executor).unlogged =
      (host.evaluatedInto executor k rest p).unlogged := by
  rcases program_cases p with ⟨value, rfl⟩ | ⟨op, rfl⟩ | ⟨waiting, rfl, hwaiting⟩ | hinvalid
  · exact hT.finished value
  · exact absurd rfl (hp op)
  · rw [hT.refused waiting hwaiting, evaluatedInto_refused executor k rest hwaiting]
    rfl
  · rw [hT.invalid p hinvalid, evaluatedInto_invalid executor k rest hinvalid]
    rfl

theorem idle_below (lawful : host.Lawful) (hT : host.FinishesInto executor k T) (depth : Nat)
    (hp : ∀ op, p ≠ .pending (.operation op)) :
    (T p >>= evaluateRest (host.dispatch depth) executor).unlogged.Below Eq Eq
      (host.evaluatedInto executor k rest p).unlogged := by
  have happrox : (T p >>= evaluateRest (host.dispatch depth) executor).Approx
      (T p >>= host.evaluated executor) :=
    (Action.Approx.refl _).bind fun q =>
      lawful.approx_fully (deepens_evaluateRest executor q) depth
  rw [← hT.idle rest hp]
  exact (hT.evaluated_blind lawful p).unlogged_matches.below.of_approx happrox.unlogged

/-- At every depth, evaluating what was built does no more than evaluating into `k`. -/
theorem evaluateRest_below (lawful : host.Lawful) (hE : host.CallsUnlogged executor)
    (hrest : host.EvaluatesInto executor k rest) (hT : host.FinishesInto executor k T)
    (depth : Nat) (p : Value κ) :
    (T p >>= evaluateRest (host.dispatch depth) executor).unlogged.Below Eq Eq
      (host.evaluatedInto executor k rest p).unlogged := by
  -- On the depth, since the rest is evaluated in a call that nests deeper.
  induction depth generalizing p with
  | zero =>
      by_cases hp : ∃ op, p = .pending (.operation op)
      · rcases hp with ⟨op, rfl⟩
        rcases hT.waiting op with ⟨next, hbuilt, _⟩
        rw [hbuilt, pure_bind, evaluateRest_operation_unlogged lawful]
        exact Action.unfinished_below
      · exact hT.idle_below lawful 0 fun op h => hp ⟨op, h⟩
  | succ depth ih =>
      by_cases hp : ∃ op, p = .pending (.operation op)
      · rcases hp with ⟨op, rfl⟩
        rcases hT.waiting op with ⟨next, hbuilt, hnext, _⟩
        have hright : host.evaluatedInto executor k rest (.pending (.operation op)) =
            host.result executor [.operation ⟨op.request, .fn (.compose rest op.next)⟩] := rfl
        rw [hbuilt, pure_bind, evaluateRest_operation_unlogged lawful, hright]
        refine hE depth op.request _ _ fun outcome => ?_
        -- Both continuations call the program's own one first.
        have hown := (lawful.result_blind op.next [outcome]).unlogged_matches.below
        have hbelow : (host.result op.next [outcome] >>= fun q =>
            T q >>= evaluateRest (host.dispatch depth) executor).unlogged.Below Eq Eq
              (host.result op.next [outcome] >>= fun q => host.result rest [q]).unlogged := by
          rw [Action.unlogged_bind _ fun q => (hT.blind q).bind fun r =>
              evaluateRest_blind lawful depth executor r,
            Action.unlogged_bind _ fun q => lawful.result_blind rest [q]]
          refine hown.bind fun q _ h => ?_
          rw [← h, hrest.result_eq lawful]
          exact ih q
        have happrox := call_compose_approx lawful executor next outcome depth
        rw [hnext, bind_assoc] at happrox
        rw [lawful.result_compose]
        exact hbelow.of_approx happrox.unlogged
      · exact hT.idle_below lawful (depth + 1) fun op h => hp ⟨op, h⟩

/-- At every depth, evaluating into `k` does no more than evaluating what was built. -/
theorem below_evaluated (lawful : host.Lawful) (hE : host.CallsUnlogged executor)
    (hrest : host.EvaluatesInto executor k rest) (hT : host.FinishesInto executor k T)
    (depth : Nat) (p : Value κ) :
    (host.call depth rest [p]).unlogged.Below Eq Eq
      (T p >>= host.evaluated executor).unlogged := by
  -- On the depth of the call, which the executor's call and its own calls of `rest` stay below.
  induction depth generalizing p with
  | zero => exact Action.unfinished_below
  | succ depth ih =>
      by_cases hp : ∃ op, p = .pending (.operation op)
      · rcases hp with ⟨op, rfl⟩
        rcases hT.waiting op with ⟨next, hbuilt, hnext, _⟩
        have hleft : host.call (depth + 1) rest [.pending (.operation op)] =
            host.call depth executor [.operation ⟨op.request, .fn (.compose rest op.next)⟩] :=
          hrest depth _
        rw [hleft, hbuilt, pure_bind, evaluated_operation_unlogged lawful]
        cases depth with
        | zero => exact Action.unfinished_below
        | succ depth =>
            refine hE depth op.request _ _ fun outcome => ?_
            have hown := (lawful.result_blind op.next [outcome]).unlogged_matches.below
            have hbelow : (host.result op.next [outcome] >>= fun q =>
                host.call (depth + 1) rest [q]).unlogged.Below Eq Eq
                  (host.result op.next [outcome] >>= fun q =>
                    T q >>= host.evaluated executor).unlogged := by
              rw [Action.unlogged_bind _ fun q => call_blind lawful (depth + 1) rest [q],
                Action.unlogged_bind _ fun q => hT.evaluated_blind lawful q]
              exact hown.bind fun q _ h => h ▸ ih q
            have hresult : host.result (.fn (.compose (.fn (.evalRest executor)) next)) [outcome] =
                (host.result op.next [outcome] >>= fun q => T q >>= host.evaluated executor) := by
              rw [lawful.result_compose, hnext, bind_assoc]
              exact congrArg (_ >>= ·) (funext fun q => congrArg (T q >>= ·)
                (funext fun r => lawful.result_fn (.evalRest executor) [r]))
            -- The composed continuation calls its parts with one call less.
            have happrox : (host.call depth (.fn (.compose rest op.next)) [outcome]).Approx
                (host.result op.next [outcome] >>= fun q => host.call (depth + 1) rest [q]) := by
              cases depth with
              | zero => exact .of_unfinished _
              | succ depth =>
                  exact (lawful.call_approx depth op.next [outcome]).bind fun q =>
                    (lawful.rising_call rest [q]).approx (by omega)
            rw [hresult]
            exact hbelow.of_approx happrox.unlogged
      · rw [hT.idle rest fun op h => hp ⟨op, h⟩, ← hrest.result_eq lawful]
        have hself := (lawful.result_blind rest [p]).unlogged_matches.below
        exact hself.of_approx (lawful.call_approx (depth + 1) rest [p]).unlogged

/-- Evaluating what a combinator builds is evaluating its program into `k`. -/
theorem evaluated_matches (lawful : host.Lawful) (hE : host.CallsUnlogged executor)
    (hrest : host.EvaluatesInto executor k rest) (hT : host.FinishesInto executor k T)
    (p : Value κ) :
    (T p >>= host.evaluated executor).unlogged.Matches Eq Eq
      (host.evaluatedInto executor k rest p).unlogged := by
  have hthere : (T p >>= host.evaluated executor).unlogged.Below Eq Eq
      (host.evaluatedInto executor k rest p).unlogged := by
    have hlimit : (T p >>= host.evaluated executor) =
        host.fully fun d => T p >>= evaluateRest d executor :=
      (lawful.fully_bind_left (T p) fun q => deepens_evaluateRest executor q).symm
    rw [hlimit]
    exact Action.Below.unlogged_limit fun depth =>
      hT.evaluateRest_below lawful hE hrest depth p
  have hback : (host.evaluatedInto executor k rest p).unlogged.Below Eq Eq
      (T p >>= host.evaluated executor).unlogged := by
    rw [← hrest.result_eq lawful]
    exact Action.Below.unlogged_limit fun depth => hT.below_evaluated lawful hE hrest depth p
  exact hthere.matches hback

end FinishesInto

/-! ## Continuing and mapping -/

theorem mapped_blind (lawful : host.Lawful) (f p : Value κ) : (host.mapped f p).Blind :=
  lawful.fully_blind (deepens_mapProgram f p) fun depth =>
    (Congruence.mapProgram (lawful.dispatch_blind depth) f p).2

/-- The two lines of an evaluation left out, it is what is between them. -/
theorem driven_eager_unlogged (lawful : host.Lawful) (executor p : Value κ) :
    (host.driven .eager executor p).unlogged = (host.evaluated executor p).unlogged := by
  have hgoing : (host.fully fun d => Driver.eager.goOn d executor 0 p) =
      (host.evaluated executor p >>= fun value =>
        Action.log (Driver.eager.finishLine 0) >>= fun _ => pure value) :=
    lawful.fully_bind_right (deepens_evaluateRest executor p) _
  have hfinish : ∀ value : Value κ,
      (Action.log (Driver.eager.finishLine 0) >>= fun _ => pure value : Action κ β _).Blind :=
    fun value => (Congruence.blind.bind (Congruence.blind.log _) fun _ =>
      Congruence.blind.value value).2
  have hlast : ∀ value : Value κ,
      (Action.log (Driver.eager.finishLine 0) >>= fun _ => pure value : Action κ β _).unlogged =
        (pure value : Action κ β _).unlogged := fun value =>
    Action.unlogged_log_bind _ (Congruence.blind.value value).2
  have hpure : ∀ value : Value κ, (pure value : Action κ β (Value κ)).Blind := fun value =>
    (Congruence.blind.value value).2
  calc
    (host.driven .eager executor p).unlogged
        = (host.evaluated executor p >>= fun value =>
            Action.log (Driver.eager.finishLine 0) >>= fun _ => pure value).unlogged := by
          rw [driven_eq lawful, hgoing]
          exact Action.unlogged_log_bind _ ((Host.evaluated_blind lawful executor p).bind hfinish)
    _ = (host.evaluated executor p >>= pure).unlogged := by
          rw [Action.unlogged_bind _ hfinish, Action.unlogged_bind _ hpure]
          simp only [hlast]
    _ = (host.evaluated executor p).unlogged := by rw [bind_pure]

/-- A program that `f` follows is evaluated into the evaluation of what `f` answers. -/
theorem finishesInto_continued (lawful : host.Lawful)
    (hk : ∀ value, (host.result k [value]).unlogged =
      (host.result f [value] >>= host.driven .eager executor).unlogged) :
    host.FinishesInto executor k fun p => host.continued p f where
  toWalks := walks_continued lawful f
  blind p := continued_blind lawful p f
  finished value := by
    have hterminal : host.continued (.terminal value) f = host.result f [value] := rfl
    rw [hk, hterminal, Action.unlogged_bind _ (Host.evaluated_blind lawful executor),
      Action.unlogged_bind _ (driven_blind lawful .eager executor)]
    simp only [driven_eager_unlogged lawful]

/-- A program with `f` applied to its result is evaluated into `f`. -/
theorem finishesInto_mapped (lawful : host.Lawful) (executor f : Value κ) :
    host.FinishesInto executor f fun p => host.mapped f p where
  toWalks := walks_mapped lawful f
  blind p := mapped_blind lawful f p
  finished value := by
    have hfinished : ∀ answer, host.evaluated executor (.terminal answer) = pure answer :=
      fun answer => fully_const host _
    have hvalue : (host.mapped f (.terminal value) >>= host.evaluated executor) =
        host.result f [value] := by
      simp only [mapped_terminal lawful, bind_assoc, pure_bind, hfinished, bind_pure]
    rw [hvalue]

/-- The executor over a backend asks it and calls the continuation once. -/
theorem callsUnlogged_executorOver (lawful : host.Lawful) (b : Backend (Value κ)) :
    host.CallsUnlogged (Driver.eager.executorOver b) := by
  intro depth request next next' hnext
  have hresult : host.result (Driver.eager.executorOver b) [.operation ⟨request, next'⟩] =
      (host.ask b request >>= fun outcome => host.result next' [outcome]) := by
    rw [result_executorOver lawful]
    simp only [Driver.leaving, Action.mapFault_id]
  have hcall : (host.call (depth + 1) (Driver.eager.executorOver b)
      [.operation ⟨request, next⟩]).Approx
        (host.ask b request >>= fun outcome => host.call depth next [outcome]) :=
    (lawful.approx_fully (deepens_resolve b _) depth).bind fun _ => .refl _
  have hbelow : (host.ask b request >>= fun outcome =>
      host.call depth next [outcome]).unlogged.Below Eq Eq
        (host.ask b request >>= fun outcome => host.result next' [outcome]).unlogged := by
    rw [Action.unlogged_bind _ fun outcome => call_blind lawful depth next [outcome],
      Action.unlogged_bind _ fun outcome => lawful.result_blind next' [outcome]]
    exact (ask_blind lawful b request).unlogged_matches.below.bind fun outcome _ h => h ▸ hnext outcome
  rw [hresult]
  exact hbelow.of_approx hcall.unlogged

end Host

/-! ## A script that evaluates into a function -/

namespace Script

/-- The executor that calls each continuation twice also calls it only. -/
theorem callsUnlogged_twice (globals : Scope Code) : (host globals).CallsUnlogged twice := by
  have lawful := host_lawful globals
  intro depth request next next' hnext
  have hcall : (host globals).call (depth + 1) twice [.operation ⟨request, next⟩] =
      (Action.record (.trace "asked" (.operation ⟨request, next⟩)) >>= fun _ =>
        (host globals).call depth next [.int 1] >>= fun _ =>
          (host globals).call depth next [.int 2]) := rfl
  have hresult : (host globals).result twice [.operation ⟨request, next'⟩] =
      (Action.record (.trace "asked" (.operation ⟨request, next'⟩)) >>= fun _ =>
        (host globals).result next' [.int 1] >>= fun _ =>
          (host globals).result next' [.int 2]) := by
    have hcalls := lawful.fully_bind (f := fun d => d.apply next' [.int 1])
      (g := fun d _ => d.apply next' [.int 2]) (fun h => h.apply _ _) fun _ => fun h => h.apply _ _
    have hwhole := lawful.fully_bind_left
      (Action.record (.trace "asked" (.operation ⟨request, next'⟩)))
      (g := fun d _ => d.apply next' [.int 1] >>= fun _ => d.apply next' [.int 2]) fun _ => by
        intro d d' h
        exact (h.apply _ _).bind fun _ => h.apply _ _
    rw [hcalls] at hwhole
    exact (lawful.result_fn _ _).trans hwhole
  have hresultBlind := lawful.result_blind next'
  have hcallBlind := Host.call_blind lawful depth next
  rw [hcall, hresult, Action.unlogged_bind _ fun _ => (hcallBlind _).bind fun _ => hcallBlind _,
    Action.unlogged_bind _ fun _ => (hresultBlind _).bind fun _ => hresultBlind _]
  refine Action.Below.bind (Action.record_matches ?_).unlogged.below fun _ _ _ => ?_
  · rfl
  rw [Action.unlogged_bind _ fun _ => hcallBlind _, Action.unlogged_bind _ fun _ => hresultBlind _]
  exact (hnext (.int 1)).bind fun _ _ _ => hnext (.int 2)

/-- The function of a script that evaluates a program into the function `k`, if it goes by the
name of `into` among the globals.  It puts what the program waits on into a list, which stays
empty where that fails. -/
def into (executor k : Value Code) : Value Code :=
  .fn (.callback (.function ["p"]
    (.branch (.strict .isProgram [.var "p"])
      (.bind "found" (.guarded (.strict .list [.strict .operation [.var "p"]]) "ScriptError"
          (.function ["_"] (.strict .list [])))
        (.branch (.strict .lt [.strict .len [.var "found"], .lit (.int 1)])
          (.strict .andThen [.var "p", .var "k"])
          (.strict .call [.var "executor", .strict .mapOperation
            [.var "into", .strict .get [.var "found", .lit (.int 0)]]])))
      (.strict .ensureProgram [.var "p"])))
    [("executor", executor), ("k", k)])

theorem evaluatesInto_into (executor : Callable Code) (k : Value Code) :
    (host [("into", into (.fn executor) k)]).EvaluatesInto (.fn executor) k
      (into (.fn executor) k) := by
  intro depth p
  cases p with
  | terminal value => cases depth <;> rfl
  | pending waiting => cases waiting <;> rfl
  | _ => rfl

end Script

/-! ## Binds and maps -/

namespace Host

variable {host : Host κ β σ} {executor : Value κ}

/-- Evaluating a bind or a map is evaluating the program as it is, into a function that is called
at its leaves: for a program that `f` follows, the function that evaluates what `f` answers, and
for a program with `f` applied to its result, `f` itself.  That holds of every executor that uses
continuations only by calling them, however often it does.  Both ways end with the same value or
the same fault, or neither ends, and everything that is noted down of the calls of the executor
and of `f` is noted down alike and in the same order, continuations and log lines aside. -/
theorem evaluate_built_into (lawful : host.Lawful) (hE : host.CallsUnlogged executor)
    (p f : Value κ) :
    (∀ k rest, (∀ value, (host.result k [value]).unlogged =
          (host.fully fun d => do
            let q ← d.apply f [value]
            evaluate d executor q).unlogged) →
        host.EvaluatesInto executor k rest →
        (host.fully fun d => do
            let whole ← andThen d p f
            evaluate d executor whole).unlogged.Matches Eq Eq
          (host.fully fun d => evaluateInto d executor k rest p).unlogged) ∧
      ∀ rest, host.EvaluatesInto executor f rest →
        (host.fully fun d => do
            let whole ← mapProgram d f p
            evaluate d executor whole).unlogged.Matches Eq Eq
          (host.fully fun d => evaluateInto d executor f rest p).unlogged := by
  -- The lines of an evaluation aside, it is evaluated what was built.
  have hbuilt : ∀ {build : Dispatch κ β → Action κ β (Value κ)}, Deepens build →
      (host.fully fun d => build d >>= evaluate d executor).unlogged =
        (host.fully build >>= host.evaluated executor).unlogged := by
    intro build hbuild
    have hsplit : (host.fully fun d => build d >>= evaluate d executor) =
        (host.fully build >>= host.driven .eager executor) :=
      lawful.fully_bind hbuild fun q => deepens_drive .eager executor q
    rw [hsplit, Action.unlogged_bind _ (driven_blind lawful .eager executor),
      Action.unlogged_bind _ (Host.evaluated_blind lawful executor)]
    simp only [driven_eager_unlogged lawful]
  constructor
  · intro k rest hk hrest
    have hfinish : ∀ value, (host.result k [value]).unlogged =
        (host.result f [value] >>= host.driven .eager executor).unlogged := by
      intro value
      have hsplit : (host.fully fun d => d.apply f [value] >>= evaluate d executor) =
          (host.result f [value] >>= host.driven .eager executor) :=
        lawful.fully_bind (fun h => h.apply f [value]) fun q => deepens_drive .eager executor q
      rw [hk, hsplit]
    rw [hbuilt (deepens_andThen p f)]
    exact (finishesInto_continued lawful hfinish).evaluated_matches lawful hE hrest p
  · intro rest hrest
    rw [hbuilt (deepens_mapProgram f p)]
    exact (finishesInto_mapped lawful executor f).evaluated_matches lawful hE hrest p

/-- A document is asked for under an executor that calls each continuation twice, and a script
that leaves a mark on the document asks for all of them: evaluating the bind is evaluating the
request into a script that evaluates what the first one answers, and evaluating the map is
evaluating it into the first script. -/
theorem evaluate_built_into_twice :
    let f : Value Script.Code := .fn (.callback (.function ["doc"]
      (.bind "mark" (.trace "doc" (.var "doc")) (.strict (.programOf .getAll) []))) [])
    let k : Value Script.Code := .fn (.callback (.function ["doc"]
      (.bind "q" (.strict .call [.var "f", .var "doc"])
        (.strict .evaluate [.var "executor", .var "q"])))
      [("executor", Script.twice), ("f", f)])
    let bound := Script.host [("into", Script.into Script.twice k)]
    let plain := Script.host [("into", Script.into Script.twice f)]
    let p : Value Script.Code := Request.toProgram (.getById (.text "a"))
    bound.CallsUnlogged Script.twice ∧ plain.CallsUnlogged Script.twice ∧
      bound.EvaluatesInto Script.twice k (Script.into Script.twice k) ∧
      plain.EvaluatesInto Script.twice f (Script.into Script.twice f) ∧
      (bound.fully fun d => do
          let whole ← andThen d p f
          evaluate d Script.twice whole).unlogged.Matches Eq Eq
        (bound.fully fun d =>
          evaluateInto d Script.twice k (Script.into Script.twice k) p).unlogged ∧
      (plain.fully fun d => do
          let whole ← mapProgram d f p
          evaluate d Script.twice whole).unlogged.Matches Eq Eq
        (plain.fully fun d =>
          evaluateInto d Script.twice f (Script.into Script.twice f) p).unlogged := by
  intro f k bound plain p
  have lawful : bound.Lawful := Script.host_lawful _
  have hk : ∀ value, (bound.result k [value]).unlogged =
      (bound.fully fun d => do
        let q ← d.apply f [value]
        evaluate d Script.twice q).unlogged := by
    intro value
    have hcall : bound.result k [value] =
        bound.fully fun d => d.apply f [value] >>= evaluate d Script.twice :=
      (lawful.result_fn _ [value]).trans rfl
    rw [hcall]
  have hbound : bound.CallsUnlogged Script.twice := Script.callsUnlogged_twice _
  have hplain : plain.CallsUnlogged Script.twice := Script.callsUnlogged_twice _
  have hinto : bound.EvaluatesInto Script.twice k (Script.into Script.twice k) :=
    Script.evaluatesInto_into _ k
  have hinto' : plain.EvaluatesInto Script.twice f (Script.into Script.twice f) :=
    Script.evaluatesInto_into _ f
  exact ⟨hbound, hplain, hinto, hinto',
    (evaluate_built_into lawful hbound p f).1 k _ hk hinto,
    (evaluate_built_into (Script.host_lawful _) hplain p f).2 _ hinto'⟩

end Host

end Workflow

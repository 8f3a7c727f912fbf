import Workflow.Proofs.Executors
import Workflow.Proofs.Scripts
import Workflow.Proofs.Threading

/-!
# Continuing is associative

Continuing a program with `f` and then with `g` is continuing it with the function that does what
`f` does and continues the answer with `g`; and continuing it with the function that finishes
changes nothing, as long as nothing but programs comes up on its way.  In both cases the programs
cannot be told apart, so that they run in matching ways under each of the three drivers and with
every executor that only calls continuations (`Host.drive_continued_laws`).
-/

namespace Workflow

variable {κ β σ : Type}

namespace Host

variable {host : Host κ β σ} {f g h : Value κ}

/-! ## The same program -/

/-- The function `h` does what `f` does and continues the program that `f` answers with `g`. -/
def Chains (host : Host κ β σ) (h f g : Value κ) : Prop :=
  ∀ value, host.result h [value] = (host.result f [value] >>= fun q => host.continued q g)

theorem chains_compose (lawful : host.Lawful) (f g : Value κ) :
    host.Chains (.fn (.compose (.fn (.thenRest g)) f)) f g := by
  intro value
  rw [lawful.result_compose]
  exact congrArg (_ >>= ·) (funext fun q => lawful.result_thenRest g q)

theorem continued_continued_same (lawful : host.Lawful) (hchains : host.Chains h f g)
    (p : Value κ) (w : World κ β) :
    Outcome.Related host.Same
      ((host.continued p f >>= fun q => host.continued q g).run w) ((host.continued p h).run w) := by
  have htwice : host.Walks fun p => host.continued p f >>= fun q => host.continued q g :=
    (walks_continued lawful f).comp (walks_continued lawful g).toThreads
  refine htwice.same (walks_continued lawful h) (fun value v => ?_) p w
  -- A finished program leaves the two functions to be called.
  have hcall : (host.continued (.terminal value) f >>= fun q => host.continued q g) =
      host.continued (.terminal value) h := (hchains value).symm
  rw [hcall]
  exact .refl Same.refl _

theorem continued_finish_same (lawful : host.Lawful) {p : Value κ} (hp : host.Sound p)
    (w : World κ β) :
    Outcome.Related host.Same ((host.continued p (.fn .finish)).run w) (.value p w) := by
  refine Threads.same sound_invariant (walks_continued lawful _).toThreads threads_pure ?_ p hp w
  intro p hp hidle v
  cases hp.step with
  | waiting op => exact absurd rfl (hidle op)
  | finished value =>
      have hfinish : host.continued (.terminal value) (.fn .finish) = pure (.terminal value) :=
        result_finish lawful value
      rw [hfinish]
      exact .value v (.refl _)

/-! ## The same run -/

/-- Two ways to build the same program are followed by matching runs. -/
theorem driven_matches (lawful : host.Lawful) {driver : Driver} {executor : Value κ}
    (hE : host.CallsOnly executor driver) {x y : Action κ β (Value κ)} (hy : y.Blind)
    (hsame : ∀ w, Outcome.Related host.Same (x.run w) (y.run w)) :
    (x >>= host.driven driver executor).Matches (host.SameValue driver) (host.SameFault driver)
      (y >>= host.driven driver executor) := by
  have hbuilt : x.Matches host.Same (host.SameFault driver) y :=
    hy.matches_of_related (SameFault.refl driver) hsame
  exact hbuilt.bind fun p q hpq => hpq.driven lawful hE

/-- Continuing is associative and finishing changes nothing, under every driver and with every
executor that only calls continuations.  The two sides ask for the same operations in the same
order, call the same functions on the same values, leave the same world and end with the same
value or fault, or neither ends; over `host.recorded` every call is an event of the world. -/
theorem drive_continued_laws (lawful : host.Lawful) (driver : Driver) {executor : Value κ}
    (hE : host.CallsOnly executor driver) (hchains : host.Chains h f g) (p : Value κ) :
    Action.Matches (host.SameValue driver) (host.SameFault driver)
        (host.fully fun d => do
          let first ← andThen d p f
          let whole ← andThen d first g
          driver.drive d executor whole)
        (host.fully fun d => do
          let whole ← andThen d p h
          driver.drive d executor whole) ∧
      (host.Sound p → Action.Matches (host.SameValue driver) (host.SameFault driver)
        (host.fully fun d => do
          let whole ← andThen d p (.fn .finish)
          driver.drive d executor whole)
        (host.fully fun d => driver.drive d executor p)) := by
  have hbuilt : ∀ p f, (host.fully fun d => andThen d p f >>= driver.drive d executor) =
      (host.continued p f >>= host.driven driver executor) := fun p f =>
    lawful.fully_bind (deepens_andThen p f) fun q => deepens_drive driver executor q
  have htwice : (host.fully fun d => andThen d p f >>= fun first =>
      andThen d first g >>= driver.drive d executor) =
        ((host.continued p f >>= fun first => host.continued first g) >>=
          host.driven driver executor) := by
    have hsplit := lawful.fully_bind (deepens_andThen (β := β) p f)
      (g := fun d first => andThen d first g >>= driver.drive d executor) fun first => by
        intro d d' h
        exact (deepens_andThen first g h).bind fun q => deepens_drive driver executor q h
    simp only [hbuilt] at hsplit
    rw [hsplit, bind_assoc]
    rfl
  constructor
  · have hmatch := driven_matches lawful hE (continued_blind lawful p h) fun w =>
      continued_continued_same lawful hchains p w
    rw [← htwice, ← hbuilt] at hmatch
    exact hmatch
  · intro hp
    have hmatch := driven_matches lawful hE (y := pure p) (fun _ _ => rfl) fun w =>
      continued_finish_same lawful hp w
    rw [← hbuilt, pure_bind] at hmatch
    exact hmatch

end Host

/-! ## An executor of a script -/

namespace Script

/-- It notes down what it is given, calls the continuation on two outcomes of its own and answers
what the second call answers. -/
def twice : Value Code :=
  .fn (.callback (.function ["op"]
    (.bind "asked" (.trace "asked" (.var "op"))
      (.bind "first" (.strict .next [.var "op", .lit (.int 1)])
        (.strict .next [.var "op", .lit (.int 2)])))) [])

theorem call_twice (depth : Nat) (v : Value Code) :
    (host []).call (depth + 1) twice [v] =
      (Action.record (.trace "asked" v) >>= fun _ =>
        Primitive.next.run ((host []).dispatch depth) [v, .int 1] >>= fun _ =>
          Primitive.next.run ((host []).dispatch depth) [v, .int 2]) := rfl

/-- What the continuation of `v` answers on an outcome, at unbounded depth. -/
noncomputable def answered (v outcome : Value Code) : Act (Value Code) :=
  (host []).fully fun d => Primitive.next.run d [v, outcome]

theorem deepens_next (v outcome : Value Code) :
    Deepens fun d : Dispatch Code Stores => Primitive.next.run d [v, outcome] :=
  fun h => Primitive.run_respects h .next [v, outcome]

theorem answered_refused {v : Value Code} (h : ∀ op, v ≠ .operation op) (outcome : Value Code) :
    answered v outcome = .fail (.badOperand "next") := by
  cases v with
  | operation op => exact absurd rfl (h op)
  | _ => exact Host.fully_const (host []) _

theorem result_twice (v : Value Code) :
    (host []).result twice [v] =
      (Action.record (.trace "asked" v) >>= fun _ =>
        answered v (.int 1) >>= fun _ => answered v (.int 2)) := by
  have lawful := host_lawful []
  have hcalls := lawful.fully_bind (deepens_next v (.int 1)) fun _ => deepens_next v (.int 2)
  have hwhole := lawful.fully_bind_left (Action.record (.trace "asked" v)) fun _ => by
    intro d d' h
    exact (deepens_next v (.int 1) h).bind fun _ => deepens_next v (.int 2) h
  rw [hcalls] at hwhole
  exact (lawful.result_fn _ [v]).trans hwhole

theorem callsOnly_twice (driver : Driver) : (host []).CallsOnly twice driver := by
  have lawful := host_lawful []
  -- It answers alike where both calls of the continuation do.
  have hloop : ∀ v v', (host []).Akin v v' →
      ((host []).result twice [v]).Matches (host []).Akin (host []).AkinFault
        ((host []).result twice [v']) := by
    intro v v' h
    have hanswered : ∀ outcome, (answered v outcome).Matches (host []).Akin (host []).AkinFault
        (answered v' outcome) := by
      intro outcome
      have hrefused : (∀ op, v ≠ .operation op) → (∀ op, v' ≠ .operation op) →
          (answered v outcome).Matches (host []).Akin (host []).AkinFault
            (answered v' outcome) := by
        intro hv hv'
        rw [answered_refused hv, answered_refused hv']
        exact Action.fail_matches (.same _)
      cases h.resembles with
      | same =>
          have hblind : (answered v outcome).Blind :=
            lawful.fully_blind (deepens_next v outcome) fun depth =>
              (Primitive.run_respects (lawful.dispatch_blind depth) .next [v, outcome]).2
          exact hblind.matches_self .refl .same
      | operation request hnext => exact hnext outcome
      | terminal | pending | query | list | tuple | dict =>
          exact hrefused (fun _ h => by cases h) fun _ h => by cases h
    rw [result_twice, result_twice]
    refine (Action.record_matches ?_).bind fun _ _ _ => ?_
    · simp only [Event.bare, h.bare_eq]
    · exact (hanswered _).bind fun _ _ _ => hanswered _
  cases driver with
  | eager =>
      intro depth request next next' hnext
      rw [call_twice, result_twice]
      refine Action.Below.bind (Action.record_matches ?_).below fun _ _ _ => ?_
      · rfl
      exact (hnext (.int 1)).bind fun _ _ _ => hnext (.int 2)
  | stepped | awaited => exact hloop

end Script

namespace Host

/-- A document is asked for, a script that leaves a mark asks for all of them, and a script that
is no program's ends it: under an executor that calls each continuation twice, an eager run may
be built either way, and an awaited run of the first program may be finished once more. -/
theorem drive_continued_laws_twice :
    let host := Script.host []
    let p : Value Script.Code := Request.toProgram (.getById (.text "a"))
    let f : Value Script.Code := .fn (.callback (.function ["doc"]
      (.bind "mark" (.trace "doc" (.var "doc")) (.strict (.programOf .getAll) []))) [])
    let g : Value Script.Code := .fn (.callback (.function ["docs"]
      (.strict .list [.trace "docs" (.var "docs")])) [])
    let h : Value Script.Code := .fn (.compose (.fn (.thenRest g)) f)
    host.CallsOnly Script.twice .eager ∧ host.CallsOnly Script.twice .awaited ∧
      host.Chains h f g ∧ host.Sound p ∧
      Action.Matches (host.SameValue .eager) (host.SameFault .eager)
        (host.fully fun d => do
          let first ← andThen d p f
          let whole ← andThen d first g
          Driver.eager.drive d Script.twice whole)
        (host.fully fun d => do
          let whole ← andThen d p h
          Driver.eager.drive d Script.twice whole) ∧
      Action.Matches (host.SameValue .awaited) (host.SameFault .awaited)
        (host.fully fun d => do
          let whole ← andThen d p (.fn .finish)
          Driver.awaited.drive d Script.twice whole)
        (host.fully fun d => Driver.awaited.drive d Script.twice p) := by
  intro host p f g h
  have lawful : host.Lawful := Script.host_lawful []
  have hchains : host.Chains h f g := chains_compose lawful f g
  have hsound : host.Sound p := sound_toProgram lawful _
  exact ⟨Script.callsOnly_twice .eager, Script.callsOnly_twice .awaited, hchains, hsound,
    (drive_continued_laws lawful .eager (Script.callsOnly_twice .eager) hchains p).1,
    (drive_continued_laws lawful .awaited (Script.callsOnly_twice .awaited) hchains p).2 hsound⟩

end Host

end Workflow

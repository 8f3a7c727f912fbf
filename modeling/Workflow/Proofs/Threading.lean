import Workflow.Proofs.Bisimulation
import Workflow.Proofs.Runs

/-!
# Functions threaded through programs

A combinator treats every program that waits on an operation in one way: it keeps the request and
lets itself follow the continuation.  Such a function is threaded through programs
(`Host.Threads`), and chains of such functions are threaded as well.

How a threaded function treats a program is settled by how it treats the programs that wait on no
operation (`Host.Threads.same`).  For a combinator, which refuses whatever is no program or waits
on no operation, that leaves the finished programs alone (`Host.Walks.same`).
-/

namespace Workflow

variable {κ β σ : Type}

/-- The same request, the continuation followed by `f`. -/
def Operation.followedBy (op : Operation (Value κ)) (f : Value κ) : Operation (Value κ) :=
  ⟨op.request, .fn (.compose (.fn (.thenRest f)) op.next)⟩

namespace Host

variable {host : Host κ β σ}

/-! ## Combinators at unbounded depth -/

/-- The program `p` followed by `f`. -/
noncomputable def continued (host : Host κ β σ) (p f : Value κ) : Action κ β (Value κ) :=
  host.fully fun d => andThen d p f

/-- The program `p` with `f` applied to its result. -/
noncomputable def mapped (host : Host κ β σ) (f p : Value κ) : Action κ β (Value κ) :=
  host.fully fun d => mapProgram d f p

/-- Goes on with programs after `results`, latest first, at unbounded depth. -/
noncomputable def sequenced (host : Host κ β σ) (programs results : List (Value κ)) :
    Action κ β (Value κ) :=
  host.fully fun d => sequenceFrom d programs results

theorem deepens_andThen (p f : Value κ) : Deepens fun d : Dispatch κ β => andThen d p f :=
  fun h => Congruence.andThen h p f

theorem deepens_mapProgram (f p : Value κ) : Deepens fun d : Dispatch κ β => mapProgram d f p :=
  fun h => Congruence.mapProgram h f p

theorem continued_blind (lawful : host.Lawful) (p f : Value κ) : (host.continued p f).Blind :=
  lawful.fully_blind (deepens_andThen p f) fun depth =>
    (Congruence.andThen (lawful.dispatch_blind depth) p f).2

/-- A function of programs keeps the request of every operation and follows its continuation. -/
structure Threads (host : Host κ β σ) (T : Value κ → Action κ β (Value κ)) : Prop where
  waiting : ∀ op : Operation (Value κ), ∃ next : Value κ,
    T (.pending (.operation op)) = pure (.pending (.operation ⟨op.request, next⟩)) ∧
      (∀ outcome, host.result next [outcome] = host.result op.next [outcome] >>= T) ∧
      ∀ f, op.next = .fn f → ∃ g, next = .fn g

/-- It also refuses what waits on no operation and what is no program. -/
structure Walks (host : Host κ β σ) (T : Value κ → Action κ β (Value κ)) : Prop
    extends Threads host T where
  refused : ∀ waiting : Value κ, (∀ op, waiting ≠ .operation op) →
    T (.pending waiting) = .fail (.unknownOperation waiting)
  invalid : ∀ p : Value κ, p.isProgram = false → T p = .fail (.invalidProgram p)

variable {T U : Value κ → Action κ β (Value κ)}

theorem threads_pure : host.Threads pure where
  waiting op := by
    refine ⟨op.next, rfl, fun outcome => ?_, fun f hf => ⟨f, hf⟩⟩
    exact (bind_pure _).symm

/-- One threaded function after the other is a threaded function. -/
theorem Threads.comp (hT : host.Threads T) (hU : host.Threads U) :
    host.Threads fun p => T p >>= U where
  waiting op := by
    rcases hT.waiting op with ⟨next, hvalue, hresult, hfn⟩
    rcases hU.waiting ⟨op.request, next⟩ with ⟨next', hvalue', hresult', hfn'⟩
    refine ⟨next', ?_, fun outcome => ?_, fun f hf => ?_⟩
    · simp only [hvalue, pure_bind, hvalue']
    · simp only [hresult', hresult, bind_assoc]
    · rcases hfn f hf with ⟨g, hg⟩
      exact hfn' g hg

/-- It gives a program only for what is finished or waits on an operation. -/
theorem Walks.value_cases (hT : host.Walks T) {p q : Value κ} {w v : World κ β}
    (h : (T p).run w = .value q v) :
    (∃ value, p = .terminal value) ∨ ∃ op, p = .pending (.operation op) := by
  rcases program_cases p with hvalue | hop | ⟨waiting, rfl, hwaiting⟩ | hp
  · exact Or.inl hvalue
  · exact Or.inr hop
  · rw [hT.refused waiting hwaiting] at h
    cases h
  · rw [hT.invalid p hp] at h
    cases h

/-- What is refused at once is not handed on. -/
theorem Walks.comp (hT : host.Walks T) (hU : host.Threads U) : host.Walks fun p => T p >>= U where
  toThreads := hT.toThreads.comp hU
  refused waiting h := by
    simp only [hT.refused waiting h]
    rfl
  invalid p h := by
    simp only [hT.invalid p h]
    rfl

/-! ## The combinators -/

theorem continued_waiting (op : Operation (Value κ)) (f : Value κ) :
    host.continued (.pending (.operation op)) f =
      pure (.pending (.operation ⟨op.request, .fn (.compose (.fn (.thenRest f)) op.next)⟩)) :=
  fully_const host _

theorem mapped_waiting (op : Operation (Value κ)) (f : Value κ) :
    host.mapped f (.pending (.operation op)) =
      pure (.pending (.operation ⟨op.request, .fn (.compose (.fn (.mapRest f)) op.next)⟩)) :=
  fully_const host _

theorem mapped_terminal (lawful : host.Lawful) (f value : Value κ) :
    host.mapped f (.terminal value) =
      (host.result f [value] >>= fun answer => pure (.terminal answer)) :=
  lawful.fully_bind_right (fun h => h.apply f [value]) _

theorem walks_continued (lawful : host.Lawful) (f : Value κ) :
    host.Walks fun p => host.continued p f where
  waiting op := by
    refine ⟨_, continued_waiting op f, fun outcome => ?_, fun _ _ => ⟨_, rfl⟩⟩
    rw [lawful.result_compose]
    exact congrArg (_ >>= ·) (funext fun q => lawful.result_thenRest f q)
  refused waiting h := by
    have hfail : ∀ d : Dispatch κ β,
        andThen d (.pending waiting) f = .fail (.unknownOperation waiting) := by
      intro d
      simp only [andThen, mapOperation_refused _ h]
      rfl
    simp only [continued, hfail]
    exact fully_const host _
  invalid p h := by
    cases p with
    | terminal value => cases h
    | pending waiting => cases h
    | _ => exact fully_const host _

theorem walks_mapped (lawful : host.Lawful) (f : Value κ) :
    host.Walks fun p => host.mapped f p where
  waiting op := by
    refine ⟨_, mapped_waiting op f, fun outcome => ?_, fun _ _ => ⟨_, rfl⟩⟩
    rw [lawful.result_compose]
    exact congrArg (_ >>= ·) (funext fun q => lawful.result_fn (.mapRest f) [q])
  refused waiting h := by
    have hfail : ∀ d : Dispatch κ β,
        mapProgram d f (.pending waiting) = .fail (.unknownOperation waiting) := by
      intro d
      simp only [mapProgram, mapOperation_refused _ h]
      rfl
    simp only [mapped, hfail]
    exact fully_const host _
  invalid p h := by
    cases p with
    | terminal value => cases h
    | pending waiting => cases h
    | _ => exact fully_const host _

theorem sequenced_nil (results : List (Value κ)) :
    host.sequenced [] results = pure (.terminal (.list results.reverse)) :=
  fully_const host _

/-! ### What the library's own functions answer -/

theorem result_finish (lawful : host.Lawful) (value : Value κ) :
    host.result (.fn .finish) [value] = pure (.terminal value) :=
  (lawful.result_fn .finish [value]).trans (fully_const host _)

theorem result_asProgram (lawful : host.Lawful) (value : Value κ) :
    host.result (.fn .asProgram) [value] = liftM (asProgram value) :=
  (lawful.result_fn .asProgram [value]).trans (fully_const host _)

theorem result_always (lawful : host.Lawful) (next value : Value κ) :
    host.result (.fn (.always next)) [value] = pure next :=
  (lawful.result_fn (.always next) [value]).trans (fully_const host _)

theorem result_pairWith (lawful : host.Lawful) (first second : Value κ) :
    host.result (.fn (.pairWith first)) [second] = pure (.tuple [first, second]) :=
  (lawful.result_fn (.pairWith first) [second]).trans (fully_const host _)

/-- Once the first program of a pair has finished, its result is paired with that of the second. -/
theorem result_pairRest (lawful : host.Lawful) (q first : Value κ) :
    host.result (.fn (.pairRest q)) [first] = host.mapped (.fn (.pairWith first)) q :=
  lawful.result_fn (.pairRest q) [first]

/-- Once a program of a sequence has finished, the sequence goes on with the others. -/
theorem result_sequenceRest (lawful : host.Lawful) (rest results : List (Value κ))
    (value : Value κ) :
    host.result (.fn (.sequenceRest rest results)) [value] =
      host.sequenced rest (value :: results) :=
  lawful.result_fn (.sequenceRest rest results) [value]

/-- Passing over a finished program is continuing it with the rest. -/
theorem sequenced_cons (lawful : host.Lawful) (p : Value κ) (rest results : List (Value κ)) :
    host.sequenced (p :: rest) results =
      host.continued p (.fn (.sequenceRest rest results)) := by
  cases p with
  | terminal value => exact (result_sequenceRest lawful rest results value).symm
  | _ => rfl

/-! ## Sameness -/

/-- Two programs that are the same, or that wait on the same request and go on, after a program in
`P`, with `T` and with `U`. -/
inductive Woven (host : Host κ β σ) (P : Value κ → Prop) (T U : Value κ → Action κ β (Value κ)) :
    Value κ → Value κ → Prop
  | same {p q : Value κ} : host.Same p q → Woven host P T U p q
  | waiting (op : Operation (Value κ)) {next next' : Value κ} : P (.pending (.operation op)) →
      (∀ outcome, host.result next [outcome] = host.result op.next [outcome] >>= T) →
      (∀ outcome, host.result next' [outcome] = host.result op.next [outcome] >>= U) →
      Woven host P T U (.pending (.operation ⟨op.request, next⟩))
        (.pending (.operation ⟨op.request, next'⟩))

/-- `P` holds of whatever the continuation of a program in `P` gives. -/
def Invariant (host : Host κ β σ) (P : Value κ → Prop) : Prop :=
  ∀ op outcome w q v, P (.pending (.operation op)) →
    (host.result op.next [outcome]).run w = .value q v → P q

/-- Two threaded functions that treat the programs of an invariant alike which wait on no
operation treat all its programs alike. -/
theorem Threads.same {P : Value κ → Prop} (hP : host.Invariant P) (hT : host.Threads T)
    (hU : host.Threads U)
    (hidle : ∀ p, P p → (∀ op, p ≠ .pending (.operation op)) →
      ∀ w, Outcome.Related host.Same ((T p).run w) ((U p).run w)) :
    ∀ p, P p → ∀ w, Outcome.Related host.Same ((T p).run w) ((U p).run w) := by
  -- Programs that wait are woven at once, the others are alike by assumption.
  have hwoven : ∀ p, P p → ∀ w,
      Outcome.Related (host.Woven P T U) ((T p).run w) ((U p).run w) := by
    intro p hp w
    by_cases hwaiting : ∃ op, p = .pending (.operation op)
    · rcases hwaiting with ⟨op, rfl⟩
      rcases hT.waiting op with ⟨next, hvalue, hresult, _⟩
      rcases hU.waiting op with ⟨next', hvalue', hresult', _⟩
      rw [hvalue, hvalue']
      exact .value w (.waiting op hp hresult hresult')
    · exact (hidle p hp (fun op h => hwaiting ⟨op, h⟩) w).mono fun _ _ h => .same h
  have hbisimulation : host.Bisimulation (host.Woven P T U) := by
    intro p q hpq
    cases hpq with
    | same h => exact (same_bisimulation p q h).mono fun _ _ h => .same h
    | @waiting op next next' hp hresult hresult' =>
        -- Both call the program's own continuation first.
        refine .waiting op.request fun outcome w => ?_
        rw [hresult outcome, hresult' outcome]
        exact .bind_of_value _ fun q v hq => hwoven q (hP op outcome w q v hp hq) v
  intro p hp w
  exact (hwoven p hp w).mono fun p q h => ⟨_, hbisimulation, h⟩

/-- Two combinators that treat finished programs alike treat everything alike. -/
theorem Walks.same (hT : host.Walks T) (hU : host.Walks U)
    (hterminal : ∀ value w,
      Outcome.Related host.Same ((T (.terminal value)).run w) ((U (.terminal value)).run w))
    (p : Value κ) (w : World κ β) : Outcome.Related host.Same ((T p).run w) ((U p).run w) := by
  refine Threads.same (P := fun _ => True) (fun _ _ _ _ _ _ _ => trivial) hT.toThreads
    hU.toThreads ?_ p trivial w
  intro p _ hidle w
  rcases program_cases p with ⟨value, rfl⟩ | ⟨op, rfl⟩ | ⟨waiting, rfl, hw⟩ | hp
  · exact hterminal value w
  · exact absurd rfl (hidle op)
  · rw [hT.refused waiting hw, hU.refused waiting hw]
    exact .fault _ w
  · rw [hT.invalid p hp, hU.invalid p hp]
    exact .fault _ w

/-! ## Sound programs -/

/-- A program that is finished, or that waits on an operation and goes on to a program in `P`. -/
inductive Step (host : Host κ β σ) (P : Value κ → Prop) : Value κ → Prop
  | finished (value : Value κ) : Step host P (.terminal value)
  | waiting (op : Operation (Value κ)) :
      (∀ outcome w q v, (host.result op.next [outcome]).run w = .value q v → P q) →
      Step host P (.pending (.operation op))

/-- Whatever the program goes on to, for whatever outcomes, is a program that has finished or that
waits on an operation. -/
def Sound (host : Host κ β σ) (p : Value κ) : Prop :=
  ∃ P, (∀ q, P q → host.Step P q) ∧ P p

theorem Sound.step {p : Value κ} (hp : host.Sound p) : host.Step host.Sound p := by
  rcases hp with ⟨P, hP, hp⟩
  cases hP p hp with
  | finished value => exact .finished value
  | waiting op hnext =>
      exact .waiting op fun outcome w q v hq => ⟨P, hP, hnext outcome w q v hq⟩

theorem sound_invariant : host.Invariant host.Sound := by
  intro op outcome w q v hop hq
  cases hop.step with
  | waiting _ hnext => exact hnext outcome w q v hq

theorem sound_toProgram (lawful : host.Lawful) (request : Request (Value κ)) :
    host.Sound request.toProgram := by
  refine ⟨fun q => q = request.toProgram ∨ ∃ value, q = .terminal value, ?_, Or.inl rfl⟩
  rintro q (rfl | ⟨value, rfl⟩)
  · refine .waiting _ fun outcome w q v hq => Or.inr ⟨outcome, ?_⟩
    rw [result_finish lawful] at hq
    cases hq
    rfl
  · exact .finished value

/-- Whatever a run of a program in an invariant comes to is in the invariant. -/
theorem Invariant.path {P : Value κ → Prop} (hP : host.Invariant P) {driver : Driver}
    {b : Backend (Value κ)} {steps : Nat} {p q : Value κ} {w v : World κ β}
    {ops : List (Operation (Value κ))} (hpath : host.Path driver b steps p w ops q v) (hp : P p) :
    P q := by
  induction hpath with
  | here => exact hp
  | @step steps op w v u p q ops hturn _ ih =>
      -- The program comes from a call of the continuation.
      rcases Action.exists_of_run_bind_value hturn with ⟨outcome, y, _, hnext⟩
      exact ih (hP op outcome y p v hp hnext)

/-- Whatever a run of a sound program comes to is sound. -/
theorem Sound.path {driver : Driver} {b : Backend (Value κ)} {steps : Nat} {p q : Value κ}
    {w v : World κ β} {ops : List (Operation (Value κ))}
    (hpath : host.Path driver b steps p w ops q v) (hp : host.Sound p) : host.Sound q :=
  sound_invariant.path hpath hp

end Host

end Workflow

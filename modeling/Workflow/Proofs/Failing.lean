import Workflow.Proofs.Turn

/-!
# A backend that fails at one call

`host.failingAt owns n cause` is a host whose backend, the callbacks whose code `owns` picks out,
does what it did before, except that it counts its calls and fails at the `n`-th of them with
`cause`, before it touches its state.  Whatever else the caller brought along is as it was.

A continuation that asks nothing of the backend is called in the same way over both hosts
(`Host.Quiet`); so are all continuations that the combinators make out of routines and of other
callbacks (`Host.Harmless.quiet`).
-/

namespace Workflow

variable {κ β σ α γ : Type}

/-! ## A count beside the outside state -/

namespace World

/-- The same world with a count beside its outside state. -/
def beside (count : Nat) (w : World κ β) : World κ (Nat × β) :=
  ⟨w.journal, w.debug, (count, w.outside)⟩

/-- The world without the count. -/
def uncounted (w : World κ (Nat × β)) : World κ β :=
  ⟨w.journal, w.debug, w.outside.2⟩

@[simp] theorem write_beside (line : LogLine κ) (count : Nat) (w : World κ β) :
    (w.beside count).write line = (w.write line).beside count := by
  unfold write
  split <;> simp_all [beside]

end World

namespace Action

/-- The action in worlds that also hold a count, which it does not touch. -/
def beside (x : Action κ β α) : Action κ (Nat × β) α := fun w =>
  (x.run w.uncounted).mapWorld (World.beside w.outside.1)

theorem beside_bind (x : Action κ β α) (f : α → Action κ β γ) :
    (x >>= f).beside = x.beside >>= fun a => (f a).beside := by
  apply Action.ext
  intro w
  simp only [run, beside, Bind.bind, Action.bind]
  cases x w.uncounted <;> rfl

theorem beside_lift (result : Except (Fault κ) α) :
    (liftM result : Action κ β α).beside = liftM result := by
  cases result <;> rfl

theorem Approx.beside {x y : Action κ β α} (h : x.Approx y) : x.beside.Approx y.beside := by
  intro w
  rcases h w.uncounted with hu | heq
  · left
    have hrun : x.beside.run w = (x.run w.uncounted).mapWorld (World.beside w.outside.1) := rfl
    rw [hrun, hu]
    rfl
  · right
    exact congrArg (Outcome.mapWorld (World.beside w.outside.1)) heq

theorem Blind.beside {x : Action κ β α} (h : x.Blind) : x.beside.Blind := by
  intro w earlier
  have hx : x.run (w.uncounted.after earlier) = (x.run w.uncounted).after earlier :=
    h w.uncounted earlier
  have hrun : x.beside.run (w.after earlier) =
      (x.run (w.uncounted.after earlier)).mapWorld (World.beside w.outside.1) := rfl
  have hrun' : x.beside.run w = (x.run w.uncounted).mapWorld (World.beside w.outside.1) := rfl
  rw [hrun, hrun', hx]
  cases x.run w.uncounted <;> rfl

/-- If the members of two families end in the same way up to a change of the world, from some
depth on, then so do their limits. -/
theorem limit_run_mapWorld {β' : Type} {family : Nat → Action κ β α}
    {family' : Nat → Action κ β' α} (hf : Rising family) (hf' : Rising family')
    {change : World κ β → World κ β'} {w : World κ β} {w' : World κ β'}
    (h : ∀ depth, (family' (depth + 1)).run w' = ((family (depth + 1)).run w).mapWorld change) :
    (limit family').run w' = ((limit family).run w).mapWorld change := by
  rw [← limit_shift hf, ← limit_shift hf']
  have hshift : Rising fun depth => family (depth + 1) :=
    ⟨fun hle => hf.approx (Nat.add_le_add_right hle 1)⟩
  have hshift' : Rising fun depth => family' (depth + 1) :=
    ⟨fun hle => hf'.approx (Nat.add_le_add_right hle 1)⟩
  have halike : ((limit fun depth => family' (depth + 1)).run w').mapWorld id =
      ((limit fun depth => family (depth + 1)).run w).mapWorld change := by
    refine hshift'.limit_alike hshift fun depth => ?_
    rw [Outcome.mapWorld_id]
    exact h depth
  rwa [Outcome.mapWorld_id] at halike

end Action

/-! ## The failing host -/

namespace Host

/-- The host in worlds that also hold a count; what callers bring along goes on as over `host`. -/
def beside (host : Host κ β σ) : Host κ (Nat × β) σ where
  callback d code captured arguments :=
    (host.callback (host.dispatch d.rounds) code captured arguments).beside
  start code captured arguments := (host.start code captured arguments).beside
  advance d body sent := (host.advance (host.dispatch d.rounds) body sent).beside
  close d body := (host.close (host.dispatch d.rounds) body).beside

/-- The host whose callbacks in `owns` count their calls together and fail at the `n`-th. -/
def failingAt (host : Host κ β σ) (owns : κ → Bool) (n : Nat) (cause : Fault κ) :
    Host κ (Nat × β) σ where
  callback d code captured arguments :=
    if owns code then do
      .modifyOutside fun state => (state.1 + 1, state.2)
      if (← .outside).1 = n then
        .fail cause
      else
        host.beside.callback d code captured arguments
    else
      host.beside.callback d code captured arguments
  start := host.beside.start
  advance := host.beside.advance
  close := host.beside.close

theorem Lawful.beside {host : Host κ β σ} (lawful : host.Lawful) : host.beside.Lawful where
  deeper := by
    -- What the caller brought along is called as deep as the count of rounds allows.
    have hrounds : ∀ {d d' : Dispatch κ (Nat × β)}, Congruence.approx.Dispatches d d' →
        Congruence.approx.Dispatches (host.dispatch d.rounds) (host.dispatch d'.rounds) := by
      intro d d' h
      refine lawful.dispatches ?_
      rcases h.rounds with heq | ⟨hle, _⟩
      · exact Nat.le_of_eq heq
      · exact hle
    exact
      { callback := fun h code captured arguments =>
          (lawful.deeper.callback (hrounds h) code captured arguments).beside
        start := fun code captured arguments => .refl _
        advance := fun h body sent => (lawful.deeper.advance (hrounds h) body sent).beside
        close := fun h body => (lawful.deeper.close (hrounds h) body).beside }
  blind := by
    -- Loops related by this congruence take equally many rounds, unless no action ends at all.
    have hrounds : ∀ {d d' : Dispatch κ (Nat × β)} {α : Type} (x : Nat → Action κ (Nat × β) α),
        Congruence.blind.Dispatches d d' → (∀ depth, (x depth).Blind) →
          Congruence.blind.rel (x d.rounds) (x d'.rounds) := by
      intro d d' α x h hx
      rcases h.rounds with heq | ⟨_, hu⟩
      · rw [heq]
        exact ⟨rfl, hx _⟩
      · have hleft := (hu (x d.rounds)).1
        have hright := (hu (x d'.rounds)).1
        exact ⟨hleft.symm.trans hright, hx _⟩
    exact
      { callback := fun h code captured arguments =>
          hrounds (fun depth => (host.callback (host.dispatch depth) code captured
            arguments).beside) h fun depth =>
              (lawful.blind.callback (lawful.dispatch_blind depth) code captured
                arguments).2.beside
        start := fun code captured arguments =>
          ⟨rfl, (lawful.blind.start code captured arguments).2.beside⟩
        advance := fun h body sent =>
          hrounds (fun depth => (host.advance (host.dispatch depth) body sent).beside) h
            fun depth => (lawful.blind.advance (lawful.dispatch_blind depth) body sent).2.beside
        close := fun h body =>
          hrounds (fun depth => (host.close (host.dispatch depth) body).beside) h
            fun depth => (lawful.blind.close (lawful.dispatch_blind depth) body).2.beside }

theorem Respects.failingAt {host : Host κ β σ} {C : Congruence κ (Nat × β)}
    (hc : host.beside.Respects C) (owns : κ → Bool) (n : Nat) (cause : Fault κ) :
    (host.failingAt owns n cause).Respects C where
  callback h code captured arguments := by
    simp only [Host.failingAt]
    split
    · refine C.bind (C.modifyOutside _) fun _ => C.bind C.outside fun state => ?_
      split
      · exact C.fault cause
      · exact hc.callback h code captured arguments
    · exact hc.callback h code captured arguments
  start := hc.start
  advance := hc.advance
  close := hc.close

theorem Lawful.failingAt {host : Host κ β σ} (lawful : host.Lawful) (owns : κ → Bool) (n : Nat)
    (cause : Fault κ) : (host.failingAt owns n cause).Lawful :=
  ⟨lawful.beside.deeper.failingAt owns n cause, lawful.beside.blind.failingAt owns n cause⟩

/-! ## Calls that leave the backend alone -/

/-- Calling `next` asks nothing of the backend: the call is the same whenever and however the
backend fails, and none of it is counted. -/
def Quiet (host : Host κ β σ) (owns : κ → Bool) (next : Value κ) : Prop :=
  ∀ (n : Nat) (cause : Fault κ) (depth : Nat) (outcome : Value κ),
    (host.failingAt owns n cause).call depth next [outcome] =
      (host.call depth next [outcome]).beside

/-! ### Continuations of combinators -/

section Parts

variable {d : Dispatch κ β} {d' : Dispatch κ (Nat × β)} {f : Value κ}

theorem mapProgram_beside
    (hf : ∀ value, d'.apply f [value] = (d.apply f [value]).beside) (program : Value κ) :
    mapProgram d' f program = (mapProgram d f program).beside := by
  cases program with
  | terminal value =>
      simp only [mapProgram, hf, Action.beside_bind]
      rfl
  | pending operation =>
      simp only [mapProgram, Action.beside_bind, Action.beside_lift]
      rfl
  | _ => rfl

theorem andThen_beside {program : Value κ}
    (hf : ∀ value, program = .terminal value → d'.apply f [value] = (d.apply f [value]).beside) :
    andThen d' program f = (andThen d program f).beside := by
  cases program with
  | terminal value => exact hf value rfl
  | pending operation =>
      simp only [andThen, Action.beside_bind, Action.beside_lift]
      rfl
  | _ => rfl

theorem sequenceFrom_beside : ∀ programs results : List (Value κ),
    sequenceFrom d' programs results = (sequenceFrom d programs results).beside
  | [], _ => rfl
  | program :: remaining, results => by
      cases program with
      | terminal value => exact sequenceFrom_beside remaining (value :: results)
      | _ => exact andThen_beside fun _ h => by cases h

end Parts

section Bodies

variable (host : Host κ β σ) (owns : κ → Bool) (n : Nat) (cause : Fault κ) (depth : Nat)

theorem feed_failingAt : ∀ (values : List (Value κ)) (progress : Progress κ σ),
    (host.failingAt owns n cause).feed ((host.failingAt owns n cause).dispatch depth) progress
        values =
      (host.feed (host.dispatch depth) progress values).beside
  | [], _ => by
      simp only [Host.feed]
      rfl
  | sent :: rest, progress => by
      cases progress with
      | returned value => rfl
      | yielded value body =>
          simp only [Host.feed, Action.beside_bind]
          refine congrArg (_ >>= ·) (funext fun next => ?_)
          exact feed_failingAt rest next

theorem settle_failingAt (rest : List (Value κ) → Value κ) :
    ∀ (rounds : Nat) (received : List (Value κ)) (progress : Progress κ σ),
      (host.failingAt owns n cause).settle ((host.failingAt owns n cause).dispatch depth) rest
          rounds received progress =
        (host.settle (host.dispatch depth) rest rounds received progress).beside
  | 0, _, _ => rfl
  | rounds + 1, received, progress => by
      cases progress with
      | returned value => rfl
      | yielded value body =>
          simp only [Host.settle]
          split
          · simp only [Host.closeWith, Action.beside_bind]
            rfl
          · simp only [Action.beside_bind]
            refine congrArg (_ >>= ·) (funext fun next => ?_)
            exact settle_failingAt rest rounds _ next
          · -- The program waits, so nothing is called yet.
            rename_i program hfinished _
            simp only [Action.beside_bind]
            refine congrArg (_ >>= ·) (funext fun _ => ?_)
            exact andThen_beside fun value hvalue => absurd hvalue (hfinished value)

theorem resume_failingAt (code : κ) (captured : Scope κ) (arguments received : List (Value κ)) :
    (host.failingAt owns n cause).resume ((host.failingAt owns n cause).dispatch depth) code
        captured arguments received =
      (host.resume (host.dispatch depth) code captured arguments received).beside := by
  simp only [Host.resume, Action.beside_bind]
  refine congrArg (_ >>= ·) (funext fun body => ?_)
  refine congrArg (_ >>= ·) (funext fun first => ?_)
  rw [feed_failingAt]
  refine congrArg (_ >>= ·) (funext fun progress => ?_)
  exact settle_failingAt host owns n cause depth _ _ _ progress

end Bodies

/-- The function values that combinators make out of routines and of callbacks outside `owns`. -/
inductive Harmless (owns : κ → Bool) : Value κ → Prop
  | callback {code : κ} (captured : Scope κ) :
      owns code = false → Harmless owns (.fn (.callback code captured))
  | routine (code : κ) (captured : Scope κ) : Harmless owns (.fn (.routine code captured))
  | resumeRest (code : κ) (captured : Scope κ) (arguments received : List (Value κ)) :
      Harmless owns (.fn (.resumeRest code captured arguments received))
  | finish : Harmless owns (.fn .finish)
  | asProgram : Harmless owns (.fn .asProgram)
  | always (value : Value κ) : Harmless owns (.fn (.always value))
  | misfit : Harmless owns (.fn .misfit)
  | pairWith (first : Value κ) : Harmless owns (.fn (.pairWith first))
  | pairRest (second : Value κ) : Harmless owns (.fn (.pairRest second))
  | sequenceRest (remaining results : List (Value κ)) :
      Harmless owns (.fn (.sequenceRest remaining results))
  | mapRest {f : Value κ} : Harmless owns f → Harmless owns (.fn (.mapRest f))
  | thenRest {f : Value κ} : Harmless owns f → Harmless owns (.fn (.thenRest f))
  | compose {outer inner : Value κ} :
      Harmless owns outer → Harmless owns inner → Harmless owns (.fn (.compose outer inner))

/-- Such a continuation leaves the backend alone, whatever the callbacks and bodies do. -/
theorem Harmless.quiet (host : Host κ β σ) {owns : κ → Bool} {next : Value κ}
    (h : Harmless owns next) : host.Quiet owns next := by
  intro n cause depth
  -- A call without any depth does not end, over either host.
  cases depth with
  | zero => exact fun _ => rfl
  | succ depth =>
      induction h generalizing depth with
      | callback captured howns =>
          intro outcome
          show (if owns _ then _ else _) = _
          rw [howns]
          rfl
      | routine code captured =>
          intro outcome
          exact resume_failingAt host owns n cause depth code captured [outcome] []
      | resumeRest code captured arguments received =>
          intro outcome
          exact resume_failingAt host owns n cause depth code captured arguments _
      | finish | always value | misfit | pairWith first => exact fun _ => rfl
      | asProgram => exact fun outcome => (Action.beside_lift (Workflow.asProgram outcome)).symm
      | pairRest second =>
          intro outcome
          refine mapProgram_beside (fun value => ?_) second
          cases depth <;> rfl
      | sequenceRest remaining results =>
          exact fun outcome => sequenceFrom_beside remaining (outcome :: results)
      | mapRest _ ih =>
          intro outcome
          refine mapProgram_beside (fun value => ?_) outcome
          cases depth with
          | zero => rfl
          | succ depth => exact ih depth value
      | thenRest _ ih =>
          intro outcome
          refine andThen_beside fun value _ => ?_
          cases depth with
          | zero => rfl
          | succ depth => exact ih depth value
      | @compose outer inner _ _ ihouter ihinner =>
          intro outcome
          -- Two calls in a row, each of them one level deeper.
          cases depth with
          | zero => rfl
          | succ depth =>
              have hcall : (host.failingAt owns n cause).call (depth + 2)
                  (.fn (.compose outer inner)) [outcome] =
                    ((host.failingAt owns n cause).call (depth + 1) inner [outcome] >>= fun value =>
                      (host.failingAt owns n cause).call (depth + 1) outer [value]) := rfl
              rw [hcall, ihinner depth outcome]
              simp only [ihouter depth]
              exact (Action.beside_bind _ _).symm

end Host

end Workflow

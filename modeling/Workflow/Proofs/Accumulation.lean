import Workflow.Proofs.Batching
import Workflow.Proofs.Folding

/-!
# The accumulator of a sequence

A sequence goes through its programs with the results that it has so far, latest first.  It calls
nothing on the way: what it builds is settled by the programs and the results alone, at any depth
and in any world (`sequenceFrom_eq_built`).  The results only come first in the list that the
sequence finishes with, so going on after them is mapping a function that puts them there over the
sequence of what remains (`Host.sequenced_prepends`).

A program that waits captures the programs behind it and the results up to it.  Whoever calls such
a continuation has the waiting program's own continuation called, and then the loop goes on from
what was captured; nothing else is kept.  So in any history of calls, of whatever continuations
and starts of the loop, each does what it does alone (`Host.enter_history`).
-/

namespace Workflow

variable {κ β σ : Type}

/-! ## Building without calls -/

/-- What going on with programs after `results`, latest first, builds: finished programs are taken
up, and the first one that has not finished becomes the program to wait on. -/
def sequenceBuilt : List (Value κ) → List (Value κ) → Except (Fault κ) (Value κ)
  | [], results => .ok (.terminal (.list results.reverse))
  | .terminal value :: remaining, results => sequenceBuilt remaining (value :: results)
  | .pending (.operation op) :: remaining, results =>
      .ok (.pending (.operation (op.followedBy (.fn (.sequenceRest remaining results)))))
  | .pending waiting :: _, _ => .error (.unknownOperation waiting)
  | program :: _, _ => .error (.invalidProgram program)

/-- The loop ends without a call, whatever it may call, and leaves the world as it is. -/
theorem sequenceFrom_eq_built (d : Dispatch κ β) :
    ∀ programs results : List (Value κ),
      sequenceFrom d programs results = liftM (sequenceBuilt programs results)
  | [], _ => rfl
  | p :: remaining, results => by
      cases p with
      | terminal value => exact sequenceFrom_eq_built d remaining (value :: results)
      | pending waiting => cases waiting <;> rfl
      | _ => rfl

/-- What waits was captured at the first program that has not finished, with the programs behind
it and with the results up to it. -/
theorem sequenceBuilt_waiting :
    ∀ {programs results : List (Value κ)} {waiting : Value κ},
      sequenceBuilt programs results = .ok (.pending waiting) →
      ∃ (values : List (Value κ)) (own : Operation (Value κ)) (remaining : List (Value κ)),
        programs = values.map .terminal ++ .pending (.operation own) :: remaining ∧
        waiting = .operation
          (own.followedBy (.fn (.sequenceRest remaining (values.reverse ++ results))))
  | [], _, _, h => by cases h
  | p :: remaining, results, waiting, h => by
      cases p with
      | terminal value =>
          have hrest : sequenceBuilt remaining (value :: results) = .ok (.pending waiting) := h
          obtain ⟨values, own, rest, rfl, rfl⟩ := sequenceBuilt_waiting hrest
          exact ⟨value :: values, own, rest, rfl, by simp⟩
      | pending operation =>
          cases operation with
          | operation own =>
              cases h
              exact ⟨[], own, remaining, rfl, rfl⟩
          | _ => cases h
      | _ => cases h

/-! ## Results put before a sequence -/

namespace Host

variable {host : Host κ β σ} {prepend : Value κ}

/-- The function `prepend` puts `items` before the items of a list. -/
def Prepends (host : Host κ β σ) (prepend : Value κ) (items : List (Value κ)) : Prop :=
  ∀ more, host.result prepend [.list more] = pure (.list (items ++ more))

/-- Going on after earlier results is going on without them and putting them first at the end. -/
theorem sequenced_prepends (lawful : host.Lawful) {results : List (Value κ)}
    (hprepend : host.Prepends prepend results.reverse) :
    ∀ (programs found : List (Value κ)) (w : World κ β),
      Outcome.Related host.Same ((host.sequenced programs (found ++ results)).run w)
        ((host.sequenced programs found >>= fun rest => host.mapped prepend rest).run w)
  | [], found, w => by
      have hmapped : host.mapped prepend (.terminal (.list found.reverse)) =
          pure (.terminal (.list (found ++ results).reverse)) := by
        rw [mapped_terminal lawful, hprepend, pure_bind, List.reverse_append]
      rw [sequenced_nil, sequenced_nil, pure_bind, hmapped]
      exact .value w (.refl _)
  | p :: rest, found, w => by
      -- Both are combinators of the next program, so only a finished one has to be looked at.
      have hafter : host.Walks fun p =>
          host.continued p (.fn (.sequenceRest rest found)) >>= fun q => host.mapped prepend q :=
        (walks_continued lawful _).comp (walks_mapped lawful prepend).toThreads
      simp only [sequenced_cons lawful]
      refine (walks_continued lawful _).same hafter (fun value v => ?_) p w
      have htaken : ∀ results, host.continued (.terminal value) (.fn (.sequenceRest rest results)) =
          host.sequenced rest (value :: results) :=
        fun results => result_sequenceRest lawful rest results value
      simpa only [htaken, List.cons_append] using
        sequenced_prepends lawful hprepend rest (value :: found) v

end Host

/-! ## Histories of calls -/

/-- One way into the loop: to start it after some results, or to call, on an outcome, the
continuation that it has captured at a waiting program. -/
inductive SequenceEntry (κ : Type) where
  | start (programs results : List (Value κ))
  | resume (own : Operation (Value κ)) (remaining results : List (Value κ)) (outcome : Value κ)

/-- The results that the loop goes on from, latest first. -/
def SequenceEntry.results : SequenceEntry κ → List (Value κ)
  | .start _ results | .resume _ _ results _ => results

/-- What the loop comes to with the programs that were found for it, or with the fault that finding
them has ended in. -/
def SequenceEntry.comesTo (entry : SequenceEntry κ)
    (found : Except (Fault κ) (List (Value κ))) : Except (Fault κ) (Value κ) :=
  found.bind (sequenceBuilt · entry.results)

theorem Action.attempt_bind_lift {α γ : Type} (x : Action κ β α) (f : α → Except (Fault κ) γ) :
    (x >>= fun a => liftM (f a)).attempt = x.attempt >>= fun found => pure (found.bind f) := by
  apply Action.ext
  intro w
  simp only [run, attempt, Bind.bind, Action.bind]
  cases x w with
  | value a v =>
      simp only [Except.bind]
      cases f a <;> rfl
  | fault cause v => rfl
  | unfinished => rfl

/-- What each action makes of its answer may as well be made of all the answers at the end. -/
theorem Action.mapM_bind_pure {α γ δ : Type} (f : α → Action κ β γ) (g : α → γ → δ)
    (items : List α) :
    (items.mapM fun a => f a >>= fun c => pure (g a c)) =
      items.mapM f >>= fun answers => pure (List.zipWith g items answers) := by
  induction items with
  | nil => simp only [List.mapM_nil, pure_bind, List.zipWith_nil_left]
  | cons a items ih =>
      simp only [List.mapM_cons, bind_assoc, pure_bind, ih, List.zipWith_cons_cons]

namespace Host

variable {host : Host κ β σ}

/-- What the loop does once it is entered. -/
noncomputable def enter (host : Host κ β σ) : SequenceEntry κ → Action κ β (Value κ)
  | .start programs results => host.sequenced programs results
  | .resume own remaining results outcome =>
      host.result (own.followedBy (.fn (.sequenceRest remaining results))).next [outcome]

/-- The programs that the loop goes through; the continuation of the program that waited may have
to be called for the first one. -/
noncomputable def programsFor (host : Host κ β σ) : SequenceEntry κ → Action κ β (List (Value κ))
  | .start programs _ => pure programs
  | .resume own remaining _ outcome => do
      let next ← host.result own.next [outcome]
      return next :: remaining

theorem sequenced_eq_built (programs results : List (Value κ)) :
    host.sequenced programs results = liftM (sequenceBuilt programs results) := by
  simp only [sequenced, sequenceFrom_eq_built]
  exact fully_const host _

/-- Once the programs are there, what the loop comes to is settled by them and by the results that
it goes on from. -/
theorem enter_eq (lawful : host.Lawful) (entry : SequenceEntry κ) :
    host.enter entry = host.programsFor entry >>= fun programs =>
      liftM (sequenceBuilt programs entry.results) := by
  cases entry with
  | start programs results => exact sequenced_eq_built programs results
  | resume own remaining results outcome =>
      have hnext : ∀ q, host.continued q (.fn (.sequenceRest remaining results)) =
          liftM (sequenceBuilt (q :: remaining) results) := by
        intro q
        rw [← sequenced_cons lawful, sequenced_eq_built]
      calc
        host.result (own.followedBy (.fn (.sequenceRest remaining results))).next [outcome]
            = host.result own.next [outcome] >>= fun q =>
                host.continued q (.fn (.sequenceRest remaining results)) := by
              rw [Operation.followedBy, lawful.result_compose]
              exact congrArg (_ >>= ·) (funext fun q => lawful.result_thenRest _ q)
        _ = host.programsFor (.resume own remaining results outcome) >>= fun programs =>
              liftM (sequenceBuilt programs results) := by
            simp only [hnext, programsFor, bind_assoc, pure_bind]

/-- In a history of entries each yields what its own programs and results come to. -/
theorem enter_history (lawful : host.Lawful) (entries : List (SequenceEntry κ)) :
    (entries.mapM fun entry => (host.enter entry).attempt) =
      (entries.mapM fun entry => (host.programsFor entry).attempt) >>= fun found =>
        pure (List.zipWith SequenceEntry.comesTo entries found) := by
  simp only [enter_eq lawful, Action.attempt_bind_lift]
  exact Action.mapM_bind_pure _ SequenceEntry.comesTo entries

/-- What the loop leaves waiting is a continuation that it can be entered by again. -/
theorem enter_waiting (lawful : host.Lawful) {entry : SequenceEntry κ} {waiting : Value κ}
    {w v : World κ β} (h : (host.enter entry).run w = .value (.pending waiting) v) :
    ∃ (values : List (Value κ)) (own : Operation (Value κ)) (remaining : List (Value κ)),
      (host.programsFor entry).run w =
        .value (values.map .terminal ++ .pending (.operation own) :: remaining) v ∧
      waiting = .operation
        (own.followedBy (.fn (.sequenceRest remaining (values.reverse ++ entry.results)))) := by
  rw [enter_eq lawful] at h
  rcases Action.exists_of_run_bind_value h with ⟨programs, u, hprograms, hbuilt⟩
  rcases Action.eq_of_run_lift hbuilt with ⟨hsettled, rfl⟩
  obtain ⟨values, own, remaining, rfl, hwaiting⟩ := sequenceBuilt_waiting hsettled
  exact ⟨values, own, remaining, hprograms, hwaiting⟩

/-! ## The invariant of the loop -/

/-- Going on at an index of some programs with results found before, latest first, ends without a
call and is the same program as mapping, over the sequence of the programs from the index on, the
function that puts those results first.

What is left waiting has captured the programs that remain and the results up to there, and this
goes on, call after call.  In a history of starts of the loop and of calls of its continuations
each yields what it comes to by itself, from the results it was captured with: no call changes
what a later one does, be it of the same continuation or of an earlier one, nor the results that
others start from. -/
theorem sequence_accumulates (lawful : host.Lawful) {prepend : Value κ}
    {results : List (Value κ)} (hprepend : host.Prepends prepend results.reverse)
    (programs : List (Value κ)) (index : Nat) :
    (∀ d : Dispatch κ β, sequenceFrom d (programs.drop index) results =
      liftM (sequenceBuilt (programs.drop index) results)) ∧
    (∀ w, Outcome.Related host.Same
      ((host.fully fun d => sequenceFrom d (programs.drop index) results).run w)
      ((host.fully fun d => do
        let rest ← sequence d (.tuple (programs.drop index))
        mapProgram d prepend rest).run w)) ∧
    (∀ entry waiting w v, (host.enter entry).run w = .value (.pending waiting) v →
      ∃ (values : List (Value κ)) (own : Operation (Value κ)) (remaining : List (Value κ)),
        (host.programsFor entry).run w =
          .value (values.map .terminal ++ .pending (.operation own) :: remaining) v ∧
        waiting = .operation
          (own.followedBy (.fn (.sequenceRest remaining (values.reverse ++ entry.results))))) ∧
    ∀ entries : List (SequenceEntry κ),
      (entries.mapM fun entry => (host.enter entry).attempt) =
        (entries.mapM fun entry => (host.programsFor entry).attempt) >>= fun found =>
          pure (List.zipWith SequenceEntry.comesTo entries found) := by
  refine ⟨fun d => sequenceFrom_eq_built d _ _, fun w => ?_,
    fun _ _ _ _ => enter_waiting lawful, enter_history lawful⟩
  have hmapped : (host.fully fun d => do
      let rest ← sequence d (.tuple (programs.drop index))
      mapProgram d prepend rest) =
        (host.sequenced (programs.drop index) [] >>= fun rest => host.mapped prepend rest) :=
    lawful.fully_bind (deepens_sequenceFrom _ []) fun rest => deepens_mapProgram prepend rest
  rw [hmapped]
  exact sequenced_prepends lawful hprepend _ [] w

/-- A script's loop that goes on after two results, at the second of four programs: a finished one,
one whose continuation leaves a mark, and one that is no program. -/
theorem sequence_accumulates_script :
    let host := Script.host []
    let results : List (Value Script.Code) := [.int 8, .int 7]
    let prepend : Value Script.Code := .fn (.callback
      (.function ["more"] (.strict .cat [.var "done", .var "more"]))
      [("done", .list [.int 7, .int 8])])
    let marking : Value Script.Code := .fn (.callback (.function ["outcome"]
      (.strict .terminal [.trace "outcome" (.var "outcome")])) [])
    let programs := [Request.toProgram .getAll, .terminal (.bool true),
      Request.thenCall .getAll marking, .null]
    let waiting : Operation (Value Script.Code) := ⟨.getAll, marking⟩
    host.Prepends prepend results.reverse ∧
      sequenceBuilt (programs.drop 1) results = .ok (.pending (.operation
        (waiting.followedBy (.fn (.sequenceRest [.null] (.bool true :: results)))))) ∧
      Outcome.Related host.Same
        ((host.fully fun d => sequenceFrom d (programs.drop 1) results).run Script.emptyStore)
        ((host.fully fun d => do
          let rest ← sequence d (.tuple (programs.drop 1))
          mapProgram d prepend rest).run Script.emptyStore) := by
  intro host results prepend marking programs waiting
  have hprepend : host.Prepends prepend results.reverse := by
    intro more
    rw [(Script.host_lawful []).result_fn]
    exact fully_const host (pure (Value.list ([.int 7, .int 8] ++ more)))
  exact ⟨hprepend, rfl,
    (sequence_accumulates (Script.host_lawful []) hprepend programs 1).2.1 Script.emptyStore⟩

end Host

end Workflow

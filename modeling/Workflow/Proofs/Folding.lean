import Mathlib.Data.List.Forall2
import Workflow.Proofs.Scripts
import Workflow.Proofs.Threading

/-!
# A sequence is a fold

A sequence of programs passes over the finished ones at once, keeps their results latest first
and leaves the rest to a continuation.  It is the same program as the plain left fold that pairs
what it has with each program in turn and appends the new result to the list of the earlier ones
(`Host.sequence_same_fold`).

Whatever the outcomes of its operations are, a sequence gives a list with one result for each of
its programs, in their order.
-/

namespace Workflow

variable {κ β σ : Type}

/-- One step of the fold: the result of `p` is paired with the list that `acc` gives, and `snoc`
appends it. -/
def foldStep (d : Dispatch κ β) (snoc acc p : Value κ) : Action κ β (Value κ) := do
  let both ← pair d acc p
  mapProgram d snoc both

/-- The left fold over programs that starts from `acc`. -/
def foldPrograms (d : Dispatch κ β) (snoc acc : Value κ) (programs : List (Value κ)) :
    Action κ β (Value κ) :=
  programs.foldlM (foldStep d snoc) acc

namespace Host

variable {host : Host κ β σ} {snoc : Value κ}

/-- The function `snoc` takes a pair of a list and an item and appends the item to the list. -/
def Appends (host : Host κ β σ) (snoc : Value κ) : Prop :=
  ∀ items item, host.result snoc [.tuple [.list items, item]] = pure (.list (items ++ [item]))

/-! ## Folds at unbounded depth -/

noncomputable def folded (host : Host κ β σ) (snoc acc : Value κ) (programs : List (Value κ)) :
    Action κ β (Value κ) :=
  host.fully fun d => foldPrograms d snoc acc programs

theorem deepens_foldStep (snoc acc p : Value κ) :
    Deepens fun d : Dispatch κ β => foldStep d snoc acc p :=
  fun h => (Congruence.pair h acc p).bind fun both => Congruence.mapProgram h snoc both

theorem deepens_foldPrograms (snoc : Value κ) :
    ∀ (programs : List (Value κ)) (acc : Value κ),
      Deepens fun d : Dispatch κ β => foldPrograms d snoc acc programs
  | [], _ => fun _ => .refl _
  | p :: rest, acc => by
      intro h
      simp only [foldPrograms, List.foldlM_cons]
      exact (deepens_foldStep snoc acc p h).bind fun next => deepens_foldPrograms snoc rest next h

theorem folded_nil (acc : Value κ) : host.folded snoc acc [] = pure acc :=
  fully_const host _

/-- A step of the fold is the two combinators one after the other. -/
theorem fully_foldStep (lawful : host.Lawful) (snoc acc p : Value κ) :
    host.fully (fun d => foldStep d snoc acc p) =
      (host.continued acc (.fn (.pairRest p)) >>= fun both => host.mapped snoc both) :=
  lawful.fully_bind (deepens_andThen acc _) fun both => deepens_mapProgram snoc both

theorem folded_cons (lawful : host.Lawful) (acc p : Value κ) (rest : List (Value κ)) :
    host.folded snoc acc (p :: rest) =
      (host.continued acc (.fn (.pairRest p)) >>= fun both => host.mapped snoc both) >>=
        fun next => host.folded snoc next rest := by
  have hsplit := lawful.fully_bind (deepens_foldStep snoc acc p)
    fun next => deepens_foldPrograms snoc rest next
  rw [fully_foldStep lawful] at hsplit
  simpa only [folded, foldPrograms, List.foldlM_cons] using hsplit

/-- The fold is threaded through the program that it starts from. -/
theorem threads_folded (lawful : host.Lawful) :
    ∀ programs : List (Value κ), host.Threads fun acc => host.folded snoc acc programs
  | [] => by
      simp only [folded_nil]
      exact threads_pure
  | p :: rest => by
      have hstep : host.Threads fun acc =>
          host.continued acc (.fn (.pairRest p)) >>= fun both => host.mapped snoc both :=
        (walks_continued lawful _).toThreads.comp (walks_mapped lawful snoc).toThreads
      simp only [folded_cons lawful]
      exact hstep.comp (threads_folded lawful rest)

/-- From a finished list, the fold maps the next program twice before it goes on. -/
theorem folded_terminal_cons (lawful : host.Lawful) (items p : Value κ) (rest : List (Value κ)) :
    host.folded snoc (.terminal items) (p :: rest) =
      (host.mapped (.fn (.pairWith items)) p >>= fun both => host.mapped snoc both) >>=
        fun next => host.folded snoc next rest := by
  have hpair : host.continued (.terminal items) (.fn (.pairRest p)) =
      host.mapped (.fn (.pairWith items)) p := result_pairRest lawful p items
  rw [folded_cons lawful, hpair]

/-- At a finished program the fold appends its value. -/
theorem folded_terminal_terminal (lawful : host.Lawful) (happends : host.Appends snoc)
    (items : List (Value κ)) (value : Value κ) (rest : List (Value κ)) :
    host.folded snoc (.terminal (.list items)) (.terminal value :: rest) =
      host.folded snoc (.terminal (.list (items ++ [value]))) rest := by
  rw [folded_terminal_cons lawful, mapped_terminal lawful, result_pairWith lawful]
  simp only [pure_bind, mapped_terminal lawful, happends items value]

/-! ## The same program -/

theorem sequenced_same_folded (lawful : host.Lawful) (happends : host.Appends snoc) :
    ∀ (programs results : List (Value κ)) (w : World κ β),
      Outcome.Related host.Same ((host.sequenced programs results).run w)
        ((host.folded snoc (.terminal (.list results.reverse)) programs).run w)
  | [], results, w => by
      rw [sequenced_nil, folded_nil]
      exact .value w (.refl _)
  | p :: rest, results, w => by
      -- Both are combinators of the next program, so only a finished one has to be looked at.
      have hfold : host.Walks fun p =>
          (host.mapped (.fn (.pairWith (.list results.reverse))) p >>= fun both =>
            host.mapped snoc both) >>= fun next => host.folded snoc next rest :=
        ((walks_mapped lawful _).comp (walks_mapped lawful snoc).toThreads).comp
          (threads_folded lawful rest)
      have hsequence : host.Walks fun p => host.continued p (.fn (.sequenceRest rest results)) :=
        walks_continued lawful _
      rw [sequenced_cons lawful, folded_terminal_cons lawful]
      refine hsequence.same hfold (fun value v => ?_) p w
      simp only [← sequenced_cons lawful, ← folded_terminal_cons lawful]
      rw [folded_terminal_terminal lawful happends, sequenced_cons lawful]
      have hvalue : host.continued (.terminal value) (.fn (.sequenceRest rest results)) =
          host.sequenced rest (value :: results) := result_sequenceRest lawful rest results value
      have hrest := sequenced_same_folded lawful happends rest (value :: results) v
      rw [hvalue]
      simpa only [List.reverse_cons] using hrest

/-! ## One result for each program -/

/-- The program can finish with the value: for some outcomes of its operations it does. -/
inductive Gives (host : Host κ β σ) : Value κ → Value κ → Prop
  | finished (value : Value κ) : Gives host (.terminal value) value
  | after {op : Operation (Value κ)} {outcome q value : Value κ} {w v : World κ β} :
      (host.result op.next [outcome]).run w = .value q v → Gives host q value →
      Gives host (.pending (.operation op)) value

/-- A program that `f` follows gives what `f` makes of a value that the program gives. -/
theorem Gives.of_continued (lawful : host.Lawful) {f r value : Value κ} (h : host.Gives r value) :
    ∀ {p : Value κ} {w v : World κ β}, (host.continued p f).run w = .value r v →
      ∃ first u q x, host.Gives p first ∧ (host.result f [first]).run u = .value q x ∧
        host.Gives q value := by
  -- A program that waits is followed where its own continuation leads, with one operation less.
  induction h with
  | finished value =>
      intro p w v hrun
      rcases (walks_continued lawful f).value_cases hrun with ⟨first, rfl⟩ | ⟨op, rfl⟩
      · exact ⟨first, w, _, v, .finished first, hrun, .finished value⟩
      · rw [continued_waiting] at hrun
        cases hrun
  | @after op outcome q value u x hnext hgives ih =>
      intro p w v hrun
      rcases (walks_continued lawful f).value_cases hrun with ⟨first, rfl⟩ | ⟨own, rfl⟩
      · exact ⟨first, w, _, v, .finished first, hrun, .after hnext hgives⟩
      · rw [continued_waiting] at hrun
        cases hrun
        rw [lawful.result_compose] at hnext
        rcases Action.exists_of_run_bind_value hnext with ⟨p', y, hown, hrest⟩
        rw [lawful.result_thenRest] at hrest
        rcases ih hrest with ⟨first, u', q', x', hfirst, hf, hq⟩
        exact ⟨first, u', q', x', .after hown hfirst, hf, hq⟩

theorem sequenced_gives (lawful : host.Lawful) :
    ∀ {programs results : List (Value κ)} {p value : Value κ} {w v : World κ β},
      (host.sequenced programs results).run w = .value p v → host.Gives p value →
      ∃ more, value = .list (results.reverse ++ more) ∧
        List.Forall₂ host.Gives programs more
  | [], results, p, value, w, v => by
      intro hrun hgives
      rw [sequenced_nil] at hrun
      cases hrun
      cases hgives
      exact ⟨[], by rw [List.append_nil], .nil⟩
  | first :: rest, results, p, value, w, v => by
      intro hrun hgives
      rw [sequenced_cons lawful] at hrun
      rcases hgives.of_continued lawful hrun with ⟨result, u, q, x, hfirst, hrest, hq⟩
      rw [result_sequenceRest lawful] at hrest
      rcases sequenced_gives lawful hrest hq with ⟨more, rfl, hmore⟩
      refine ⟨result :: more, ?_, .cons hfirst hmore⟩
      rw [List.reverse_cons, List.append_assoc]
      rfl

/-- A sequence is the left fold that pairs what it has with each program in turn and appends the
result.  Both are refused in the same way, do not end, or give programs that nobody who runs them
can tell apart; and whatever such a program finishes with is a list of one result for each of the
programs, in their order. -/
theorem sequence_same_fold (lawful : host.Lawful) (happends : host.Appends snoc)
    (programs : List (Value κ)) (w : World κ β) :
    Outcome.Related host.Same
        ((host.fully fun d => sequence d (.list programs)).run w)
        ((host.fully fun d => foldPrograms d snoc (.terminal (.list [])) programs).run w) ∧
      ∀ p v value, (host.fully fun d => sequence d (.list programs)).run w = .value p v →
        host.Gives p value →
        ∃ results, value = .list results ∧ List.Forall₂ host.Gives programs results := by
  constructor
  · exact sequenced_same_folded lawful happends programs [] w
  · intro p v value hrun hgives
    have hsequenced : (host.sequenced programs []).run w = .value p v := hrun
    exact sequenced_gives lawful hsequenced hgives

/-- A sequence of a script: one program whose continuation leaves a mark, a finished one, one more
that asks for everything, and one that is no program. -/
theorem sequence_same_fold_getAll :
    let h := Script.host []
    let snoc : Value Script.Code := .fn (.callback (.function ["both"]
      (.strict .cat [.strict .get [.var "both", .lit (.int 0)],
        .strict .list [.strict .get [.var "both", .lit (.int 1)]]])) [])
    let marking : Value Script.Code := .fn (.callback (.function ["outcome"]
      (.strict .terminal [.trace "outcome" (.var "outcome")])) [])
    let programs := [Request.thenCall .getAll marking, .terminal (.bool true),
      Request.toProgram .getAll, .null]
    h.Appends snoc ∧
      Outcome.Related h.Same
        ((h.fully fun d => sequence d (.list programs)).run Script.emptyStore)
        ((h.fully fun d => foldPrograms d snoc (.terminal (.list [])) programs).run
          Script.emptyStore) := by
  intro h snoc marking programs
  have happends : h.Appends snoc := by
    intro items item
    rw [(Script.host_lawful []).result_fn]
    exact fully_const h (pure (Value.list (items ++ [item])))
  exact ⟨happends, (sequence_same_fold (Script.host_lawful []) happends programs _).1⟩

end Host

end Workflow

import Mathlib.Data.List.Forall2
import Workflow.Generator
import Workflow.Proofs.Handling

/-!
# The last parts of guarded statements

A guarded statement runs its last part in any case.  For a generator that is run by a routine this
takes in every way out of it: the body may return, raise, or be closed where it waits, after any
number of visits, and the last parts may themselves return, raise, leave loops and yield.

While a body runs, the frames around its innermost block say which last parts are still owed
(`owed`).  A turn of the machine enters a guarded statement, begins a last part that is owed, or
changes nothing in what is owed (`Moves`).  Over the whole run the last parts that are begun are
therefore the ones that were entered, the latest first (`Settles`), unless the body yields although
it is being closed.  Then the call of the routine fails for this and for nothing else.
-/

namespace Workflow.Generator

variable {κ β ε ι : Type}

/-! ## What is owed -/

/-- A passage through a guarded statement, named by the statement's last part. -/
inductive Passage (ε : Type) where
  | entered (final : List (Stmt ε))
  | begun (final : List (Stmt ε))

namespace Passage

def entered? : Passage ε → Option (List (Stmt ε))
  | entered final => some final
  | begun _ => none

def begun? : Passage ε → Option (List (Stmt ε))
  | entered _ => none
  | begun final => some final

end Passage

/-- `Settles before passages after`: the passages open and close like brackets, and turn the last
parts `before` that are owed, the innermost first, into `after`. -/
inductive Settles : List (List (Stmt ε)) → List (Passage ε) → List (List (Stmt ε)) → Prop
  | nothing (owed : List (List (Stmt ε))) : Settles owed [] owed
  | entered {final : List (Stmt ε)} {before after : List (List (Stmt ε))}
      {passages : List (Passage ε)} :
      Settles (final :: before) passages after → Settles before (.entered final :: passages) after
  | begun {final : List (Stmt ε)} {before after : List (List (Stmt ε))}
      {passages : List (Passage ε)} :
      Settles before passages after → Settles (final :: before) (.begun final :: passages) after

namespace Settles

variable {before between after : List (List (Stmt ε))} {passages later : List (Passage ε)}

theorem append (h : Settles before passages between) (h' : Settles between later after) :
    Settles before (passages ++ later) after := by
  induction h with
  | nothing owed => exact h'
  | entered _ ih => exact .entered (ih h')
  | begun _ ih => exact .begun (ih h')

theorem single (h : Settles before passages after) : Settles before [passages].flatten after := by
  simpa using h

/-- What is owed or entered is begun or still owed, each once. -/
theorem perm (h : Settles before passages after) :
    (passages.filterMap Passage.begun? ++ after).Perm
      (passages.filterMap Passage.entered? ++ before) := by
  induction h with
  | nothing owed => exact .refl _
  | entered _ ih => exact ih.trans List.perm_middle
  | begun _ ih => exact (ih.cons _).trans List.perm_middle.symm

end Settles

/-- The last part that a frame has still to run. -/
def Frame.owed (frame : Frame κ ε ι) : List (List (Stmt ε)) :=
  match frame.context with
  | .guarded _ _ final | .handling _ _ final | .orElse final => [final]
  | .branch | .forEach _ _ _ | .whileLoop _ _ | .finishing _ => []

/-- The last parts that are owed, the innermost first. -/
def owed (frames : List (Frame κ ε ι)) : List (List (Stmt ε)) :=
  frames.flatMap Frame.owed

theorem owed_cons {frame : Frame κ ε ι} {final : List (Stmt ε)} (h : frame.owed = [final])
    (frames : List (Frame κ ε ι)) : owed (frame :: frames) = final :: owed frames := by
  simp only [owed, List.flatMap_cons, h, List.singleton_append]

def Body.owed : Body κ ε ι → List (List (Stmt ε))
  | .fresh _ _ => []
  | .waiting _ _ _ frames | .delegating _ _ _ _ frames => Generator.owed frames

def Stop.owed : Stop κ ε ι → List (List (Stmt ε))
  | .yielded _ body => body.owed
  | .ended _ => []

def Turn.owed : Turn κ ε ι → List (List (Stmt ε))
  | .stop last => last.owed
  | .goOn _ _ frames => Generator.owed frames

/-! ## One turn -/

variable {language : Language κ β ε ι} {d : Dispatch κ β} {scope : Scope κ}
  {frames : List (Frame κ ε ι)} {w : World κ β}

/-- `Moves language d scope control frames w passages next v`: the machine takes one turn, and
passes through a guarded statement as `passages` says. -/
inductive Moves (language : Language κ β ε ι) (d : Dispatch κ β) :
    Scope κ → Control κ ε ι → List (Frame κ ε ι) → World κ β → List (Passage ε) → Turn κ ε ι →
      World κ β → Prop
  | enters (scope : Scope κ) (body : List (Stmt ε)) (clauses : List (Clause ε))
      (orElse final rest : List (Stmt ε)) (frames : List (Frame κ ε ι)) (w : World κ β) :
      Moves language d scope (.run (.guarded body clauses orElse final :: rest)) frames w
        [.entered final] (.goOn scope (.run body) (⟨.guarded clauses orElse final, rest⟩ :: frames))
        w
  /-- The last part is run next, whatever the completion that is under way. -/
  | begins {scope scope' : Scope κ} {completion : Completion κ} {frame : Frame κ ε ι}
      {frames : List (Frame κ ε ι)} {final : List (Stmt ε)} (w : World κ β) :
      frame.owed = [final] →
      frame.turn language.report scope frames completion =
        .goOn scope' (.run final) (⟨.finishing completion, frame.rest⟩ :: frames) →
      Moves language d scope (.finish completion) (frame :: frames) w [.begun final]
        (.goOn scope' (.run final) (⟨.finishing completion, frame.rest⟩ :: frames)) w
  | passes {scope : Scope κ} {control : Control κ ε ι} {frames : List (Frame κ ε ι)}
      {w v : World κ β} {next : Turn κ ε ι} :
      (turn language d scope control frames).run w = .value next v → next.owed = owed frames →
      Moves language d scope control frames w [] next v

/-- A turn changes what is owed by its passages. -/
theorem Moves.settles {control : Control κ ε ι} {passages : List (Passage ε)} {next : Turn κ ε ι}
    {v : World κ β} (h : Moves language d scope control frames w passages next v) :
    Settles (owed frames) passages next.owed := by
  cases h with
  | enters _ body clauses orElse final rest => exact .entered (.nothing _)
  | begins _ hframe _ =>
      rw [owed_cons hframe]
      exact .begun (.nothing _)
  | passes _ howed =>
      rw [howed]
      exact .nothing _

theorem Frame.turn_moves (frame : Frame κ ε ι) (completion : Completion κ) (w : World κ β) :
    ∃ passages, Moves language d scope (.finish completion) (frame :: frames) w passages
      (frame.turn language.report scope frames completion) w := by
  rcases frame with ⟨context, rest⟩
  cases context with
  | branch => cases completion <;> exact ⟨_, .passes rfl rfl⟩
  | forEach name iterator body => cases completion <;> exact ⟨_, .passes rfl rfl⟩
  | whileLoop test body => cases completion <;> exact ⟨_, .passes rfl rfl⟩
  | finishing before => cases before <;> cases completion <;> exact ⟨_, .passes rfl rfl⟩
  | handling name? raised final => cases completion <;> exact ⟨_, .begins w rfl rfl⟩
  | orElse final => cases completion <;> exact ⟨_, .begins w rfl rfl⟩
  | guarded clauses orElse final =>
      cases completion with
      | done => exact ⟨_, .passes rfl rfl⟩
      | leftLoop => exact ⟨_, .begins w rfl rfl⟩
      | endedRound => exact ⟨_, .begins w rfl rfl⟩
      | returned value => exact ⟨_, .begins w rfl rfl⟩
      | raised raised =>
          cases hclause : clauses.find? (Clause.takes raised) with
          | none =>
              have hturn : Frame.turn (ι := ι) language.report scope
                  ⟨.guarded clauses orElse final, rest⟩ frames (.raised raised) =
                  .goOn scope (.run final) (⟨.finishing (.raised raised), rest⟩ :: frames) := by
                simp only [Frame.turn, hclause, Frame.finishWith]
              rw [hturn]
              exact ⟨_, .begins w rfl hturn⟩
          | some clause =>
              -- The handler runs first; the last part is owed as before.
              refine ⟨_, .passes rfl ?_⟩
              simp only [Frame.turn, hclause]
              rfl

/-- A turn that waits for an answer of the language changes nothing in what is owed, if whatever
comes of the answer does not. -/
theorem moves_of_attempt {α : Type} {control : Control κ ε ι} {x : Action κ β α}
    {f : Except (Fault κ) α → Action κ β (Turn κ ε ι)} {o : Outcome κ β (Turn κ ε ι)}
    (hturn : turn language d scope control frames = x.attempt >>= f)
    (hnext : ∀ result, ∃ next, f result = pure next ∧ next.owed = owed frames)
    (h : (turn language d scope control frames).run w = o) (ho : o.Finished) :
    ∃ passages next v, o = .value next v ∧
      Moves language d scope control frames w passages next v := by
  have hrun := h
  rw [hturn] at hrun
  rcases Action.run_attempt_bind_cases hrun ho with ⟨result, v, hresult⟩
  rcases hnext result with ⟨next, hpure, howed⟩
  rw [hpure] at hresult
  exact ⟨[], next, v, hresult.symm, .passes (h.trans hresult.symm) howed⟩

theorem ofItem_owed (name : String) (body rest : List (Stmt ε))
    (answer : Except (Fault κ) (Progress κ ι)) :
    (Turn.ofItem scope name body rest frames answer).owed = owed frames := by
  rcases answer with cause | (⟨item, iterator⟩ | value) <;> rfl

theorem ofIterator_owed (name? : Option String) (rest : List (Stmt ε))
    (answer : Except (Fault κ) (Progress κ ι)) :
    (Turn.ofIterator scope name? rest frames answer).owed = owed frames := by
  rcases answer with cause | (⟨value, iterator⟩ | value) <;> rfl

theorem statement_moves (statement : Stmt ε) (rest : List (Stmt ε)) {o : Outcome κ β (Turn κ ε ι)}
    (h : (turn language d scope (.run (statement :: rest)) frames).run w = o) (ho : o.Finished) :
    ∃ passages next v, o = .value next v ∧
      Moves language d scope (.run (statement :: rest)) frames w passages next v := by
  cases statement with
  | guarded body clauses orElse final =>
      exact ⟨_, _, w, h.symm, .enters scope body clauses orElse final rest frames w⟩
  | yield name? e | assign name? e | ret e | branch test whenTrue whenFalse =>
      refine moves_of_attempt rfl ?_ h ho
      rintro (cause | value) <;> exact ⟨_, rfl, rfl⟩
  | whileLoop test body =>
      refine moves_of_attempt rfl ?_ h ho
      rintro (cause | value)
      · exact ⟨_, rfl, rfl⟩
      · cases hholds : language.holds value <;> simp only [hholds] <;> exact ⟨_, rfl, rfl⟩
  | yieldFrom name? e =>
      exact moves_of_attempt rfl (fun answer => ⟨_, rfl, ofIterator_owed name? rest answer⟩) h
        ho
  | forEach name e body =>
      exact moves_of_attempt rfl (fun answer => ⟨_, rfl, ofItem_owed name body rest answer⟩) h
        ho
  | leaveLoop | nextRound => exact ⟨_, _, w, h.symm, .passes rfl rfl⟩
  | raiseAgain =>
      have hturn : ∃ next : Turn κ ε ι, next.owed = owed frames ∧
          turn language d scope (.run (.raiseAgain :: rest)) frames = pure next := by
        simp only [turn, Stmt.turn]
        cases frames.findSome? Frame.underWay? <;> exact ⟨_, rfl, rfl⟩
      rcases hturn with ⟨next, howed, hturn⟩
      have hrun : (turn language d scope (.run (.raiseAgain :: rest)) frames).run w =
          .value next w := by
        rw [hturn]
        rfl
      exact ⟨[], next, w, h.symm.trans hrun, .passes hrun howed⟩

/-- A turn never fails. -/
theorem turn_moves (control : Control κ ε ι) {o : Outcome κ β (Turn κ ε ι)}
    (h : (turn language d scope control frames).run w = o) (ho : o.Finished) :
    ∃ passages next v, o = .value next v ∧
      Moves language d scope control frames w passages next v := by
  cases control with
  | run statements =>
      cases statements with
      | nil => exact ⟨_, _, w, h.symm, .passes rfl rfl⟩
      | cons statement rest => exact statement_moves statement rest h ho
  | fetch name iterator body rest =>
      exact moves_of_attempt rfl (fun answer => ⟨_, rfl, ofItem_owed name body rest answer⟩) h
        ho
  | finish completion =>
      cases frames with
      | nil => exact ⟨_, _, w, h.symm, .passes rfl rfl⟩
      | cons frame frames =>
          rcases frame.turn_moves completion w with ⟨passages, hmoves⟩
          exact ⟨passages, _, w, h.symm, hmoves⟩

/-! ## A run to the next stop -/

/-- `Course language d first w passages stop v`: from the turn `first` on, in the world `w`, the
machine takes turn after turn, with these passages, and stops at `stop` in the world `v`. -/
inductive Course (language : Language κ β ε ι) (d : Dispatch κ β) :
    Turn κ ε ι → World κ β → List (Passage ε) → Stop κ ε ι → World κ β → Prop
  | stops (stop : Stop κ ε ι) (w : World κ β) : Course language d (.stop stop) w [] stop w
  | goesOn {scope : Scope κ} {control : Control κ ε ι} {frames : List (Frame κ ε ι)}
      {w v u : World κ β} {here later : List (Passage ε)} {next : Turn κ ε ι}
      {stop : Stop κ ε ι} :
      Moves language d scope control frames w here next v → Course language d next v later stop u →
      Course language d (.goOn scope control frames) w (here ++ later) stop u

variable {first : Turn κ ε ι} {passages : List (Passage ε)} {stop : Stop κ ε ι} {v : World κ β}

/-- A run settles what is owed at its start, up to what is owed where it stops. -/
theorem Course.settles (h : Course language d first w passages stop v) :
    Settles first.owed passages stop.owed := by
  induction h with
  | stops stop w => exact .nothing _
  | goesOn hmoves _ ih => exact hmoves.settles.append ih

/-- A run of the machine that ends has a course. -/
theorem runFrom_course (rounds : Nat) :
    ∀ {first : Turn κ ε ι} {w : World κ β} {o : Outcome κ β (Stop κ ε ι)},
      (runFrom language d rounds first).run w = o → o.Finished →
      ∃ passages stop v, o = .value stop v ∧ Course language d first w passages stop v := by
  induction rounds with
  | zero =>
      intro first w o h ho
      cases first with
      | stop stop => exact ⟨[], stop, w, h.symm, .stops stop w⟩
      | goOn scope control frames => exact absurd h.symm (Outcome.finished_iff.1 ho)
  | succ rounds ih =>
      intro first w o h ho
      cases first with
      | stop stop => exact ⟨[], stop, w, h.symm, .stops stop w⟩
      | goOn scope control frames =>
          rcases Action.run_bind_cases h ho with ⟨cause, v, hturn, _⟩ | ⟨next, v, hturn, hrest⟩
          · rcases turn_moves control hturn trivial with ⟨_, _, _, heq, _⟩
            cases heq
          · rcases turn_moves control hturn trivial with ⟨here, _, _, heq, hmoves⟩
            cases heq
            rcases ih hrest ho with ⟨later, stop, u, rfl, hcourse⟩
            exact ⟨here ++ later, stop, u, rfl, .goesOn hmoves hcourse⟩

/-! ## One visit -/

/-- A body goes on with what it owes when a value is sent to it. -/
theorem receive_owed (body : Body κ ε ι) (sent : Value κ) {o : Outcome κ β (Turn κ ε ι)}
    (h : (body.receive language d sent).run w = o) (ho : o.Finished) :
    ∃ first v, o = .value first v ∧ first.owed = body.owed := by
  cases body with
  | fresh scope statements => exact ⟨_, w, h.symm, rfl⟩
  | waiting scope name? rest frames => exact ⟨_, w, h.symm, rfl⟩
  | delegating iterator scope name? rest frames =>
      rcases Action.run_attempt_bind_cases h ho with ⟨answer, v, hanswer⟩
      exact ⟨_, v, hanswer.symm, ofIterator_owed name? rest answer⟩

/-- So it does when it is closed. -/
theorem leave_owed (body : Body κ ε ι) {o : Outcome κ β (Turn κ ε ι)}
    (h : (body.leave language d).run w = o) (ho : o.Finished) :
    ∃ first v, o = .value first v ∧ first.owed = body.owed := by
  cases body with
  | fresh scope statements => exact ⟨_, w, h.symm, rfl⟩
  | waiting scope name? rest frames => exact ⟨_, w, h.symm, rfl⟩
  | delegating iterator scope name? rest frames =>
      rcases Action.run_attempt_bind_cases h ho with ⟨cause | ⟨⟩, v, hanswer⟩ <;>
        exact ⟨_, v, hanswer.symm, rfl⟩

/-- Running a body from a turn that is found first has a course, whatever is made of its stop. -/
theorem runs_course {α : Type} {start : Action κ β (Turn κ ε ι)} {owes : List (List (Stmt ε))}
    {edge : Stop κ ε ι → Action κ β α} {o : Outcome κ β α}
    (hstart : ∀ {o}, start.run w = o → o.Finished →
      ∃ first v, o = .value first v ∧ first.owed = owes)
    (h : (start >>= fun first => runFrom language d d.rounds first >>= edge).run w = o)
    (ho : o.Finished) :
    ∃ first u passages stop v, start.run w = .value first u ∧ first.owed = owes ∧
      Course language d first u passages stop v ∧ (edge stop).run v = o := by
  rcases Action.run_bind_cases h ho with ⟨_, _, hfault, _⟩ | ⟨first, u, hfirst, hrest⟩
  · rcases hstart hfault trivial with ⟨_, _, heq, _⟩
    cases heq
  · rcases hstart hfirst trivial with ⟨_, _, heq, howed⟩
    cases heq
    rcases Action.run_bind_cases hrest ho with ⟨_, _, hfault, _⟩ | ⟨stop, v, hstop, hedge⟩
    · rcases runFrom_course _ hfault trivial with ⟨_, _, _, heq, _⟩
      cases heq
    · rcases runFrom_course _ hstop trivial with ⟨passages, _, _, heq, hcourse⟩
      cases heq
      exact ⟨first, u, passages, stop, v, hfirst, howed, hcourse, hedge⟩

/-- The passages of a visit are those of its run, to the next stop or, where the body is closed, to
its end. -/
inductive Accounted (language : Language κ β ε ι) (d : Dispatch κ β) :
    Visit κ β (Body κ ε ι) → List (Passage ε) → Prop
  | sent {body : Body κ ε ι} {value : Value κ} {w u v : World κ β} {first : Turn κ ε ι}
      {passages : List (Passage ε)} {stop : Stop κ ε ι}
      {after : Outcome κ β (Progress κ (Body κ ε ι))} :
      (body.receive language d value).run w = .value first u →
      Course language d first u passages stop v → stop.progress.run v = after →
      Accounted language d (.sent body value w after) passages
  | closed {body : Body κ ε ι} {w u v : World κ β} {first : Turn κ ε ι}
      {passages : List (Passage ε)} {completion : Completion κ} {after : Outcome κ β Unit} :
      (body.leave language d).run w = .value first u →
      Course language d first u passages (.ended completion) v →
      (Stop.ended completion : Stop κ ε ι).closing.run v = after →
      Accounted language d (.closed body w after) passages

/-- The body of a visit yields although it is being closed, and the visit fails for this. -/
inductive Defies (language : Language κ β ε ι) (d : Dispatch κ β) :
    Visit κ β (Body κ ε ι) → Prop
  | closed {body left : Body κ ε ι} {value : Value κ} {w u v : World κ β} {first : Turn κ ε ι}
      {passages : List (Passage ε)} :
      (body.leave language d).run w = .value first u →
      Course language d first u passages (.yielded value left) v →
      Defies language d (.closed body w (.fault .ignoredExit v))

/-- What a body owes that has come so far. -/
def owedBy : Progress κ (Body κ ε ι) → List (List (Stmt ε))
  | .yielded _ body => body.owed
  | .returned _ => []

/-- What a body owes after a visit that has ended so. -/
def owedAfter : Outcome κ β (Progress κ (Body κ ε ι)) → List (List (Stmt ε))
  | .value progress _ => owedBy progress
  | .fault _ _ | .unfinished => []

theorem owedAfter_progress (stop : Stop κ ε ι) (v : World κ β) :
    owedAfter (stop.progress.run v) = stop.owed := by
  cases stop with
  | yielded value body => rfl
  | ended completion =>
      cases completion with
      | raised raised => cases raised <;> rfl
      | _ => rfl

theorem advance_accounted {body : Body κ ε ι} {sent : Value κ}
    {o : Outcome κ β (Progress κ (Body κ ε ι))} (h : (body.advance language d sent).run w = o)
    (ho : o.Finished) :
    ∃ passages, Accounted language d (.sent body sent w o) passages ∧
      Settles body.owed passages (owedAfter o) := by
  rcases runs_course (receive_owed body sent) h ho with
    ⟨first, u, passages, stop, v, hfirst, howed, hcourse, hedge⟩
  refine ⟨passages, .sent hfirst hcourse hedge, ?_⟩
  rw [← howed, ← hedge, owedAfter_progress]
  exact hcourse.settles

/-- A body that is closed settles all that it owes, or it yields. -/
theorem close_accounted {body : Body κ ε ι} {o : Outcome κ β Unit}
    (h : (body.close language d).run w = o) (ho : o.Finished) :
    (Defies language d (.closed body w o) ∧ ∃ v, o = .fault .ignoredExit v) ∨
      ∃ passages, Accounted language d (.closed body w o) passages ∧
        Settles body.owed passages [] := by
  rcases runs_course (leave_owed body) h ho with
    ⟨first, u, passages, stop, v, hfirst, howed, hcourse, hedge⟩
  cases stop with
  | yielded value left =>
      have ho : o = .fault .ignoredExit v := hedge.symm
      rw [ho]
      exact Or.inl ⟨.closed hfirst hcourse, v, rfl⟩
  | ended completion =>
      rw [← howed]
      exact Or.inr ⟨passages, .closed hfirst hcourse hedge, hcourse.settles⟩

/-! ## All visits -/

/-- What is owed is passed on from one visit to the next. -/
theorem plays_accounted {history sent : List (Value κ)} {progress : Progress κ (Body κ ε ι)}
    {visits : List (Visit κ β (Body κ ε ι))} {o : Outcome κ β (Progress κ (Body κ ε ι))}
    (h : Plays (Body.advance language d) history progress w sent visits o) :
    ∃ passages, List.Forall₂ (Accounted language d) visits passages ∧
      Settles (owedBy progress) passages.flatten (owedAfter o) := by
  induction h with
  | returned history value w => exact ⟨[], .nil, .nothing _⟩
  | waits body w hdue => exact ⟨[], .nil, .nothing _⟩
  | raises hdue hrun =>
      rcases advance_accounted hrun trivial with ⟨passages, haccounted, hsettles⟩
      exact ⟨[passages], .cons haccounted .nil, hsettles.single⟩
  | sends hdue hrun _ ih =>
      rcases advance_accounted hrun trivial with ⟨passages, haccounted, hsettles⟩
      rcases ih with ⟨later, hlater, hrest⟩
      exact ⟨passages :: later, .cons haccounted hlater, hsettles.append hrest⟩

/-- However the routine ends, it settles what its body owes, unless the body yields while it is
being closed.  Then this is how the routine ends. -/
theorem concludes_accounted {rest : Value κ} {visits : List (Visit κ β (Body κ ε ι))}
    {played : Outcome κ β (Progress κ (Body κ ε ι))} {o : Outcome κ β (Value κ)}
    (h : Concludes (Body.close language d) rest played visits o) :
    ((∃ visit ∈ visits, Defies language d visit) ∧ ∃ v, o = .fault .ignoredExit v) ∨
      ∃ passages, List.Forall₂ (Accounted language d) visits passages ∧
        Settles (owedAfter played) passages.flatten [] := by
  have hclosed : ∀ {body : Body κ ε ι} {w v : World κ β},
      (body.close language d).run w = .value () v →
      ∃ passages, List.Forall₂ (Accounted language d) [Visit.closed body w (.value () v)] passages ∧
        Settles body.owed passages.flatten [] := by
    intro body w v hrun
    rcases close_accounted hrun trivial with ⟨_, u, hfault⟩ | ⟨passages, haccounted, hsettles⟩
    · cases hfault
    · exact ⟨[passages], .cons haccounted .nil, hsettles.single⟩
  cases h with
  | returned value w => exact Or.inr ⟨[], .nil, .nothing _⟩
  | raised cause w => exact Or.inr ⟨[], .nil, .nothing _⟩
  | waiting _ hrun => exact Or.inr (hclosed hrun)
  | unanswerable _ _ hrun => exact Or.inr (hclosed hrun)
  | refused _ hrun => exact Or.inr (hclosed hrun)
  | resisted hrun =>
      rcases close_accounted hrun trivial with
        ⟨hdefies, v, hfault⟩ | ⟨passages, haccounted, hsettles⟩
      · cases hfault
        exact Or.inl ⟨⟨_, List.mem_singleton_self _, hdefies⟩, _, rfl⟩
      · exact Or.inr ⟨[passages], .cons haccounted .nil, hsettles.single⟩

theorem handled_accounted {code : κ} {captured : Scope κ}
    {arguments history sent : List (Value κ)} {rest : List (Value κ) → Value κ}
    {visits : List (Visit κ β (Body κ ε ι))} {o : Outcome κ β (Value κ)}
    (h : Handled ((host language).start code captured arguments) ((host language).advance d)
      ((host language).close d) rest history w sent visits o) :
    ((∃ visit ∈ visits, Defies language d visit) ∧ ∃ v, o = .fault .ignoredExit v) ∨
      ∃ passages, List.Forall₂ (Accounted language d) visits passages ∧
        Settles [] passages.flatten [] := by
  have hstarted : ∀ {body : Body κ ε ι} {v : World κ β},
      ((host language).start code captured arguments).run w = .value body v → body.owed = [] := by
    intro body v hstart
    rcases Action.exists_of_run_bind_value hstart with ⟨entered, u, _, hfresh⟩
    cases hfresh
    rfl
  cases h with
  | unstarted _ => exact Or.inr ⟨[], .nil, .nothing _⟩
  | broken hstart hrun =>
      rcases advance_accounted hrun trivial with ⟨passages, haccounted, hsettles⟩
      rw [hstarted hstart] at hsettles
      exact Or.inr ⟨[passages], .cons haccounted .nil, hsettles.single⟩
  | played hstart hrun hplays hends =>
      rcases advance_accounted hrun trivial with ⟨first, haccounted, hsettles⟩
      rw [hstarted hstart] at hsettles
      rcases plays_accounted hplays with ⟨later, hlater, hplayed⟩
      rcases concludes_accounted hends with
        ⟨⟨visit, hmem, hdefies⟩, hfault⟩ | ⟨last, hlast, hclosed⟩
      · exact Or.inl ⟨⟨visit, List.mem_append_right _ hmem, hdefies⟩, hfault⟩
      · refine Or.inr ⟨first :: later ++ last, .cons haccounted (List.rel_append hlater hlast), ?_⟩
        simpa using (hsettles.append hplayed).append hclosed

section Scripted

open Script (Code Stores Expr emptyStore)

/-- The items that a list yields, one after the other. -/
def listed : List (Value Code) → Progress Code (List (Value Code))
  | [] => .returned .null
  | item :: rest => .yielded item rest

/-- A language with the expressions of scripts, in which all code stands for one generator function;
its iterators are lists. -/
def scripted (statements : List (Stmt Expr)) : Language Code Stores Expr (List (Value Code)) where
  callback := Script.callCode []
  enter _ captured _ := .ok (captured, statements)
  eval := Expr.eval []
  holds
    | .bool b => b
    | _ => false
  report
    | .fault cause => .text cause.message
    | .exit => .null
  iterate d scope e := do return listed (← itemsOf (← e.eval [] d scope))
  send _ rest _ := return listed rest
  dispose _ _ := return ()

/-- A statement that leaves a mark. -/
def mark (label : String) : Stmt Expr :=
  .assign none (.trace label (.lit .null))

/-- A body that waits inside two guarded statements.  Closing it runs a handler, which raises the
exit signal again, and a last part, which raises a stop signal instead; the outer statement handles
this and returns. -/
def guardedBody : List (Stmt Expr) :=
  [.guarded
    [.guarded [.yield (some "docs") (.strict (.programOf .getAll) [])]
      [.mk ["GeneratorExit"] none [mark "left", .raiseAgain]] []
      [mark "inner", .assign none (.raise .stop "over")]]
    [.mk ["StopIteration"] (some "cause") [mark "caught", .ret (.var "cause")]] [] [mark "outer"]]

/-- A last part that yields while the body is closed: no handler of the body sees the fault. -/
example : let stubborn : List (Stmt Expr) :=
      [.guarded
        [.guarded [.yield none (.strict (.programOf .getAll) [])] [] [] [.yield none (.lit .null)]]
        [.mk ["RuntimeError"] none [mark "caught"]] [] []]
    let host := host (scripted stubborn)
    (host.resume (host.dispatch 16) (.routine [] []) [] [] []).run emptyStore =
      .fault .ignoredExit emptyStore := rfl

end Scripted

end Workflow.Generator

namespace Workflow.Script

end Workflow.Script

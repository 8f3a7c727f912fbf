import Workflow.Proofs.Failing
import Workflow.Proofs.Runs
import Workflow.Proofs.Scripts

/-!
# Runs over a failing backend

A run over a backend that fails at its `n`-th call is the run over the sound backend up to that
call and is cut there: the fault leaves the driver at once and nothing of the program sees it.
-/

namespace Workflow

variable {κ β σ α γ : Type}

/-! ## Asking the failing backend -/

/-- The four functions of the backend are callbacks in `owns`. -/
def Backend.OwnedBy (owns : κ → Bool) (b : Backend (Value κ)) : Prop :=
  ∀ request, ∃ code captured,
    b.functionFor request = .fn (.callback code captured) ∧ owns code = true

/-- Sequences end in the same way up to a change of the world if their parts do. -/
theorem Action.run_bind_mapWorld {β' : Type} {change : World κ β → World κ β'}
    {x : Action κ β α} {x' : Action κ β' α} {f : α → Action κ β γ} {f' : α → Action κ β' γ}
    {w : World κ β} {w' : World κ β'} (hx : x'.run w' = (x.run w).mapWorld change)
    (hf : ∀ a v, (f' a).run (change v) = ((f a).run v).mapWorld change) :
    (x' >>= f').run w' = ((x >>= f).run w).mapWorld change := by
  cases hrun : x.run w with
  | value a v =>
      rw [hrun] at hx
      rw [run_bind_of_value f hrun, run_bind_of_value f' hx]
      exact hf a v
  | fault cause v =>
      rw [hrun] at hx
      rw [run_bind_of_fault f hrun, run_bind_of_fault f' hx]
      rfl
  | unfinished =>
      rw [hrun] at hx
      rw [run_bind_of_unfinished f hrun, run_bind_of_unfinished f' hx]
      rfl

namespace Host

variable {host : Host κ β σ} {owns : κ → Bool} {n : Nat} {cause : Fault κ}
  {b : Backend (Value κ)}

/-- A call of one of the counted callbacks. -/
theorem call_owned (host : Host κ β σ) (n : Nat) (cause : Fault κ) {code : κ}
    (howns : owns code = true) (captured : Scope κ) (arguments : List (Value κ))
    (depth count : Nat) (w : World κ β) :
    ((host.failingAt owns n cause).call (depth + 1) (.fn (.callback code captured))
        arguments).run (w.beside count) =
      if count + 1 = n then .fault cause (w.beside n)
      else ((host.call (depth + 1) (.fn (.callback code captured)) arguments).run w).mapWorld
        (World.beside (count + 1)) := by
  have hcall : (host.failingAt owns n cause).call (depth + 1) (.fn (.callback code captured))
      arguments =
        (Action.modifyOutside (fun state => (state.1 + 1, state.2)) >>= fun _ =>
          Action.outside >>= fun state =>
            if state.1 = n then .fail cause
            else (host.call (depth + 1) (.fn (.callback code captured)) arguments).beside) := by
    show (if owns code then _ else _) = _
    rw [if_pos howns]
    rfl
  rw [hcall]
  -- The count is raised before anything else is done.
  show ((if count + 1 = n then Action.fail cause else
    (host.call (depth + 1) (.fn (.callback code captured)) arguments).beside) :
      Action κ (Nat × β) (Value κ)).run (w.beside (count + 1)) = _
  split
  · rename_i hn
    rw [hn]
    rfl
  · rfl

/-- Resolving an operation against the failing backend. -/
theorem resolve_failingAt (host : Host κ β σ) (n : Nat) (cause : Fault κ)
    (howned : b.OwnedBy owns) (op : Operation (Value κ)) (depth count : Nat) (w : World κ β) :
    (b.resolve ((host.failingAt owns n cause).dispatch (depth + 1)) (.operation op)).run
        (w.beside count) =
      if count + 1 = n then .fault cause ((w.recorded (.call op.request)).beside n)
      else ((b.resolve (host.dispatch (depth + 1)) (.operation op)).run w).mapWorld
        (World.beside (count + 1)) := by
  rcases howned op.request with ⟨code, captured, hfunction, howns⟩
  have hcall := call_owned host n cause howns captured
    op.request.operands depth count (w.recorded (.call op.request))
  -- The call is recorded in both runs; what becomes of the answer is the same in both.
  rw [Backend.resolve_operation, Backend.resolve_operation, hfunction]
  show ((host.failingAt owns n cause).call (depth + 1) (.fn (.callback code captured))
    op.request.operands >>= _).run ((w.recorded (.call op.request)).beside count) =
      if count + 1 = n then _ else ((host.call (depth + 1) (.fn (.callback code captured))
        op.request.operands >>= _).run (w.recorded (.call op.request))).mapWorld _
  split
  · rename_i hn
    rw [if_pos hn] at hcall
    exact Action.run_bind_of_fault _ hcall
  · rename_i hn
    rw [if_neg hn] at hcall
    refine Action.run_bind_mapWorld hcall fun answer v => ?_
    cases op.request.outcome answer <;> rfl

theorem ask_failingAt (lawful : host.Lawful) (n : Nat) (cause : Fault κ)
    (howned : b.OwnedBy owns) (request : Request (Value κ)) (count : Nat) (w : World κ β) :
    ((host.failingAt owns n cause).ask b request).run (w.beside count) =
      if count + 1 = n then .fault cause ((w.recorded (.call request)).beside n)
      else ((host.ask b request).run w).mapWorld (World.beside (count + 1)) := by
  have hfailing : (host.failingAt owns n cause).Lawful := lawful.failingAt owns n cause
  have hrising := lawful.rising (deepens_resolve b (.operation ⟨request, .null⟩))
  have hrising' := hfailing.rising (deepens_resolve b (.operation ⟨request, .null⟩))
  have hresolve := fun depth =>
    resolve_failingAt host n cause howned ⟨request, .null⟩ depth count w
  -- The fault needs no depth beyond the call itself.
  by_cases hn : count + 1 = n
  · simp only [if_pos hn] at hresolve ⊢
    exact hrising'.limit_run (hresolve 0) trivial
  · simp only [if_neg hn] at hresolve ⊢
    exact Action.limit_run_mapWorld hrising hrising' hresolve

theorem Quiet.result_run (lawful : host.Lawful) (n : Nat) (cause : Fault κ) {next : Value κ}
    (hquiet : host.Quiet owns next) (outcome : Value κ) (count : Nat) (w : World κ β) :
    ((host.failingAt owns n cause).result next [outcome]).run (w.beside count) =
      ((host.result next [outcome]).run w).mapWorld (World.beside count) := by
  have hfailing : (host.failingAt owns n cause).Lawful := lawful.failingAt owns n cause
  refine Action.limit_run_mapWorld (lawful.rising_call next [outcome])
    (hfailing.rising_call next [outcome]) fun depth => ?_
  exact congrFun (hquiet n cause (depth + 1) outcome) (w.beside count)

/-- A step of a run over the failing backend. -/
theorem turn_failingAt (lawful : host.Lawful) (n : Nat) (cause : Fault κ)
    (howned : b.OwnedBy owns) {op : Operation (Value κ)} (hquiet : host.Quiet owns op.next)
    (count : Nat) (w : World κ β) :
    ((host.failingAt owns n cause).turn b op).run (w.beside count) =
      if count + 1 = n then .fault cause ((w.recorded (.call op.request)).beside n)
      else ((host.turn b op).run w).mapWorld (World.beside (count + 1)) := by
  have hask := ask_failingAt lawful n cause howned op.request count w
  by_cases hn : count + 1 = n
  · rw [if_pos hn] at hask ⊢
    exact Action.run_bind_of_fault _ hask
  · rw [if_neg hn] at hask ⊢
    exact Action.run_bind_mapWorld hask fun outcome v =>
      hquiet.result_run lawful n cause outcome _ v

/-! ## Runs before the failing call -/

variable {driver : Driver}

/-- Whatever operations the run comes to from here, their continuations leave the backend
alone. -/
def QuietAlong (host : Host κ β σ) (owns : κ → Bool) (driver : Driver) (b : Backend (Value κ))
    (steps : Nat) (p : Value κ) (w : World κ β) : Prop :=
  ∀ done op v, host.Path driver b steps p w done (.pending (.operation op)) v →
    host.Quiet owns op.next

/-- From here the run does not come to its `n`-th call. -/
def Unasked (host : Host κ β σ) (n : Nat) (driver : Driver) (b : Backend (Value κ))
    (steps : Nat) (p : Value κ) (w : World κ β) : Prop :=
  ∀ done op v, host.Path driver b steps p w done (.pending (.operation op)) v →
    steps + done.length + 1 ≠ n

section Steps

variable {steps : Nat} {op : Operation (Value κ)} {w v : World κ β} {q : Value κ}

theorem QuietAlong.here
    (h : host.QuietAlong owns driver b steps (.pending (.operation op)) w) :
    host.Quiet owns op.next :=
  h [] op w (.here steps _ w)

theorem QuietAlong.step
    (h : host.QuietAlong owns driver b steps (.pending (.operation op)) w)
    (hturn : (host.turn b op).run (w.write (driver.stepLine steps (.operation op))) =
      .value q v) : host.QuietAlong owns driver b (steps + 1) q v := by
  intro done op' u hpath
  exact h (op :: done) op' u (.step hturn hpath)

theorem Unasked.here (h : host.Unasked n driver b steps (.pending (.operation op)) w) :
    steps + 1 ≠ n :=
  h [] op w (.here steps _ w)

theorem Unasked.step (h : host.Unasked n driver b steps (.pending (.operation op)) w)
    (hturn : (host.turn b op).run (w.write (driver.stepLine steps (.operation op))) =
      .value q v) : host.Unasked n driver b (steps + 1) q v := by
  intro done op' u hpath
  have hlength := h (op :: done) op' u (.step hturn hpath)
  rw [List.length_cons] at hlength
  omega

/-- A step before the failing call. -/
theorem turn_failingAt_write (lawful : host.Lawful) (driver : Driver) (cause : Fault κ)
    (howned : b.OwnedBy owns) (hquiet : host.Quiet owns op.next) (w : World κ β)
    (hn : steps + 1 ≠ n) :
    ((host.failingAt owns n cause).turn b op).run
        ((w.beside steps).write (driver.stepLine steps (.operation op))) =
      ((host.turn b op).run (w.write (driver.stepLine steps (.operation op)))).mapWorld
        (World.beside (steps + 1)) := by
  have hturn := turn_failingAt lawful n cause howned hquiet steps
    (w.write (driver.stepLine steps (.operation op)))
  rw [if_neg hn] at hturn
  rw [World.write_beside, hturn]

end Steps

/-- A path that ends before the failing call is a path over the failing backend. -/
theorem Path.failingAt (lawful : host.Lawful) (cause : Fault κ) (howned : b.OwnedBy owns)
    {steps : Nat} {p q : Value κ} {w v : World κ β} {ops : List (Operation (Value κ))}
    (h : host.Path driver b steps p w ops q v) (hquiet : host.QuietAlong owns driver b steps p w)
    (hn : steps + ops.length < n) :
    (host.failingAt owns n cause).Path driver b steps p (w.beside steps) ops q
      (v.beside (steps + ops.length)) := by
  induction h with
  | here steps p w => exact .here steps p (w.beside steps)
  | @step steps op w v u p q ops hturn _ ih =>
      -- The count is the number of steps.
      rw [List.length_cons] at hn
      have hstep := turn_failingAt_write lawful driver cause howned hquiet.here w
        (show steps + 1 ≠ n by omega)
      rw [hturn] at hstep
      have hrest := ih (hquiet.step hturn) (by omega)
      have hcount : steps + 1 + ops.length = steps + (op :: ops).length := by
        rw [List.length_cons]
        omega
      rw [hcount] at hrest
      exact .step hstep hrest

/-- A run without an `n`-th call is a run over the failing backend. -/
theorem Runs.failingAt (lawful : host.Lawful) (cause : Fault κ) (howned : b.OwnedBy owns)
    {steps : Nat} {p : Value κ} {w : World κ β} {ops : List (Operation (Value κ))}
    {o : Outcome κ β (Value κ)} (h : host.Runs driver b steps p w ops o)
    (hquiet : host.QuietAlong owns driver b steps p w)
    (hunasked : host.Unasked n driver b steps p w) :
    (host.failingAt owns n cause).Runs driver b steps p (w.beside steps) ops
      (o.mapWorld (World.beside (steps + ops.length))) := by
  induction h with
  | @done steps p w ops o hhalt =>
      refine .done ?_
      cases hhalt with
      | finished value =>
          have hhalt : (host.failingAt owns n cause).Halts driver b steps (.terminal value)
              (w.beside steps) [] _ := .finished value (w.beside steps)
          simpa [Outcome.mapWorld] using hhalt
      | @refused waiting _ hw =>
          have hhalt : (host.failingAt owns n cause).Halts driver b steps (.pending waiting)
              (w.beside steps) [] _ := .refused (w.beside steps) hw
          simpa [Outcome.mapWorld] using hhalt
      | invalid _ hp => exact .invalid (w.beside steps) hp
      | @broken op _ v cause' hturn =>
          have hstep := turn_failingAt_write lawful driver cause howned hquiet.here w
            hunasked.here
          rw [hturn] at hstep
          exact .broken hstep
  | @more steps op w v p ops o hturn _ ih =>
      have hstep := turn_failingAt_write lawful driver cause howned hquiet.here w hunasked.here
      rw [hturn] at hstep
      have hrest := ih (hquiet.step hturn) (hunasked.step hturn)
      have hcount : steps + 1 + ops.length = steps + (op :: ops).length := by
        rw [List.length_cons]
        omega
      rw [hcount] at hrest
      exact .more hstep hrest

/-- A run over the failing backend that does not come to the failing call is a run over the
sound one. -/
theorem Runs.exists_of_failingAt (lawful : host.Lawful) {cause : Fault κ}
    (howned : b.OwnedBy owns) {steps : Nat} {p : Value κ} {u : World κ (Nat × β)}
    {ops : List (Operation (Value κ))} {o : Outcome κ (Nat × β) (Value κ)}
    (h : (host.failingAt owns n cause).Runs driver b steps p u ops o) :
    ∀ w : World κ β, u = w.beside steps → host.QuietAlong owns driver b steps p w →
      host.Unasked n driver b steps p w → ∃ o', host.Runs driver b steps p w ops o' := by
  induction h with
  | @done steps p u ops o hhalt =>
      rintro w rfl hquiet hunasked
      -- It halts for a reason that is none of the failing call.
      cases hhalt with
      | finished value => exact ⟨_, .done (.finished value w)⟩
      | refused _ hw => exact ⟨_, .done (.refused w hw)⟩
      | invalid _ hp => exact ⟨_, .done (.invalid w hp)⟩
      | @broken op _ v cause' hturn =>
          rw [turn_failingAt_write lawful driver cause howned hquiet.here w hunasked.here] at hturn
          cases hrun : (host.turn b op).run (w.write (driver.stepLine steps (.operation op))) with
          | value q v' => simp [hrun, Outcome.mapWorld] at hturn
          | fault cause'' v' => exact ⟨_, .done (.broken hrun)⟩
          | unfinished => simp [hrun, Outcome.mapWorld] at hturn
  | @more steps op u v p ops o hturn _ ih =>
      rintro w rfl hquiet hunasked
      rw [turn_failingAt_write lawful driver cause howned hquiet.here w hunasked.here] at hturn
      cases hrun : (host.turn b op).run (w.write (driver.stepLine steps (.operation op))) with
      | value q v' =>
          simp only [hrun, Outcome.mapWorld, Outcome.value.injEq] at hturn
          rcases hturn with ⟨rfl, rfl⟩
          rcases ih v' rfl (hquiet.step hrun) (hunasked.step hrun) with ⟨o', hrest⟩
          exact ⟨o', .more hrun hrest⟩
      | fault cause'' v' => simp [hrun, Outcome.mapWorld] at hturn
      | unfinished => simp [hrun, Outcome.mapWorld] at hturn

/-! ## Whole runs -/

/-- The run of a program makes its `n`-th call of the backend in the world `w'`, where the call
is recorded already. -/
def AsksAt (host : Host κ β σ) (driver : Driver) (b : Backend (Value κ)) (p : Value κ)
    (w : World κ β) (n : Nat) (w' : World κ β) : Prop :=
  ∃ ops op v,
    host.Path driver b 0 p (w.write (.started driver)) ops (.pending (.operation op)) v ∧
    ops.length + 1 = n ∧
    w' = (v.write (driver.stepLine ops.length (.operation op))).recorded (.call op.request)

/-- Without an `n`-th call the two runs end in the same way or not at all. -/
theorem drive_failingAt_of_unasked (lawful : host.Lawful) (cause : Fault κ)
    (howned : b.OwnedBy owns) (hn : 0 < n) {p : Value κ} {w : World κ β}
    (hquiet : host.QuietAlong owns driver b 0 p (w.write (.started driver)))
    (hasks : ¬ ∃ w', host.AsksAt driver b p w n w') :
    ∃ calls < n, ((host.failingAt owns n cause).drive driver b p).run (w.beside 0) =
      ((host.drive driver b p).run w).mapWorld (World.beside calls) := by
  have hfailing : (host.failingAt owns n cause).Lawful := lawful.failingAt owns n cause
  have hunasked : host.Unasked n driver b 0 p (w.write (.started driver)) := by
    intro done op v hpath hlength
    exact hasks ⟨_, done, op, v, hpath, by omega, rfl⟩
  by_cases hfin : ((host.drive driver b p).run w).Finished
  · rcases (drive_eq_iff lawful hfin).1 rfl with ⟨ops, hruns⟩
    refine ⟨ops.length, ?_, ?_⟩
    · -- Otherwise the run would have come to its `n`-th call.
      apply Classical.byContradiction
      intro hlt
      rcases hruns.exists_asked (n - 1) (by omega) with ⟨done, op, v, hpath, hlength⟩
      exact hunasked done op v hpath (by omega)
    · have hruns' := hruns.failingAt lawful cause howned hquiet hunasked
      rw [Nat.zero_add, ← World.write_beside] at hruns'
      exact (drive_eq_iff hfailing hruns'.outcome_finished).2 ⟨ops, hruns'⟩
  · -- A run that does not end is not cut, or it would have come to an `n`-th call.
    refine ⟨0, hn, ?_⟩
    have hfin' : ¬ (((host.failingAt owns n cause).drive driver b p).run
        (w.beside 0)).Finished := by
      intro hfin'
      rcases (drive_eq_iff hfailing hfin').1 rfl with ⟨ops, hruns⟩
      rcases hruns.exists_of_failingAt lawful howned (w.write (.started driver))
        (World.write_beside _ _ _) hquiet hunasked with ⟨o, hruns'⟩
      have hdrive := (drive_eq_iff lawful hruns'.outcome_finished).2 ⟨ops, hruns'⟩
      rw [hdrive] at hfin
      exact hfin hruns'.outcome_finished
    rw [Outcome.eq_unfinished hfin, Outcome.eq_unfinished hfin']
    rfl

/-- At its `n`-th call the run over the failing backend is cut. -/
theorem drive_failingAt_of_asks (lawful : host.Lawful) (cause : Fault κ)
    (howned : b.OwnedBy owns) {p : Value κ} {w w' : World κ β}
    (hquiet : host.QuietAlong owns driver b 0 p (w.write (.started driver)))
    (hasks : host.AsksAt driver b p w n w') :
    ((host.failingAt owns n cause).drive driver b p).run (w.beside 0) =
      .fault (driver.leaving cause) (w'.beside n) := by
  have hfailing : (host.failingAt owns n cause).Lawful := lawful.failingAt owns n cause
  rcases hasks with ⟨ops, op, v, hpath, hlength, rfl⟩
  -- The steps before are those of the sound run, and the next one breaks.
  have hpath' := hpath.failingAt lawful cause howned hquiet (show 0 + ops.length < n by omega)
  rw [Nat.zero_add, ← World.write_beside] at hpath'
  have hturn := turn_failingAt lawful n cause howned (hquiet ops op v hpath) ops.length
    (v.write (driver.stepLine ops.length (.operation op)))
  rw [if_pos hlength, ← World.write_beside] at hturn
  have hhalt : (host.failingAt owns n cause).Halts driver b (0 + ops.length)
      (.pending (.operation op)) (v.beside ops.length) [op]
      (.fault (driver.leaving cause) _) := .broken (by rwa [Nat.zero_add])
  have hruns := hpath'.runs (.done hhalt)
  exact (drive_eq_iff hfailing hruns.outcome_finished).2 ⟨_, hruns⟩

/-- Whatever a run makes known up to its `n`-th call stays in its journal. -/
theorem AsksAt.journal_suffix (lawful : host.Lawful) {p : Value κ} {w w' u : World κ β}
    (hasks : host.AsksAt driver b p w n w')
    (hu : ((host.drive driver b p).run w).world? = some u) : w'.journal <:+ u.journal := by
  rcases hasks with ⟨ops, op, v, hpath, _, rfl⟩
  generalize hrun : (host.drive driver b p).run w = o at hu
  have hfin : o.Finished := by
    cases o with
    | value | fault => trivial
    | unfinished => simp [Outcome.world?] at hu
  rcases (drive_eq_iff lawful hfin).1 hrun with ⟨all, hruns⟩
  rcases hpath.rest_runs hruns with ⟨rest, _, hrest⟩
  rw [Nat.zero_add] at hrest
  cases hrest with
  | done hhalt =>
      cases hhalt with
      | refused _ hw => exact absurd rfl (hw op)
      | invalid _ hp => cases hp
      | broken hturn => exact turn_journal_suffix lawful hturn hu
  | more hturn hruns' =>
      exact (turn_journal_suffix lawful hturn rfl).trans (hruns'.journal_suffix lawful hu)

/-- Failing at the `n`-th call cuts a run exactly there.  If the run over the sound backend does
not come to an `n`-th call, the two runs are the same.  If it does, the run over the failing one
ends with the fault of the backend, as its driver lets faults leave, in the world of that call: the
state of the backend is the one just before the call, and the journal is the one of the sound run
up to the call and no longer. -/
theorem drive_failingAt (lawful : host.Lawful) (howned : b.OwnedBy owns) (hn : 0 < n)
    (cause : Fault κ) (p : Value κ) (w : World κ β)
    (hquiet : host.QuietAlong owns driver b 0 p (w.write (.started driver))) :
    ((¬ ∃ w', host.AsksAt driver b p w n w') →
      ∃ calls < n, ((host.failingAt owns n cause).drive driver b p).run (w.beside 0) =
        ((host.drive driver b p).run w).mapWorld (World.beside calls)) ∧
    ∀ w', host.AsksAt driver b p w n w' →
      ((host.failingAt owns n cause).drive driver b p).run (w.beside 0) =
          .fault (driver.leaving cause) (w'.beside n) ∧
        ∀ u, ((host.drive driver b p).run w).world? = some u → w'.journal <:+ u.journal := by
  constructor
  · intro hasks
    exact drive_failingAt_of_unasked lawful cause howned hn hquiet hasks
  · intro w' hasks
    refine ⟨drive_failingAt_of_asks lawful cause howned hquiet hasks, fun u hu => ?_⟩
    exact hasks.journal_suffix lawful hu

/-- A program of four steps over a script's store that is down at its second call, and over one that
would be down at its fifth; the awaited driver does not let a stop signal out. -/
theorem drive_failingAt_amending :
    let h := Script.host []
    let b := Script.Stores.backend 0
    let owns : Script.Code → Bool := fun code => code matches .store 0 _
    let p := Script.amending
    let w := Script.emptyStore
    (∃ w' : World Script.Code Script.Stores, h.AsksAt .awaited b p w 2 w' ∧
      ((h.failingAt owns 2 (.raised .stop "")).drive .awaited b p).run (w.beside 0) =
        .fault (.escapedStop .coroutine) (w'.beside 2)) ∧
      ∃ calls < 5, ((h.failingAt owns 5 (.raised .connection "down")).drive .eager b p).run
          (w.beside 0) =
        ((h.drive .eager b p).run w).mapWorld (World.beside calls) := by
  intro h b owns p w
  have lawful : h.Lawful := Script.host_lawful []
  have howned : b.OwnedBy owns := by
    intro request
    cases request <;> exact ⟨_, _, rfl, rfl⟩
  -- Each of the continuations is a callback of the script, or finishes.
  have hharmless : ∀ op ∈ Script.amendingSteps, Harmless owns op.next := by
    intro op hop
    simp only [Script.amendingSteps, List.mem_cons, List.not_mem_nil, or_false] at hop
    rcases hop with rfl | rfl | rfl | rfl
    · exact .callback _ rfl
    · exact .callback _ rfl
    · exact .callback _ rfl
    · exact .finish
  have hquiet : ∀ driver : Driver,
      h.QuietAlong owns driver b 0 p (w.write (.started driver)) := by
    intro driver done op v hpath
    obtain ⟨u, hruns⟩ := Script.amending_runs driver
    rcases hpath.asks hruns with ⟨rest, hsteps⟩
    exact (hharmless op (hsteps ▸ by simp)).quiet h
  constructor
  · obtain ⟨u, hruns⟩ := Script.amending_runs .awaited
    rcases hruns.exists_asked 1 (by decide) with ⟨done, op, v, hpath, hlength⟩
    have hasks : h.AsksAt .awaited b p w 2 _ := ⟨done, op, v, hpath, by rw [hlength], rfl⟩
    exact ⟨_, hasks, ((drive_failingAt lawful howned Nat.two_pos (.raised .stop "") p w
      (hquiet .awaited)).2 _ hasks).1⟩
  · refine (drive_failingAt lawful howned (by decide) (.raised .connection "down") p w
      (hquiet .eager)).1 ?_
    -- The run is through after its fourth step.
    rintro ⟨w', done, op, v, hpath, hlength, _⟩
    obtain ⟨u, hruns⟩ := Script.amending_runs .eager
    rcases hpath.asks hruns with ⟨rest, hsteps⟩
    have hshort := congrArg List.length hsteps
    simp only [List.length_append, List.length_cons] at hshort
    have hfour : Script.amendingSteps.length = 4 := rfl
    omega

end Host

end Workflow

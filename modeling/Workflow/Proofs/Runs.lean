import Workflow.Proofs.Turn

/-!
# Runs over a backend

A run by the built-in executor over a backend asks the backend about one operation after the
other, and calls the continuation of each on the answer, until it comes to a program it halts at.
`Host.Runs` says this without loops, nesting or depth, and `Host.drive_eq_iff` says that each of
the three drivers ends with an outcome exactly when its run does.
-/

namespace Workflow

variable {κ β σ α γ : Type}

/-! ## Paths and runs -/

namespace Host

/-- `host.Path driver b steps p w ops q v`: from the program `p` in the world `w`, after `steps`
steps, a run performs the operations `ops`, each of them once and in this order, and comes to the
program `q` in the world `v`. -/
inductive Path (host : Host κ β σ) (driver : Driver) (b : Backend (Value κ)) :
    Nat → Value κ → World κ β → List (Operation (Value κ)) → Value κ → World κ β → Prop
  | here (steps : Nat) (p : Value κ) (w : World κ β) : Path host driver b steps p w [] p w
  | step {steps : Nat} {op : Operation (Value κ)} {w v u : World κ β} {p q : Value κ}
      {ops : List (Operation (Value κ))} :
      (host.turn b op).run (w.write (driver.stepLine steps (.operation op))) = .value p v →
      Path host driver b (steps + 1) p v ops q u →
      Path host driver b steps (.pending (.operation op)) w (op :: ops) q u

/-- `host.Halts driver b steps p w ops o`: a run that has come to the program `p` in the world `w`
after `steps` steps ends here with the outcome `o`; `ops` holds the operation that it breaks at,
if it breaks at one. -/
inductive Halts (host : Host κ β σ) (driver : Driver) (b : Backend (Value κ)) (steps : Nat) :
    Value κ → World κ β → List (Operation (Value κ)) → Outcome κ β (Value κ) → Prop
  | finished (value : Value κ) (w : World κ β) :
      Halts host driver b steps (.terminal value) w []
        (.value value (w.write (driver.finishLine steps)))
  /-- It waits on something that is no operation. -/
  | refused {waiting : Value κ} (w : World κ β) : (∀ op, waiting ≠ .operation op) →
      Halts host driver b steps (.pending waiting) w []
        (.fault (driver.refusal waiting) (w.write (driver.stepLine steps waiting)))
  /-- It is no program. -/
  | invalid {p : Value κ} (w : World κ β) : p.isProgram = false →
      Halts host driver b steps p w [] (.fault (.invalidProgram p) w)
  /-- The backend or the continuation fails. -/
  | broken {op : Operation (Value κ)} {w v : World κ β} {cause : Fault κ} :
      (host.turn b op).run (w.write (driver.stepLine steps (.operation op))) = .fault cause v →
      Halts host driver b steps (.pending (.operation op)) w [op]
        (.fault (driver.leaving cause) v)

/-- `host.Runs driver b steps p w ops o`: from the program `p` in the world `w`, after `steps`
steps, a run asks about the operations `ops`, each of them once and in this order, and ends with
the outcome `o`. -/
inductive Runs (host : Host κ β σ) (driver : Driver) (b : Backend (Value κ)) :
    Nat → Value κ → World κ β → List (Operation (Value κ)) → Outcome κ β (Value κ) → Prop
  | done {steps : Nat} {p : Value κ} {w : World κ β} {ops : List (Operation (Value κ))}
      {o : Outcome κ β (Value κ)} :
      host.Halts driver b steps p w ops o → Runs host driver b steps p w ops o
  | more {steps : Nat} {op : Operation (Value κ)} {w v : World κ β} {p : Value κ}
      {ops : List (Operation (Value κ))} {o : Outcome κ β (Value κ)} :
      (host.turn b op).run (w.write (driver.stepLine steps (.operation op))) = .value p v →
      Runs host driver b (steps + 1) p v ops o →
      Runs host driver b steps (.pending (.operation op)) w (op :: ops) o

variable {host : Host κ β σ} {driver : Driver} {b : Backend (Value κ)}

theorem Halts.outcome_finished {steps : Nat} {p : Value κ} {w : World κ β}
    {ops : List (Operation (Value κ))} {o : Outcome κ β (Value κ)}
    (h : host.Halts driver b steps p w ops o) : o.Finished := by
  cases h <;> trivial

theorem Runs.outcome_finished {steps : Nat} {p : Value κ} {w : World κ β}
    {ops : List (Operation (Value κ))} {o : Outcome κ β (Value κ)}
    (h : host.Runs driver b steps p w ops o) : o.Finished := by
  induction h with
  | done hhalt => exact hhalt.outcome_finished
  | more _ _ ih => exact ih

/-- A run goes on from wherever a path of it leads. -/
theorem Path.runs {steps : Nat} {p q : Value κ} {w v : World κ β}
    {done ops : List (Operation (Value κ))} {o : Outcome κ β (Value κ)}
    (hpath : host.Path driver b steps p w done q v)
    (hruns : host.Runs driver b (steps + done.length) q v ops o) :
    host.Runs driver b steps p w (done ++ ops) o := by
  induction hpath with
  | here steps p w => exact hruns
  | step hturn _ ih =>
      refine .more hturn (ih ?_)
      rw [List.length_cons] at hruns
      rwa [Nat.add_assoc, Nat.add_comm 1]

theorem Halts.unique {steps : Nat} {p : Value κ} {w : World κ β}
    {ops ops' : List (Operation (Value κ))} {o o' : Outcome κ β (Value κ)}
    (h : host.Halts driver b steps p w ops o) (h' : host.Halts driver b steps p w ops' o') :
    ops = ops' ∧ o = o' := by
  cases h with
  | finished value w =>
      cases h' with
      | finished => exact ⟨rfl, rfl⟩
      | invalid _ hp => cases hp
  | refused w hw =>
      cases h' with
      | refused => exact ⟨rfl, rfl⟩
      | invalid _ hp => cases hp
      | broken => exact absurd rfl (hw _)
  | invalid w hp =>
      cases h' with
      | invalid => exact ⟨rfl, rfl⟩
      | finished | refused | broken => cases hp
  | broken hturn =>
      cases h' with
      | refused _ hw => exact absurd rfl (hw _)
      | invalid _ hp => cases hp
      | broken hturn' =>
          -- A step has one outcome.
          have hsame := hturn.symm.trans hturn'
          cases hsame
          exact ⟨rfl, rfl⟩

/-- Where a step is possible no run halts. -/
theorem Halts.turn_ne_value {steps : Nat} {op : Operation (Value κ)} {q : Value κ}
    {w v : World κ β} {ops : List (Operation (Value κ))} {o : Outcome κ β (Value κ)}
    (h : host.Halts driver b steps (.pending (.operation op)) w ops o) :
    (host.turn b op).run (w.write (driver.stepLine steps (.operation op))) ≠ .value q v := by
  intro hvalue
  cases h with
  | refused _ hw => exact absurd rfl (hw op)
  | invalid _ hp => cases hp
  | broken hturn =>
      have hsame := hturn.symm.trans hvalue
      cases hsame

/-- There is at most one run: the operations and the outcome are determined. -/
theorem Runs.unique {steps : Nat} {p : Value κ} {w : World κ β}
    {ops ops' : List (Operation (Value κ))} {o o' : Outcome κ β (Value κ)}
    (h : host.Runs driver b steps p w ops o) (h' : host.Runs driver b steps p w ops' o') :
    ops = ops' ∧ o = o' := by
  induction h generalizing ops' o' with
  | done hhalt =>
      cases h' with
      | done hhalt' => exact hhalt.unique hhalt'
      | more hturn' _ => exact absurd hturn' hhalt.turn_ne_value
  | more hturn _ ih =>
      cases h' with
      | done hhalt' => exact absurd hturn hhalt'.turn_ne_value
      | more hturn' hruns' =>
          have hsame := hturn.symm.trans hturn'
          cases hsame
          rcases ih hruns' with ⟨rfl, rfl⟩
          exact ⟨rfl, rfl⟩

/-- From whatever a path of a run leads to, the run goes on. -/
theorem Path.rest_runs {steps : Nat} {p q : Value κ} {w v : World κ β}
    {done ops : List (Operation (Value κ))} {o : Outcome κ β (Value κ)}
    (hpath : host.Path driver b steps p w done q v) (hruns : host.Runs driver b steps p w ops o) :
    ∃ rest, ops = done ++ rest ∧ host.Runs driver b (steps + done.length) q v rest o := by
  induction hpath generalizing ops with
  | here steps p w => exact ⟨ops, rfl, hruns⟩
  | @step steps op w v u p q done hturn _ ih =>
      cases hruns with
      | done hhalt => exact absurd hturn hhalt.turn_ne_value
      | more hturn' hruns' =>
          have hsame := hturn.symm.trans hturn'
          cases hsame
          rcases ih hruns' with ⟨rest, rfl, hrest⟩
          refine ⟨rest, rfl, ?_⟩
          rwa [List.length_cons, Nat.add_comm done.length, ← Nat.add_assoc]

/-- A run that has come to an operation asks about it. -/
theorem Path.asks {steps : Nat} {p : Value κ} {op : Operation (Value κ)} {w v : World κ β}
    {done ops : List (Operation (Value κ))} {o : Outcome κ β (Value κ)}
    (hpath : host.Path driver b steps p w done (.pending (.operation op)) v)
    (hruns : host.Runs driver b steps p w ops o) : ∃ rest, ops = done ++ op :: rest := by
  rcases hpath.rest_runs hruns with ⟨rest, rfl, hrest⟩
  cases hrest with
  | done hhalt =>
      cases hhalt with
      | refused _ hwaiting => exact absurd rfl (hwaiting op)
      | invalid _ hp => cases hp
      | broken _ => exact ⟨[], rfl⟩
  | more _ _ => exact ⟨_, rfl⟩

/-- A path leads to each operation that a run asks about. -/
theorem Runs.exists_asked {steps : Nat} {p : Value κ} {w : World κ β}
    {ops : List (Operation (Value κ))} {o : Outcome κ β (Value κ)}
    (h : host.Runs driver b steps p w ops o) :
    ∀ i, i < ops.length → ∃ done op v,
      host.Path driver b steps p w done (.pending (.operation op)) v ∧ done.length = i := by
  induction h with
  | @done steps p w ops o hhalt =>
      intro i hi
      cases hhalt with
      | finished | refused | invalid => simp at hi
      | @broken op =>
          have hzero : i = 0 := by simpa using hi
          exact ⟨[], op, w, .here steps _ w, hzero.symm⟩
  | @more steps op w v p ops o hturn _ ih =>
      intro i hi
      cases i with
      | zero => exact ⟨[], op, w, .here _ _ w, rfl⟩
      | succ i =>
          rcases ih i (by simpa using hi) with ⟨done, op', u, hpath, hlength⟩
          exact ⟨op :: done, op', u, .step hturn hpath, by simp [hlength]⟩

theorem Runs.journal_suffix (lawful : host.Lawful) {steps : Nat} {p : Value κ} {w : World κ β}
    {ops : List (Operation (Value κ))} {o : Outcome κ β (Value κ)}
    (h : host.Runs driver b steps p w ops o) :
    ∀ {u : World κ β}, o.world? = some u → w.journal <:+ u.journal := by
  -- A step writes its line first and then only adds to the journal.
  have hturn : ∀ {op : Operation (Value κ)} {w v : World κ β} {steps : Nat}
      {o : Outcome κ β (Value κ)},
      (host.turn b op).run (w.write (driver.stepLine steps (.operation op))) = o →
        o.world? = some v → w.journal <:+ v.journal := by
    rintro op w v steps o rfl hv
    exact (w.journal_suffix_write _).trans ((turn_blind lawful b op).journal_suffix hv)
  induction h with
  | @done steps p w ops o hhalt =>
      intro u hu
      cases hhalt with
      | finished | refused =>
          simp only [Outcome.world?, Option.some.injEq] at hu
          rw [← hu]
          exact w.journal_suffix_write _
      | invalid =>
          simp only [Outcome.world?, Option.some.injEq] at hu
          exact hu ▸ List.suffix_refl _
      | broken hbroken => exact hturn hbroken hu
  | @more steps op w v p ops o hmore _ ih =>
      intro u hu
      exact (hturn hmore rfl).trans (ih hu)

/-! ## One round of a driver -/

/-- What a driver does at a program, `rest` being what it does at the next one. -/
noncomputable def round (host : Host κ β σ) (driver : Driver) (b : Backend (Value κ))
    (rest : Nat → Value κ → Action κ β (Value κ)) (steps : Nat) :
    Value κ → Action κ β (Value κ)
  | .terminal value => do
      .log (driver.finishLine steps)
      return value
  | .pending (.operation op) => do
      .log (driver.stepLine steps (.operation op))
      rest (steps + 1) (← (host.turn b op).mapFault driver.leaving)
  | .pending waiting => do
      .log (driver.stepLine steps waiting)
      .fail (driver.refusal waiting)
  | program => .fail (.invalidProgram program)

theorem round_refused (rest : Nat → Value κ → Action κ β (Value κ)) (steps : Nat)
    {waiting : Value κ} (h : ∀ op, waiting ≠ .operation op) :
    host.round driver b rest steps (.pending waiting) =
      (Action.log (driver.stepLine steps waiting) >>= fun _ => .fail (driver.refusal waiting)) := by
  cases waiting with
  | operation op => exact absurd rfl (h op)
  | _ => rfl

theorem round_invalid (rest : Nat → Value κ → Action κ β (Value κ)) (steps : Nat) {p : Value κ}
    (h : p.isProgram = false) :
    host.round driver b rest steps p = .fail (.invalidProgram p) := by
  cases p with
  | terminal value => cases h
  | pending waiting => cases h
  | _ => rfl

theorem round_operation_run (rest : Nat → Value κ → Action κ β (Value κ)) (steps : Nat)
    (op : Operation (Value κ)) (w : World κ β) :
    (host.round driver b rest steps (.pending (.operation op))).run w =
      match (host.turn b op).run (w.write (driver.stepLine steps (.operation op))) with
      | .value q v => (rest (steps + 1) q).run v
      | .fault cause v => .fault (driver.leaving cause) v
      | .unfinished => .unfinished := by
  refine (Action.run_log_bind _ _ w).trans ?_
  simp only [Action.run, Action.mapFault, Bind.bind, Action.bind]
  cases host.turn b op (w.write (driver.stepLine steps (.operation op))) <;> rfl

/-- A program is finished, waits on an operation or on something else, or is no program. -/
theorem program_cases (p : Value κ) :
    (∃ value, p = .terminal value) ∨ (∃ op, p = .pending (.operation op)) ∨
      (∃ waiting, p = .pending waiting ∧ ∀ op, waiting ≠ .operation op) ∨
      p.isProgram = false := by
  cases p with
  | terminal value => exact Or.inl ⟨value, rfl⟩
  | pending waiting =>
      cases waiting with
      | operation op => exact Or.inr (Or.inl ⟨op, rfl⟩)
      | _ => exact Or.inr (Or.inr (Or.inl ⟨_, rfl, by intro op h; cases h⟩))
  | _ => exact Or.inr (Or.inr (Or.inr rfl))

/-- A round either halts, or steps to where `rest` takes over. -/
theorem round_cases {rest : Nat → Value κ → Action κ β (Value κ)} {steps : Nat} {p : Value κ}
    {w : World κ β} {o : Outcome κ β (Value κ)}
    (h : (host.round driver b rest steps p).run w = o) (ho : o.Finished) :
    (∃ ops, host.Halts driver b steps p w ops o) ∨
      ∃ op q v, p = .pending (.operation op) ∧
        (host.turn b op).run (w.write (driver.stepLine steps (.operation op))) = .value q v ∧
        (rest (steps + 1) q).run v = o := by
  -- Finished, waiting on an operation, waiting on something else, or no program.
  rcases program_cases p with ⟨value, rfl⟩ | ⟨op, rfl⟩ | ⟨waiting, rfl, hw⟩ | hp
  · have hrun : (host.round driver b rest steps (.terminal value)).run w =
        .value value (w.write (driver.finishLine steps)) := Action.run_log_bind _ _ w
    rw [← h, hrun]
    exact Or.inl ⟨_, .finished value w⟩
  · rw [round_operation_run] at h
    cases hturn : (host.turn b op).run (w.write (driver.stepLine steps (.operation op))) with
    | value q v =>
        rw [hturn] at h
        exact Or.inr ⟨op, q, v, rfl, hturn, h⟩
    | fault cause v =>
        rw [hturn] at h
        rw [← h]
        exact Or.inl ⟨_, .broken hturn⟩
    | unfinished =>
        rw [hturn] at h
        rw [← h] at ho
        exact absurd ho id
  · have hrun : (host.round driver b rest steps (.pending waiting)).run w =
        .fault (driver.refusal waiting) (w.write (driver.stepLine steps waiting)) := by
      rw [round_refused rest steps hw, Action.run_log_bind]
      rfl
    rw [← h, hrun]
    exact Or.inl ⟨_, .refused w hw⟩
  · rw [round_invalid rest steps hp] at h
    rw [← h]
    exact Or.inl ⟨_, .invalid w hp⟩

theorem round_of_halts {rest : Nat → Value κ → Action κ β (Value κ)} {steps : Nat} {p : Value κ}
    {w : World κ β} {ops : List (Operation (Value κ))} {o : Outcome κ β (Value κ)}
    (h : host.Halts driver b steps p w ops o) :
    (host.round driver b rest steps p).run w = o := by
  cases h with
  | finished value w => exact Action.run_log_bind _ _ w
  | refused w hw =>
      rw [round_refused rest steps hw, Action.run_log_bind]
      rfl
  | invalid w hp =>
      rw [round_invalid rest steps hp]
      rfl
  | broken hturn => rw [round_operation_run, hturn]

/-! ## Approximants of a run -/

/-- Whatever is approximated round by round ends only as a run does. -/
theorem runs_of_approximants {X : Nat → Nat → Value κ → Action κ β (Value κ)}
    (hzero : ∀ steps p,
      (X 0 steps p).Approx (host.round driver b (fun _ _ => .unfinished) steps p))
    (hsucc : ∀ n steps p, (X (n + 1) steps p).Approx (host.round driver b (X n) steps p)) :
    ∀ (n steps : Nat) (p : Value κ) (w : World κ β) (o : Outcome κ β (Value κ)),
      (X n steps p).run w = o → o.Finished → ∃ ops, host.Runs driver b steps p w ops o := by
  -- On the index of the approximant, which falls by one with each round.
  intro n
  induction n with
  | zero =>
      intro steps p w o h ho
      rcases round_cases ((hzero steps p).run_eq h ho) ho with ⟨ops, hhalt⟩ | ⟨_, _, _, _, _, hrest⟩
      · exact ⟨ops, .done hhalt⟩
      · rw [← hrest] at ho
        exact absurd ho id
  | succ n ih =>
      intro steps p w o h ho
      rcases round_cases ((hsucc n steps p).run_eq h ho) ho with
        ⟨ops, hhalt⟩ | ⟨op, q, v, rfl, hturn, hrest⟩
      · exact ⟨ops, .done hhalt⟩
      · rcases ih (steps + 1) q v o hrest ho with ⟨ops, hruns⟩
        exact ⟨op :: ops, .more hturn hruns⟩

/-- Whatever a round of itself approximates ends as every run does. -/
theorem Runs.run_eq {X : Nat → Value κ → Action κ β (Value κ)}
    (hround : ∀ steps p, (host.round driver b X steps p).Approx (X steps p))
    {steps : Nat} {p : Value κ} {w : World κ β} {ops : List (Operation (Value κ))}
    {o : Outcome κ β (Value κ)} (h : host.Runs driver b steps p w ops o) :
    (X steps p).run w = o := by
  induction h with
  | @done steps p w ops o hhalt =>
      exact (hround steps p).run_eq (round_of_halts hhalt) hhalt.outcome_finished
  | @more steps op w v p ops o hturn hruns ih =>
      refine (hround steps _).run_eq ?_ hruns.outcome_finished
      rw [round_operation_run, hturn]
      exact ih

/-! ## Rounds of the drivers -/

theorem mapOperation_refused (f : Value κ) {waiting : Value κ}
    (h : ∀ op, waiting ≠ .operation op) :
    mapOperation f waiting = .error (.unknownOperation waiting) := by
  cases waiting with
  | operation op => exact absurd rfl (h op)
  | _ => rfl

/-- One call deep, the executor refuses what is no operation. -/
theorem hand_refused (hloop : driver ≠ .eager) (depth : Nat) {waiting : Value κ}
    (h : ∀ op, waiting ≠ .operation op) :
    driver.hand (host.dispatch (depth + 1)) (driver.executorOver b) waiting =
      .fail (driver.refusal waiting) := by
  cases driver with
  | eager => exact absurd rfl hloop
  | stepped | awaited =>
      cases waiting with
      | operation op => exact absurd rfl (h op)
      | _ => rfl

theorem round_idle (rest : Nat → Value κ → Action κ β (Value κ)) (steps depth : Nat)
    {p : Value κ} (hp : ∀ op, p ≠ .pending (.operation op)) :
    host.round driver b rest steps p =
      driver.goOn (host.dispatch (depth + 1)) (driver.executorOver b) steps p := by
  rcases program_cases p with ⟨value, rfl⟩ | ⟨op, rfl⟩ | ⟨waiting, rfl, hw⟩ | hinvalid
  · cases driver <;> rfl
  · exact absurd rfl (hp op)
  · rw [round_refused rest steps hw]
    -- The eager driver refuses before it calls the executor, the others leave it to the executor.
    by_cases hloop : driver = .eager
    · subst hloop
      simp only [Driver.goOn, evaluateRest, mapOperation_refused _ hw, bind_assoc]
      rfl
    · have hgoOn : driver.goOn (host.dispatch (depth + 1)) (driver.executorOver b) steps
          (.pending waiting) =
            (Action.log (driver.stepLine steps waiting) >>= fun _ =>
              driver.hand (host.dispatch (depth + 1)) (driver.executorOver b) waiting >>=
                driver.loop (driver.hand (host.dispatch (depth + 1)) (driver.executorOver b))
                  depth (steps + 1)) := by
        cases driver with
        | eager => exact absurd rfl hloop
        | stepped | awaited => rfl
      rw [hgoOn, hand_refused hloop depth hw]
      rfl
  · rw [round_invalid rest steps hinvalid]
    cases p with
    | terminal value => cases hinvalid
    | pending waiting => cases hinvalid
    | _ => cases driver <;> rfl

/-- What the drivers that loop do with an operation is a step, its fault changed on the way. -/
theorem fully_hand (lawful : host.Lawful) (op : Operation (Value κ)) :
    host.fully (fun d => driver.hand d (driver.executorOver b) (.operation op)) =
      (host.turn b op).mapFault driver.leaving := by
  have hexecute := lawful.rising (deepens_execute b (.operation op))
  have hhand : Action.Rising fun depth =>
      driver.hand (host.dispatch depth) (driver.executorOver b) (.operation op) :=
    ⟨fun h => ((lawful.dispatches h).apply _ _).mapFault _⟩
  -- One call deeper, the executor does its work.
  have hcall : ∀ depth,
      driver.hand (host.dispatch (depth + 1)) (driver.executorOver b) (.operation op) =
        (b.execute (host.dispatch depth) (.operation op)).mapFault driver.leaving := by
    intro depth
    cases driver with
    | eager => rfl
    | stepped => rfl
    | awaited => exact Backend.await_executeAsync (host.dispatch depth) b (.operation op)
  calc
    host.fully (fun d => driver.hand d (driver.executorOver b) (.operation op))
        = Action.limit fun depth =>
            driver.hand (host.dispatch (depth + 1)) (driver.executorOver b) (.operation op) :=
          (Action.limit_shift hhand).symm
    _ = Action.limit fun depth =>
          (b.execute (host.dispatch depth) (.operation op)).mapFault driver.leaving := by
          simp only [hcall]
    _ = (Action.limit fun depth => b.execute (host.dispatch depth) (.operation op)).mapFault
          driver.leaving := Action.limit_mapFault hexecute _
    _ = (host.turn b op).mapFault driver.leaving := by
          rw [turn_eq_fully lawful]
          rfl

end Host

theorem Driver.loop_mono {driver : Driver} {hand hand' : Value κ → Action κ β (Value κ)}
    (h : ∀ operation, (hand operation).Approx (hand' operation)) :
    ∀ (rounds steps : Nat) (p : Value κ),
      (driver.loop hand rounds steps p).Approx (driver.loop hand' rounds steps p)
  | 0, _, _ => .refl _
  | rounds + 1, steps, p => by
      cases p with
      | pending operation =>
          refine Action.Approx.bind (.refl _) fun _ => ?_
          exact (h operation).bind fun next => loop_mono h rounds (steps + 1) next
      | _ => exact .refl _

namespace Host

variable {host : Host κ β σ} {driver : Driver} {b : Backend (Value κ)}

theorem loop_approx_round (lawful : host.Lawful) (hloop : driver ≠ .eager)
    (depth rounds steps : Nat) (p : Value κ) :
    let hand := driver.hand (host.dispatch depth) (driver.executorOver b)
    (driver.loop hand (rounds + 1) steps p).Approx
      (host.round driver b (driver.loop hand rounds) steps p) := by
  intro hand
  rcases program_cases p with ⟨value, rfl⟩ | ⟨op, rfl⟩ | ⟨waiting, rfl, hw⟩ | hp
  · exact .refl _
  · refine Action.Approx.bind (.refl _) fun _ => ?_
    have hhand : (hand (.operation op)).Approx ((host.turn b op).mapFault driver.leaving) := by
      rw [← fully_hand lawful]
      exact lawful.approx_fully (f := fun d => driver.hand d (driver.executorOver b) _)
        (fun h => (h.apply _ _).mapFault _) depth
    exact hhand.bind fun _ => .refl _
  · rw [round_refused _ steps hw]
    refine Action.Approx.bind (.refl _) fun _ => ?_
    -- Without depth the executor is not even called; with it, it refuses the value.
    cases depth with
    | zero => exact .of_unfinished _
    | succ depth =>
        have hrefuse : hand waiting = .fail (driver.refusal waiting) := hand_refused hloop depth hw
        rw [hrefuse]
        exact .refl _
  · rw [round_invalid _ steps hp]
    cases p with
    | terminal value => cases hp
    | pending waiting => cases hp
    | _ => exact .refl _

/-! ## The eager driver -/

/-- An operation that is evaluated eagerly: the backend is asked, whatever the continuation is,
and its answer goes to the continuation and then to the rest of the evaluation. -/
theorem evaluateRest_operation (depth : Nat) (op : Operation (Value κ)) :
    let executor := Driver.eager.executorOver b
    evaluateRest (host.dispatch (depth + 1)) executor (.pending (.operation op)) =
      (Action.log (Driver.eager.stepLine 0 (.operation op)) >>= fun _ =>
        b.resolve (host.dispatch depth) (.operation ⟨op.request, .null⟩) >>= fun outcome =>
          host.call depth (.fn (.compose (.fn (.evalRest executor)) op.next)) [outcome]) := rfl

/-- The rest of an eager evaluation, called as a function, is at most an evaluation. -/
theorem call_evalRest_approx (lawful : host.Lawful) (executor q : Value κ) (depth : Nat) :
    (host.call depth (.fn (.evalRest executor)) [q]).Approx
      (evaluateRest (host.dispatch depth) executor q) := by
  cases depth with
  | zero => exact .of_unfinished _
  | succ depth =>
      exact Congruence.evaluateRest (lawful.dispatches (Nat.le_succ depth)) executor q

/-- A composed continuation is at most the continuation, then an evaluation. -/
theorem call_compose_approx (lawful : host.Lawful) (executor next outcome : Value κ)
    (depth : Nat) :
    (host.call depth (.fn (.compose (.fn (.evalRest executor)) next)) [outcome]).Approx
      (host.result next [outcome] >>= evaluateRest (host.dispatch depth) executor) := by
  cases depth with
  | zero => exact .of_unfinished _
  | succ depth =>
      refine (lawful.call_approx depth next [outcome]).bind fun q => ?_
      refine (call_evalRest_approx lawful executor q depth).trans ?_
      exact Congruence.evaluateRest (lawful.dispatches (Nat.le_succ depth)) executor q

theorem eager_approx_round (lawful : host.Lawful) (depth steps : Nat) (p : Value κ) :
    let executor := Driver.eager.executorOver b
    (Driver.eager.goOn (host.dispatch (depth + 1)) executor steps p).Approx
      (host.round .eager b (Driver.eager.goOn (host.dispatch depth) executor) steps p) := by
  intro executor
  by_cases hp : ∃ op, p = .pending (.operation op)
  · rcases hp with ⟨op, rfl⟩
    -- Both sides write the same line, ask, call the continuation and evaluate what it answers.
    have hleft : Driver.eager.goOn (host.dispatch (depth + 1)) executor steps
        (.pending (.operation op)) =
          (Action.log (Driver.eager.stepLine steps (.operation op)) >>= fun _ =>
            b.resolve (host.dispatch depth) (.operation ⟨op.request, .null⟩) >>= fun outcome =>
              host.call depth (.fn (.compose (.fn (.evalRest executor)) op.next)) [outcome] >>=
                fun value => Action.log (Driver.eager.finishLine steps) >>= fun _ =>
                  pure value) := by
      simp only [Driver.goOn, executor, evaluateRest_operation, bind_assoc]
      rfl
    have hright : host.round .eager b (Driver.eager.goOn (host.dispatch depth) executor) steps
        (.pending (.operation op)) =
          (Action.log (Driver.eager.stepLine steps (.operation op)) >>= fun _ =>
            host.ask b op.request >>= fun outcome =>
              (host.result op.next [outcome] >>= evaluateRest (host.dispatch depth) executor) >>=
                fun value => Action.log (Driver.eager.finishLine steps) >>= fun _ =>
                  pure value) := by
      simp only [round, turn, Driver.leaving, Action.mapFault_id, Driver.goOn, bind_assoc]
      rfl
    rw [hleft, hright]
    refine Action.Approx.bind (.refl _) fun _ => ?_
    -- The rest is evaluated inside the call of the composed continuation.
    refine (lawful.approx_fully (deepens_resolve b _) depth).bind fun outcome => ?_
    exact (call_compose_approx lawful executor op.next outcome depth).bind fun _ => .refl _
  · rw [round_idle _ steps depth fun op h => hp ⟨op, h⟩]
    exact .refl _

/-- Three calls deeper, an eager evaluation has done a step and evaluates the rest. -/
theorem step_approx_eager (lawful : host.Lawful) (depth steps : Nat)
    (op : Operation (Value κ)) :
    let executor := Driver.eager.executorOver b
    (Action.log (Driver.eager.stepLine steps (.operation op)) >>= fun _ =>
      b.execute (host.dispatch depth) (.operation op) >>=
        Driver.eager.goOn (host.dispatch depth) executor (steps + 1)).Approx
      (Driver.eager.goOn (host.dispatch (depth + 3)) executor steps
        (.pending (.operation op))) := by
  intro executor
  -- One call for the executor, one for the composition, one for what it composes.
  have hcall : ∀ outcome,
      host.call (depth + 2) (.fn (.compose (.fn (.evalRest executor)) op.next)) [outcome] =
        (host.call (depth + 1) op.next [outcome] >>=
          evaluateRest (host.dispatch depth) executor) := fun _ => rfl
  have hleft : ∀ outcome, (host.dispatch depth).apply op.next [outcome] =
      host.call depth op.next [outcome] := fun _ => rfl
  simp only [Driver.goOn, executor, evaluateRest_operation, Backend.execute, hcall, hleft,
    bind_assoc]
  refine Action.Approx.bind (.refl _) fun _ => ?_
  refine (deepens_resolve b _ (lawful.dispatches (by omega))).bind fun outcome => ?_
  refine Action.Approx.bind ?_ fun _ => .refl _
  exact (lawful.rising_call op.next [outcome]).approx (Nat.le_succ depth)

/-! ## Every driver -/

theorem deepens_hand (driver : Driver) (executor operation : Value κ) :
    Deepens fun d : Dispatch κ β => driver.hand d executor operation :=
  fun h => (h.apply executor [operation]).mapFault _

/-- With one call more, a loop has done a step, whatever its executor is, and goes on. -/
theorem loop_step_approx (lawful : host.Lawful) (hloop : driver ≠ .eager)
    (executor : Value κ) (depth steps : Nat) (waiting : Value κ) :
    (Action.log (driver.stepLine steps waiting) >>= fun _ =>
      driver.hand (host.dispatch depth) executor waiting >>=
        driver.goOn (host.dispatch depth) executor (steps + 1)).Approx
      (driver.goOn (host.dispatch (depth + 1)) executor steps (.pending waiting)) := by
  have hgoOn : ∀ d q, driver.goOn (host.dispatch d) executor (steps + 1) q =
      driver.loop (driver.hand (host.dispatch d) executor) d (steps + 1) q := by
    intro d q
    cases driver with
    | eager => exact absurd rfl hloop
    | stepped | awaited => rfl
  have hdeeper : (Action.log (driver.stepLine steps waiting) >>= fun _ =>
      driver.hand (host.dispatch (depth + 1)) executor waiting >>=
        driver.loop (driver.hand (host.dispatch (depth + 1)) executor) depth (steps + 1)) =
      driver.goOn (host.dispatch (depth + 1)) executor steps (.pending waiting) := by
    cases driver with
    | eager => exact absurd rfl hloop
    | stepped | awaited => rfl
  -- The loop has a round more, and each of its calls may go deeper.
  have hmore : ∀ operation, (driver.hand (host.dispatch depth) executor operation).Approx
      (driver.hand (host.dispatch (depth + 1)) executor operation) := fun operation =>
    deepens_hand driver executor operation (lawful.dispatches (Nat.le_succ depth))
  rw [← hdeeper]
  refine Action.Approx.bind (.refl _) fun _ => (hmore _).bind fun q => ?_
  rw [hgoOn]
  exact Driver.loop_mono hmore depth (steps + 1) q

theorem step_approx_goOn (lawful : host.Lawful) (driver : Driver) (depth steps : Nat)
    (op : Operation (Value κ)) :
    let executor := driver.executorOver b
    (Action.log (driver.stepLine steps (.operation op)) >>= fun _ =>
      driver.hand (host.dispatch depth) executor (.operation op) >>=
        driver.goOn (host.dispatch depth) executor (steps + 1)).Approx
      (driver.goOn (host.dispatch (depth + 3)) executor steps (.pending (.operation op))) := by
  intro executor
  by_cases hloop : driver = .eager
  · subst hloop
    refine Action.Approx.trans ?_ (step_approx_eager lawful depth steps op)
    refine Action.Approx.bind (.refl _) fun _ => Action.Approx.bind ?_ fun _ => .refl _
    have hhand : Driver.eager.hand (host.dispatch depth) executor (.operation op) =
        host.call depth executor [.operation op] := Action.mapFault_id _
    rw [hhand]
    cases depth with
    | zero => exact .of_unfinished _
    | succ depth =>
        show Action.Approx (b.execute (host.dispatch depth) (.operation op)) _
        exact deepens_execute b (.operation op) (lawful.dispatches (Nat.le_succ depth))
  · have hloopStep := loop_step_approx lawful hloop executor depth steps (.operation op)
    have hlater : (driver.goOn (host.dispatch (depth + 1)) executor steps
        (.pending (.operation op))).Approx
          (driver.goOn (host.dispatch (depth + 3)) executor steps (.pending (.operation op))) :=
      deepens_goOn driver executor steps _ (lawful.dispatches (by omega))
    exact hloopStep.trans hlater

/-- What a driver does at unbounded depth is what a round of it does. -/
theorem round_approx_goOn (lawful : host.Lawful) (driver : Driver) (steps : Nat) (p : Value κ) :
    let whole := fun steps p => host.fully fun d => driver.goOn d (driver.executorOver b) steps p
    (host.round driver b whole steps p).Approx (whole steps p) := by
  intro whole
  by_cases hp : ∃ op, p = .pending (.operation op)
  · rcases hp with ⟨op, rfl⟩
    have hround : host.round driver b whole steps (.pending (.operation op)) =
        host.fully fun d => Action.log (driver.stepLine steps (.operation op)) >>= fun _ =>
          driver.hand d (driver.executorOver b) (.operation op) >>=
            driver.goOn d (driver.executorOver b) (steps + 1) := by
      have hrest := lawful.fully_bind (deepens_hand driver (driver.executorOver b) (.operation op))
        fun q => deepens_goOn (β := β) driver (driver.executorOver b) (steps + 1) q
      rw [lawful.fully_bind_left _ fun _ => by
        intro d d' h
        exact (deepens_hand driver (driver.executorOver b) (.operation op) h).bind fun q =>
          deepens_goOn driver (driver.executorOver b) (steps + 1) q h]
      refine congrArg (Action.log _ >>= ·) (funext fun _ => ?_)
      rw [hrest, fully_hand lawful]
    rw [hround]
    -- At each depth the round is reached by the driver a few calls deeper.
    refine Action.limit_approx fun depth => ?_
    refine (step_approx_goOn lawful driver depth steps op).trans ?_
    exact lawful.approx_fully (deepens_goOn driver _ steps _) (depth + 3)
  · rw [round_idle _ steps 0 fun op h => hp ⟨op, h⟩]
    exact lawful.approx_fully (deepens_goOn driver _ steps p) 1

theorem runs_of_goOn (lawful : host.Lawful) (driver : Driver) (depth steps : Nat) (p : Value κ)
    (w : World κ β) (o : Outcome κ β (Value κ))
    (h : (driver.goOn (host.dispatch depth) (driver.executorOver b) steps p).run w = o)
    (ho : o.Finished) : ∃ ops, host.Runs driver b steps p w ops o := by
  by_cases hloop : driver = .eager
  · subst hloop
    -- Evaluations without any depth still end at programs that wait on nothing.
    refine runs_of_approximants
      (X := fun n => Driver.eager.goOn (host.dispatch n) (Driver.eager.executorOver b)) ?_
      (fun n steps p => eager_approx_round lawful n steps p) depth steps p w o h ho
    intro steps p
    by_cases hp : ∃ op, p = .pending (.operation op)
    · rcases hp with ⟨op, rfl⟩
      intro w
      refine Or.inl ((Action.run_bind_of_unfinished _ ?_))
      exact Action.run_log_bind _ _ w
    · rw [round_idle _ steps 0 fun op h => hp ⟨op, h⟩]
      exact deepens_goOn .eager _ steps p (lawful.dispatches (Nat.le_succ 0))
  · -- The loops are approximated by their rounds, at one and the same depth of calls.
    have hrounds : ∀ n steps p,
        (driver.loop (driver.hand (host.dispatch depth) (driver.executorOver b)) (n + 1) steps
          p).Approx _ := fun n steps p => loop_approx_round lawful hloop depth n steps p
    refine runs_of_approximants (fun _ _ => .of_unfinished _) hrounds depth steps p w o ?_ ho
    rw [← h]
    cases driver with
    | eager => exact absurd rfl hloop
    | stepped | awaited => rfl

/-- A run by an executor, at unbounded depth. -/
noncomputable def driven (host : Host κ β σ) (driver : Driver) (executor p : Value κ) :
    Action κ β (Value κ) :=
  host.fully fun d => driver.drive d executor p

/-- A driver writes a line and then goes on from its first program. -/
theorem driven_eq (lawful : host.Lawful) (driver : Driver) (executor p : Value κ) :
    host.driven driver executor p =
      (Action.log (.started driver) >>= fun _ =>
        host.fully fun d => driver.goOn d executor 0 p) := by
  simp only [driven, Driver.drive_eq]
  exact lawful.fully_bind_left _ fun _ => deepens_goOn driver executor 0 p

/-- A driver ends with an outcome exactly when its run does. -/
theorem drive_eq_iff (lawful : host.Lawful) {p : Value κ} {w : World κ β}
    {o : Outcome κ β (Value κ)} (ho : o.Finished) :
    (host.drive driver b p).run w = o ↔
      ∃ ops, host.Runs driver b 0 p (w.write (.started driver)) ops o := by
  have hdrive : host.drive driver b p =
      (Action.log (.started driver) >>= fun _ =>
        host.fully fun d => driver.goOn d (driver.executorOver b) 0 p) :=
    driven_eq lawful driver _ p
  rw [hdrive, Action.run_log_bind]
  constructor
  · intro h
    rcases Action.Rising.exists_of_limit h ho with ⟨depth, hd⟩
    exact runs_of_goOn lawful driver depth 0 p _ o hd ho
  · rintro ⟨ops, hruns⟩
    exact hruns.run_eq (round_approx_goOn lawful driver)

end Host

end Workflow

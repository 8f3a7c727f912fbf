import Workflow.Proofs.Fusion
import Workflow.Proofs.Sameness

/-!
# Mapping

Applying `f` to the result of a program and then `g` is applying the function that does both, and
it is continuing the program with the function that does both and finishes.  Nobody who runs the
three programs can tell them apart.

What is applied to the result of a program does not interfere with its run: the steps of the
mapped program are those of the program, and `f` is called once, where the run has come to its
result (`Host.Carried`).  The proof follows the run step by step, the program on the one side and
the mapped program on the other, in worlds that match.
-/

namespace Workflow

variable {κ β σ : Type}

/-! ## Worlds -/

def Event.isMark : Event κ → Bool
  | .trace _ _ => true
  | _ => false

theorem Event.isMark_bare (event : Event κ) : event.bare.isMark = event.isMark := by
  cases event with
  | call | trace => rfl
  | log line => cases line <;> rfl

namespace World

/-- The backend calls and the log lines in the journal, the operations in them without their
continuations. -/
def performed (w : World κ β) : List (Event κ) :=
  (w.journal.filter fun event => !event.isMark).map Event.bare

/-- The world once the lines were written to the debug log, one after the other. -/
def writeAll (lines : List (LogLine κ)) (w : World κ β) : World κ β :=
  lines.foldl (fun w line => w.write line) w

variable {w w' : World κ β}

theorem Matches.refl (w : World κ β) : w.Matches w :=
  rfl

theorem Matches.debug_eq (h : w.Matches w') : w.debug = w'.debug :=
  congrArg (fun v => v.debug) (show w.mapEvents Event.bare = w'.mapEvents Event.bare from h)

theorem Matches.performed_eq (h : w.Matches w') : w.performed = w'.performed := by
  -- Marks are left out before or after the continuations.
  have hkeep : ∀ w : World κ β, w.performed =
      (w.mapEvents Event.bare).journal.filter fun event => !event.isMark := by
    intro w
    have hsame : (fun event : Event κ => !event.isMark) ∘ Event.bare = fun event => !event.isMark :=
      funext fun event => congrArg (!·) event.isMark_bare
    simp only [performed, mapEvents, List.filter_map, hsame]
  have hworld : w.mapEvents Event.bare = w'.mapEvents Event.bare := h
  rw [hkeep, hkeep, hworld]

theorem performed_write (h : w.performed = w'.performed) (hdebug : w.debug = w'.debug)
    (line : LogLine κ) : (w.write line).performed = (w'.write line).performed := by
  have hline : ∀ w : World κ β, (w.write line).performed =
      if w.debug.enabled then (Event.log line).bare :: w.performed else w.performed := by
    intro w
    unfold write
    split <;> rfl
  rw [hline, hline, h, hdebug]

theorem debug_write (line : LogLine κ) (w : World κ β) : (w.write line).debug = w.debug := by
  unfold write
  split <;> rfl

theorem performed_writeAll (lines : List (LogLine κ)) :
    ∀ {w w' : World κ β}, w.performed = w'.performed → w.debug = w'.debug →
      (w.writeAll lines).performed = (w'.writeAll lines).performed := by
  induction lines with
  | nil => exact fun h _ => h
  | cons line lines ih =>
      intro w w' h hdebug
      exact ih (performed_write h hdebug line) (by rw [debug_write, debug_write, hdebug])

end World

/-- The same request, `f` mapped over what the continuation answers. -/
def Operation.mappedBy (op : Operation (Value κ)) (f : Value κ) : Operation (Value κ) :=
  ⟨op.request, .fn (.compose (.fn (.mapRest f)) op.next)⟩

namespace Host

variable {host : Host κ β σ} {f g h k p : Value κ}

/-! ## The same program -/

/-- The function `h` calls `f`, and `g` on what `f` answers. -/
def Composes (host : Host κ β σ) (h g f : Value κ) : Prop :=
  ∀ value, host.result h [value] = (host.result f [value] >>= fun answer => host.result g [answer])

theorem composes_compose (lawful : host.Lawful) (g f : Value κ) :
    host.Composes (.fn (.compose g f)) g f :=
  lawful.result_compose g f

theorem mapped_mapped_same (lawful : host.Lawful) (hcomposes : host.Composes h g f) (p : Value κ)
    (w : World κ β) :
    Outcome.Related host.Same ((host.mapped f p >>= fun q => host.mapped g q).run w)
      ((host.mapped h p).run w) := by
  have htwice : host.Walks fun p => host.mapped f p >>= fun q => host.mapped g q :=
    (walks_mapped lawful f).comp (walks_mapped lawful g).toThreads
  refine htwice.same (walks_mapped lawful h) (fun value v => ?_) p w
  -- On a finished program both are the two calls.
  have hterminal : (host.mapped f (.terminal value) >>= fun q => host.mapped g q) =
      host.mapped h (.terminal value) := by
    simp only [mapped_terminal lawful, hcomposes value, bind_assoc, pure_bind]
  rw [hterminal]
  exact .refl Same.refl _

theorem mapped_same_continued_finishing (lawful : host.Lawful)
    (hfinishes : host.Composes k (.fn .finish) h) (p : Value κ) (w : World κ β) :
    Outcome.Related host.Same ((host.mapped h p).run w) ((host.continued p k).run w) := by
  have hk : ∀ value, host.result (finishWith h) [value] = host.result k [value] := fun value =>
    (composes_compose lawful (.fn .finish) h value).trans (hfinishes value).symm
  refine related_trans (mapped_same_continued lawful h p w)
    (continued_same lawful (.refl p) (fun value v => ?_) w)
  rw [hk]
  exact .refl Same.refl _

/-! ## Rounds of a run -/

variable {driver : Driver} {b : Backend (Value κ)} {steps : Nat} {w w' v : World κ β}

theorem going_eq_iff (lawful : host.Lawful) {o : Outcome κ β (Value κ)} (ho : o.Finished) :
    (host.going driver (driver.executorOver b) steps p).run w = o ↔
      ∃ ops, host.Runs driver b steps p w ops o := by
  constructor
  · intro hgoing
    rcases Action.Rising.exists_of_limit hgoing ho with ⟨depth, hd⟩
    exact runs_of_goOn lawful driver depth steps p w o hd ho
  · rintro ⟨ops, hruns⟩
    exact hruns.run_eq (round_approx_goOn lawful driver)

/-- What a driver does from a program on is a round, and then what it does from the next one. -/
theorem going_eq_round (lawful : host.Lawful) (driver : Driver) (b : Backend (Value κ))
    (steps : Nat) (p : Value κ) :
    host.going driver (driver.executorOver b) steps p =
      host.round driver b (host.going driver (driver.executorOver b)) steps p := by
  refine Action.Approx.antisymm (fun w => ?_) (round_approx_goOn lawful driver steps p)
  by_cases hfinished : ((host.going driver (driver.executorOver b) steps p).run w).Finished
  · right
    rcases (going_eq_iff lawful hfinished).1 rfl with ⟨ops, hruns⟩
    generalize (host.going driver (driver.executorOver b) steps p).run w = o at hruns
    cases hruns with
    | done hhalt => exact (round_of_halts hhalt).symm
    | more hturn hruns =>
        rw [round_operation_run, hturn]
        exact ((going_eq_iff lawful hruns.outcome_finished).2 ⟨_, hruns⟩).symm
  · exact Or.inl (Outcome.eq_unfinished hfinished)

theorem going_finished (lawful : host.Lawful) (driver : Driver) (b : Backend (Value κ))
    (steps : Nat) (value : Value κ) (w : World κ β) :
    (host.going driver (driver.executorOver b) steps (.terminal value)).run w =
      .value value (w.write (driver.finishLine steps)) := by
  rw [going_eq_round lawful]
  exact round_of_halts (.finished value w)

/-- From a program that does not wait on an operation, a driver ends at once. -/
theorem going_idle_finished (lawful : host.Lawful) (driver : Driver) (b : Backend (Value κ))
    (steps : Nat) (hp : ∀ op, p ≠ .pending (.operation op)) (w : World κ β) :
    ((host.going driver (driver.executorOver b) steps p).run w).Finished := by
  have hhalts : ∃ o, host.Halts driver b steps p w [] o := by
    rcases program_cases p with ⟨value, rfl⟩ | ⟨op, rfl⟩ | ⟨waiting, rfl, hw⟩ | hinvalid
    · exact ⟨_, .finished value w⟩
    · exact absurd rfl (hp op)
    · exact ⟨_, .refused w hw⟩
    · exact ⟨_, .invalid w hinvalid⟩
  rcases hhalts with ⟨o, hhalt⟩
  rw [(going_eq_iff lawful hhalt.outcome_finished).2 ⟨[], .done hhalt⟩]
  exact hhalt.outcome_finished

/-! ## The run of a mapped program -/

/-- The second outcome is the first one with `f` applied to its value: the fault is the same, and
the value is what `f` answers, called in a world that matches the one in which the value was
known.  Only the last lines of the run are written after that. -/
inductive Carried (host : Host κ β σ) (f : Value κ) :
    Outcome κ β (Value κ) → Outcome κ β (Value κ) → Prop
  | unfinished : Carried host f .unfinished .unfinished
  | fault (cause : Fault κ) {w w' : World κ β} : w.Matches w' →
      Carried host f (.fault cause w) (.fault cause w')
  | value {value answer : Value κ} {w w' u : World κ β} (lines : List (LogLine κ)) :
      w.Matches w' → (host.result f [value]).run w' = .value answer u →
      Carried host f (.value value (w.writeAll lines)) (.value answer (u.writeAll lines))
  /-- The call of `f` does not end. -/
  | endless {value : Value κ} {w w' : World κ β} (lines : List (LogLine κ)) : w.Matches w' →
      (host.result f [value]).run w' = .unfinished →
      Carried host f (.value value (w.writeAll lines)) .unfinished

/-- Whatever `f` is called on in whatever world, it does not fail. -/
def NeverFails (host : Host κ β σ) (f : Value κ) : Prop :=
  ∀ value w cause v, (host.result f [value]).run w ≠ .fault cause v

/-- The calls of `f` leave the debug setting as it is, call no backend and write no lines. -/
def Silent (host : Host κ β σ) (f : Value κ) : Prop :=
  ∀ value w answer v, (host.result f [value]).run w = .value answer v →
    v.performed = w.performed ∧ v.debug = w.debug

/-- The steps of the two runs are the same, if `f` takes none of its own. -/
theorem Carried.performed_eq (hsilent : host.Silent f) {o o' : Outcome κ β (Value κ)}
    (hcarried : host.Carried f o o') {v z : World κ β} (hv : o.world? = some v)
    (hz : o'.world? = some z) : z.performed = v.performed := by
  cases hcarried with
  | unfinished => cases hv
  | fault cause hw =>
      cases hv
      cases hz
      exact hw.performed_eq.symm
  | value lines hw hcall =>
      cases hv
      cases hz
      have hown := hsilent _ _ _ _ hcall
      exact World.performed_writeAll lines (hown.1.trans hw.performed_eq.symm)
        (hown.2.trans hw.debug_eq.symm)
  | endless => cases hz

/-- The mapped program is built where the last step of the driver ends, and the driver goes on
from there. -/
noncomputable def mappedGoing (host : Host κ β σ) (driver : Driver) (b : Backend (Value κ))
    (f : Value κ) (steps : Nat) (p : Value κ) : Action κ β (Value κ) :=
  (host.mapped f p).mapFault driver.leaving >>= host.going driver (driver.executorOver b) steps

/-- A step of the mapped program is a step of the program, whose next program is mapped. -/
theorem turn_mappedBy (lawful : host.Lawful) (b : Backend (Value κ)) (op : Operation (Value κ))
    (f : Value κ) :
    host.turn b (op.mappedBy f) = (host.turn b op >>= fun q => host.mapped f q) := by
  have hnext : ∀ q, host.result (.fn (.mapRest f)) [q] = host.mapped f q := fun q =>
    lawful.result_fn (.mapRest f) [q]
  simp only [turn, Operation.mappedBy, bind_assoc, lawful.result_compose, hnext]

theorem mapped_operation (op : Operation (Value κ)) (f : Value κ) :
    host.mapped f (.pending (.operation op)) = pure (.pending (.operation (op.mappedBy f))) :=
  mapped_waiting op f

/-- To map over a program that waits is to do its step and to map over the next program. -/
theorem mappedGoing_waiting_run (lawful : host.Lawful) (op : Operation (Value κ))
    (w : World κ β) :
    (host.mappedGoing driver b f steps (.pending (.operation op))).run w =
      ((host.turn b op).mapFault driver.leaving >>= host.mappedGoing driver b f (steps + 1)).run
        (w.write (driver.stepLine steps (.operation (op.mappedBy f)))) := by
  have hbuilt : (host.mapped f (.pending (.operation op))).mapFault driver.leaving =
      pure (.pending (.operation (op.mappedBy f))) := by
    rw [mapped_operation]
    rfl
  calc
    (host.mappedGoing driver b f steps (.pending (.operation op))).run w
        = (host.going driver (driver.executorOver b) steps
            (.pending (.operation (op.mappedBy f)))).run w := by
          rw [mappedGoing, hbuilt, pure_bind]
    _ = ((host.turn b (op.mappedBy f)).mapFault driver.leaving >>=
          host.going driver (driver.executorOver b) (steps + 1)).run
            (w.write (driver.stepLine steps (.operation (op.mappedBy f)))) := by
          rw [going_eq_round lawful]
          exact Action.run_log_bind _ _ w
    _ = _ := by
          rw [turn_mappedBy lawful, Action.mapFault_bind, bind_assoc]
          rfl

theorem mappedGoing_terminal_run (lawful : host.Lawful) (value : Value κ) (w : World κ β) :
    (host.mappedGoing driver b f steps (.terminal value)).run w =
      match (host.result f [value]).run w with
      | .value answer u => .value answer (u.write (driver.finishLine steps))
      | .fault cause u => .fault (driver.leaving cause) u
      | .unfinished => .unfinished := by
  have hbuilt : (host.mapped f (.terminal value)).mapFault driver.leaving =
      ((host.result f [value]).mapFault driver.leaving >>= fun answer =>
        pure (.terminal answer)) := by
    rw [mapped_terminal lawful, Action.mapFault_bind]
    rfl
  rw [mappedGoing, hbuilt, bind_assoc]
  simp only [pure_bind]
  have hchanged : ((host.result f [value]).mapFault driver.leaving).run w =
      ((host.result f [value]).run w).mapFault driver.leaving := Outcome.run_mapFault _ _ _
  cases hcall : (host.result f [value]).run w with
  | value answer u =>
      rw [hcall] at hchanged
      rw [Action.run_bind_of_value _ hchanged, going_finished lawful]
  | fault cause u =>
      rw [hcall] at hchanged
      rw [Action.run_bind_of_fault _ hchanged]
  | unfinished =>
      rw [hcall] at hchanged
      rw [Action.run_bind_of_unfinished _ hchanged]

/-- The lines that announce a step show no continuation. -/
theorem stepLine_mappedBy_matches (driver : Driver) (steps : Nat) (op : Operation (Value κ))
    (f : Value κ) (hw : w.Matches w') :
    (w.write (driver.stepLine steps (.operation op))).Matches
      (w'.write (driver.stepLine steps (.operation (op.mappedBy f)))) := by
  apply hw.write
  cases driver <;> rfl

/-- A run of the mapped program goes as the run of the program does, from a world that matches. -/
theorem Runs.carried (lawful : host.Lawful) (hf : host.NeverFails f)
    {ops : List (Operation (Value κ))} {o : Outcome κ β (Value κ)}
    (hruns : host.Runs driver b steps p w ops o) :
    ∀ {w' : World κ β}, w.Matches w' → host.Asking driver b steps p w →
      host.Carried f o ((host.mappedGoing driver b f steps p).run w') := by
  induction hruns with
  | @done steps p w ops o hhalt =>
      intro w' hw hp
      cases hhalt with
      | finished value w =>
          rw [mappedGoing_terminal_run lawful]
          cases hcall : (host.result f [value]).run w' with
          | value answer u => exact .value [driver.finishLine steps] hw hcall
          | fault cause u => exact absurd hcall (hf value w' cause u)
          | unfinished => exact .endless [driver.finishLine steps] hw hcall
      | @refused waiting w hwaiting =>
          rcases hp [] waiting w (.here steps _ w) with ⟨op, rfl⟩
          exact absurd rfl (hwaiting op)
      | invalid w hinvalid =>
          -- It is the mapping that refuses what is no program, in the words of the driver.
          have hleaves : driver.leaving (.invalidProgram p) = .invalidProgram p := by
            cases driver <;> rfl
          have hbuilt : ((host.mapped f p).mapFault driver.leaving).run w' =
              .fault (.invalidProgram p) w' := by
            rw [(walks_mapped lawful f).invalid p hinvalid, Outcome.run_mapFault]
            exact congrArg (Outcome.fault · w') hleaves
          rw [mappedGoing, Action.run_bind_of_fault _ hbuilt]
          exact .fault _ hw
      | @broken op w v cause hturn =>
          have hlines := stepLine_mappedBy_matches driver steps op f hw
          rcases Outcome.exists_fault_of_mapWorld ((turn_blind lawful b op).mapEvents hlines) hturn
            with ⟨v', hturn', hv⟩
          have hleaves := Outcome.run_mapFault driver.leaving (host.turn b op)
            (w'.write (driver.stepLine steps (.operation (op.mappedBy f))))
          rw [hturn'] at hleaves
          rw [mappedGoing_waiting_run lawful, Action.run_bind_of_fault _ hleaves]
          exact .fault _ hv
  | @more steps op w v q ops o hturn _ ih =>
      intro w' hw hp
      have hlines := stepLine_mappedBy_matches driver steps op f hw
      rcases Outcome.exists_value_of_mapWorld ((turn_blind lawful b op).mapEvents hlines) hturn
        with ⟨v', hturn', hv⟩
      have hstep := Outcome.run_mapFault driver.leaving (host.turn b op)
        (w'.write (driver.stepLine steps (.operation (op.mappedBy f))))
      rw [hturn'] at hstep
      rw [mappedGoing_waiting_run lawful, Action.run_bind_of_value _ hstep]
      exact ih hv (hp.step hturn)

/-- A driver that ends after a step ends. -/
theorem going_waiting_finished (lawful : host.Lawful) {op : Operation (Value κ)}
    {o : Outcome κ β (Value κ)}
    (hturn : (host.turn b op).run (w.write (driver.stepLine steps (.operation op))) = o)
    (ho : o.Finished) (hrest : ∀ q u, o = .value q u →
      ((host.going driver (driver.executorOver b) (steps + 1) q).run u).Finished) :
    ((host.going driver (driver.executorOver b) steps
      (.pending (.operation op))).run w).Finished := by
  rw [going_eq_round lawful, round_operation_run, hturn]
  cases o with
  | value q u => exact hrest q u rfl
  | fault cause u => trivial
  | unfinished => exact ho

/-- Where the run of the mapped program ends, the run of the program ends. -/
theorem Runs.finished_of_mapped (lawful : host.Lawful) {r : Value κ} {u : World κ β}
    {ops : List (Operation (Value κ))} {o : Outcome κ β (Value κ)}
    (hruns : host.Runs driver b steps r u ops o) :
    ∀ {p : Value κ} {w w' : World κ β}, w.Matches w' → (host.mapped f p).run w' = .value r u →
      ((host.going driver (driver.executorOver b) steps p).run w).Finished := by
  -- On the run of the mapped program; what does not wait on an operation ends at once.
  induction hruns with
  | @done steps r u ops o hhalt =>
      intro p w w' hw hr
      by_cases hp : ∃ op, p = .pending (.operation op)
      · rcases hp with ⟨op, rfl⟩
        rw [mapped_operation] at hr
        cases hr
        have hlines := (stepLine_mappedBy_matches driver steps op f hw).symm
        cases hhalt with
        | refused _ hwaiting => exact absurd rfl (hwaiting _)
        | invalid _ hinvalid => cases hinvalid
        | broken hturn =>
            rw [turn_mappedBy lawful] at hturn
            rcases Action.run_bind_fault_cases hturn with hown | ⟨q, z, hstep, hmapped⟩
            · rcases Outcome.exists_fault_of_mapWorld ((turn_blind lawful b op).mapEvents hlines)
                hown with ⟨v', hown', _⟩
              exact going_waiting_finished lawful hown' trivial fun _ _ h => by cases h
            · -- The mapping fails only on what does not wait on an operation.
              rcases Outcome.exists_value_of_mapWorld ((turn_blind lawful b op).mapEvents hlines)
                hstep with ⟨z', hstep', _⟩
              refine going_waiting_finished lawful hstep' trivial fun q' z'' h => ?_
              cases h
              refine going_idle_finished lawful driver b _ ?_ _
              rintro op' rfl
              rw [mapped_operation] at hmapped
              cases hmapped
      · exact going_idle_finished lawful driver b steps (fun op h => hp ⟨op, h⟩) w
  | @more steps made u v r' ops o hturn _ ih =>
      intro p w w' hw hr
      by_cases hp : ∃ op, p = .pending (.operation op)
      · rcases hp with ⟨op, rfl⟩
        rw [mapped_operation] at hr
        cases hr
        have hlines := (stepLine_mappedBy_matches driver steps op f hw).symm
        rw [turn_mappedBy lawful] at hturn
        rcases Action.exists_of_run_bind_value hturn with ⟨q, z, hstep, hmapped⟩
        rcases Outcome.exists_value_of_mapWorld ((turn_blind lawful b op).mapEvents hlines) hstep
          with ⟨z', hstep', hz⟩
        refine going_waiting_finished lawful hstep' trivial fun q' z'' h => ?_
        cases h
        exact ih (World.Matches.symm hz) hmapped
      · exact going_idle_finished lawful driver b steps (fun op h => hp ⟨op, h⟩) w

theorem going_carried (lawful : host.Lawful) (hf : host.NeverFails f) (hw : w.Matches w')
    (hp : host.Asking driver b steps p w) :
    host.Carried f ((host.going driver (driver.executorOver b) steps p).run w)
      ((host.mappedGoing driver b f steps p).run w') := by
  by_cases hgoing : ((host.going driver (driver.executorOver b) steps p).run w).Finished
  · rcases (going_eq_iff lawful hgoing).1 rfl with ⟨ops, hruns⟩
    exact hruns.carried lawful hf hw hp
  · have hnone : ¬ ((host.mappedGoing driver b f steps p).run w').Finished := by
      intro hmapped
      apply hgoing
      have hleaves := Outcome.run_mapFault driver.leaving (host.mapped f p) w'
      cases hbuilt : (host.mapped f p).run w' with
      | value r u =>
          rw [hbuilt] at hleaves
          rw [mappedGoing, Action.run_bind_of_value _ hleaves] at hmapped
          rcases (going_eq_iff lawful hmapped).1 rfl with ⟨ops, hruns⟩
          exact hruns.finished_of_mapped lawful hw hbuilt
      | fault cause u =>
          refine going_idle_finished lawful driver b steps ?_ w
          rintro op rfl
          rw [mapped_operation] at hbuilt
          cases hbuilt
      | unfinished =>
          rw [hbuilt] at hleaves
          rw [mappedGoing, Action.run_bind_of_unfinished _ hleaves] at hmapped
          exact absurd hmapped id
    rw [Outcome.eq_unfinished hgoing, Outcome.eq_unfinished hnone]
    exact .unfinished

/-! ## Mapping and driving -/

/-- A driver writes its first line and goes on. -/
theorem drive_run (lawful : host.Lawful) (driver : Driver) (b : Backend (Value κ)) (p : Value κ)
    (w : World κ β) :
    (host.drive driver b p).run w =
      (host.going driver (driver.executorOver b) 0 p).run (w.write (.started driver)) := by
  have hdrive : host.drive driver b p = _ := driven_eq lawful driver (driver.executorOver b) p
  rw [hdrive, Action.run_log_bind]
  rfl

theorem drive_carried (lawful : host.Lawful) (hf : host.NeverFails f)
    (hprogram : p.isProgram = true) (hp : host.Asking driver b 0 p (w.write (.started driver))) :
    host.Carried f ((host.drive driver b p).run w)
      ((host.mapped f p >>= host.drive driver b).run w) := by
  rw [drive_run lawful]
  rcases program_cases p with ⟨value, rfl⟩ | ⟨op, rfl⟩ | ⟨waiting, rfl, hwaiting⟩ | hinvalid
  · -- There is no step: `f` is called before the first line is written.
    rw [going_finished lawful, mapped_terminal lawful, bind_assoc]
    simp only [pure_bind]
    cases hcall : (host.result f [value]).run w with
    | value answer u =>
        rw [Action.run_bind_of_value _ hcall, drive_run lawful, going_finished lawful]
        exact .value [.started driver, driver.finishLine 0] (.refl w) hcall
    | fault cause u => exact absurd hcall (hf value w cause u)
    | unfinished =>
        rw [Action.run_bind_of_unfinished _ hcall]
        exact .endless [.started driver, driver.finishLine 0] (.refl w) hcall
  · have hmapped : (host.mapped f (.pending (.operation op)) >>= host.drive driver b).run w =
        (host.mappedGoing driver b f 0 (.pending (.operation op))).run
          (w.write (.started driver)) := by
      rw [mapped_operation, pure_bind, drive_run lawful, mappedGoing, mapped_operation]
      rfl
    rw [hmapped]
    exact going_carried lawful hf (.refl _) hp
  · rcases hp [] waiting _ (.here 0 _ _) with ⟨op, rfl⟩
    exact absurd rfl (hwaiting op)
  · rw [hprogram] at hinvalid
    cases hinvalid

/-- To build the mapped program and to drive it is one after the other. -/
theorem fully_mapProgram_drive (lawful : host.Lawful) (driver : Driver) (executor f p : Value κ) :
    (host.fully fun d => do
        let whole ← mapProgram d f p
        driver.drive d executor whole) =
      (host.mapped f p >>= host.driven driver executor) :=
  lawful.fully_bind (deepens_mapProgram f p) fun q => deepens_drive driver executor q

/-- What is no program is refused after the first line. -/
theorem drive_invalid (lawful : host.Lawful) (driver : Driver) (b : Backend (Value κ))
    (hinvalid : p.isProgram = false) (w : World κ β) :
    (host.drive driver b p).run w = .fault (.invalidProgram p) (w.write (.started driver)) := by
  rw [drive_run lawful, going_eq_round lawful]
  exact round_of_halts (.invalid _ hinvalid)

/-- The mapping refuses it before there is any line. -/
theorem mapped_drive_invalid (lawful : host.Lawful) (driver : Driver) (executor f : Value κ)
    (hinvalid : p.isProgram = false) (w : World κ β) :
    (host.mapped f p >>= host.driven driver executor).run w = .fault (.invalidProgram p) w := by
  have hrefused : host.mapped f p = .fail (.invalidProgram p) :=
    (walks_mapped lawful f).invalid p hinvalid
  rw [hrefused]
  rfl

/-- Mapping is functorial and it is continuing and finishing: under every driver, and with every
executor that only calls continuations, a program mapped over with `f` and then with `g`, the
program mapped over with the function that does both, and the program continued with the function
that does both and finishes ask for the same operations in the same order, call the same functions
on the same values, leave the same world and end with the same value or fault, or none of them
ends; over `host.recorded` every call is an event of the world.

Where a program waits on operations only and `f` does not fail, the run of the mapped program by
the executor over a backend is the run of the program, with `f` called on its value; if `f` does
nothing of the kind itself, the same backend calls are made and the same lines are written.  What
is no program is refused by a driver after its first line, and by the mapping before there is
any. -/
theorem drive_mapped_laws (lawful : host.Lawful) (driver : Driver)
    (hcomposes : host.Composes h g f) (hfinishes : host.Composes k (.fn .finish) h)
    (p : Value κ) :
    (∀ executor, host.CallsOnly executor driver →
      Action.Matches (host.SameValue driver) (host.SameFault driver)
          (host.fully fun d => do
            let first ← mapProgram d f p
            let whole ← mapProgram d g first
            driver.drive d executor whole)
          (host.fully fun d => do
            let whole ← mapProgram d h p
            driver.drive d executor whole) ∧
        Action.Matches (host.SameValue driver) (host.SameFault driver)
          (host.fully fun d => do
            let whole ← mapProgram d h p
            driver.drive d executor whole)
          (host.fully fun d => do
            let whole ← andThen d p k
            driver.drive d executor whole)) ∧
      ∀ b w,
        let plain := (host.drive driver b p).run w
        let mapped := (host.fully fun d => do
          let whole ← mapProgram d f p
          driver.drive d (driver.executorOver b) whole).run w
        (p.isProgram = true → host.Asking driver b 0 p (w.write (.started driver)) →
            host.NeverFails f →
            host.Carried f plain mapped ∧
              (host.Silent f → ∀ v z, plain.world? = some v → mapped.world? = some z →
                z.performed = v.performed)) ∧
          (p.isProgram = false →
            plain = .fault (.invalidProgram p) (w.write (.started driver)) ∧
              mapped = .fault (.invalidProgram p) w) := by
  constructor
  · intro executor hE
    have hthen : (host.fully fun d => andThen d p k >>= driver.drive d executor) =
        (host.continued p k >>= host.driven driver executor) :=
      lawful.fully_bind (deepens_andThen p k) fun q => deepens_drive driver executor q
    have htwice : (host.fully fun d => mapProgram d f p >>= fun first =>
        mapProgram d g first >>= driver.drive d executor) =
          ((host.mapped f p >>= fun first => host.mapped g first) >>=
            host.driven driver executor) := by
      have hsplit := lawful.fully_bind (deepens_mapProgram (β := β) f p)
        (g := fun d first => mapProgram d g first >>= driver.drive d executor) fun first => by
          intro d d' h
          exact (deepens_mapProgram g first h).bind fun q => deepens_drive driver executor q h
      simp only [fully_mapProgram_drive lawful] at hsplit
      rw [hsplit, bind_assoc]
      rfl
    constructor
    · have hmatch := driven_matches lawful hE (mapped_blind lawful h p) fun w =>
        mapped_mapped_same lawful hcomposes p w
      rw [← htwice, ← fully_mapProgram_drive lawful] at hmatch
      exact hmatch
    · have hmatch := driven_matches lawful hE (continued_blind lawful p k) fun w =>
        mapped_same_continued_finishing lawful hfinishes p w
      rw [← fully_mapProgram_drive lawful, ← hthen] at hmatch
      exact hmatch
  · intro b w plain mapped
    have hmapped : mapped = (host.mapped f p >>= host.drive driver b).run w := by
      simp only [mapped, fully_mapProgram_drive lawful]
      rfl
    constructor
    · intro hprogram hp hf
      have hcarried : host.Carried f plain mapped := by
        rw [hmapped]
        exact drive_carried lawful hf hprogram hp
      exact ⟨hcarried, fun hsilent v z hv hz => hcarried.performed_eq hsilent hv hz⟩
    · intro hinvalid
      refine ⟨drive_invalid lawful driver b hinvalid w, ?_⟩
      rw [hmapped]
      exact mapped_drive_invalid lawful driver (driver.executorOver b) f hinvalid w

/-- A script marks a document and puts it into a list, another one marks the list and counts it.
Under an executor that calls each continuation twice, an eager run may be mapped in any of the
three ways; and a stepped run over a store that holds the document is the run of the request alone,
and ends with the list. -/
theorem drive_mapped_laws_marked :
    let host := Script.host []
    let b := Script.Stores.backend 0
    let w : World Script.Code Script.Stores :=
      { Script.emptyStore with outside := ⟨[Memory.put {} (.int 1) (.text "a")]⟩ }
    let p : Value Script.Code := Request.toProgram (.getById (.int 1))
    let f : Value Script.Code := .fn (.callback (.function ["doc"]
      (.strict .list [.trace "doc" (.var "doc")])) [])
    let g : Value Script.Code := .fn (.callback (.function ["docs"]
      (.strict .len [.trace "docs" (.var "docs")])) [])
    let h : Value Script.Code := .fn (.compose g f)
    let k : Value Script.Code := .fn (.compose (.fn .finish) h)
    let mapped := (host.fully fun d => do
      let whole ← mapProgram d f p
      Driver.stepped.drive d (Driver.stepped.executorOver b) whole).run w
    host.Composes h g f ∧ host.Composes k (.fn .finish) h ∧
      host.CallsOnly Script.twice .eager ∧
      host.Asking .stepped b 0 p (w.write (.started .stepped)) ∧
      host.NeverFails f ∧ host.Silent f ∧
      Action.Matches (host.SameValue .eager) (host.SameFault .eager)
        (host.fully fun d => do
          let first ← mapProgram d f p
          let whole ← mapProgram d g first
          Driver.eager.drive d Script.twice whole)
        (host.fully fun d => do
          let whole ← mapProgram d h p
          Driver.eager.drive d Script.twice whole) ∧
      host.Carried f ((host.drive .stepped b p).run w) mapped ∧
      ∃ v, mapped = .value (.list [.text "a"]) v := by
  intro host b w p f g h k mapped
  have lawful : host.Lawful := Script.host_lawful []
  have hcomposes : host.Composes h g f := composes_compose lawful g f
  have hfinishes : host.Composes k (.fn .finish) h := composes_compose lawful _ h
  have hasking : host.Asking .stepped b 0 p (w.write (.started .stepped)) :=
    (sound_toProgram lawful _).asking
  have hcall : ∀ value, host.result f [value] = (Action.record (.trace "doc" value) >>= fun _ =>
      pure (.list [value])) := fun value =>
    (lawful.result_fn _ [value]).trans (fully_const host _)
  have hfails : host.NeverFails f := by
    intro value w cause v hfault
    rw [hcall] at hfault
    cases hfault
  have hsilent : host.Silent f := by
    intro value w answer v hvalue
    rw [hcall] at hvalue
    cases hvalue
    exact ⟨rfl, rfl⟩
  have hends : ∃ v, mapped = .value (.list [.text "a"]) v :=
    ⟨_, (lawful.approx_fully (fun h => (deepens_mapProgram f p h).bind fun q =>
      deepens_drive .stepped _ q h) 12).run_eq rfl trivial⟩
  exact ⟨hcomposes, hfinishes, Script.callsOnly_twice .eager, hasking, hfails, hsilent,
    ((drive_mapped_laws lawful .eager hcomposes hfinishes p).1 _ (Script.callsOnly_twice .eager)).1,
    (((drive_mapped_laws lawful .stepped hcomposes hfinishes p).2 b w).1 rfl hasking hfails).1,
    hends⟩

/-- The number five is no program.  Driving it writes a line, driving what it is mapped to does
not, although nothing that waits is reached and the function does not fail. -/
theorem drive_mapped_int_unstarted :
    let host := Script.host []
    let b := Script.Stores.backend 0
    let p : Value Script.Code := .int 5
    let f : Value Script.Code := .fn (.callback (.function ["x"] (.var "x")) [])
    host.Asking .stepped b 0 p (Script.emptyStore.write (.started .stepped)) ∧
      host.NeverFails f ∧ host.Silent f ∧
      ∃ v z, ((host.drive .stepped b p).run Script.emptyStore).world? = some v ∧
        ((host.fully fun d => do
          let whole ← mapProgram d f p
          Driver.stepped.drive d (Driver.stepped.executorOver b) whole).run
            Script.emptyStore).world? = some z ∧
        z.performed ≠ v.performed := by
  intro host b p f
  have lawful : host.Lawful := Script.host_lawful []
  have hcall : ∀ value, host.result f [value] = pure value := fun value =>
    (lawful.result_fn _ [value]).trans (fully_const host _)
  refine ⟨?_, ?_, ?_, Script.emptyStore.write (.started .stepped), Script.emptyStore, ?_, ?_, ?_⟩
  · intro ops waiting v hpath
    change host.Path .stepped b 0 (.int 5) _ ops (.pending waiting) v at hpath
    cases hpath
  · intro value w cause v hfault
    rw [hcall] at hfault
    cases hfault
  · intro value w answer v hvalue
    rw [hcall] at hvalue
    cases hvalue
    exact ⟨rfl, rfl⟩
  · rw [drive_invalid lawful .stepped b rfl]
    rfl
  · rw [fully_mapProgram_drive lawful, mapped_drive_invalid lawful .stepped _ f rfl]
    rfl
  · intro hsame
    cases hsame

end Host

end Workflow

import Workflow.Proofs.Scripts
import Workflow.Proofs.Threading

/-!
# Running the parts

A program that `f` follows is run part by part: the run of the program, one call of `f` on its
value, and the run of the program that `f` answers with (`Host.drive_continued`).  The two ways
differ only in the log, which has the lines of one run on the one side and of two on the other,
so worlds are compared without their log lines.  Where both parts finish, their steps add up.

The proof takes a run apart that follows the building of its program (`Host.Ends`): the run of the
first part and what follows it make up a run of the whole (`Host.Runs.ends_continued`), and every
run of the whole is made up so (`Host.Ends.of_continued`).
-/

namespace Workflow

variable {κ β σ α : Type}

/-! ## Worlds without their log lines -/

def Event.isLine : Event κ → Bool
  | .log _ => true
  | _ => false

namespace World

/-- The same world, the lines of the debug log left out of its journal. -/
def unlogged (w : World κ β) : World κ β :=
  { w with journal := w.journal.filter fun event => !event.isLine }

@[simp] theorem unlogged_write (line : LogLine κ) (w : World κ β) :
    (w.write line).unlogged = w.unlogged := by
  by_cases h : w.debug.enabled = true <;> simp [write, unlogged, Event.isLine, h]

end World

/-- Two outcomes are equal if whatever the one is, if it is one, the other is. -/
theorem Outcome.eq_of_finished_iff {o o' : Outcome κ β α}
    (h : ∀ final : Outcome κ β α, final.Finished → (o = final ↔ o' = final)) : o = o' := by
  by_cases ho : o.Finished
  · exact ((h o ho).1 rfl).symm
  · by_cases ho' : o'.Finished
    · exact (h o' ho').2 rfl
    · rw [Outcome.eq_unfinished ho, Outcome.eq_unfinished ho']

namespace Action.Blind

variable {x : Action κ β α} {w w' v : World κ β}

/-- Log lines that were written before make no difference. -/
theorem run_unlogged (h : x.Blind) (hw : w.unlogged = w'.unlogged) :
    (x.run w).mapWorld World.unlogged = (x.run w').mapWorld World.unlogged := by
  have hsplit : ∀ w : World κ β, (x.run w).mapWorld World.unlogged =
      ((x.run w.fresh).mapWorld World.unlogged).after w.unlogged.journal := by
    intro w
    rw [h.run_fresh w]
    cases x.run w.fresh <;>
      simp [Outcome.after, Outcome.mapWorld, World.after, World.unlogged]
  have hfresh : w.fresh = w'.fresh := by
    simp only [World.unlogged, World.mk.injEq] at hw
    simp only [World.fresh, World.mk.injEq, true_and]
    exact hw.2
  rw [hsplit w, hsplit w', hfresh, hw]

theorem value_of_unlogged (h : x.Blind) (hw : w.unlogged = w'.unlogged) {a : α}
    (hx : x.run w = .value a v) :
    ∃ v', x.run w' = .value a v' ∧ v.unlogged = v'.unlogged :=
  Outcome.exists_value_of_mapWorld (h.run_unlogged hw) hx

theorem fault_of_unlogged (h : x.Blind) (hw : w.unlogged = w'.unlogged) {cause : Fault κ}
    (hx : x.run w = .fault cause v) :
    ∃ v', x.run w' = .fault cause v' ∧ v.unlogged = v'.unlogged :=
  Outcome.exists_fault_of_mapWorld (h.run_unlogged hw) hx

end Action.Blind

/-- But for the awaited driver, drivers let the fault of a step leave as it is. -/
theorem Driver.leaving_of_ne {driver : Driver} (h : driver ≠ .awaited) (cause : Fault κ) :
    driver.leaving cause = cause := by
  cases driver with
  | eager | stepped => rfl
  | awaited => exact absurd rfl h

namespace Host

variable {host : Host κ β σ} {driver : Driver} {b : Backend (Value κ)}

/-- A run does not depend on the log, nor on the number of steps that went before. -/
theorem Runs.of_unlogged (lawful : host.Lawful) {steps : Nat} {p : Value κ} {w w' : World κ β}
    {ops : List (Operation (Value κ))} {o : Outcome κ β (Value κ)}
    (h : host.Runs driver b steps p w ops o) (hw : w.unlogged = w'.unlogged) (steps' : Nat) :
    ∃ o', host.Runs driver b steps' p w' ops o' ∧
      o.mapWorld World.unlogged = o'.mapWorld World.unlogged := by
  induction h generalizing w' steps' with
  | @done steps p w ops o hhalt =>
      cases hhalt with
      | finished value w =>
          refine ⟨_, .done (.finished value w'), ?_⟩
          simp only [Outcome.mapWorld, World.unlogged_write, hw]
      | refused w hwaiting =>
          refine ⟨_, .done (.refused w' hwaiting), ?_⟩
          simp only [Outcome.mapWorld, World.unlogged_write, hw]
      | invalid w hp =>
          refine ⟨_, .done (.invalid w' hp), ?_⟩
          simp only [Outcome.mapWorld, hw]
      | @broken op w v cause hturn =>
          have hstart : (w.write (driver.stepLine steps (.operation op))).unlogged =
              (w'.write (driver.stepLine steps' (.operation op))).unlogged := by simpa using hw
          rcases (turn_blind lawful b op).fault_of_unlogged hstart hturn with ⟨v', hturn', hv⟩
          refine ⟨_, .done (.broken hturn'), ?_⟩
          simp only [Outcome.mapWorld, hv]
  | @more steps op w v p ops o hturn _ ih =>
      have hstart : (w.write (driver.stepLine steps (.operation op))).unlogged =
          (w'.write (driver.stepLine steps' (.operation op))).unlogged := by simpa using hw
      rcases (turn_blind lawful b op).value_of_unlogged hstart hturn with ⟨v', hturn', hv⟩
      rcases ih hv (steps' + 1) with ⟨o', hruns, ho⟩
      exact ⟨o', .more hturn' hruns, ho⟩

/-! ## A program is built and run -/

/-- The program that `x` builds is run: `requests` are made, in this order, and the building or
the run ends with the outcome, its world without log lines. -/
inductive Ends (host : Host κ β σ) (driver : Driver) (b : Backend (Value κ))
    (x : Action κ β (Value κ)) (w : World κ β) :
    List (Request (Value κ)) → Outcome κ β (Value κ) → Prop
  | fault {cause : Fault κ} {v : World κ β} : x.run w = .fault cause v →
      Ends host driver b x w [] (.fault cause v.unlogged)
  | runs {steps : Nat} {p : Value κ} {v : World κ β} {ops : List (Operation (Value κ))}
      {o : Outcome κ β (Value κ)} : x.run w = .value p v →
      host.Runs driver b steps p v ops o →
      Ends host driver b x w (ops.map fun op => op.request) (o.mapWorld World.unlogged)

theorem Ends.of_unlogged (lawful : host.Lawful) {x : Action κ β (Value κ)} (hx : x.Blind)
    {w w' : World κ β} {requests : List (Request (Value κ))} {o : Outcome κ β (Value κ)}
    (h : host.Ends driver b x w requests o) (hw : w.unlogged = w'.unlogged) :
    host.Ends driver b x w' requests o := by
  cases h with
  | fault hfault =>
      rcases hx.fault_of_unlogged hw hfault with ⟨v', hfault', hv⟩
      rw [hv]
      exact .fault hfault'
  | @runs steps p v ops o hvalue hruns =>
      rcases hx.value_of_unlogged hw hvalue with ⟨v', hvalue', hv⟩
      rcases hruns.of_unlogged lawful hv steps with ⟨o', hruns', ho⟩
      rw [ho]
      exact .runs hvalue' hruns'

theorem ends_write_iff (lawful : host.Lawful) {x : Action κ β (Value κ)} (hx : x.Blind)
    (line : LogLine κ) {w : World κ β} {requests : List (Request (Value κ))}
    {o : Outcome κ β (Value κ)} :
    host.Ends driver b x (w.write line) requests o ↔ host.Ends driver b x w requests o :=
  ⟨fun h => h.of_unlogged lawful hx (w.unlogged_write line),
    fun h => h.of_unlogged lawful hx (w.unlogged_write line).symm⟩

/-- What is built in one way from one world may be built in another way from another. -/
theorem Ends.congr {x y : Action κ β (Value κ)} {w v : World κ β} (hxy : x.run w = y.run v)
    {requests : List (Request (Value κ))} {o : Outcome κ β (Value κ)}
    (h : host.Ends driver b x w requests o) : host.Ends driver b y v requests o := by
  cases h with
  | fault hfault => exact .fault (hxy ▸ hfault)
  | runs hvalue hruns => exact .runs (hxy ▸ hvalue) hruns

/-- An outcome of building and driving is the end of a run. -/
theorem ends_iff (lawful : host.Lawful) {x : Action κ β (Value κ)} {w : World κ β}
    {o : Outcome κ β (Value κ)} (ho : o.Finished) :
    ((x >>= host.drive driver b).run w).mapWorld World.unlogged = o ↔
      ∃ requests, host.Ends driver b x w requests o := by
  constructor
  · rintro rfl
    rw [Outcome.finished_mapWorld] at ho
    cases hx : x.run w with
    | value p v =>
        rw [Action.run_bind_of_value _ hx] at ho ⊢
        rcases (drive_eq_iff lawful ho).1 rfl with ⟨ops, hruns⟩
        -- The line that starts the run is left out.
        rcases hruns.of_unlogged lawful (v.unlogged_write _) 0 with ⟨o', hruns', ho'⟩
        exact ⟨_, ho' ▸ Ends.runs hx hruns'⟩
    | fault cause v =>
        rw [Action.run_bind_of_fault _ hx]
        exact ⟨[], .fault hx⟩
    | unfinished =>
        rw [Action.run_bind_of_unfinished _ hx] at ho
        exact absurd ho id
  · rintro ⟨requests, hends⟩
    cases hends with
    | fault hx => rw [Action.run_bind_of_fault _ hx]; rfl
    | @runs steps p v ops o hx hruns =>
        rcases hruns.of_unlogged lawful (v.unlogged_write (.started driver)).symm 0 with
          ⟨o', hruns', ho'⟩
        have hdrive := (drive_eq_iff lawful hruns'.outcome_finished).2 ⟨ops, hruns'⟩
        rw [Action.run_bind_of_value _ hx, hdrive, ho']

/-! ## The two parts -/

/-- What follows once the first part has ended: its fault leaves, or `f` is called on its value
and the program that `f` answers with is run. -/
inductive AfterPart (host : Host κ β σ) (driver : Driver) (b : Backend (Value κ)) (f : Value κ) :
    Outcome κ β (Value κ) → List (Request (Value κ)) → Outcome κ β (Value κ) → Prop
  | fault (cause : Fault κ) (w : World κ β) :
      AfterPart host driver b f (.fault cause w) [] (.fault cause w.unlogged)
  | value {value : Value κ} {w : World κ β} {requests : List (Request (Value κ))}
      {o : Outcome κ β (Value κ)} : host.Ends driver b (host.result f [value]) w requests o →
      AfterPart host driver b f (.value value w) requests o

/-- Every program that the run comes to and that waits, waits on an operation. -/
def Asking (host : Host κ β σ) (driver : Driver) (b : Backend (Value κ)) (steps : Nat)
    (p : Value κ) (w : World κ β) : Prop :=
  ∀ ops waiting v, host.Path driver b steps p w ops (.pending waiting) v →
    ∃ op, waiting = .operation op

theorem Asking.step {steps : Nat} {op : Operation (Value κ)} {w v : World κ β} {p : Value κ}
    (h : host.Asking driver b steps (.pending (.operation op)) w)
    (hturn : (host.turn b op).run (w.write (driver.stepLine steps (.operation op))) =
      .value p v) : host.Asking driver b (steps + 1) p v :=
  fun _ waiting u hpath => h _ waiting u (.step hturn hpath)

theorem Sound.asking {steps : Nat} {p : Value κ} {w : World κ β} (hp : host.Sound p) :
    host.Asking driver b steps p w := by
  intro ops waiting v hpath
  cases (hp.path hpath).step with
  | waiting op => exact ⟨op, rfl⟩

variable {f : Value κ}

/-- A step of the built program is a step of the first part, whose next program `f` follows. -/
theorem turn_followedBy (lawful : host.Lawful) (b : Backend (Value κ)) (op : Operation (Value κ))
    (f : Value κ) :
    host.turn b (op.followedBy f) = (host.turn b op >>= fun q => host.continued q f) := by
  simp only [turn, Operation.followedBy, bind_assoc, lawful.result_compose, lawful.result_thenRest]
  rfl

/-- A program that waits makes its request; then its next program is continued and run. -/
theorem ends_waiting_iff (lawful : host.Lawful) (hdriver : driver ≠ .awaited)
    {op : Operation (Value κ)} {w : World κ β} {requests : List (Request (Value κ))}
    {o : Outcome κ β (Value κ)} :
    host.Ends driver b (host.continued (.pending (.operation op)) f) w requests o ↔
      ∃ rest, requests = op.request :: rest ∧
        host.Ends driver b (host.turn b op >>= fun q => host.continued q f) w rest o := by
  have hblind := turn_blind lawful b (op.followedBy f)
  have hwaiting : host.continued (.pending (.operation op)) f =
      pure (.pending (.operation (op.followedBy f))) := continued_waiting op f
  rw [hwaiting, ← turn_followedBy lawful]
  constructor
  · intro hends
    cases hends with
    | fault hfault => cases hfault
    | @runs steps p v ops o hvalue hruns =>
        cases hvalue
        cases hruns with
        | done hhalt =>
            cases hhalt with
            | refused _ hrefused => exact absurd rfl (hrefused _)
            | invalid _ hp => cases hp
            | broken hturn =>
                rw [Driver.leaving_of_ne hdriver]
                exact ⟨[], rfl, (ends_write_iff lawful hblind _).1 (.fault hturn)⟩
        | more hturn hruns =>
            exact ⟨_, rfl, (ends_write_iff lawful hblind _).1 (.runs hturn hruns)⟩
  · rintro ⟨rest, rfl, hends⟩
    have hstarted := (ends_write_iff lawful hblind
      (driver.stepLine 0 (.operation (op.followedBy f)))).2 hends
    cases hstarted with
    | @fault cause v hfault =>
        have hhalt : host.Halts driver b 0 _ w _ _ := .broken hfault
        rw [Driver.leaving_of_ne hdriver] at hhalt
        exact .runs rfl (.done hhalt)
    | @runs steps p v ops o hvalue hruns =>
        rcases hruns.of_unlogged lawful rfl 1 with ⟨o', hruns', ho'⟩
        rw [ho']
        exact .runs rfl (.more hvalue hruns')

/-- The run of the first part and what follows it make up a run of the built program. -/
theorem Runs.ends_continued (lawful : host.Lawful) (hdriver : driver ≠ .awaited) {steps : Nat}
    {p : Value κ} {w : World κ β} {first : List (Operation (Value κ))}
    {part : Outcome κ β (Value κ)} (h : host.Runs driver b steps p w first part)
    (hp : host.Asking driver b steps p w) {rest : List (Request (Value κ))}
    {o : Outcome κ β (Value κ)} (hrest : host.AfterPart driver b f part rest o) :
    host.Ends driver b (host.continued p f) w (first.map (fun op => op.request) ++ rest) o := by
  have hblind : ∀ op, (host.turn b op >>= fun q => host.continued q f).Blind := fun op =>
    (turn_blind lawful b op).bind fun q => continued_blind lawful q f
  induction h with
  | @done steps p w ops o hhalt =>
      cases hhalt with
      | finished value w =>
          cases hrest with
          | value hends =>
              exact (ends_write_iff lawful (lawful.result_blind f [value]) _).1 hends
      | refused w hwaiting =>
          rcases hp [] _ w (.here steps _ w) with ⟨op, rfl⟩
          exact absurd rfl (hwaiting op)
      | invalid w hinvalid =>
          cases hrest
          refine .fault ?_
          rw [(walks_continued lawful f).invalid p hinvalid]
          rfl
      | @broken op w v cause hturn =>
          rw [Driver.leaving_of_ne hdriver] at hrest
          cases hrest
          refine (ends_waiting_iff lawful hdriver).2 ⟨[], rfl, ?_⟩
          exact (ends_write_iff lawful (hblind op) _).1 (.fault (Action.run_bind_of_fault _ hturn))
  | @more steps op w v p ops o hturn _ ih =>
      have hnext := ih (hp.step hturn) hrest
      refine (ends_waiting_iff lawful hdriver).2 ⟨_, rfl, ?_⟩
      exact (ends_write_iff lawful (hblind op) _).1
        (hnext.congr (Action.run_bind_of_value _ hturn).symm)

/-- A run of the built program is made up of a run of the first part and what follows it. -/
theorem Ends.of_continued (lawful : host.Lawful) (hdriver : driver ≠ .awaited) {steps : Nat}
    {p : Value κ} {w : World κ β} (hp : host.Asking driver b steps p w)
    {requests : List (Request (Value κ))} {o : Outcome κ β (Value κ)}
    (h : host.Ends driver b (host.continued p f) w requests o) :
    ∃ first part rest, host.Runs driver b steps p w first part ∧
      host.AfterPart driver b f part rest o := by
  -- On the requests that are made, one fewer after a step.
  rcases program_cases p with ⟨value, rfl⟩ | ⟨op, rfl⟩ | ⟨waiting, rfl, hwaiting⟩ | hinvalid
  · refine ⟨[], _, requests, .done (.finished value w), .value ?_⟩
    exact (ends_write_iff lawful (lawful.result_blind f [value]) _).2 h
  · rcases (ends_waiting_iff lawful hdriver).1 h with ⟨rest, rfl, hends⟩
    have hblind : (host.turn b op >>= fun q => host.continued q f).Blind :=
      (turn_blind lawful b op).bind fun q => continued_blind lawful q f
    have hstarted := (ends_write_iff lawful hblind
      (driver.stepLine steps (.operation op))).2 hends
    cases hturn : (host.turn b op).run (w.write (driver.stepLine steps (.operation op))) with
    | value q v =>
        have hnext := hstarted.congr (Action.run_bind_of_value _ hturn)
        rcases Ends.of_continued lawful hdriver (hp.step hturn) hnext with
          ⟨first, part, rest, hruns, hafter⟩
        exact ⟨_, part, rest, .more hturn hruns, hafter⟩
    | fault cause v =>
        have hfault := hstarted.congr (y := .fail cause) (v := v)
          (Action.run_bind_of_fault _ hturn)
        refine ⟨_, _, [], .done (.broken hturn), ?_⟩
        rw [Driver.leaving_of_ne hdriver]
        cases hfault with
        | fault hcause =>
            cases hcause
            exact .fault cause v
        | runs hvalue => cases hvalue
    | unfinished =>
        have hnone := hstarted.congr (y := .unfinished) (v := w)
          (Action.run_bind_of_unfinished _ hturn)
        cases hnone with
        | fault hcause => cases hcause
        | runs hvalue => cases hvalue
  · rcases hp [] _ w (.here steps _ w) with ⟨op, rfl⟩
    exact absurd rfl (hwaiting op)
  · rw [(walks_continued lawful f).invalid p hinvalid] at h
    refine ⟨[], _, [], .done (.invalid w hinvalid), ?_⟩
    cases h with
    | fault hcause =>
        cases hcause
        exact .fault _ w
    | runs hvalue => cases hvalue
termination_by requests.length

/-- What follows a run of the first part is what the two parts, run one after the other, end
with. -/
theorem parts_iff (lawful : host.Lawful) {p : Value κ} {w : World κ β}
    {o : Outcome κ β (Value κ)} (ho : o.Finished) :
    ((host.drive driver b p >>= fun value =>
        host.result f [value] >>= host.drive driver b).run w).mapWorld World.unlogged = o ↔
      ∃ first part rest, host.Runs driver b 0 p (w.write (.started driver)) first part ∧
        host.AfterPart driver b f part rest o := by
  constructor
  · rintro rfl
    rw [Outcome.finished_mapWorld] at ho
    cases hfirst : (host.drive driver b p).run w with
    | value value v =>
        rw [Action.run_bind_of_value _ hfirst] at ho ⊢
        rcases (drive_eq_iff (o := .value value v) lawful trivial).1 hfirst with ⟨ops, hruns⟩
        rcases (ends_iff lawful ((Outcome.finished_mapWorld World.unlogged _).2 ho)).1 rfl with
          ⟨rest, hends⟩
        exact ⟨ops, _, rest, hruns, .value hends⟩
    | fault cause v =>
        rw [Action.run_bind_of_fault _ hfirst]
        rcases (drive_eq_iff (o := .fault cause v) lawful trivial).1 hfirst with ⟨ops, hruns⟩
        exact ⟨ops, _, [], hruns, .fault cause v⟩
    | unfinished =>
        rw [Action.run_bind_of_unfinished _ hfirst] at ho
        exact absurd ho id
  · rintro ⟨first, part, rest, hruns, hafter⟩
    have hfirst := (drive_eq_iff lawful hruns.outcome_finished).2 ⟨first, hruns⟩
    cases hafter with
    | fault cause v =>
        rw [Action.run_bind_of_fault _ hfirst]
        rfl
    | value hends =>
        rw [Action.run_bind_of_value _ hfirst]
        exact (ends_iff lawful ho).2 ⟨rest, hends⟩

/-- A run that ends with a value writes last how many steps it took. -/
theorem Runs.reported {steps : Nat} {p value : Value κ} {w v : World κ β}
    {ops : List (Operation (Value κ))} {o : Outcome κ β (Value κ)}
    (h : host.Runs driver b steps p w ops o) (ho : o = .value value v) :
    ∃ u : World κ β, v = u.write (driver.finishLine (steps + ops.length)) := by
  induction h with
  | done hhalt =>
      cases hhalt with
      | finished value w =>
          cases ho
          exact ⟨_, by rw [List.length_nil, Nat.add_zero]⟩
      | refused | invalid | broken => cases ho
  | @more steps op w v p ops o hturn _ ih =>
      rcases ih ho with ⟨u, hu⟩
      exact ⟨u, by rw [hu, List.length_cons, Nat.add_assoc, Nat.add_comm 1]⟩

/-- The run of `p` from the world `w` ends with the value in the world `v`, after so many steps,
and reports their number. -/
def Finishes (host : Host κ β σ) (driver : Driver) (b : Backend (Value κ)) (p : Value κ)
    (w : World κ β) (steps : Nat) (value : Value κ) (v : World κ β) : Prop :=
  (∃ ops, host.Runs driver b 0 p (w.write (.started driver)) ops (.value value v) ∧
    ops.length = steps) ∧
  ∃ u : World κ β, v = u.write (driver.finishLine steps)

/-- A driver that ends with a value has taken some number of steps. -/
theorem finishes_iff (lawful : host.Lawful) {p value : Value κ} {w v : World κ β} :
    (host.drive driver b p).run w = .value value v ↔
      ∃ steps, host.Finishes driver b p w steps value v := by
  constructor
  · intro hdrive
    rcases (drive_eq_iff (o := .value value v) lawful trivial).1 hdrive with ⟨ops, hruns⟩
    refine ⟨ops.length, ⟨ops, hruns, rfl⟩, ?_⟩
    simpa using hruns.reported rfl
  · rintro ⟨steps, ⟨ops, hruns, _⟩, _⟩
    exact (drive_eq_iff (o := .value value v) lawful trivial).2 ⟨ops, hruns⟩

/-- The program that is built of two parts takes the steps of both. -/
theorem Finishes.continued (lawful : host.Lawful) (hdriver : driver ≠ .awaited)
    {p q value answer : Value κ} {w u v z : World κ β} {m n : Nat}
    (hp : host.Asking driver b 0 p (w.write (.started driver)))
    (hfirst : host.Finishes driver b p w m value u)
    (hcall : (host.result f [value]).run u = .value q v)
    (hsecond : host.Finishes driver b q v n answer z) :
    ∃ r x y, (host.continued p f).run w = .value r x ∧
      host.Finishes driver b r x (m + n) answer y ∧ y.unlogged = z.unlogged := by
  rcases hfirst with ⟨⟨first, hfirst, rfl⟩, _⟩
  rcases hsecond with ⟨⟨second, hsecond, rfl⟩, _⟩
  rcases hsecond.of_unlogged lawful (v.unlogged_write _) 0 with ⟨o, hruns, ho⟩
  have hends := hfirst.ends_continued lawful hdriver hp (.value (.runs hcall hruns))
  have hbuilt := (ends_write_iff lawful (continued_blind lawful p f) _).1 hends
  rw [← ho] at hbuilt
  generalize hrequests : first.map (fun op => op.request) ++ second.map (fun op => op.request) =
    requests at hbuilt
  generalize houtcome : (Outcome.value answer z).mapWorld World.unlogged = outcome at hbuilt
  cases hbuilt with
  | fault hfault => cases houtcome
  | @runs steps r x ops part hvalue hpart =>
      rcases hpart.of_unlogged lawful (x.unlogged_write (.started driver)).symm 0 with
        ⟨part', hpart', hsame⟩
      rcases Outcome.exists_value_of_mapWorld (houtcome.trans hsame) rfl with ⟨y, rfl, hy⟩
      -- The two lists of requests have one length.
      have hlength : first.length + second.length = ops.length := by
        simpa using congrArg List.length hrequests
      have hreported := hpart'.reported rfl
      rw [Nat.zero_add, ← hlength] at hreported
      exact ⟨r, x, y, hvalue, ⟨⟨ops, hpart', hlength.symm⟩, hreported⟩, hy.symm⟩

/-- Running a program that `f` follows is running its parts: the program, then one call of `f` on
its value, then the program that `f` answers with.  Where everything that the run of the first
part comes to is no program or waits on an operation, if it waits, both ways end with the same
value or the same fault in the same world, log lines aside, or both do not end; and when both
parts finish the steps that are reported add up.  Over `host.recorded` every call of a callback is
an event of the world, so there the same calls are made in the same order. -/
theorem drive_continued (lawful : host.Lawful) (hdriver : driver ≠ .awaited) (p f : Value κ)
    (w : World κ β) (hp : host.Asking driver b 0 p (w.write (.started driver))) :
    ((host.fully fun d => do
          let whole ← andThen d p f
          driver.drive d (driver.executorOver b) whole).run w).mapWorld World.unlogged =
        ((do
          let value ← host.drive driver b p
          let next ← host.result f [value]
          host.drive driver b next).run w).mapWorld World.unlogged ∧
      ∀ m n value u q v answer z, host.Finishes driver b p w m value u →
        (host.result f [value]).run u = .value q v → host.Finishes driver b q v n answer z →
        ∃ r x y, (host.continued p f).run w = .value r x ∧
          host.Finishes driver b r x (m + n) answer y ∧ y.unlogged = z.unlogged := by
  constructor
  · have hbuilt : (host.fully fun d => andThen d p f >>= driver.drive d (driver.executorOver b)) =
        (host.continued p f >>= host.drive driver b) :=
      lawful.fully_bind (deepens_andThen p f) fun q => deepens_drive driver _ q
    have hblind := continued_blind lawful p f
    -- Whatever one way ends with, the other ends with.
    have hiff : ∀ o : Outcome κ β (Value κ), o.Finished →
        (((host.continued p f >>= host.drive driver b).run w).mapWorld World.unlogged = o ↔
          ((host.drive driver b p >>= fun value =>
            host.result f [value] >>= host.drive driver b).run w).mapWorld
              World.unlogged = o) := by
      intro o ho
      rw [ends_iff lawful ho, parts_iff lawful ho]
      constructor
      · rintro ⟨requests, hends⟩
        exact ((ends_write_iff lawful hblind _).2 hends).of_continued lawful hdriver hp
      · rintro ⟨first, part, rest, hruns, hafter⟩
        exact ⟨_, (ends_write_iff lawful hblind _).1
          (hruns.ends_continued lawful hdriver hp hafter)⟩
    have heq := Outcome.eq_of_finished_iff hiff
    rw [← hbuilt] at heq
    exact heq
  · intro m n value u q v answer z hfirst hcall hsecond
    exact hfirst.continued lawful hdriver hp hcall hsecond

/-- A script that asks for everything and then stores the number of what it was given, leaving a
mark: the run of the whole is the run of its two parts. -/
theorem drive_continued_getAll :
    let h := Script.host []
    let b := Script.Stores.backend 0
    let p : Value Script.Code := Request.toProgram .getAll
    let f : Value Script.Code := .fn (.callback (.function ["docs"]
      (.strict (.programOf .create) [.trace "found" (.strict .len [.var "docs"])])) [])
    h.Asking .stepped b 0 p (Script.emptyStore.write (.started .stepped)) ∧
      ((h.fully fun d => do
          let whole ← andThen d p f
          Driver.stepped.drive d (Driver.stepped.executorOver b) whole).run
            Script.emptyStore).mapWorld World.unlogged =
        ((do
          let value ← h.drive .stepped b p
          let next ← h.result f [value]
          h.drive .stepped b next).run Script.emptyStore).mapWorld World.unlogged := by
  intro h b p f
  have lawful : h.Lawful := Script.host_lawful []
  have hasking : h.Asking .stepped b 0 p (Script.emptyStore.write (.started .stepped)) :=
    (sound_toProgram lawful .getAll).asking
  exact ⟨hasking, (drive_continued lawful (by simp) p f Script.emptyStore hasking).1⟩

end Host

end Workflow

import Workflow.Proofs.Scripts
import Workflow.Proofs.Runs

/-!
# The drivers agree

A run by one driver is mirrored, step by step, by a run of the same program by another: the same
operations are asked about in the same order and the same continuations are called on the same
answers, so the worlds stay alike up to how the two drivers word their log lines.  The runs can
part only where they end: at a value that is no operation, and in how a fault leaves.

A journal holds each call of the backend.  Over `host.recorded` it also holds each call of a
callback and each move of a body, so that their order is compared as well.
-/

namespace Workflow

variable {κ β σ α : Type}

/-! ## Log lines without their wording -/

namespace LogLine

/-- The line without the name of its driver. -/
def unnamed : LogLine κ → LogLine κ
  | .started _ => .started .stepped
  | .step _ index operation => .step .stepped index operation
  | .finished _ steps => .finished .stepped steps

/-- The line without the name of its driver and without the number of steps, which the eager
driver does not know. -/
def plain : LogLine κ → LogLine κ
  | .started _ => .started .stepped
  | .step _ _ operation => .step .stepped none operation
  | .finished _ _ => .finished .stepped none

end LogLine

/-- The same event, a log line being rewritten. -/
def Event.mapLine (g : LogLine κ → LogLine κ) : Event κ → Event κ
  | .log line => .log (g line)
  | event => event

/-- Two worlds are alike if they differ at most in what `g` rewrites of their log lines. -/
def World.Alike (g : LogLine κ → LogLine κ) (w w' : World κ β) : Prop :=
  w.mapEvents (Event.mapLine g) = w'.mapEvents (Event.mapLine g)

namespace World

variable {g : LogLine κ → LogLine κ} {w w' : World κ β}

theorem Alike.symm (h : w.Alike g w') : w'.Alike g w :=
  Eq.symm h

theorem Alike.write (h : w.Alike g w') {line line' : LogLine κ} (hline : g line = g line') :
    (w.write line).Alike g (w'.write line') := by
  have hwrite : ∀ (v : World κ β) (l : LogLine κ),
      (v.write l).mapEvents (Event.mapLine g) = (v.mapEvents (Event.mapLine g)).write (g l) := by
    intro v l
    by_cases hv : v.debug.enabled = true <;>
      simp [World.write, World.mapEvents, Event.mapLine, hv]
  have hworld : w.mapEvents (Event.mapLine g) = w'.mapEvents (Event.mapLine g) := h
  calc
    (w.write line).mapEvents (Event.mapLine g)
        = (w.mapEvents (Event.mapLine g)).write (g line) := hwrite w line
    _ = (w'.mapEvents (Event.mapLine g)).write (g line') := by simp [hworld, hline]
    _ = (w'.write line').mapEvents (Event.mapLine g) := (hwrite w' line').symm

end World

namespace Outcome

/-- The same outcome, a fault being changed. -/
def mapFault (change : Fault κ → Fault κ) : Outcome κ β α → Outcome κ β α
  | .fault cause w => .fault (change cause) w
  | o => o

theorem mapFault_id (o : Outcome κ β α) : o.mapFault id = o := by
  cases o <;> rfl

theorem run_mapFault (change : Fault κ → Fault κ) (x : Action κ β α) (w : World κ β) :
    (x.mapFault change).run w = (x.run w).mapFault change := by
  simp only [Action.run, Action.mapFault]
  cases x w <;> rfl

/-- Two outcomes are alike if they are the same value in alike worlds, or faults that `c` and `c'`
make the same, or both none. -/
def Alike (g : LogLine κ → LogLine κ) (c c' : Fault κ → Fault κ) (o o' : Outcome κ β α) : Prop :=
  (o.mapFault c).mapEvents (Event.mapLine g) = (o'.mapFault c').mapEvents (Event.mapLine g)

theorem Alike.value {g : LogLine κ → LogLine κ} {c c' : Fault κ → Fault κ} {w w' : World κ β}
    (h : w.Alike g w') (a : α) : Alike g c c' (.value a w) (.value a w') :=
  congrArg (Outcome.value a) h

theorem Alike.fault {g : LogLine κ → LogLine κ} {c c' : Fault κ → Fault κ} {w w' : World κ β}
    (h : w.Alike g w') {cause cause' : Fault κ} (hc : c cause = c' cause') :
    Alike g c c' (.fault cause w : Outcome κ β α) (.fault cause' w') := by
  have hw : w.mapEvents (Event.mapLine g) = w'.mapEvents (Event.mapLine g) := h
  simp [Alike, Outcome.mapFault, Outcome.mapEvents, Outcome.mapWorld, hw, hc]

end Outcome

theorem Action.Blind.run_alike {x : Action κ β α} (h : x.Blind) {g : LogLine κ → LogLine κ}
    {w w' : World κ β} (hw : w.Alike g w') :
    (x.run w).mapEvents (Event.mapLine g) = (x.run w').mapEvents (Event.mapLine g) :=
  h.mapEvents hw

theorem Action.Blind.exists_value {x : Action κ β α} (h : x.Blind) {g : LogLine κ → LogLine κ}
    {w w' v : World κ β} (hw : w.Alike g w') {a : α} (hx : x.run w = .value a v) :
    ∃ v', x.run w' = .value a v' ∧ v.Alike g v' :=
  Outcome.exists_value_of_mapWorld (h.run_alike hw) hx

theorem Action.Blind.exists_fault {x : Action κ β α} (h : x.Blind) {g : LogLine κ → LogLine κ}
    {w w' v : World κ β} (hw : w.Alike g w') {cause : Fault κ} (hx : x.run w = .fault cause v) :
    ∃ v', x.run w' = .fault cause v' ∧ v.Alike g v' :=
  Outcome.exists_fault_of_mapWorld (h.run_alike hw) hx

/-! ## Mirrored runs -/

/-- The two drivers write the same lines up to `g`, and their faults leave as the same up to `c`
and `c'`. -/
structure Driver.Mirrors (g : LogLine κ → LogLine κ) (c c' : Fault κ → Fault κ)
    (driver driver' : Driver) : Prop where
  started : g (.started driver) = g (.started driver')
  stepLine : ∀ steps operation,
    g (driver.stepLine steps operation) = g (driver'.stepLine steps operation)
  finishLine : ∀ steps, g (driver.finishLine steps) = g (driver'.finishLine steps)
  leaving : ∀ cause, c (driver.leaving cause) = c' (driver'.leaving cause)
  invalid : ∀ value, c (.invalidProgram value) = c' (.invalidProgram value)

theorem Driver.Mirrors.symm {g : LogLine κ → LogLine κ} {c c' : Fault κ → Fault κ}
    {driver driver' : Driver} (h : Driver.Mirrors g c c' driver driver') :
    Driver.Mirrors g c' c driver' driver :=
  ⟨h.started.symm, fun steps operation => (h.stepLine steps operation).symm,
    fun steps => (h.finishLine steps).symm, fun cause => (h.leaving cause).symm,
    fun value => (h.invalid value).symm⟩

namespace Host

variable {host : Host κ β σ} {b : Backend (Value κ)} {driver driver' : Driver}
  {g : LogLine κ → LogLine κ} {c c' : Fault κ → Fault κ}

theorem Path.mirror (lawful : host.Lawful) (hm : Driver.Mirrors g c c' driver driver')
    {steps : Nat} {p q : Value κ} {w v : World κ β} {ops : List (Operation (Value κ))}
    (h : host.Path driver b steps p w ops q v) :
    ∀ {w' : World κ β}, w.Alike g w' →
      ∃ v', host.Path driver' b steps p w' ops q v' ∧ v.Alike g v' := by
  induction h with
  | here steps p w =>
      intro w' hw
      exact ⟨w', .here steps p w', hw⟩
  | @step steps op w v u p q ops hturn _ ih =>
      intro w' hw
      -- Both write their line for the step, then do the same in alike worlds.
      rcases (turn_blind lawful b op).exists_value (hw.write (hm.stepLine steps _)) hturn with
        ⟨v', hturn', hv⟩
      rcases ih hv with ⟨u', hpath, hu⟩
      exact ⟨u', .step hturn' hpath, hu⟩

/-- Where one driver halts the other halts, if they refuse in the same way. -/
theorem Halts.mirror (lawful : host.Lawful) (hm : Driver.Mirrors g c c' driver driver')
    {steps : Nat} {p : Value κ} {w w' : World κ β} {ops : List (Operation (Value κ))}
    {o : Outcome κ β (Value κ)} (h : host.Halts driver b steps p w ops o)
    (hrefuse : ∀ waiting, p = .pending waiting → (∀ op, waiting ≠ .operation op) →
      c (driver.refusal waiting) = c' (driver'.refusal waiting))
    (hw : w.Alike g w') :
    ∃ o', host.Halts driver' b steps p w' ops o' ∧ o.Alike g c c' o' := by
  cases h with
  | finished value w =>
      exact ⟨_, .finished value w', .value (hw.write (hm.finishLine steps)) value⟩
  | @refused waiting w hwaiting =>
      exact ⟨_, .refused w' hwaiting,
        .fault (hw.write (hm.stepLine steps waiting)) (hrefuse waiting rfl hwaiting)⟩
  | @invalid p w hp => exact ⟨_, .invalid w' hp, .fault hw (hm.invalid p)⟩
  | @broken op w v cause hturn =>
      rcases (turn_blind lawful b op).exists_fault (hw.write (hm.stepLine steps _)) hturn with
        ⟨v', hturn', hv⟩
      exact ⟨_, .broken hturn', .fault hv (hm.leaving cause)⟩

/-- A run of one driver is mirrored by a run of the other, if they refuse in the same way
whatever the run comes to that is no operation. -/
theorem Runs.mirror (lawful : host.Lawful) (hm : Driver.Mirrors g c c' driver driver')
    {steps : Nat} {p : Value κ} {w : World κ β} {ops : List (Operation (Value κ))}
    {o : Outcome κ β (Value κ)} (h : host.Runs driver b steps p w ops o) :
    (∀ done waiting v, host.Path driver b steps p w done (.pending waiting) v →
      (∀ op, waiting ≠ .operation op) →
        c (driver.refusal waiting) = c' (driver'.refusal waiting)) →
    ∀ {w' : World κ β}, w.Alike g w' →
      ∃ o', host.Runs driver' b steps p w' ops o' ∧ o.Alike g c c' o' := by
  induction h with
  | @done steps p w ops o hhalt =>
      intro hrefuse w' hw
      have hhere : ∀ waiting, p = .pending waiting → (∀ op, waiting ≠ .operation op) →
          c (driver.refusal waiting) = c' (driver'.refusal waiting) := by
        rintro waiting rfl hwaiting
        exact hrefuse [] waiting w (.here steps _ w) hwaiting
      rcases hhalt.mirror lawful hm hhere hw with ⟨o', hhalt', ho⟩
      exact ⟨o', .done hhalt', ho⟩
  | @more steps op w v p ops o hturn _ ih =>
      intro hrefuse w' hw
      rcases (turn_blind lawful b op).exists_value (hw.write (hm.stepLine steps _)) hturn with
        ⟨v', hturn', hv⟩
      obtain ⟨o', hruns', ho⟩ :=
        ih (fun done waiting u hpath => hrefuse (op :: done) waiting u (.step hturn hpath)) hv
      exact ⟨o', .more hturn' hruns', ho⟩

/-! ## Whole runs -/

/-- The run of a program comes to the program `q` after it has performed `ops`. -/
def Reaches (host : Host κ β σ) (driver : Driver) (b : Backend (Value κ)) (p : Value κ)
    (w : World κ β) (ops : List (Operation (Value κ))) (q : Value κ) : Prop :=
  ∃ v, host.Path driver b 0 p (w.write (.started driver)) ops q v

/-- The run of a program ends, having asked about `ops`, each of them once and in this order. -/
def Performs (host : Host κ β σ) (driver : Driver) (b : Backend (Value κ)) (p : Value κ)
    (w : World κ β) (ops : List (Operation (Value κ))) : Prop :=
  ∃ o, (host.drive driver b p).run w = o ∧
    host.Runs driver b 0 p (w.write (.started driver)) ops o

/-- The operations of a run that ends are determined. -/
theorem Performs.unique {p : Value κ} {w : World κ β} {ops ops' : List (Operation (Value κ))}
    (h : host.Performs driver b p w ops) (h' : host.Performs driver b p w ops') : ops = ops' := by
  rcases h with ⟨_, _, hruns⟩
  rcases h' with ⟨_, _, hruns'⟩
  exact (hruns.unique hruns').1

theorem alike_started (hm : Driver.Mirrors g c c' driver driver') (w : World κ β) :
    (w.write (.started driver)).Alike g (w.write (.started driver')) := by
  have hw : w.Alike g w := rfl
  exact hw.write hm.started

theorem Reaches.mirror (lawful : host.Lawful) (hm : Driver.Mirrors g c c' driver driver')
    {p q : Value κ} {w : World κ β} {ops : List (Operation (Value κ))}
    (h : host.Reaches driver b p w ops q) : host.Reaches driver' b p w ops q := by
  rcases h with ⟨v, hpath⟩
  rcases hpath.mirror lawful hm (alike_started hm w) with ⟨v', hpath', _⟩
  exact ⟨v', hpath'⟩

/-- Two drivers that refuse in the same way whatever the run comes to end alike. -/
theorem exists_drive_of_mirror (lawful : host.Lawful)
    (hm : Driver.Mirrors g c c' driver driver') {p : Value κ} {w : World κ β}
    (hrefuse : ∀ ops waiting, host.Reaches driver b p w ops (.pending waiting) →
      (∀ op, waiting ≠ .operation op) →
        c (driver.refusal waiting) = c' (driver'.refusal waiting))
    {o : Outcome κ β (Value κ)} {ops : List (Operation (Value κ))}
    (h : host.Runs driver b 0 p (w.write (.started driver)) ops o) :
    ∃ o', (host.drive driver' b p).run w = o' ∧
      host.Runs driver' b 0 p (w.write (.started driver')) ops o' ∧ o.Alike g c c' o' := by
  rcases h.mirror lawful hm
    (fun done waiting v hpath => hrefuse done waiting ⟨v, hpath⟩) (alike_started hm w) with
    ⟨o', hruns, ho⟩
  exact ⟨o', (drive_eq_iff lawful hruns.outcome_finished).2 ⟨ops, hruns⟩, hruns, ho⟩

/-- Two drivers that refuse in the same way whatever the run comes to agree: they end alike or
not at all, and they ask about the same operations. -/
theorem drive_mirror (lawful : host.Lawful) (hm : Driver.Mirrors g c c' driver driver')
    {p : Value κ} {w : World κ β}
    (hrefuse : ∀ ops waiting, host.Reaches driver b p w ops (.pending waiting) →
      (∀ op, waiting ≠ .operation op) →
        c (driver.refusal waiting) = c' (driver'.refusal waiting)) :
    ((host.drive driver b p).run w).Alike g c c' ((host.drive driver' b p).run w) ∧
      ∀ ops, host.Performs driver b p w ops ↔ host.Performs driver' b p w ops := by
  -- What one driver comes to the other comes to as well.
  have hrefuse' : ∀ ops waiting, host.Reaches driver' b p w ops (.pending waiting) →
      (∀ op, waiting ≠ .operation op) →
        c' (driver'.refusal waiting) = c (driver.refusal waiting) := by
    intro ops waiting hreach hwaiting
    exact (hrefuse ops waiting (hreach.mirror lawful hm.symm) hwaiting).symm
  constructor
  · by_cases hfin : ((host.drive driver b p).run w).Finished
    · rcases (drive_eq_iff lawful hfin).1 rfl with ⟨ops, hruns⟩
      rcases exists_drive_of_mirror lawful hm hrefuse hruns with ⟨o', ho', _, halike⟩
      rw [ho']
      exact halike
    · -- The other run does not end either, or this one would mirror it.
      have hfin' : ¬ ((host.drive driver' b p).run w).Finished := by
        intro hfin'
        rcases (drive_eq_iff lawful hfin').1 rfl with ⟨ops, hruns⟩
        rcases exists_drive_of_mirror lawful hm.symm hrefuse' hruns with ⟨o, ho, hruns', _⟩
        rw [ho] at hfin
        exact hfin hruns'.outcome_finished
      rw [Outcome.eq_unfinished hfin, Outcome.eq_unfinished hfin']
      rfl
  · intro ops
    constructor
    · rintro ⟨o, _, hruns⟩
      rcases exists_drive_of_mirror lawful hm hrefuse hruns with ⟨o', ho', hruns', _⟩
      exact ⟨o', ho', hruns'⟩
    · rintro ⟨o, _, hruns⟩
      rcases exists_drive_of_mirror lawful hm.symm hrefuse' hruns with ⟨o', ho', hruns', _⟩
      exact ⟨o', ho', hruns'⟩

/-! ## Eager evaluations and stepped runs -/

theorem eager_mirrors_stepped :
    Driver.Mirrors (κ := κ) LogLine.plain id id .eager .stepped where
  started := rfl
  stepLine _ _ := rfl
  finishLine _ := rfl
  leaving _ := rfl
  invalid _ := rfl

/-- At a value that is no operation a run halts in the words of its driver. -/
theorem Reaches.refused (lawful : host.Lawful) {p waiting : Value κ} {w : World κ β}
    {ops : List (Operation (Value κ))} {v : World κ β}
    (h : host.Path driver b 0 p (w.write (.started driver)) ops (.pending waiting) v)
    (hwaiting : ∀ op, waiting ≠ .operation op) :
    (host.drive driver b p).run w = .fault (driver.refusal waiting)
        (v.write (driver.stepLine ops.length waiting)) ∧
      host.Performs driver b p w ops := by
  have hhalt : host.Halts driver b (0 + ops.length) (.pending waiting) v []
      (.fault (driver.refusal waiting) (v.write (driver.stepLine (0 + ops.length) waiting))) :=
    .refused v hwaiting
  have hruns := h.runs (.done hhalt)
  rw [List.append_nil, Nat.zero_add] at hruns
  have hdrive := (drive_eq_iff lawful hruns.outcome_finished).2 ⟨ops, hruns⟩
  exact ⟨hdrive, _, hdrive, hruns⟩

/-- A run that ends with a value has waited on operations alone. -/
theorem operation_of_drive_value (lawful : host.Lawful) {p waiting value : Value κ}
    {w u : World κ β} {ops : List (Operation (Value κ))}
    (h : (host.drive driver b p).run w = .value value u)
    (hreach : host.Reaches driver b p w ops (.pending waiting)) :
    ∃ op, waiting = .operation op := by
  apply Classical.byContradiction
  intro hnone
  rcases hreach with ⟨v, hpath⟩
  have hrefused := Reaches.refused lawful hpath fun op hop => hnone ⟨op, hop⟩
  cases h.symm.trans hrefused.1

/-- The eager and the stepped driver agree.  They come to the same programs by the same
operations.  If every program they come to that waits does so on an operation, they end in the
same way in worlds that differ in the wording of log lines alone, having asked about the same
operations.  At a value that is no operation each stops with its own fault, and nothing else
differs. -/
theorem drive_eager_alike_stepped (lawful : host.Lawful) (b : Backend (Value κ)) (p : Value κ)
    (w : World κ β) :
    (∀ ops q, host.Reaches .eager b p w ops q ↔ host.Reaches .stepped b p w ops q) ∧
    ((∀ ops waiting, host.Reaches .stepped b p w ops (.pending waiting) →
        ∃ op, waiting = .operation op) →
      ((host.drive .eager b p).run w).mapEvents (Event.mapLine LogLine.plain) =
          ((host.drive .stepped b p).run w).mapEvents (Event.mapLine LogLine.plain) ∧
        ∀ ops, host.Performs .eager b p w ops ↔ host.Performs .stepped b p w ops) ∧
    ∀ ops waiting, host.Reaches .stepped b p w ops (.pending waiting) →
      (∀ op, waiting ≠ .operation op) →
      ∃ v v', (host.drive .eager b p).run w = .fault (.unknownOperation waiting) v ∧
        (host.drive .stepped b p).run w = .fault (.missingMember waiting "next") v' ∧
        v.Alike LogLine.plain v' ∧
        host.Performs .eager b p w ops ∧ host.Performs .stepped b p w ops := by
  have hm : Driver.Mirrors (κ := κ) LogLine.plain id id .eager .stepped := eager_mirrors_stepped
  refine ⟨fun ops q => ⟨.mirror lawful hm, .mirror lawful hm.symm⟩, ?_, ?_⟩
  · intro hformed
    -- There is nothing to refuse.
    have hrefuse : ∀ ops waiting, host.Reaches .eager b p w ops (.pending waiting) →
        (∀ op, waiting ≠ .operation op) →
          id (Driver.eager.refusal waiting) = id (Driver.stepped.refusal waiting) := by
      intro ops waiting hreach hwaiting
      rcases hformed ops waiting (hreach.mirror lawful hm) with ⟨op, rfl⟩
      exact absurd rfl (hwaiting op)
    rcases drive_mirror lawful hm hrefuse with ⟨halike, hperforms⟩
    refine ⟨?_, hperforms⟩
    simpa [Outcome.Alike, Outcome.mapFault_id] using halike
  · rintro ops waiting ⟨v', hpath'⟩ hwaiting
    rcases hpath'.mirror lawful hm.symm (alike_started hm.symm w) with ⟨v, hpath, hv⟩
    rcases Reaches.refused lawful hpath hwaiting with ⟨heager, hperforms⟩
    rcases Reaches.refused lawful hpath' hwaiting with ⟨hstepped, hperforms'⟩
    have hline := hm.stepLine ops.length waiting
    exact ⟨_, _, heager, hstepped, hv.symm.write hline, hperforms, hperforms'⟩

/-- A script's program of four steps, each made out of what the steps before have brought, and one
that waits on nothing after its first step. -/
theorem drive_eager_alike_stepped_amending :
    let h := Script.host []
    let b := Script.Stores.backend 0
    let w := Script.emptyStore
    let p := Script.amending
    let first : Operation (Value Script.Code) := ⟨.update (.int 1) (.text "a"),
      .fn (.callback (.function ["done"] (.strict .pending [.lit .null])) [])⟩
    let broken : Value Script.Code := .pending (.operation first)
    (∃ u, (h.drive .stepped b p).run w = .value (.list [.list [.text "a"]]) u) ∧
      ((h.drive .eager b p).run w).mapEvents (Event.mapLine LogLine.plain) =
        ((h.drive .stepped b p).run w).mapEvents (Event.mapLine LogLine.plain) ∧
      h.Performs .eager b p w Script.amendingSteps ∧
      ∃ v v', (h.drive .eager b broken).run w = .fault (.unknownOperation .null) v ∧
        (h.drive .stepped b broken).run w = .fault (.missingMember .null "next") v' ∧
        v.Alike LogLine.plain v' := by
  intro h b w p first broken
  have lawful : h.Lawful := Script.host_lawful []
  obtain ⟨u, hruns⟩ := Script.amending_runs .stepped
  have hends : (h.drive .stepped b p).run w = .value (.list [.list [.text "a"]]) u :=
    (drive_eq_iff lawful hruns.outcome_finished).2 ⟨_, hruns⟩
  obtain ⟨halike, hperforms⟩ := (drive_eager_alike_stepped lawful b p w).2.1
    fun ops waiting => operation_of_drive_value lawful hends
  refine ⟨⟨u, hends⟩, halike, (hperforms _).2 ⟨_, hends, hruns⟩, ?_⟩
  have hwritten : ((w.write (.started .stepped)).write
      (Driver.stepped.stepLine 0 (.operation first))).outside = ⟨[{}]⟩ := by
    rw [World.write_outside, World.write_outside]
    rfl
  have hturn : ∃ v, (h.turn b first).run ((w.write (.started .stepped)).write
      (Driver.stepped.stepLine 0 (.operation first))) = .value (.pending .null) v ∧ _ :=
    Script.turn_store hwritten rfl rfl (Script.result_callback fun d => rfl)
  obtain ⟨v, hturn, _⟩ := hturn
  have hreach : h.Reaches .stepped b broken w [first] (.pending .null) :=
    ⟨v, .step hturn (.here 1 _ v)⟩
  have hnull : ∀ op : Operation (Value Script.Code), Value.null ≠ .operation op := by
    intro op hop
    cases hop
  obtain ⟨v, v', heager, hstepped, hsame, _⟩ :=
    (drive_eager_alike_stepped lawful b broken w).2.2 _ .null hreach hnull
  exact ⟨v, v', heager, hstepped, hsame⟩

/-! ## Awaited and stepped runs -/

theorem awaited_mirrors_stepped :
    Driver.Mirrors (κ := κ) LogLine.unnamed id (Fault.crossing .coroutine) .awaited
      .stepped where
  started := rfl
  stepLine _ _ := rfl
  finishLine _ := rfl
  leaving _ := rfl
  invalid _ := rfl

/-- The awaited and the stepped driver agree on every program: they come to the same programs by
the same operations, and end in the same way in worlds that differ in the name of the driver
alone, except that a stop signal does not leave the awaited one as such. -/
theorem drive_awaited_alike_stepped (lawful : host.Lawful) (b : Backend (Value κ)) (p : Value κ)
    (w : World κ β) :
    ((host.drive .awaited b p).run w).mapEvents (Event.mapLine LogLine.unnamed) =
        (((host.drive .stepped b p).within .coroutine).run w).mapEvents
          (Event.mapLine LogLine.unnamed) ∧
      (∀ ops q, host.Reaches .awaited b p w ops q ↔ host.Reaches .stepped b p w ops q) ∧
      ∀ ops, host.Performs .awaited b p w ops ↔ host.Performs .stepped b p w ops := by
  have hm : Driver.Mirrors (κ := κ) LogLine.unnamed id (Fault.crossing .coroutine) .awaited
      .stepped := awaited_mirrors_stepped
  -- A missing member is no stop signal, so the refusals agree.
  have hrefuse : ∀ ops waiting, host.Reaches .awaited b p w ops (.pending waiting) →
      (∀ op, waiting ≠ .operation op) →
        id (Driver.awaited.refusal waiting) =
          (Driver.stepped.refusal waiting).crossing .coroutine := fun _ _ _ _ => rfl
  rcases drive_mirror lawful hm hrefuse with ⟨halike, hperforms⟩
  refine ⟨?_, fun ops q => ⟨.mirror lawful hm, .mirror lawful hm.symm⟩, hperforms⟩
  rw [Action.within, Outcome.run_mapFault]
  simpa [Outcome.Alike, Outcome.mapFault_id] using halike

/-- A continuation of a script that raises a stop signal. -/
theorem drive_awaited_alike_stepped_stop :
    let h := (Script.host []).recorded
    let b := Script.Stores.backend 0
    let p := Request.thenCall .getAll (.fn (.callback (.function ["_"] (.raise .stop "")) []))
    let w := Script.emptyStore
    ((h.drive .awaited b p).run w).mapEvents (Event.mapLine LogLine.unnamed) =
      (((h.drive .stepped b p).within .coroutine).run w).mapEvents
        (Event.mapLine LogLine.unnamed) :=
  (drive_awaited_alike_stepped (Script.host_lawful []).recorded _ _ _).1

end Host

end Workflow

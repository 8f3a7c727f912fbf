import Workflow.Proofs.Agreement
import Workflow.Proofs.Progress

/-!
# Interchangeable backends

A program is told `null` after every update and a list after every request for everything, so it
cannot see what a backend answers to an update, nor in what it wraps its documents.  Two backends
that differ in nothing else are interchangeable (`Host.Interchangeable`): from outside states that
a relation takes together they answer each request in ways that come to the same outcome, and
leave states that the relation takes together again.  Answering alike on every history of calls is
the greatest such relation (`Host.alikeFrom_iff`).

Runs over interchangeable backends are the same, step for step (`Host.drive_interchangeable`).
Over one and the same state the functions of the program may do what they like.  Where the
backends keep states of their own, a function that reaches around its executor into one of them
can tell them apart (`Host.drive_interchangeable_reaching`), so there the continuations must not
look at what sets the states apart (`Host.Steady`).
-/

namespace Workflow

variable {κ β σ α γ : Type}

/-! ## Worlds side by side -/

/-- The worlds have the same journal and the same debug setting, and `R` takes their outside
states together. -/
structure World.Beside (R : β → β → Prop) (w w' : World κ β) : Prop where
  journal : w.journal = w'.journal
  debug : w.debug = w'.debug
  outside : R w.outside w'.outside

namespace World

variable {R : β → β → Prop} {w w' : World κ β}

theorem Beside.flip (h : w.Beside R w') : w'.Beside (fun s s' => R s' s) w :=
  ⟨h.journal.symm, h.debug.symm, h.outside⟩

theorem Beside.eq (h : w.Beside Eq w') : w = w' := by
  cases w
  cases w'
  cases h.journal
  cases h.debug
  cases h.outside
  rfl

theorem Beside.recorded (h : w.Beside R w') (event : Event κ) :
    (w.recorded event).Beside R (w'.recorded event) :=
  ⟨congrArg (event :: ·) h.journal, h.debug, h.outside⟩

theorem Beside.write (h : w.Beside R w') (line : LogLine κ) :
    (w.write line).Beside R (w'.write line) := by
  by_cases hon : w.debug.enabled = true
  · have hon' : w'.debug.enabled = true := h.debug ▸ hon
    rw [World.write, World.write, if_pos hon, if_pos hon']
    exact h.recorded (.log line)
  · have hoff : ¬ w'.debug.enabled = true := h.debug ▸ hon
    rw [World.write, World.write, if_neg hon, if_neg hoff]
    exact h

end World

namespace Outcome

/-- Values that `V` takes together, or the same fault, in worlds side by side; or both none. -/
inductive Beside (V : α → γ → Prop) (R : β → β → Prop) :
    Outcome κ β α → Outcome κ β γ → Prop
  | value {a : α} {c : γ} {w w' : World κ β} :
      V a c → w.Beside R w' → Beside V R (.value a w) (.value c w')
  | fault {w w' : World κ β} (cause : Fault κ) :
      w.Beside R w' → Beside V R (.fault cause w) (.fault cause w')
  | unfinished : Beside V R .unfinished .unfinished

namespace Beside

variable {V : α → γ → Prop} {R : β → β → Prop} {o : Outcome κ β α} {o' : Outcome κ β γ}

theorem flip (h : Beside V R o o') : Beside (fun c a => V a c) (fun s s' => R s' s) o' o := by
  cases h with
  | value hv hw => exact .value hv hw.flip
  | fault cause hw => exact .fault cause hw.flip
  | unfinished => exact .unfinished

theorem refl (o : Outcome κ β α) : Beside Eq Eq o o := by
  cases o with
  | value a w => exact .value rfl ⟨rfl, rfl, rfl⟩
  | fault cause w => exact .fault cause ⟨rfl, rfl, rfl⟩
  | unfinished => exact .unfinished

theorem eq {o o' : Outcome κ β α} (h : Beside Eq Eq o o') : o = o' := by
  cases h with
  | value ha hw => rw [ha, hw.eq]
  | fault cause hw => rw [hw.eq]
  | unfinished => rfl

theorem mono {V' : α → γ → Prop} {R' : β → β → Prop} (hV : ∀ a c, V a c → V' a c)
    (hR : ∀ s s', R s s' → R' s s') (h : Beside V R o o') : Beside V' R' o o' := by
  cases h with
  | value hv hw => exact .value (hV _ _ hv) ⟨hw.journal, hw.debug, hR _ _ hw.outside⟩
  | fault cause hw => exact .fault cause ⟨hw.journal, hw.debug, hR _ _ hw.outside⟩
  | unfinished => exact .unfinished

/-- States that each relation of a family takes together are taken together by all of them. -/
theorem all {ι : Type} [Inhabited ι] {family : ι → β → β → Prop}
    (h : ∀ i, Beside V (family i) o o') : Beside V (fun s s' => ∀ i, family i s s') o o' := by
  cases h default with
  | value hv hw =>
      refine .value hv ⟨hw.journal, hw.debug, fun i => ?_⟩
      cases h i with
      | value _ hi => exact hi.outside
  | fault cause hw =>
      refine .fault cause ⟨hw.journal, hw.debug, fun i => ?_⟩
      cases h i with
      | fault _ hi => exact hi.outside
  | unfinished => exact .unfinished

theorem exists_value (h : Beside V R o o') {a : α} {w : World κ β} (ho : o = .value a w) :
    ∃ c w', o' = .value c w' ∧ V a c ∧ w.Beside R w' := by
  subst ho
  cases h with
  | value hv hw => exact ⟨_, _, rfl, hv, hw⟩

theorem exists_fault (h : Beside V R o o') {cause : Fault κ} {w : World κ β}
    (ho : o = .fault cause w) : ∃ w', o' = .fault cause w' ∧ w.Beside R w' := by
  subst ho
  cases h with
  | fault _ hw => exact ⟨_, rfl, hw⟩

theorem mapFault (h : Beside V R o o') (change : Fault κ → Fault κ) :
    Beside V R (o.mapFault change) (o'.mapFault change) := by
  cases h with
  | value hv hw => exact .value hv hw
  | fault cause hw => exact .fault (change cause) hw
  | unfinished => exact .unfinished

theorem bind {α' γ' : Type} {V' : α' → γ' → Prop} {x : Action κ β α} {y : Action κ β γ}
    {f : α → Action κ β α'} {g : γ → Action κ β γ'} {w w' : World κ β}
    (h : Beside V R (x.run w) (y.run w'))
    (hfg : ∀ a c v v', V a c → v.Beside R v' → Beside V' R ((f a).run v) ((g c).run v')) :
    Beside V' R ((x >>= f).run w) ((y >>= g).run w') := by
  simp only [Action.run, Bind.bind, Action.bind] at h ⊢
  generalize x w = o at h ⊢
  generalize y w' = o' at h ⊢
  cases h with
  | value hv hw => exact hfg _ _ _ _ hv hw
  | fault cause hw => exact .fault cause hw
  | unfinished => exact .unfinished

theorem lift {w w' : World κ β} (hw : w.Beside R w') (result : Except (Fault κ) α) :
    Beside Eq R ((liftM result : Action κ β α).run w) ((liftM result : Action κ β α).run w') := by
  cases result with
  | ok a => exact .value rfl hw
  | error cause => exact .fault cause hw

end Beside

end Outcome

/-! ## Answers that no program can tell apart -/

/-- Answers to a request that a program is told alike: the same one, any two to an update, and any
two that list the same items in the same order to a request for everything. -/
inductive Request.Indistinct : Request (Value κ) → Value κ → Value κ → Prop
  | same (request : Request (Value κ)) (answer : Value κ) : Indistinct request answer answer
  | update (id doc answer answer' : Value κ) : Indistinct (.update id doc) answer answer'
  | listing {answer answer' : Value κ} {items : List (Value κ)} :
      answer.items? = some items → answer'.items? = some items →
      Indistinct .getAll answer answer'

/-- The outcome is of the kind that the request has: nothing for an update, a list for a request
for everything. -/
def Request.Fits : Request (Value κ) → Value κ → Prop
  | .getById _, _ | .create _, _ => True
  | .getAll, outcome => ∃ items, outcome = .list items
  | .update _ _, outcome => outcome = .null

namespace Request

variable {request : Request (Value κ)} {answer answer' : Value κ}

theorem Indistinct.symm (h : request.Indistinct answer answer') :
    request.Indistinct answer' answer := by
  cases h with
  | same => exact .same _ _
  | update => exact .update _ _ _ _
  | listing hitems hitems' => exact .listing hitems' hitems

theorem Indistinct.outcome_eq (h : request.Indistinct answer answer') :
    request.outcome answer = request.outcome answer' := by
  cases h with
  | same | update => rfl
  | listing hitems hitems' => simp only [outcome, itemsOf, hitems, hitems']

theorem fits_outcome {outcome : Value κ} (h : request.outcome answer = .ok outcome) :
    request.Fits outcome := by
  cases request with
  | getById | create => trivial
  | update id doc =>
      cases h
      rfl
  | getAll =>
      simp only [Request.outcome] at h
      cases hitems : itemsOf answer with
      | ok items =>
          rw [hitems] at h
          cases h
          exact ⟨items, rfl⟩
      | error cause =>
          rw [hitems] at h
          cases h

end Request

/-- Answers that no program can tell apart come to the same outcome. -/
theorem Outcome.Beside.told {request : Request (Value κ)} {R : β → β → Prop}
    {x y : Action κ β (Value κ)} {w w' : World κ β}
    (h : Beside request.Indistinct R (x.run w) (y.run w')) :
    Beside Eq R ((x >>= fun answer => liftM (request.outcome answer)).run w)
      ((y >>= fun answer => liftM (request.outcome answer)).run w') := by
  refine h.bind fun answer answer' v v' hanswer hv => ?_
  rw [hanswer.outcome_eq]
  exact .lift hv _

namespace Host

variable {host : Host κ β σ} {b b' : Backend (Value κ)} {R : β → β → Prop} {driver : Driver}

/-- From states that `R` takes together the two backends answer every request in ways that no
program can tell apart, and leave states that `R` takes together. -/
def Interchangeable (host : Host κ β σ) (R : β → β → Prop) (b b' : Backend (Value κ)) : Prop :=
  ∀ request w w', w.Beside R w' → Outcome.Beside request.Indistinct R
    ((host.result (b.functionFor request) request.operands).run w)
    ((host.result (b'.functionFor request) request.operands).run w')

theorem Interchangeable.flip (h : host.Interchangeable R b b') :
    host.Interchangeable (fun s s' => R s' s) b' b := by
  intro request w w' hw
  exact (h request w' w hw.flip).flip.mono (fun _ _ => .symm) fun _ _ hs => hs

/-! ## Histories of calls -/

/-- Called with these requests, one after the other, the one backend from the state `s` and the
other one from the state `s'` answer in ways that no program can tell apart. -/
def AlikeOn (host : Host κ β σ) (b b' : Backend (Value κ)) :
    List (Request (Value κ)) → β → β → Prop
  | [], _, _ => True
  | request :: rest, s, s' =>
      ∀ journal debug, Outcome.Beside request.Indistinct (AlikeOn host b b' rest)
        ((host.result (b.functionFor request) request.operands).run ⟨journal, debug, s⟩)
        ((host.result (b'.functionFor request) request.operands).run ⟨journal, debug, s'⟩)

/-- The two backends behave alike on every history of calls from these states on. -/
def AlikeFrom (host : Host κ β σ) (b b' : Backend (Value κ)) (s s' : β) : Prop :=
  ∀ requests, host.AlikeOn b b' requests s s'

/-- After one call of backends that behave alike on every history they still do. -/
theorem interchangeable_alikeFrom (host : Host κ β σ) (b b' : Backend (Value κ)) :
    host.Interchangeable (host.AlikeFrom b b') b b' := by
  rintro request ⟨journal, debug, s⟩ ⟨_, _, s'⟩ ⟨rfl, rfl, halike⟩
  exact .all fun rest => halike (request :: rest) journal debug

/-- Behaving alike on every history of calls is the greatest relation for which two backends are
interchangeable. -/
theorem alikeFrom_iff {s s' : β} :
    host.AlikeFrom b b' s s' ↔ ∃ R, host.Interchangeable R b b' ∧ R s s' := by
  constructor
  · intro h
    exact ⟨_, interchangeable_alikeFrom host b b', h⟩
  · rintro ⟨R, hR, hs⟩ requests
    induction requests generalizing s s' with
    | nil => trivial
    | cons request rest ih =>
        intro journal debug
        exact (hR request ⟨journal, debug, s⟩ ⟨journal, debug, s'⟩ ⟨rfl, rfl, hs⟩).mono
          (fun _ _ h => h) fun _ _ => ih

/-! ## Single steps -/

/-- Called on any outcome, from states that `R` takes together, the continuation does the same and
leaves states that `R` takes together. -/
def Steady (host : Host κ β σ) (R : β → β → Prop) (next : Value κ) : Prop :=
  ∀ outcome w w', w.Beside R w' → Outcome.Beside Eq R
    ((host.result next [outcome]).run w) ((host.result next [outcome]).run w')

/-- On one and the same state every continuation does the same. -/
theorem steady_eq (host : Host κ β σ) (next : Value κ) : host.Steady Eq next := by
  intro outcome w w' hw
  rw [hw.eq]
  exact .refl _

theorem Steady.flip {next : Value κ} (h : host.Steady R next) :
    host.Steady (fun s s' => R s' s) next := by
  intro outcome w w' hw
  exact (h outcome w' w hw.flip).flip.mono (fun _ _ => Eq.symm) fun _ _ hs => hs

theorem Interchangeable.ask (lawful : host.Lawful) (h : host.Interchangeable R b b')
    (request : Request (Value κ)) {w w' : World κ β} (hw : w.Beside R w') :
    Outcome.Beside Eq R ((host.ask b request).run w) ((host.ask b' request).run w') := by
  rw [ask_eq_result lawful, ask_eq_result lawful]
  -- The journals get the same event before anything is called.
  exact (h request _ _ (hw.recorded (.call request))).told

theorem Interchangeable.turn (lawful : host.Lawful) (h : host.Interchangeable R b b')
    {op : Operation (Value κ)} (hnext : host.Steady R op.next) {w w' : World κ β}
    (hw : w.Beside R w') :
    Outcome.Beside Eq R ((host.turn b op).run w) ((host.turn b' op).run w') := by
  refine (h.ask lawful op.request hw).bind fun outcome outcome' v v' houtcome hv => ?_
  cases houtcome
  exact hnext outcome v v' hv

/-- What a program is told fits its request. -/
theorem fits_of_ask (lawful : host.Lawful) {request : Request (Value κ)} {outcome : Value κ}
    {w v : World κ β} (h : (host.ask b request).run w = .value outcome v) :
    request.Fits outcome := by
  rw [ask_eq_result lawful] at h
  rcases Action.exists_of_run_bind_value h with ⟨_, _, _, hanswer⟩
  rcases Action.exists_of_run_bind_value hanswer with ⟨answer, u, _, hlift⟩
  exact Request.fits_outcome (Action.eq_of_run_lift hlift).1

/-! ## Resolving -/

/-- An awaited backend is asked by the same call; a stop signal does not leave it as such. -/
theorem fully_resolveAsync (lawful : host.Lawful) (b : Backend (Value κ))
    (op : Operation (Value κ)) :
    (host.fully fun d => b.resolveAsync d (.operation op)) =
      (Action.record (.call op.request) >>= fun _ =>
        await (host.result (b.functionFor op.request) op.request.operands) >>= fun answer =>
          liftM (op.request.outcome answer)) := by
  have hawait : (host.fully fun d =>
      await (d.apply (b.functionFor op.request) op.request.operands)) =
        await (host.result (b.functionFor op.request) op.request.operands) :=
    Action.limit_mapFault (lawful.rising_call _ _) _
  calc
    (host.fully fun d => b.resolveAsync d (.operation op))
        = host.fully fun d => Action.record (.call op.request) >>= fun _ =>
            await (d.apply (b.functionFor op.request) op.request.operands) >>= fun answer =>
              liftM (op.request.outcome answer) := by
          simp only [Backend.resolveAsync_operation]
    _ = Action.record (.call op.request) >>= fun _ => host.fully fun d =>
          await (d.apply (b.functionFor op.request) op.request.operands) >>= fun answer =>
            liftM (op.request.outcome answer) :=
        lawful.fully_bind_left _ fun _ => fun h =>
          Action.Approx.bind (Congruence.await (h.apply _ _)) fun _ => .refl _
    _ = Action.record (.call op.request) >>= fun _ =>
          await (host.result (b.functionFor op.request) op.request.operands) >>= fun answer =>
            liftM (op.request.outcome answer) := by
        rw [lawful.fully_bind_right (fun h => Congruence.await (h.apply _ _)), hawait]

/-- What is no operation is refused. -/
theorem fully_resolve_refused {operation : Value κ} (h : ∀ op, operation ≠ .operation op)
    (b : Backend (Value κ)) :
    (host.fully fun d => b.resolve d operation) = .fail (.unknownOperation operation) ∧
      (host.fully fun d => b.resolveAsync d operation) = .fail (.unknownOperation operation) := by
  cases operation with
  | operation op => exact absurd rfl (h op)
  | _ => exact ⟨fully_const host _, fully_const host _⟩

/-- Interchangeable backends resolve every operation alike, and refuse alike what is none. -/
theorem Interchangeable.resolve (lawful : host.Lawful) (h : host.Interchangeable R b b')
    (operation : Value κ) {w w' : World κ β} (hw : w.Beside R w') :
    Outcome.Beside Eq R ((host.fully fun d => b.resolve d operation).run w)
        ((host.fully fun d => b'.resolve d operation).run w') ∧
      Outcome.Beside Eq R ((host.fully fun d => b.resolveAsync d operation).run w)
        ((host.fully fun d => b'.resolveAsync d operation).run w') := by
  by_cases hop : ∃ op, operation = .operation op
  · rcases hop with ⟨op, rfl⟩
    refine ⟨h.ask lawful op.request hw, ?_⟩
    have hawaited := (h op.request _ _ (hw.recorded (.call op.request))).mapFault
      (Fault.crossing .coroutine)
    rw [← Outcome.run_mapFault, ← Outcome.run_mapFault] at hawaited
    rw [fully_resolveAsync lawful, fully_resolveAsync lawful]
    exact hawaited.told
  · have hnone : ∀ op, operation ≠ .operation op := fun op hoperation => hop ⟨op, hoperation⟩
    rw [(fully_resolve_refused hnone b).1, (fully_resolve_refused hnone b').1,
      (fully_resolve_refused hnone b).2, (fully_resolve_refused hnone b').2]
    exact ⟨.fault _ hw, .fault _ hw⟩

/-! ## Mirrored runs -/

/-- Whatever both runs come to that waits on an operation, its continuation is steady. -/
def SteadyBoth (host : Host κ β σ) (R : β → β → Prop) (driver : Driver)
    (b b' : Backend (Value κ)) (steps : Nat) (p : Value κ) (w w' : World κ β) : Prop :=
  ∀ ops op v v', host.Path driver b steps p w ops (.pending (.operation op)) v →
    host.Path driver b' steps p w' ops (.pending (.operation op)) v' → host.Steady R op.next

section SteadyBoth

variable {steps : Nat} {p q : Value κ} {op : Operation (Value κ)} {w w' v v' : World κ β}
  {ops : List (Operation (Value κ))} {o : Outcome κ β (Value κ)}

theorem SteadyBoth.flip (h : host.SteadyBoth R driver b b' steps p w w') :
    host.SteadyBoth (fun s s' => R s' s) driver b' b steps p w' w :=
  fun ops op v v' hpath hpath' => (h ops op v' v hpath' hpath).flip

theorem SteadyBoth.here
    (h : host.SteadyBoth R driver b b' steps (.pending (.operation op)) w w') :
    host.Steady R op.next :=
  h [] op w w' (.here steps _ w) (.here steps _ w')

theorem SteadyBoth.step
    (h : host.SteadyBoth R driver b b' steps (.pending (.operation op)) w w')
    (hturn : (host.turn b op).run (w.write (driver.stepLine steps (.operation op))) = .value q v)
    (hturn' : (host.turn b' op).run (w'.write (driver.stepLine steps (.operation op))) =
      .value q v') :
    host.SteadyBoth R driver b b' (steps + 1) q v v' :=
  fun ops next u u' hpath hpath' =>
    h (op :: ops) next u u' (.step hturn hpath) (.step hturn' hpath')

/-- From states side by side a step of the one run is a step of the other. -/
theorem SteadyBoth.turn (lawful : host.Lawful) (hb : host.Interchangeable R b b')
    (h : host.SteadyBoth R driver b b' steps (.pending (.operation op)) w w')
    (hw : w.Beside R w') :
    Outcome.Beside Eq R
      ((host.turn b op).run (w.write (driver.stepLine steps (.operation op))))
      ((host.turn b' op).run (w'.write (driver.stepLine steps (.operation op)))) :=
  hb.turn lawful h.here (hw.write _)

theorem SteadyBoth.exists_turn (lawful : host.Lawful) (hb : host.Interchangeable R b b')
    (h : host.SteadyBoth R driver b b' steps (.pending (.operation op)) w w')
    (hw : w.Beside R w')
    (hturn : (host.turn b op).run (w.write (driver.stepLine steps (.operation op))) = .value q v) :
    ∃ v', (host.turn b' op).run (w'.write (driver.stepLine steps (.operation op))) = .value q v' ∧
      v.Beside R v' ∧ host.SteadyBoth R driver b b' (steps + 1) q v v' := by
  rcases (h.turn lawful hb hw).exists_value hturn with ⟨_, v', hturn', rfl, hv⟩
  exact ⟨v', hturn', hv, h.step hturn hturn'⟩

theorem Path.beside (lawful : host.Lawful) (hb : host.Interchangeable R b b')
    (hpath : host.Path driver b steps p w ops q v) :
    ∀ {w' : World κ β}, host.SteadyBoth R driver b b' steps p w w' → w.Beside R w' →
      ∃ v', host.Path driver b' steps p w' ops q v' ∧ v.Beside R v' := by
  induction hpath with
  | here steps p w => exact fun {w'} _ hw => ⟨w', .here steps p w', hw⟩
  | step hturn _ ih =>
      intro w' hsteady hw
      rcases hsteady.exists_turn lawful hb hw hturn with ⟨v', hturn', hv, hnext⟩
      rcases ih hnext hv with ⟨u', hpath', hu⟩
      exact ⟨u', .step hturn' hpath', hu⟩

/-- Where the one run halts the other halts in the same way. -/
theorem Halts.beside (lawful : host.Lawful) (hb : host.Interchangeable R b b')
    (hhalt : host.Halts driver b steps p w ops o)
    (hsteady : host.SteadyBoth R driver b b' steps p w w') (hw : w.Beside R w') :
    ∃ o', host.Halts driver b' steps p w' ops o' ∧ Outcome.Beside Eq R o o' := by
  cases hhalt with
  | finished value w => exact ⟨_, .finished value w', .value rfl (hw.write _)⟩
  | refused w hwaiting => exact ⟨_, .refused w' hwaiting, .fault _ (hw.write _)⟩
  | invalid w hp => exact ⟨_, .invalid w' hp, .fault _ hw⟩
  | @broken op w v cause hturn =>
      rcases (hsteady.turn lawful hb hw).exists_fault hturn with ⟨v', hturn', hv⟩
      exact ⟨_, .broken hturn', .fault _ hv⟩

theorem Runs.beside (lawful : host.Lawful) (hb : host.Interchangeable R b b')
    (hruns : host.Runs driver b steps p w ops o) :
    ∀ {w' : World κ β}, host.SteadyBoth R driver b b' steps p w w' → w.Beside R w' →
      ∃ o', host.Runs driver b' steps p w' ops o' ∧ Outcome.Beside Eq R o o' := by
  induction hruns with
  | done hhalt =>
      intro w' hsteady hw
      rcases hhalt.beside lawful hb hsteady hw with ⟨o', hhalt', ho⟩
      exact ⟨o', .done hhalt', ho⟩
  | more hturn _ ih =>
      intro w' hsteady hw
      rcases hsteady.exists_turn lawful hb hw hturn with ⟨v', hturn', hv, hnext⟩
      rcases ih hnext hv with ⟨o', hruns', ho⟩
      exact ⟨o', .more hturn' hruns', ho⟩

end SteadyBoth

/-! ## Whole runs -/

/-- The continuation of each operation that a run comes to is steady. -/
def SteadyAlong (host : Host κ β σ) (R : β → β → Prop) (driver : Driver) (b : Backend (Value κ))
    (p : Value κ) (w : World κ β) : Prop :=
  ∀ ops op, host.Reaches driver b p w ops (.pending (.operation op)) → host.Steady R op.next

/-- A run calls, after it has performed `ops`, the continuation of `op` on `outcome`. -/
def Informs (host : Host κ β σ) (driver : Driver) (b : Backend (Value κ)) (p : Value κ)
    (w : World κ β) (ops : List (Operation (Value κ))) (op : Operation (Value κ))
    (outcome : Value κ) : Prop :=
  ∃ v u, host.Path driver b 0 p (w.write (.started driver)) ops (.pending (.operation op)) v ∧
    (host.ask b op.request).run (v.write (driver.stepLine ops.length (.operation op))) =
      .value outcome u

/-- What a continuation is called on fits the request of its operation. -/
theorem Informs.fits (lawful : host.Lawful) {p : Value κ} {w : World κ β}
    {ops : List (Operation (Value κ))} {op : Operation (Value κ)} {outcome : Value κ}
    (h : host.Informs driver b p w ops op outcome) : op.request.Fits outcome := by
  rcases h with ⟨v, u, _, hask⟩
  exact fits_of_ask lawful hask

section Whole

variable {p : Value κ} {w w' : World κ β}

theorem SteadyAlong.both (h : host.SteadyAlong R driver b p w) :
    host.SteadyBoth R driver b b' 0 p (w.write (.started driver))
      (w'.write (.started driver)) :=
  fun ops op v _ hpath _ => h ops op ⟨v, hpath⟩

section Mirrored

variable (lawful : host.Lawful) (hb : host.Interchangeable R b b')
  (hsteady : host.SteadyBoth R driver b b' 0 p (w.write (.started driver))
    (w'.write (.started driver)))
  (hw : w.Beside R w')

include lawful hb hsteady hw

/-- Where a run over the one backend ends, the run over the other ends alike. -/
theorem exists_drive_beside {ops : List (Operation (Value κ))} {o : Outcome κ β (Value κ)}
    (h : host.Runs driver b 0 p (w.write (.started driver)) ops o) :
    host.Performs driver b' p w' ops ∧
      Outcome.Beside Eq R o ((host.drive driver b' p).run w') := by
  rcases h.beside lawful hb hsteady (hw.write _) with ⟨o', hruns, ho⟩
  have hdrive := (drive_eq_iff lawful hruns.outcome_finished).2 ⟨ops, hruns⟩
  rw [hdrive]
  exact ⟨⟨o', hdrive, hruns⟩, ho⟩

theorem Informs.beside {ops : List (Operation (Value κ))} {op : Operation (Value κ)}
    {outcome : Value κ} (h : host.Informs driver b p w ops op outcome) :
    host.Informs driver b' p w' ops op outcome := by
  rcases h with ⟨v, u, hpath, hask⟩
  rcases hpath.beside lawful hb hsteady (hw.write _) with ⟨v', hpath', hv⟩
  have halike := hb.ask lawful op.request
    (hv.write (driver.stepLine ops.length (.operation op)))
  rcases halike.exists_value hask with ⟨_, u', hask', rfl, _⟩
  exact ⟨v', u', hpath', hask'⟩

/-- Runs over interchangeable backends end alike or not at all, perform the same operations, and
tell the same to the same continuations. -/
theorem drive_beside :
    Outcome.Beside Eq R ((host.drive driver b p).run w) ((host.drive driver b' p).run w') ∧
      (∀ ops, host.Performs driver b p w ops ↔ host.Performs driver b' p w' ops) ∧
      ∀ ops op outcome,
        host.Informs driver b p w ops op outcome ↔ host.Informs driver b' p w' ops op outcome := by
  refine ⟨?_, fun ops => ⟨?_, ?_⟩, fun ops op outcome => ⟨?_, ?_⟩⟩
  · by_cases hfin : ((host.drive driver b p).run w).Finished
    · rcases (drive_eq_iff lawful hfin).1 rfl with ⟨ops, hruns⟩
      exact (exists_drive_beside lawful hb hsteady hw hruns).2
    · -- The other run does not end either, or this one would end with it.
      have hfin' : ¬ ((host.drive driver b' p).run w').Finished := by
        intro hfin'
        rcases (drive_eq_iff lawful hfin').1 rfl with ⟨ops, hruns⟩
        have halike := (exists_drive_beside lawful hb.flip hsteady.flip hw.flip hruns).1
        rcases halike with ⟨o, hdrive, hruns'⟩
        rw [hdrive] at hfin
        exact hfin hruns'.outcome_finished
      rw [Outcome.eq_unfinished hfin, Outcome.eq_unfinished hfin']
      exact .unfinished
  · rintro ⟨o, _, hruns⟩
    exact (exists_drive_beside lawful hb hsteady hw hruns).1
  · rintro ⟨o, _, hruns⟩
    exact (exists_drive_beside lawful hb.flip hsteady.flip hw.flip hruns).1
  · exact fun h => h.beside lawful hb hsteady hw
  · exact fun h => h.beside lawful hb.flip hsteady.flip hw.flip

end Mirrored

/-- Over one and the same state no program whatever can tell interchangeable backends apart. -/
theorem Interchangeable.drive_eq (lawful : host.Lawful) (hb : host.Interchangeable Eq b b')
    (driver : Driver) (p : Value κ) : host.drive driver b p = host.drive driver b' p := by
  apply Action.ext
  intro w
  have hsteady : host.SteadyBoth Eq driver b b' 0 p (w.write (.started driver))
      (w.write (.started driver)) := fun _ op _ _ _ _ => steady_eq host op.next
  exact (drive_beside lawful hb hsteady ⟨rfl, rfl, rfl⟩).1.eq

/-- Where the continuations of all programs of an invariant are steady, they are along each run of
such a program. -/
theorem Invariant.steadyAlong {P : Value κ → Prop} (hP : host.Invariant P)
    (hnext : ∀ op, P (.pending (.operation op)) → host.Steady R op.next) (hp : P p) :
    host.SteadyAlong R driver b p w := by
  rintro ops op ⟨v, hpath⟩
  exact hnext op (hP.path hpath hp)

end Whole

end Host

/-! ## Stores -/

namespace Script

/-- The answers of two stores, and what they have become: the same fault or answers that no program
can tell apart, and stores that `M` takes together. -/
inductive AnsweredAlike (M : Memory Code → Memory Code → Prop) (request : Request (Value Code)) :
    Except (Fault Code) (Value Code) × Memory Code →
      Except (Fault Code) (Value Code) × Memory Code → Prop
  | ok {answer answer' : Value Code} {memory memory' : Memory Code} :
      request.Indistinct answer answer' → M memory memory' →
      AnsweredAlike M request (.ok answer, memory) (.ok answer', memory')
  | error (cause : Fault Code) {memory memory' : Memory Code} : M memory memory' →
      AnsweredAlike M request (.error cause, memory) (.error cause, memory')

theorem AnsweredAlike.refl (request : Request (Value Code))
    (answered : Except (Fault Code) (Value Code) × Memory Code) :
    AnsweredAlike Eq request answered answered := by
  rcases answered with ⟨cause | answer, memory⟩
  · exact .error cause rfl
  · exact .ok (.same request answer) rfl

/-- The store with the number `n` in the one state and the store with the number `n'` in the other
are taken together by `M`. -/
def StoresBeside (M : Memory Code → Memory Code → Prop) (n n' : Nat) (s s' : Stores) : Prop :=
  ∃ memory memory', s.memories[n]? = some memory ∧ s'.memories[n']? = some memory' ∧
    M memory memory'

theorem StoresBeside.set {M : Memory Code → Memory Code → Prop} {n n' : Nat} {s s' : Stores}
    (h : StoresBeside M n n' s s') {memory memory' : Memory Code} (hM : M memory memory') :
    StoresBeside M n n' ⟨s.memories.set n memory⟩ ⟨s'.memories.set n' memory'⟩ := by
  rcases h with ⟨old, old', hold, hold', _⟩
  have hlt := (List.getElem?_eq_some_iff.1 hold).1
  have hlt' := (List.getElem?_eq_some_iff.1 hold').1
  exact ⟨memory, memory', List.getElem?_set_self hlt, List.getElem?_set_self hlt', hM⟩

/-- Stores that always answer alike are interchangeable, wherever they are kept. -/
theorem interchangeable_stores {M : Memory Code → Memory Code → Prop} (n n' : Nat)
    (h : ∀ request {memory memory'}, M memory memory' →
      AnsweredAlike M request (memory.answer request) (memory'.answer request)) :
    (host []).Interchangeable (StoresBeside M n n') (Stores.backend n) (Stores.backend n') := by
  rintro request w w' ⟨hjournal, hdebug, hstores⟩
  obtain ⟨memory, memory', hmemory, hmemory', hM⟩ := id hstores
  rw [result_functionFor, result_functionFor, askStore_run hmemory, askStore_run hmemory']
  have halike := h request hM
  revert halike
  generalize memory.answer request = first
  generalize memory'.answer request = second
  intro halike
  cases halike with
  | ok hanswer hkept => exact .value hanswer ⟨hjournal, hdebug, hstores.set hkept⟩
  | error cause hkept => exact .fault cause ⟨hjournal, hdebug, hstores.set hkept⟩

/-- A store is interchangeable with any other one of the same content. -/
theorem interchangeable_copies (n n' : Nat) :
    (host []).Interchangeable (StoresBeside Eq n n') (Stores.backend n) (Stores.backend n') :=
  interchangeable_stores n n' fun request memory memory' h => by
    rw [h]
    exact .refl request _

/-! ## Stores that answer in different ways -/

/-- The store, set to tell this to whoever updates it and to list that. -/
def answering (told listing : Value Code) (memory : Memory Code) : Memory Code :=
  { memory with updateAnswer := told, listing? := some listing }

/-- The stores differ in their settings alone. -/
inductive Twins (told told' listing listing' : Value Code) : Memory Code → Memory Code → Prop
  | of (memory : Memory Code) :
      Twins told told' listing listing' (answering told listing memory)
        (answering told' listing' memory)

section Answering

variable (told told' : Value Code) {listing listing' : Value Code}

theorem perform_answering {items : List (Value Code)} (hlisting : listing.items? = some items)
    (hlisting' : listing'.items? = some items) (memory : Memory Code)
    (request : Request (Value Code)) :
    AnsweredAlike (Twins told told' listing listing') request
      ((answering told listing memory).perform request)
      ((answering told' listing' memory).perform request) := by
  cases request with
  | getAll => exact .ok (.listing hlisting hlisting') (.of memory)
  | update id doc => exact .ok (.update id doc told told') (.of (memory.put id doc))
  | create doc =>
      exact .ok (.same _ _)
        (.of { memory.put memory.nextId doc with created := memory.created + 1 })
  | getById id =>
      -- What is found does not depend on the settings.
      have hfetch : ∀ t l, (answering t l memory).perform (.getById id) =
          ((memory.perform (.getById id)).1, answering t l memory) := by
        intro t l
        have hecho : (answering t l memory).echo = memory.echo := rfl
        have hfind : (answering t l memory).find? id = memory.find? id := rfl
        simp only [Memory.perform, hecho, hfind]
        split
        · rfl
        · split <;> rfl
      rw [hfetch, hfetch]
      cases (memory.perform (.getById id)).1 with
      | ok doc => exact .ok (.same _ doc) (.of memory)
      | error cause => exact .error cause (.of memory)

theorem answer_answering {items : List (Value Code)} (hlisting : listing.items? = some items)
    (hlisting' : listing'.items? = some items) (memory : Memory Code)
    (request : Request (Value Code)) :
    AnsweredAlike (Twins told told' listing listing') request
      ((answering told listing memory).answer request)
      ((answering told' listing' memory).answer request) := by
  have hperform := perform_answering told told' hlisting hlisting'
    { memory with calls := memory.calls + 1 } request
  cases hfailure : memory.failure? with
  | none =>
      have hanswer : ∀ t l, (answering t l memory).answer request =
          (answering t l { memory with calls := memory.calls + 1 }).perform request := by
        intro t l
        have hnever : (answering t l memory).failure? = none := hfailure
        exact answer_eq hnever request
      rw [hanswer, hanswer]
      exact hperform
  | some failure =>
      have hanswer : ∀ t l, (answering t l memory).answer request =
          if failure.1 = memory.calls + 1 then
            (.error failure.2, answering t l { memory with calls := memory.calls + 1 })
          else (answering t l { memory with calls := memory.calls + 1 }).perform request := by
        intro t l
        simp only [Memory.answer, answering, hfailure]
      rw [hanswer, hanswer]
      by_cases hcall : failure.1 = memory.calls + 1
      · rw [if_pos hcall, if_pos hcall]
        exact .error failure.2 (.of _)
      · rw [if_neg hcall, if_neg hcall]
        exact hperform

/-- Stores that list the same items are interchangeable, whatever they tell of updates. -/
theorem interchangeable_twins {items : List (Value Code)} (hlisting : listing.items? = some items)
    (hlisting' : listing'.items? = some items) :
    (host []).Interchangeable (StoresBeside (Twins told told' listing listing') 0 0)
      (Stores.backend 0) (Stores.backend 0) :=
  interchangeable_stores 0 0 fun request memory memory' h => by
    rcases h with ⟨memory⟩
    exact answer_answering told told' hlisting hlisting' memory request

end Answering

end Script

namespace Host

variable {host : Host κ β σ}

/-- No program can tell apart two backends that differ at most in what they answer to updates and
in what they list their documents in.

Behaving alike on every history of calls is the widest way to be interchangeable.  Interchangeable
backends resolve every operation alike.  Their runs by each driver end alike, with the same value
or fault, the same journal and outside states that `R` takes together, or neither ends; they
perform the same operations and call the same continuations on the same outcomes, `null` after an
update and a list after a request for everything.

Nothing is asked of the program where both backends work on one state, that is, where `R` is
equality.  Where they keep states of their own, its continuations must not look at what tells
these apart. -/
theorem drive_interchangeable (lawful : host.Lawful) (b b' : Backend (Value κ)) :
    host.Interchangeable (host.AlikeFrom b b') b b' ∧
    ∀ R, host.Interchangeable R b b' → ∀ w w' : World κ β, w.Beside R w' →
      (∀ operation,
        Outcome.Beside Eq R ((host.fully fun d => b.resolve d operation).run w)
            ((host.fully fun d => b'.resolve d operation).run w') ∧
          Outcome.Beside Eq R ((host.fully fun d => b.resolveAsync d operation).run w)
            ((host.fully fun d => b'.resolveAsync d operation).run w')) ∧
      ∀ driver p, R = Eq ∨ host.SteadyAlong R driver b p w →
        Outcome.Beside Eq R ((host.drive driver b p).run w) ((host.drive driver b' p).run w') ∧
        (∀ ops, host.Performs driver b p w ops ↔ host.Performs driver b' p w' ops) ∧
        ∀ ops op outcome,
          (host.Informs driver b p w ops op outcome ↔ host.Informs driver b' p w' ops op outcome) ∧
            (host.Informs driver b p w ops op outcome → op.request.Fits outcome) := by
  refine ⟨interchangeable_alikeFrom host b b', fun R hb w w' hw =>
    ⟨fun operation => hb.resolve lawful operation hw, fun driver p hsteady => ?_⟩⟩
  have hboth : host.SteadyBoth R driver b b' 0 p (w.write (.started driver))
      (w'.write (.started driver)) := by
    rcases hsteady with rfl | hsteady
    · exact fun _ op _ _ _ _ => steady_eq host op.next
    · exact hsteady.both
  rcases drive_beside lawful hb hboth hw with ⟨halike, hperforms, hinforms⟩
  exact ⟨halike, hperforms, fun ops op outcome =>
    ⟨hinforms ops op outcome, fun h => h.fits lawful⟩⟩

/-- Two stores that hold nothing behave alike on every history of calls.  A program updates the one
that it is run over, and its continuation asks the first of them for the document, whichever it was
run over.  It is given the document in the one run and fails in the other. -/
theorem drive_interchangeable_reaching :
    let host := Script.host []
    let b := Script.Stores.backend 0
    let b' := Script.Stores.backend 1
    let w : World Script.Code Script.Stores := { Script.emptyStore with outside := ⟨[{}, {}]⟩ }
    let reaching : Value Script.Code := .fn (.callback (.function ["outcome"]
      (.strict .call [.var "first", .strict (.operationOf .getById)
        [.lit (.int 1), .function ["doc"] (.strict .terminal [.var "doc"])]]))
      [("first", .fn (.executor b))])
    let p := Request.thenCall (.update (.int 1) (.text "one")) reaching
    host.AlikeFrom b b' w.outside w.outside ∧
      (∃ v, (host.drive .stepped b p).run w = .value (.text "one") v) ∧
      ∃ v, (host.drive .stepped b' p).run w = .fault (.missingKey (.int 1)) v := by
  intro host b b' w reaching p
  have lawful : host.Lawful := Script.host_lawful []
  refine ⟨alikeFrom_iff.2 ⟨_, Script.interchangeable_copies 0 1, {}, {}, rfl, rfl, rfl⟩, ?_, ?_⟩
  · exact ⟨_, drive_of_run lawful 12 rfl trivial⟩
  · exact ⟨_, drive_of_run lawful 12 rfl trivial⟩

/-- A program that updates a script's store and then asks for everything, its last continuation
leaving a mark, over two stores: one that answers nothing to updates and lists its documents in a
list, and one that answers a number and lists them in a tuple. -/
theorem drive_interchangeable_script :
    let host := Script.host []
    let b := Script.Stores.backend 0
    let items : List (Value Script.Code) := [.text "a", .text "b"]
    let R := Script.StoresBeside (Script.Twins .null (.int 7) (.list items) (.tuple items)) 0 0
    let marking : Value Script.Code := .fn (.callback (.function ["outcome"]
      (.strict .terminal [.trace "outcome" (.var "outcome")])) [])
    let listing := Request.thenCall .getAll marking
    let p := Request.thenCall (.update (.text "x") (.int 1)) (.fn (.always listing))
    let w : World Script.Code Script.Stores :=
      { Script.emptyStore with outside := ⟨[Script.answering .null (.list items) {}]⟩ }
    let w' : World Script.Code Script.Stores :=
      { Script.emptyStore with outside := ⟨[Script.answering (.int 7) (.tuple items) {}]⟩ }
    host.Interchangeable R b b ∧ w.Beside R w' ∧
      (∀ driver, host.SteadyAlong R driver b p w) ∧
      ∀ driver, Outcome.Beside Eq R ((host.drive driver b p).run w)
        ((host.drive driver b p).run w') := by
  intro host b items R marking listing p w w'
  have lawful : host.Lawful := Script.host_lawful []
  have hb : host.Interchangeable R b b := Script.interchangeable_twins _ _ rfl rfl
  have hw : w.Beside R w' := ⟨rfl, rfl, _, _, rfl, rfl, .of {}⟩
  have hmarking : ∀ outcome, host.result marking [outcome] =
      (Action.record (.trace "outcome" outcome) >>= fun _ => pure (.terminal outcome)) :=
    fun outcome => (lawful.result_fn _ _).trans (fully_const host _)
  have hlisting : ∀ outcome, host.result (.fn (.always listing)) [outcome] = pure listing :=
    result_always lawful listing
  have hwaiting : ∀ {request : Request (Value Script.Code)} {next op},
      .pending (.operation op) = request.thenCall next → op = ⟨request, next⟩ := by
    rintro request next op ⟨⟩
    rfl
  have hinvariant : host.Invariant fun q => q = p ∨ q = listing ∨ ∃ value, q = .terminal value := by
    rintro op outcome v q u (hop | hop | ⟨value, hop⟩) hq
    · cases hwaiting hop
      rw [hlisting] at hq
      cases hq
      exact Or.inr (Or.inl rfl)
    · cases hwaiting hop
      rw [hmarking] at hq
      cases hq
      exact Or.inr (Or.inr ⟨outcome, rfl⟩)
    · cases hop
  have hsteady : ∀ driver, host.SteadyAlong R driver b p w := by
    intro driver
    refine hinvariant.steadyAlong (fun op hop outcome v v' hv => ?_) (Or.inl rfl)
    rcases hop with hop | hop | ⟨value, hop⟩
    · cases hwaiting hop
      rw [hlisting]
      exact .value rfl hv
    · cases hwaiting hop
      rw [hmarking]
      exact .value rfl (hv.recorded _)
    · cases hop
  exact ⟨hb, hw, hsteady, fun driver =>
    (((drive_interchangeable lawful b b).2 R hb w w' hw).2 driver p (Or.inr (hsteady driver))).1⟩

end Host

end Workflow

import Workflow.Proofs.Congruence
import Workflow.Proofs.Limit

/-!
# Lawful hosts

Depth and journal are devices of this library: a function that a caller brings along sees
neither.  A host is lawful if a call that may nest deeper keeps every outcome (`Host.Lawful`, its
field `deeper`) and if what a call does never depends on the events that were recorded before it
(its field `blind`).

Over a lawful host every call and every run has an outcome that does not mention depth, the limit
`Host.fully`, and calls of the library's own functions satisfy plain equations in it.
-/

namespace Workflow

variable {κ β σ α γ : Type}

/-! ## Earlier events -/

namespace World

/-- The same world, its journal going further back. -/
def after (w : World κ β) (earlier : List (Event κ)) : World κ β :=
  { w with journal := w.journal ++ earlier }

def fresh (w : World κ β) : World κ β :=
  { w with journal := [] }

theorem fresh_after (w : World κ β) : w.fresh.after w.journal = w := rfl

/-- The same world with its events rewritten. -/
def mapEvents (g : Event κ → Event κ) (w : World κ β) : World κ β :=
  { w with journal := w.journal.map g }

theorem mapEvents_after (g : Event κ → Event κ) (w : World κ β) (earlier : List (Event κ)) :
    (w.after earlier).mapEvents g = (w.mapEvents g).after (earlier.map g) := by
  simp [after, mapEvents]

/-- Worlds that differ in their events alone are the same apart from their journals. -/
theorem fresh_eq_of_mapEvents {g : Event κ → Event κ} {w w' : World κ β}
    (h : w.mapEvents g = w'.mapEvents g) : w.fresh = w'.fresh := by
  rcases w with ⟨j, debug, outside⟩
  rcases w' with ⟨j', debug', outside'⟩
  simp only [mapEvents, World.mk.injEq] at h
  simp only [fresh, World.mk.injEq, true_and]
  exact h.2

theorem journal_map_of_mapEvents {g : Event κ → Event κ} {w w' : World κ β}
    (h : w.mapEvents g = w'.mapEvents g) : w.journal.map g = w'.journal.map g :=
  congrArg World.journal h

end World

namespace Outcome

def mapWorld {β' : Type} (change : World κ β → World κ β') : Outcome κ β α → Outcome κ β' α
  | .value a w => .value a (change w)
  | .fault cause w => .fault cause (change w)
  | .unfinished => .unfinished

@[simp] theorem finished_mapWorld {β' : Type} (change : World κ β → World κ β')
    (o : Outcome κ β α) : (o.mapWorld change).Finished ↔ o.Finished := by
  cases o <;> exact Iff.rfl

/-- Outcomes that look the same through a view of their worlds end in the same way. -/
theorem exists_value_of_mapWorld {β' : Type} {view : World κ β → World κ β'}
    {o o' : Outcome κ β α} {a : α} {v : World κ β} (h : o.mapWorld view = o'.mapWorld view)
    (ho : o = .value a v) : ∃ v', o' = .value a v' ∧ view v = view v' := by
  subst ho
  cases o' with
  | value a' v' =>
      simp only [mapWorld, Outcome.value.injEq] at h
      exact ⟨v', by rw [h.1], h.2⟩
  | fault | unfinished => simp [mapWorld] at h

theorem exists_fault_of_mapWorld {β' : Type} {view : World κ β → World κ β'}
    {o o' : Outcome κ β α} {cause : Fault κ} {v : World κ β}
    (h : o.mapWorld view = o'.mapWorld view) (ho : o = .fault cause v) :
    ∃ v', o' = .fault cause v' ∧ view v = view v' := by
  subst ho
  cases o' with
  | fault cause' v' =>
      simp only [mapWorld, Outcome.fault.injEq] at h
      exact ⟨v', by rw [h.1], h.2⟩
  | value | unfinished => simp [mapWorld] at h

theorem unfinished_of_mapWorld {β' : Type} {view : World κ β → World κ β'} {o o' : Outcome κ β α}
    (h : o.mapWorld view = o'.mapWorld view) (ho : o = .unfinished) : o' = .unfinished := by
  subst ho
  cases o' with
  | unfinished => rfl
  | value | fault => simp [mapWorld] at h

theorem mapWorld_id (o : Outcome κ β α) : o.mapWorld id = o := by
  cases o <;> rfl

def world? : Outcome κ β α → Option (World κ β)
  | .value _ w | .fault _ w => some w
  | .unfinished => none

theorem finished_of_world? {o : Outcome κ β α} {w : World κ β} (h : o.world? = some w) :
    o.Finished := by
  cases o with
  | value | fault => trivial
  | unfinished => cases h

theorem world?_mapWorld {β' : Type} (change : World κ β → World κ β') (o : Outcome κ β α) :
    (o.mapWorld change).world? = o.world?.map change := by
  cases o <;> rfl

/-- The same outcome after earlier events. -/
def after (o : Outcome κ β α) (earlier : List (Event κ)) : Outcome κ β α :=
  o.mapWorld (·.after earlier)

def mapEvents (g : Event κ → Event κ) (o : Outcome κ β α) : Outcome κ β α :=
  o.mapWorld (·.mapEvents g)

theorem mapEvents_after (g : Event κ → Event κ) (o : Outcome κ β α)
    (earlier : List (Event κ)) :
    (o.after earlier).mapEvents g = (o.mapEvents g).after (earlier.map g) := by
  cases o with
  | value a w => exact congrArg (Outcome.value a) (w.mapEvents_after g earlier)
  | fault cause w => exact congrArg (Outcome.fault cause) (w.mapEvents_after g earlier)
  | unfinished => rfl

end Outcome

namespace Action

/-- Where two rising families do the same at each depth, as far as two views of the worlds show,
so do their limits. -/
theorem Rising.limit_alike {β' β'' : Type} {family : Nat → Action κ β α}
    {family' : Nat → Action κ β' α} (hf : Rising family) (hf' : Rising family')
    {view : World κ β → World κ β''} {view' : World κ β' → World κ β''} {w : World κ β}
    {w' : World κ β'} (h : ∀ depth,
      ((family depth).run w).mapWorld view = ((family' depth).run w').mapWorld view') :
    ((limit family).run w).mapWorld view = ((limit family').run w').mapWorld view' := by
  have hends : ∀ depth, ((family depth).run w).Finished ↔ ((family' depth).run w').Finished := by
    intro depth
    rw [← Outcome.finished_mapWorld view, h depth, Outcome.finished_mapWorld]
  by_cases hex : ∃ depth, ((family depth).run w).Finished
  · obtain ⟨depth, hd⟩ := hex
    rw [hf.limit_run rfl hd, hf'.limit_run rfl ((hends depth).1 hd)]
    exact h depth
  · -- Neither family ends, since the members at one depth end together.
    have hex' : ¬ ∃ depth, ((family' depth).run w').Finished := by
      rintro ⟨depth, hd⟩
      exact hex ⟨depth, (hends depth).2 hd⟩
    rw [limit_run_unfinished hex, limit_run_unfinished hex']
    rfl

/-! ## Actions that do not read the journal -/

/-- Earlier events make no difference to what the action does. -/
def Blind (x : Action κ β α) : Prop :=
  ∀ (w : World κ β) (earlier : List (Event κ)), x.run (w.after earlier) = (x.run w).after earlier

namespace Blind

variable {x : Action κ β α}

theorem run_fresh (h : Blind x) (w : World κ β) :
    x.run w = (x.run w.fresh).after w.journal := by
  conv => lhs; rw [← w.fresh_after]
  exact h w.fresh w.journal

/-- Worlds that are alike up to a rewriting of events stay so. -/
theorem mapEvents (h : Blind x) {g : Event κ → Event κ} {w w' : World κ β}
    (hw : w.mapEvents g = w'.mapEvents g) :
    (x.run w).mapEvents g = (x.run w').mapEvents g := by
  -- Both runs are the run from an empty journal, put after what was recorded before.
  rw [h.run_fresh w, h.run_fresh w', World.fresh_eq_of_mapEvents hw,
    Outcome.mapEvents_after, Outcome.mapEvents_after, World.journal_map_of_mapEvents hw]

theorem journal_suffix (h : Blind x) {w v : World κ β} (hx : (x.run w).world? = some v) :
    w.journal <:+ v.journal := by
  rw [h.run_fresh w, Outcome.after, Outcome.world?_mapWorld] at hx
  obtain ⟨u, _, rfl⟩ := Option.map_eq_some_iff.1 hx
  exact List.suffix_append _ _

theorem bind {f : α → Action κ β γ} (hx : Blind x) (hf : ∀ a, Blind (f a)) :
    Blind (x >>= f) := by
  intro w earlier
  have h := hx w earlier
  simp only [run] at h
  simp only [run, Bind.bind, Action.bind, h]
  cases x w with
  | value a w' => exact hf a w' earlier
  | fault cause w' => rfl
  | unfinished => rfl

theorem attempt (hx : Blind x) : Blind x.attempt := by
  intro w earlier
  have h := hx w earlier
  simp only [run] at h
  simp only [run, Action.attempt, h]
  cases x w <;> rfl

theorem limit {family : Nat → Action κ β α} (hf : Rising family)
    (hb : ∀ depth, Blind (family depth)) : Blind (Action.limit family) := by
  intro w earlier
  -- The depth that is enough after one journal is enough after every journal.
  have halike : ((Action.limit family).run (w.after earlier)).mapWorld id =
      ((Action.limit family).run w).mapWorld (·.after earlier) := by
    refine hf.limit_alike hf fun depth => ?_
    rw [Outcome.mapWorld_id]
    exact hb depth w earlier
  rwa [Outcome.mapWorld_id] at halike

end Blind

end Action

/-! ## The two laws -/

namespace Congruence

/-- Approximation, as a relation that the operations on actions respect. -/
def approx : Congruence κ β where
  rel := Action.Approx
  value _ := .refl _
  fault _ := .refl _
  unfinished := .refl _
  bind := .bind
  attempt := .attempt
  record _ := .refl _
  log _ := .refl _
  outside := .refl _
  modifyOutside _ := .refl _

theorem rounds_approx {m n : Nat} (h : m ≤ n) : (approx (κ := κ) (β := β)).Rounds m n :=
  Or.inr ⟨h, fun x => .of_unfinished x⟩

/-- Being one and the same action that does not read the journal. -/
def blind : Congruence κ β where
  rel x y := x = y ∧ x.Blind
  value _ := ⟨rfl, fun _ _ => rfl⟩
  fault _ := ⟨rfl, fun _ _ => rfl⟩
  unfinished := ⟨rfl, fun _ _ => rfl⟩
  bind := by
    rintro _ _ x _ f g ⟨rfl, hx⟩ hf
    -- Both sides are one action, so only its blindness is left.
    have hfg : f = g := funext fun a => (hf a).1
    exact ⟨by rw [hfg], hx.bind fun a => (hf a).2⟩
  attempt := by
    rintro _ x _ ⟨rfl, hx⟩
    exact ⟨rfl, hx.attempt⟩
  record _ := ⟨rfl, fun _ _ => rfl⟩
  log line := by
    refine ⟨rfl, fun w earlier => ?_⟩
    by_cases h : w.debug.enabled = true <;>
      simp [Action.run, Action.log, World.after, Outcome.after, Outcome.mapWorld, h]
  outside := ⟨rfl, fun _ _ => rfl⟩
  modifyOutside _ := ⟨rfl, fun _ _ => rfl⟩

end Congruence

/-- What callers bring along sees neither depth nor journal. -/
structure Host.Lawful (host : Host κ β σ) : Prop where
  /-- A call that may nest deeper keeps every outcome. -/
  deeper : host.Respects Congruence.approx
  /-- No call depends on the events that were recorded before it. -/
  blind : host.Respects Congruence.blind

/-! ## Recording what a host is asked to do -/

namespace Host

/-- The host that leaves a mark for whatever it is asked to do: each call of a callback, each
start of a body, each value sent to one and each closing of one. -/
def recorded (host : Host κ β σ) : Host κ β σ where
  callback d code captured arguments := do
    .record (.trace "call" (.tuple [.fn (.callback code captured), .list arguments]))
    host.callback d code captured arguments
  start code captured arguments := do
    .record (.trace "start" (.tuple [.fn (.routine code captured), .list arguments]))
    host.start code captured arguments
  advance d body sent := do
    .record (.trace "send" sent)
    host.advance d body sent
  close d body := do
    .record (.trace "close" .null)
    host.close d body

theorem Respects.recorded {host : Host κ β σ} {C : Congruence κ β} (hc : host.Respects C) :
    host.recorded.Respects C where
  callback h code captured arguments :=
    C.bind (C.record _) fun _ => hc.callback h code captured arguments
  start code captured arguments := C.bind (C.record _) fun _ => hc.start code captured arguments
  advance h body sent := C.bind (C.record _) fun _ => hc.advance h body sent
  close h body := C.bind (C.record _) fun _ => hc.close h body

/-- What is shown of lawful hosts is shown of their marks as well. -/
theorem Lawful.recorded {host : Host κ β σ} (lawful : host.Lawful) : host.recorded.Lawful :=
  ⟨lawful.deeper.recorded, lawful.blind.recorded⟩

end Host

/-! ## Outcomes at unbounded depth -/

/-- A computation that grows with the dispatch it is given. -/
def Deepens (f : Dispatch κ β → Action κ β α) : Prop :=
  ∀ {d d' : Dispatch κ β}, Congruence.approx.Dispatches d d' → (f d).Approx (f d')

namespace Host

variable (host : Host κ β σ)

/-- What a computation does when its calls may nest as deep as they need. -/
noncomputable def fully (f : Dispatch κ β → Action κ β α) : Action κ β α :=
  Action.limit fun depth => f (host.dispatch depth)

/-- What a call does when it may nest as deep as it needs. -/
noncomputable def result (f : Value κ) (arguments : List (Value κ)) : Action κ β (Value κ) :=
  host.fully fun d => d.apply f arguments

namespace Lawful

variable {host : Host κ β σ} (lawful : host.Lawful)

include lawful

theorem dispatches {m n : Nat} (h : m ≤ n) :
    Congruence.approx.Dispatches (host.dispatch m) (host.dispatch n) :=
  lawful.deeper.dispatch (Congruence.rounds_approx h)

theorem rising {f : Dispatch κ β → Action κ β α} (hf : Deepens f) :
    Action.Rising fun depth => f (host.dispatch depth) :=
  ⟨fun h => hf (lawful.dispatches h)⟩

theorem rising_call (f : Value κ) (arguments : List (Value κ)) :
    Action.Rising fun depth => host.call depth f arguments :=
  lawful.rising (f := fun d => d.apply f arguments) fun h => h.apply f arguments

theorem approx_fully {f : Dispatch κ β → Action κ β α} (hf : Deepens f) (depth : Nat) :
    (f (host.dispatch depth)).Approx (host.fully f) :=
  (lawful.rising hf).approx_limit depth

theorem call_approx (depth : Nat) (f : Value κ) (arguments : List (Value κ)) :
    (host.call depth f arguments).Approx (host.result f arguments) :=
  (lawful.rising_call f arguments).approx_limit depth

theorem fully_bind {f : Dispatch κ β → Action κ β α} {g : Dispatch κ β → α → Action κ β γ}
    (hf : Deepens f) (hg : ∀ a, Deepens fun d => g d a) :
    host.fully (fun d => f d >>= g d) = host.fully f >>= fun a => host.fully fun d => g d a :=
  Action.limit_bind (lawful.rising hf) fun a => lawful.rising (hg a)

/-- What follows needs no depth. -/
theorem fully_bind_right {f : Dispatch κ β → Action κ β α} (hf : Deepens f)
    (next : α → Action κ β γ) : host.fully (fun d => f d >>= next) = host.fully f >>= next := by
  have hsplit := lawful.fully_bind hf (g := fun _ => next) fun _ => by
    intro d d' _
    exact .refl _
  have hnext : (fun a => host.fully fun _ => next a) = next :=
    funext fun a => Action.limit_const (next a)
  rw [hsplit, hnext]

/-- What goes before needs no depth. -/
theorem fully_bind_left (x : Action κ β α) {g : Dispatch κ β → α → Action κ β γ}
    (hg : ∀ a, Deepens fun d => g d a) :
    host.fully (fun d => x >>= g d) = x >>= fun a => host.fully fun d => g d a := by
  have hsplit := lawful.fully_bind (f := fun _ => x) (fun _ => .refl _) hg
  have hfirst : host.fully (fun _ => x) = x := Action.limit_const x
  rw [hsplit, hfirst]

/-- Computations that are equal from some depth on are equal at unbounded depth. -/
theorem fully_eq_of_later {f g : Dispatch κ β → Action κ β α} (hf : Deepens f) (hg : Deepens g)
    (n : Nat) (h : ∀ depth, f (host.dispatch (depth + n)) = g (host.dispatch (depth + n))) :
    host.fully f = host.fully g := by
  refine Action.limit_eq_of_between n (lawful.rising hg) (fun depth => ?_) (fun depth => ?_)
    (lawful.rising hf)
  · rw [h]
    exact (lawful.rising hg).approx (Nat.le_add_right depth n)
  · rw [← h]
    exact (lawful.rising hf).approx (Nat.le_add_right depth n)

theorem fully_eq_const {f : Dispatch κ β → Action κ β α} (hf : Deepens f) {x : Action κ β α}
    (n : Nat) (h : ∀ depth, f (host.dispatch (depth + n)) = x) : host.fully f = x :=
  (lawful.fully_eq_of_later hf (g := fun _ => x) (fun _ => .refl _) n h).trans
    (Action.limit_const x)

theorem dispatch_blind (depth : Nat) :
    Congruence.blind.Dispatches (host.dispatch depth) (host.dispatch depth) :=
  lawful.blind.dispatch (Congruence.Rounds.refl depth)

theorem fully_blind {f : Dispatch κ β → Action κ β α} (hf : Deepens f)
    (hb : ∀ depth, (f (host.dispatch depth)).Blind) : (host.fully f).Blind :=
  .limit (lawful.rising hf) hb

theorem result_blind (f : Value κ) (arguments : List (Value κ)) :
    (host.result f arguments).Blind :=
  lawful.fully_blind (fun h => h.apply f arguments) fun depth =>
    ((lawful.dispatch_blind depth).apply f arguments).2

/-! ### Calls of the library's own functions -/

/-- A call of a function value does what its rule says, at unbounded depth. -/
theorem result_fn (f : Callable κ) (arguments : List (Value κ)) :
    host.result (.fn f) arguments = host.fully fun d => host.invoke d f arguments :=
  (Action.limit_shift (lawful.rising_call (.fn f) arguments)).symm

theorem result_compose (outer inner value : Value κ) :
    host.result (.fn (.compose outer inner)) [value] =
      (host.result inner [value] >>= fun answer => host.result outer [answer]) := by
  rw [lawful.result_fn]
  exact lawful.fully_bind (fun h => h.apply inner [value]) fun answer => fun h =>
    h.apply outer [answer]

theorem result_thenRest (f program : Value κ) :
    host.result (.fn (.thenRest f)) [program] = host.fully fun d => andThen d program f :=
  lawful.result_fn _ _

end Lawful

theorem fully_const (x : Action κ β α) : host.fully (fun _ => x) = x :=
  Action.limit_const x

end Host

end Workflow

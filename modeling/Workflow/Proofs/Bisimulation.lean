import Workflow.Proofs.Lawful

/-!
# The same program

Two programs that are built in different ways hold different continuations, so they are hardly
ever equal as values.  They are the same program if nobody who runs them can tell: both are
finished with the same value, or both wait on the same request and their continuations, called
on any outcome in any world, fail in the same way or give the same program again.

`Host.Same` is the greatest such relation; two programs are shown to be the same by a relation of
one's own that is a `Host.Bisimulation`.
-/

namespace Workflow

variable {κ β σ α γ : Type}

namespace Outcome

/-- Both outcomes are values that `R` relates, or the same fault, in the same world; or both are
unfinished. -/
inductive Related (R : α → γ → Prop) : Outcome κ β α → Outcome κ β γ → Prop
  | value {a : α} {c : γ} (w : World κ β) : R a c → Related R (.value a w) (.value c w)
  | fault (cause : Fault κ) (w : World κ β) : Related R (.fault cause w) (.fault cause w)
  | unfinished : Related R .unfinished .unfinished

namespace Related

theorem refl {R : α → α → Prop} (hR : ∀ a, R a a) (o : Outcome κ β α) : Related R o o := by
  cases o with
  | value a w => exact .value w (hR a)
  | fault cause w => exact .fault cause w
  | unfinished => exact .unfinished

theorem mono {R S : α → γ → Prop} (hRS : ∀ a c, R a c → S a c) {o : Outcome κ β α}
    {o' : Outcome κ β γ} (h : Related R o o') : Related S o o' := by
  cases h with
  | value w hac => exact .value w (hRS _ _ hac)
  | fault cause w => exact .fault cause w
  | unfinished => exact .unfinished

theorem symm {R : α → γ → Prop} {o : Outcome κ β α} {o' : Outcome κ β γ} (h : Related R o o') :
    Related (fun c a => R a c) o' o := by
  cases h with
  | value w hac => exact .value w hac
  | fault cause w => exact .fault cause w
  | unfinished => exact .unfinished

theorem finished_iff {R : α → γ → Prop} {o : Outcome κ β α} {o' : Outcome κ β γ}
    (h : Related R o o') : o.Finished ↔ o'.Finished := by
  cases h <;> exact Iff.rfl

/-- After the same action, actions that are related at its values end in related ways. -/
theorem bind_of_value {α' γ' : Type} {R : α' → γ' → Prop} (x : Action κ β α)
    {f : α → Action κ β α'} {g : α → Action κ β γ'} {w : World κ β}
    (hfg : ∀ a v, x.run w = .value a v → Related R ((f a).run v) ((g a).run v)) :
    Related R ((x >>= f).run w) ((x >>= g).run w) := by
  cases hx : x.run w with
  | value a v =>
      rw [Action.run_bind_of_value f hx, Action.run_bind_of_value g hx]
      exact hfg a v hx
  | fault cause v =>
      rw [Action.run_bind_of_fault f hx, Action.run_bind_of_fault g hx]
      exact .fault cause v
  | unfinished =>
      rw [Action.run_bind_of_unfinished f hx, Action.run_bind_of_unfinished g hx]
      exact .unfinished

/-- After the same action, related actions end in related ways. -/
theorem bind_same {α' γ' : Type} {R : α' → γ' → Prop} (x : Action κ β α)
    {f : α → Action κ β α'} {g : α → Action κ β γ'}
    (hfg : ∀ a w, Related R ((f a).run w) ((g a).run w)) (w : World κ β) :
    Related R ((x >>= f).run w) ((x >>= g).run w) :=
  bind_of_value x fun a v _ => hfg a v

/-- Limits are related where their members are. -/
theorem limit {R : α → γ → Prop} {family : Nat → Action κ β α} {family' : Nat → Action κ β γ}
    (hf : Action.Rising family) (hf' : Action.Rising family') {w : World κ β}
    (h : ∀ depth, Related R ((family depth).run w) ((family' depth).run w)) :
    Related R ((Action.limit family).run w) ((Action.limit family').run w) := by
  by_cases hfin : ((Action.limit family).run w).Finished
  · rcases Action.Rising.exists_of_limit rfl hfin with ⟨depth, hd⟩
    have hdepth := h depth
    rw [hd] at hdepth
    rw [hf'.limit_run rfl (hdepth.finished_iff.1 hfin)]
    exact hdepth
  · have hfin' : ¬ ((Action.limit family').run w).Finished := by
      intro hfin'
      rcases Action.Rising.exists_of_limit rfl hfin' with ⟨depth, hd⟩
      have hdepth := h depth
      rw [hd] at hdepth
      have hmember := hdepth.finished_iff.2 hfin'
      rw [hf.limit_run rfl hmember] at hfin
      exact hfin hmember
    rw [Outcome.eq_unfinished hfin, Outcome.eq_unfinished hfin']
    exact .unfinished

end Related

end Outcome

namespace Host

/-- What can be seen of two programs at once: one looks like the other, and so do the programs
that their continuations give, as far as `R` can tell. -/
inductive Looks (host : Host κ β σ) (R : Value κ → Value κ → Prop) : Value κ → Value κ → Prop
  | waiting (request : Request (Value κ)) {next next' : Value κ} :
      (∀ outcome w, Outcome.Related R ((host.result next [outcome]).run w)
        ((host.result next' [outcome]).run w)) →
      Looks host R (.pending (.operation ⟨request, next⟩)) (.pending (.operation ⟨request, next'⟩))
  /-- A value that does not wait on an operation looks like itself alone. -/
  | idle {p : Value κ} : (∀ op, p ≠ .pending (.operation op)) → Looks host R p p

/-- Whatever `R` relates looks the same and goes on to what `R` relates. -/
def Bisimulation (host : Host κ β σ) (R : Value κ → Value κ → Prop) : Prop :=
  ∀ p q, R p q → host.Looks R p q

/-- Nobody who runs the two programs can tell them apart. -/
def Same (host : Host κ β σ) (p q : Value κ) : Prop :=
  ∃ R, host.Bisimulation R ∧ R p q

variable {host : Host κ β σ}

theorem Looks.mono {R S : Value κ → Value κ → Prop} (hRS : ∀ p q, R p q → S p q)
    {p q : Value κ} (h : host.Looks R p q) : host.Looks S p q := by
  cases h with
  | waiting request hnext =>
      exact .waiting request fun outcome w => (hnext outcome w).mono hRS
  | idle hp => exact .idle hp

/-- A reflexive relation takes every program to look like itself. -/
theorem Looks.refl {R : Value κ → Value κ → Prop} (hR : ∀ p, R p p) (p : Value κ) :
    host.Looks R p p := by
  by_cases hp : ∃ op, p = .pending (.operation op)
  · rcases hp with ⟨op, rfl⟩
    exact .waiting op.request fun _ _ => .refl hR _
  · exact .idle fun op h => hp ⟨op, h⟩

theorem Same.refl (p : Value κ) : host.Same p p :=
  ⟨Eq, fun p _ h => h ▸ .refl (fun _ => rfl) p, rfl⟩

theorem Same.symm {p q : Value κ} (h : host.Same p q) : host.Same q p := by
  rcases h with ⟨R, hR, hpq⟩
  refine ⟨fun p q => R q p, fun p q hqp => ?_, hpq⟩
  cases hR q p hqp with
  | waiting request hnext => exact .waiting request fun outcome w => (hnext outcome w).symm
  | idle hp => exact .idle hp

/-- Being the same program is itself a bisimulation. -/
theorem same_bisimulation : host.Bisimulation host.Same := by
  rintro p q ⟨R, hR, hpq⟩
  exact (hR p q hpq).mono fun p q h => ⟨R, hR, h⟩

end Host

end Workflow

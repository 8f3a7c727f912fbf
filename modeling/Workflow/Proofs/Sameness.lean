import Mathlib.Data.List.Forall2
import Workflow.Proofs.Threading

/-!
# Combinators respect sameness

What is built of programs that are the same is the same again: a combinator cannot tell what
nobody who runs the programs can tell (`Host.Threads.respects`).  Nor does it matter which of two
functions a program goes on with, if they answer with the same programs.

Mapping a function over a program is continuing the program with the function that finishes with
what the first one answers (`Host.mapped_same_continued`).
-/

namespace Workflow

variable {κ β σ α γ δ : Type}

namespace Outcome.Related

theorem trans {R : α → γ → Prop} {S : γ → δ → Prop} {o : Outcome κ β α} {o' : Outcome κ β γ}
    {o'' : Outcome κ β δ} (h : Related R o o') (h' : Related S o' o'') :
    Related (fun a d => ∃ c, R a c ∧ S c d) o o'' := by
  cases h with
  | value w hac =>
      cases h' with
      | value _ hcd => exact .value w ⟨_, hac, hcd⟩
  | fault cause w =>
      cases h'
      exact .fault cause w
  | unfinished =>
      cases h'
      exact .unfinished

/-- After related actions, actions that are related at related values end in related ways. -/
theorem bind {α' γ' : Type} {R : α → γ → Prop} {S : α' → γ' → Prop} {x : Action κ β α}
    {y : Action κ β γ} {f : α → Action κ β α'} {g : γ → Action κ β γ'} {w : World κ β}
    (hxy : Related R (x.run w) (y.run w))
    (hfg : ∀ a c v, R a c → Related S ((f a).run v) ((g c).run v)) :
    Related S ((x >>= f).run w) ((y >>= g).run w) := by
  generalize hx : x.run w = o at hxy
  generalize hy : y.run w = o' at hxy
  cases hxy with
  | @value a c v hac =>
      rw [Action.run_bind_of_value f hx, Action.run_bind_of_value g hy]
      exact hfg a c v hac
  | fault cause v =>
      rw [Action.run_bind_of_fault f hx, Action.run_bind_of_fault g hy]
      exact .fault cause v
  | unfinished =>
      rw [Action.run_bind_of_unfinished f hx, Action.run_bind_of_unfinished g hy]
      exact .unfinished

end Outcome.Related

namespace Host

variable {host : Host κ β σ} {p q r : Value κ} {f g : Value κ}

theorem Same.trans (hpq : host.Same p q) (hqr : host.Same q r) : host.Same p r := by
  -- What is the same as something that is the same goes on with such programs again.
  refine ⟨fun p r => ∃ q, host.Same p q ∧ host.Same q r, ?_, q, hpq, hqr⟩
  rintro p r ⟨q, hpq, hqr⟩
  cases same_bisimulation p q hpq with
  | waiting request hnext =>
      cases same_bisimulation _ r hqr with
      | waiting _ hnext' =>
          exact .waiting request fun outcome w => (hnext outcome w).trans (hnext' outcome w)
      | idle hidle => exact absurd rfl (hidle _)
  | idle hidle =>
      cases same_bisimulation p r hqr with
      | waiting request => exact absurd rfl (hidle _)
      | idle => exact .idle hidle

/-- Outcomes that agree up to sameness with the same outcome agree with each other. -/
theorem related_trans {o o' o'' : Outcome κ β (Value κ)} (h : Outcome.Related host.Same o o')
    (h' : Outcome.Related host.Same o' o'') : Outcome.Related host.Same o o'' :=
  (h.trans h').mono fun _ _ ⟨_, hac, hcd⟩ => hac.trans hcd

/-! ## Threaded functions -/

variable {T U : Value κ → Action κ β (Value κ)}

/-- Two programs that are the same, or that wait on the same request and go on with `T`, after
continuations that give the same programs. -/
inductive Followed (host : Host κ β σ) (T : Value κ → Action κ β (Value κ)) :
    Value κ → Value κ → Prop
  | same {p q : Value κ} : host.Same p q → Followed host T p q
  | waiting (request : Request (Value κ)) {own own' next next' : Value κ} :
      (∀ outcome w, Outcome.Related host.Same ((host.result own [outcome]).run w)
        ((host.result own' [outcome]).run w)) →
      (∀ outcome, host.result next [outcome] = host.result own [outcome] >>= T) →
      (∀ outcome, host.result next' [outcome] = host.result own' [outcome] >>= T) →
      Followed host T (.pending (.operation ⟨request, next⟩))
        (.pending (.operation ⟨request, next'⟩))

/-- A threaded function treats programs alike that are the same. -/
theorem Threads.respects (hT : host.Threads T) (hpq : host.Same p q) (w : World κ β) :
    Outcome.Related host.Same ((T p).run w) ((T q).run w) := by
  have hfollowed : ∀ p q, host.Same p q → ∀ w,
      Outcome.Related (host.Followed T) ((T p).run w) ((T q).run w) := by
    intro p q hpq w
    cases same_bisimulation p q hpq with
    | @waiting request own own' hown =>
        obtain ⟨next, hvalue, hresult, _⟩ := hT.waiting ⟨request, own⟩
        obtain ⟨next', hvalue', hresult', _⟩ := hT.waiting ⟨request, own'⟩
        rw [hvalue, hvalue']
        exact .value w (.waiting request hown hresult hresult')
    | idle => exact .refl (fun r => .same (.refl r)) _
  have hbisimulation : host.Bisimulation (host.Followed T) := by
    intro p q h
    cases h with
    | same hsame => exact (same_bisimulation p q hsame).mono fun _ _ h => .same h
    | waiting request hown hresult hresult' =>
        refine .waiting request fun outcome w => ?_
        rw [hresult outcome, hresult' outcome]
        exact (hown outcome w).bind fun p q v hpq => hfollowed p q hpq v
  exact (hfollowed p q hpq w).mono fun p q h => ⟨_, hbisimulation, h⟩

/-- Two combinators that treat finished programs alike treat programs alike that are the same. -/
theorem Walks.same_of_same (hT : host.Walks T) (hU : host.Walks U)
    (hterminal : ∀ value w,
      Outcome.Related host.Same ((T (.terminal value)).run w) ((U (.terminal value)).run w))
    (hpq : host.Same p q) (w : World κ β) :
    Outcome.Related host.Same ((T p).run w) ((U q).run w) :=
  related_trans (hT.toThreads.respects hpq w) (hT.same hU hterminal q w)

/-! ## The combinators -/

theorem continued_same (lawful : host.Lawful) (hpq : host.Same p q)
    (hfg : ∀ value w, Outcome.Related host.Same ((host.result f [value]).run w)
      ((host.result g [value]).run w)) (w : World κ β) :
    Outcome.Related host.Same ((host.continued p f).run w) ((host.continued q g).run w) :=
  (walks_continued lawful f).same_of_same (walks_continued lawful g) hfg hpq w

theorem mapped_same (lawful : host.Lawful) (f : Value κ) (hpq : host.Same p q) (w : World κ β) :
    Outcome.Related host.Same ((host.mapped f p).run w) ((host.mapped f q).run w) :=
  (walks_mapped lawful f).toThreads.respects hpq w

/-- The pair of `p` and `q` at unbounded depth. -/
noncomputable def paired (host : Host κ β σ) (p q : Value κ) : Action κ β (Value κ) :=
  host.fully fun d => pair d p q

theorem paired_same (lawful : host.Lawful) {p' q' : Value κ} (hp : host.Same p p')
    (hq : host.Same q q') (w : World κ β) :
    Outcome.Related host.Same ((host.paired p q).run w) ((host.paired p' q').run w) := by
  refine continued_same lawful hp (fun first v => ?_) w
  rw [result_pairRest lawful, result_pairRest lawful]
  exact mapped_same lawful _ hq v

theorem sequenced_same (lawful : host.Lawful) {ps qs : List (Value κ)}
    (h : List.Forall₂ host.Same ps qs) :
    ∀ (results : List (Value κ)) (w : World κ β),
      Outcome.Related host.Same ((host.sequenced ps results).run w)
        ((host.sequenced qs results).run w) := by
  induction h with
  | nil => exact fun _ _ => .refl .refl _
  | @cons p q ps qs hpq _ ih =>
      intro results w
      rw [sequenced_cons lawful, sequenced_cons lawful]
      refine continued_same lawful hpq (fun value v => ?_) w
      rw [result_sequenceRest lawful, result_sequenceRest lawful]
      exact ih (value :: results) v

/-- The function that finishes with what `f` answers. -/
def finishWith (f : Value κ) : Value κ :=
  .fn (.compose (.fn .finish) f)

theorem result_finishWith (lawful : host.Lawful) (f value : Value κ) :
    host.result (finishWith f) [value] =
      (host.result f [value] >>= fun answer => pure (.terminal answer)) := by
  have hcompose : host.result (finishWith f) [value] = _ :=
    lawful.result_compose (.fn .finish) f value
  rw [hcompose]
  exact congrArg (_ >>= ·) (funext fun answer => result_finish lawful answer)

/-- To map a function is to continue with it and to finish. -/
theorem mapped_same_continued (lawful : host.Lawful) (f p : Value κ) (w : World κ β) :
    Outcome.Related host.Same ((host.mapped f p).run w)
      ((host.continued p (finishWith f)).run w) := by
  refine (walks_mapped lawful f).same (walks_continued lawful (finishWith f)) (fun value v => ?_)
    p w
  have hterminal : host.mapped f (.terminal value) =
      host.continued (.terminal value) (finishWith f) :=
    calc
      host.mapped f (.terminal value)
          = (host.result f [value] >>= fun answer => pure (.terminal answer)) :=
            mapped_terminal lawful f value
      _ = host.result (finishWith f) [value] := (result_finishWith lawful f value).symm
      _ = host.continued (.terminal value) (finishWith f) := rfl
  rw [hterminal]
  exact .refl .refl _

end Host

end Workflow

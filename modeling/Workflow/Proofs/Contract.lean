import Workflow.Proofs.Threading

/-!
# Well-formed programs

A contract says what the functions of a caller may do: which faults they may raise, what they keep
true of the outside state, and whether they always come to an end (`Contract`).  A program is well
formed if nothing but programs and faults that the contract allows can come of it, whatever the
outcomes of its operations are (`Host.WellFormed`).

A function that is threaded through programs keeps them well formed if it treats the finished
ones well (`Host.Threads.safe`), and so do the members of a family of such functions that hand
programs on to each other (`Host.Grown.isWellFormed`).  What is called while a program is built may
be held to another contract, `now`, than what is called when the program runs.
-/

namespace Workflow

variable {κ β σ α γ : Type}

/-- What may be relied on of the functions that a caller brings along. -/
structure Contract (κ β : Type) where
  /-- The faults that they may raise. -/
  allowed : Fault κ → Prop
  /-- What each of them keeps true of the outside state. -/
  keeps : β → Prop
  /-- Whether every call of them comes to an end. -/
  total : Prop

/-- The first contract asks for more than the second one, of the same outside state. -/
structure Contract.Refines (now c : Contract κ β) : Prop where
  allowed : ∀ {cause : Fault κ}, now.allowed cause → c.allowed cause
  keeps : ∀ {outside : β}, now.keeps outside ↔ c.keeps outside
  total : c.total → now.total

theorem Contract.Refines.refl (c : Contract κ β) : c.Refines c where
  allowed h := h
  keeps := Iff.rfl
  total h := h

/-- The contract to raise nothing and to come to an end. -/
def Contract.silent (c : Contract κ β) : Contract κ β where
  allowed _ := False
  keeps := c.keeps
  total := True

theorem Contract.silent_refines (c : Contract κ β) : c.silent.Refines c where
  allowed h := h.elim
  keeps := Iff.rfl
  total _ := trivial

/-- The contract, with nothing said about coming to an end. -/
def Contract.partly (c : Contract κ β) : Contract κ β :=
  { c with total := False }

namespace Action

/-- The action stays within the contract, and its values satisfy `P`. -/
structure Safe (c : Contract κ β) (P : α → Prop) (x : Action κ β α) : Prop where
  value : ∀ {w v : World κ β} {a : α}, c.keeps w.outside → x.run w = .value a v →
    P a ∧ c.keeps v.outside
  fault : ∀ {w v : World κ β} {cause : Fault κ}, c.keeps w.outside → x.run w = .fault cause v →
    c.allowed cause
  ends : c.total → ∀ {w : World κ β}, c.keeps w.outside → (x.run w).Finished

namespace Safe

variable {c : Contract κ β} {P Q : α → Prop} {x y : Action κ β α}

theorem mono (hPQ : ∀ a, P a → Q a) (h : x.Safe c P) : x.Safe c Q where
  value hw hx := ⟨hPQ _ (h.value hw hx).1, (h.value hw hx).2⟩
  fault hw hx := h.fault hw hx
  ends htotal _ hw := h.ends htotal hw

theorem refine {now : Contract κ β} (hnow : now.Refines c) (h : x.Safe now P) : x.Safe c P where
  value hw hx := by
    have hvalue := h.value (hnow.keeps.2 hw) hx
    exact ⟨hvalue.1, hnow.keeps.1 hvalue.2⟩
  fault hw hx := hnow.allowed (h.fault (hnow.keeps.2 hw) hx)
  ends htotal _ hw := h.ends (hnow.total htotal) (hnow.keeps.2 hw)

protected theorem pure {a : α} (h : P a) : (pure a : Action κ β α).Safe c P where
  value hw hx := by
    cases hx
    exact ⟨h, hw⟩
  fault _ hx := by cases hx
  ends _ _ _ := trivial

theorem ok {result : Except (Fault κ) α} {a : α} (hresult : result = .ok a) (h : P a) :
    (liftM result : Action κ β α).Safe c P := by
  subst hresult
  exact Safe.pure h

theorem bind {Q : γ → Prop} {f : α → Action κ β γ} (hx : x.Safe c P)
    (hf : ∀ a, P a → (f a).Safe c Q) : (x >>= f).Safe c Q where
  value hw hrun := by
    rcases exists_of_run_bind_value hrun with ⟨a, u, hfirst, hrest⟩
    have ha := hx.value hw hfirst
    exact (hf a ha.1).value ha.2 hrest
  fault hw hrun := by
    rcases run_bind_fault_cases hrun with hfirst | ⟨a, u, hfirst, hrest⟩
    · exact hx.fault hw hfirst
    · have ha := hx.value hw hfirst
      exact (hf a ha.1).fault ha.2 hrest
  ends htotal w hw := by
    cases hfirst : x.run w with
    | value a u =>
        rw [run_bind_of_value f hfirst]
        have ha := hx.value hw hfirst
        exact (hf a ha.1).ends htotal ha.2
    | fault cause u =>
        rw [run_bind_of_fault f hfirst]
        trivial
    | unfinished =>
        have hfinished := hx.ends htotal hw
        rw [hfirst] at hfinished
        exact absurd hfinished id

/-- What is found at once is handed on. -/
theorem ok_bind {Q : γ → Prop} {result : Except (Fault κ) α} {f : α → Action κ β γ} {a : α}
    (hresult : result = .ok a) (hf : (f a).Safe c Q) :
    ((liftM result : Action κ β α) >>= f).Safe c Q := by
  subst hresult
  exact hf

/-- What leaves the world as it is stays within the contract if its values and faults do. -/
theorem of_still (h : ∀ w, (∃ a, P a ∧ x.run w = .value a w) ∨
    ∃ cause, c.allowed cause ∧ x.run w = .fault cause w) : x.Safe c P where
  value {w v a} hw hx := by
    rcases h w with ⟨b, hb, hvalue⟩ | ⟨cause, _, hfault⟩
    · rw [hvalue] at hx
      cases hx
      exact ⟨hb, hw⟩
    · rw [hfault] at hx
      cases hx
  fault {w v cause} hw hx := by
    rcases h w with ⟨b, _, hvalue⟩ | ⟨own, hallowed, hfault⟩
    · rw [hvalue] at hx
      cases hx
    · rw [hfault] at hx
      cases hx
      exact hallowed
  ends _ w hw := by
    rcases h w with ⟨b, _, hvalue⟩ | ⟨cause, _, hfault⟩
    · rw [hvalue]
      trivial
    · rw [hfault]
      trivial

protected theorem record (event : Event κ) :
    (Action.record event : Action κ β Unit).Safe c fun _ => True where
  value hw hx := by
    cases hx
    exact ⟨trivial, hw⟩
  fault _ hx := by cases hx
  ends _ _ _ := trivial

/-! ### Without coming to an end -/

theorem partly (h : x.Safe c P) : x.Safe c.partly P where
  value hw hx := h.value hw hx
  fault hw hx := h.fault hw hx
  ends htotal := absurd htotal id

theorem unfinished : (Action.unfinished : Action κ β α).Safe c.partly P where
  value _ hx := by cases hx
  fault _ hx := by cases hx
  ends htotal := absurd htotal id

/-- What approximates a safe action does nothing that the action does not. -/
theorem of_approx (hxy : x.Approx y) (h : y.Safe c.partly P) : x.Safe c.partly P where
  value hw hx := h.value hw (hxy.run_eq hx trivial)
  fault hw hx := h.fault hw (hxy.run_eq hx trivial)
  ends htotal := absurd htotal id

theorem limit {family : Nat → Action κ β α} (h : ∀ depth, (family depth).Safe c.partly P) :
    (Action.limit family).Safe c.partly P where
  value hw hx := by
    rcases Rising.exists_of_limit hx trivial with ⟨depth, hd⟩
    exact (h depth).value hw hd
  fault hw hx := by
    rcases Rising.exists_of_limit hx trivial with ⟨depth, hd⟩
    exact (h depth).fault hw hd
  ends htotal := absurd htotal id

/-- An action that comes to an end, if the contract asks for that, stays within it altogether. -/
theorem of_partly (h : x.Safe c.partly P)
    (hends : c.total → ∀ w : World κ β, c.keeps w.outside → (x.run w).Finished) : x.Safe c P where
  value hw hx := h.value hw hx
  fault hw hx := h.fault hw hx
  ends htotal w hw := hends htotal w hw

end Safe

end Action

namespace Host

variable {host : Host κ β σ} {now c : Contract κ β}

/-! ## Well-formed programs -/

/-- A program that is finished, or that waits on an operation whose continuation is a function
that stays within the contract and answers with a program in `P`. -/
inductive Node (host : Host κ β σ) (c : Contract κ β) (P : Value κ → Prop) : Value κ → Prop
  | finished (value : Value κ) : Node host c P (.terminal value)
  | waiting (request : Request (Value κ)) (f : Callable κ) :
      (∀ outcome, (host.result (.fn f) [outcome]).Safe c P) →
      Node host c P (.pending (.operation ⟨request, .fn f⟩))

/-- Nothing but programs, and faults that the contract allows, can come of the program. -/
def WellFormed (host : Host κ β σ) (c : Contract κ β) (p : Value κ) : Prop :=
  ∃ P, (∀ q, P q → host.Node c P q) ∧ P p

/-- A query on a well-formed program. -/
def WellFormedQuery (host : Host κ β σ) (c : Contract κ β) (v : Value κ) : Prop :=
  ∃ p, v = .query p ∧ host.WellFormed c p

/-- Called on any value, the function stays within the contract and answers within `P`. -/
def Calls (host : Host κ β σ) (c : Contract κ β) (P : Value κ → Prop) (f : Value κ) : Prop :=
  ∀ value, (host.result f [value]).Safe c P

/-- So it does, called on the value of `p`, if `p` has finished. -/
def CallsAt (host : Host κ β σ) (now : Contract κ β) (P : Value κ → Prop) (f p : Value κ) : Prop :=
  ∀ value, p = .terminal value → (host.result f [value]).Safe now P

theorem Node.mono {P Q : Value κ → Prop} (hPQ : ∀ q, P q → Q q) {p : Value κ}
    (h : host.Node c P p) : host.Node c Q p := by
  cases h with
  | finished value => exact .finished value
  | waiting request f hf => exact .waiting request f fun outcome => (hf outcome).mono hPQ

theorem WellFormed.node {p : Value κ} (h : host.WellFormed c p) :
    host.Node c (host.WellFormed c) p := by
  rcases h with ⟨P, hP, hp⟩
  exact (hP p hp).mono fun q hq => ⟨P, hP, hq⟩

theorem wellFormed_of_node {p : Value κ} (h : host.Node c (host.WellFormed c) p) :
    host.WellFormed c p :=
  ⟨host.Node c (host.WellFormed c), fun _ hq => hq.mono fun _ => WellFormed.node, h⟩

theorem wellFormed_terminal (value : Value κ) : host.WellFormed c (.terminal value) :=
  wellFormed_of_node (.finished value)

theorem WellFormed.isProgram {p : Value κ} (h : host.WellFormed c p) : p.isProgram = true := by
  cases h.node <;> rfl

/-- A well-formed program comes to nothing but programs. -/
theorem WellFormed.continuation {op : Operation (Value κ)}
    (h : host.WellFormed c (.pending (.operation op))) (outcome : Value κ) :
    (host.result op.next [outcome]).Safe c (host.WellFormed c) := by
  cases h.node with
  | waiting request f hf => exact hf outcome

/-! ## Threaded functions -/

section Family

variable {ι : Type} {T : ι → Value κ → Action κ β (Value κ)}

/-- A well-formed program, or one that waits as a well-formed program does and goes on with a
member of the family. -/
inductive Grown (host : Host κ β σ) (c : Contract κ β) (T : ι → Value κ → Action κ β (Value κ)) :
    Value κ → Prop
  | wellFormed {p : Value κ} : host.WellFormed c p → Grown host c T p
  | waiting (i : ι) (op : Operation (Value κ)) {g : Callable κ} :
      host.WellFormed c (.pending (.operation op)) →
      (∀ outcome, host.result (.fn g) [outcome] = host.result op.next [outcome] >>= T i) →
      Grown host c T (.pending (.operation ⟨op.request, .fn g⟩))

/-- A threaded function takes a program that waits to one that goes on with it, and calls nothing
to do so. -/
theorem Threads.waiting_safe {i : ι} (hT : host.Threads (T i)) {op : Operation (Value κ)}
    (hp : host.WellFormed c (.pending (.operation op))) :
    (T i (.pending (.operation op))).Safe now (host.Grown c T) := by
  rcases hT.waiting op with ⟨next, hvalue, hresult, hfn⟩
  cases hp.node with
  | waiting request f hf =>
      rcases hfn f rfl with ⟨g, rfl⟩
      rw [hvalue]
      exact .pure (.waiting i ⟨request, .fn f⟩ hp hresult)

theorem safe_grown (hT : ∀ i, host.Threads (T i)) {i : ι} {p : Value κ}
    (hp : host.WellFormed c p)
    (hnow : ∀ value, p = .terminal value → (T i p).Safe now (host.Grown c T)) :
    (T i p).Safe now (host.Grown c T) := by
  cases hp.node with
  | finished value => exact hnow value rfl
  | waiting request f hf => exact (hT i).waiting_safe hp

/-- Well-formedness is kept at every depth, because after each outcome the program goes on with a
member of the family again. -/
theorem Grown.isWellFormed (hT : ∀ i, host.Threads (T i))
    (hlater : ∀ i value, (T i (.terminal value)).Safe c (host.Grown c T)) {p : Value κ}
    (h : host.Grown c T p) : host.WellFormed c p := by
  -- The programs that have grown are closed under what comes of them.
  refine ⟨host.Grown c T, fun q hq => ?_, h⟩
  cases hq with
  | wellFormed hq => exact hq.node.mono fun _ => .wellFormed
  | waiting i op hop hresult =>
      refine .waiting _ _ fun outcome => ?_
      rw [hresult outcome]
      refine (hop.continuation outcome).bind fun r hr => safe_grown hT hr ?_
      rintro value rfl
      exact hlater i value

end Family

/-- A threaded function makes a well-formed program of one, if it does so of what has finished:
now, if that is `p` itself, and later, whatever `p` finishes with. -/
theorem Threads.safe {T : Value κ → Action κ β (Value κ)} (hT : host.Threads T)
    (hlater : ∀ value, (T (.terminal value)).Safe c (host.WellFormed c)) {p : Value κ}
    (hp : host.WellFormed c p)
    (hnow : ∀ value, p = .terminal value → (T p).Safe now (host.WellFormed c)) :
    (T p).Safe now (host.WellFormed c) := by
  -- The family has one member.
  have hgrown : (T p).Safe now (host.Grown c fun _ : Unit => T) :=
    safe_grown (fun _ => hT) (i := ()) hp fun value h => (hnow value h).mono fun _ => .wellFormed
  exact hgrown.mono fun _ => Grown.isWellFormed (fun _ => hT) fun _ value =>
    (hlater value).mono fun _ => .wellFormed

end Host

end Workflow

import Workflow.Proofs.Reading
import Workflow.Proofs.Scripts
import Workflow.Proofs.Threading

/-!
# What a routine does with its body

Every call that builds or continues the program of a routine starts a body of its own.  It sends
the body the recorded values, then the value of each finished program that the body yields, until
the body is through or yields what has no value yet (`Plays`).  How the last of these visits ended
decides the outcome, and whether the body is closed (`Concludes`).

A body is thus never left behind: it is through, or it is closed once, right after its last yield,
and nothing else is done with it (`Handled`).
-/

namespace Workflow

variable {κ β σ : Type}

/-! ## What a yielded value stands for -/

namespace Value

/-- The program of a query; any other value stands for itself. -/
def held : Value κ → Value κ
  | .query program => program
  | value => value

theorem asProgram_eq (value : Value κ) :
    asProgram value = .ok value.held ∨
      asProgram value = .error (.invalidProgram value) ∧ value.held = value ∧
        value.isProgram = false := by
  cases value with
  | query program => exact Or.inl rfl
  | terminal value => exact Or.inl rfl
  | pending waiting => exact Or.inl rfl
  | _ => exact Or.inr ⟨rfl, rfl, rfl⟩

end Value

/-- The function that goes on with a routine whose body has received values. -/
def resumption (code : κ) (captured : Scope κ) (arguments received : List (Value κ)) : Value κ :=
  .fn (.resumeRest code captured arguments received)

/-! ## Playing a body -/

/-- The value that is sent next to a body which waits at a yield, and what is left to replay: a
recorded value if there is one, else the value of a finished program. -/
def due : List (Value κ) → Value κ → Option (Value κ × List (Value κ))
  | next :: history, _ => some (next, history)
  | [], value =>
      match value.held with
      | .terminal answer => some (answer, [])
      | _ => none

/-- What is done with a body, and how this ends. -/
inductive Visit (κ β σ : Type) where
  | sent (body : σ) (value : Value κ) (before : World κ β) (after : Outcome κ β (Progress κ σ))
  | closed (body : σ) (before : World κ β) (after : Outcome κ β Unit)

/-- `Plays advance history progress w sent visits o`: the body is sent the values `sent`, one after
the other, as they are due, and `o` is how the last of these visits has ended. -/
inductive Plays (advance : σ → Value κ → Action κ β (Progress κ σ)) :
    List (Value κ) → Progress κ σ → World κ β → List (Value κ) → List (Visit κ β σ) →
      Outcome κ β (Progress κ σ) → Prop
  /-- The body has returned; what is left to replay is not sent. -/
  | returned (history : List (Value κ)) (value : Value κ) (w : World κ β) :
      Plays advance history (.returned value) w [] [] (.value (.returned value) w)
  /-- The body waits for what has no value yet. -/
  | waits {value : Value κ} (body : σ) (w : World κ β) : due [] value = none →
      Plays advance [] (.yielded value body) w [] [] (.value (.yielded value body) w)
  | raises {history left : List (Value κ)} {value next : Value κ} {body : σ} {w v : World κ β}
      {cause : Fault κ} : due history value = some (next, left) →
      (advance body next).run w = .fault cause v →
      Plays advance history (.yielded value body) w [next] [.sent body next w (.fault cause v)]
        (.fault cause v)
  | sends {history left sent : List (Value κ)} {value next : Value κ} {body : σ} {w v : World κ β}
      {progress : Progress κ σ} {visits : List (Visit κ β σ)} {o : Outcome κ β (Progress κ σ)} :
      due history value = some (next, left) → (advance body next).run w = .value progress v →
      Plays advance left progress v sent visits o →
      Plays advance history (.yielded value body) w (next :: sent)
        (.sent body next w (.value progress v) :: visits) o

/-- `Concludes close rest played visits o`: after the last visit of a body has ended with `played`,
the routine ends with `o`; `rest` is the function that goes on with it.  A body that is through is
left alone, one that waits is closed once. -/
inductive Concludes (close : σ → Action κ β Unit) (rest : Value κ) :
    Outcome κ β (Progress κ σ) → List (Visit κ β σ) → Outcome κ β (Value κ) → Prop
  | returned (value : Value κ) (w : World κ β) :
      Concludes close rest (.value (.returned value) w) [] (.value (.terminal value) w)
  | raised (cause : Fault κ) (w : World κ β) :
      Concludes close rest (.fault cause w) [] (.fault cause w)
  | waiting {value : Value κ} {body : σ} {w v : World κ β} {op : Operation (Value κ)} :
      value.held = .pending (.operation op) → (close body).run w = .value () v →
      Concludes close rest (.value (.yielded value body) w) [.closed body w (.value () v)]
        (.value (.pending (.operation (op.followedBy rest))) v)
  /-- The body waits for what is no operation. -/
  | unanswerable {value waiting : Value κ} {body : σ} {w v : World κ β} :
      value.held = .pending waiting → (∀ op, waiting ≠ .operation op) →
      (close body).run w = .value () v →
      Concludes close rest (.value (.yielded value body) w) [.closed body w (.value () v)]
        (.fault (.unknownOperation waiting) v)
  /-- The body has yielded what is no program. -/
  | refused {value : Value κ} {body : σ} {w v : World κ β} : value.held.isProgram = false →
      (close body).run w = .value () v →
      Concludes close rest (.value (.yielded value body) w) [.closed body w (.value () v)]
        (.fault (.invalidProgram value.held) v)
  /-- The body fails when it is closed, or yields again: this replaces what was to follow. -/
  | resisted {value : Value κ} {body : σ} {w v : World κ β} {cause : Fault κ} :
      (close body).run w = .fault cause v →
      Concludes close rest (.value (.yielded value body) w) [.closed body w (.fault cause v)]
        (.fault cause v)

/-- `Handled start advance close rest history w sent visits o`: started in the world `w`, the body
is run to its first yield and sent the values `sent`, `history` before any other; then the routine
ends with `o`.  `visits` is all that is done with the body; `rest` makes the continuation out of
the values received. -/
inductive Handled (start : Action κ β σ) (advance : σ → Value κ → Action κ β (Progress κ σ))
    (close : σ → Action κ β Unit) (rest : List (Value κ) → Value κ) (history : List (Value κ))
    (w : World κ β) : List (Value κ) → List (Visit κ β σ) → Outcome κ β (Value κ) → Prop
  | unstarted {cause : Fault κ} {v : World κ β} : start.run w = .fault cause v →
      Handled start advance close rest history w [] [] (.fault cause v)
  | broken {body : σ} {cause : Fault κ} {v u : World κ β} : start.run w = .value body v →
      (advance body .null).run v = .fault cause u →
      Handled start advance close rest history w [] [.sent body .null v (.fault cause u)]
        (.fault cause u)
  | played {body : σ} {progress : Progress κ σ} {v u : World κ β} {sent : List (Value κ)}
      {visits last : List (Visit κ β σ)} {played : Outcome κ β (Progress κ σ)}
      {o : Outcome κ β (Value κ)} : start.run w = .value body v →
      (advance body .null).run v = .value progress u →
      Plays advance history progress u sent visits played →
      Concludes close (rest sent) played last o →
      Handled start advance close rest history w sent
        (.sent body .null v (.value progress u) :: visits ++ last) o

/-! ## Approximation -/

section Mono

variable {start : Action κ β σ} {advance advance' : σ → Value κ → Action κ β (Progress κ σ)}
  {close close' : σ → Action κ β Unit} {history sent : List (Value κ)}
  {visits : List (Visit κ β σ)} {w : World κ β}

theorem Plays.mono (hadvance : ∀ body value, (advance body value).Approx (advance' body value))
    {progress : Progress κ σ} {o : Outcome κ β (Progress κ σ)}
    (h : Plays advance history progress w sent visits o) :
    Plays advance' history progress w sent visits o := by
  induction h with
  | returned history value w => exact .returned history value w
  | waits body w hdue => exact .waits body w hdue
  | raises hdue hrun => exact .raises hdue ((hadvance _ _).run_eq hrun trivial)
  | sends hdue hrun _ ih => exact .sends hdue ((hadvance _ _).run_eq hrun trivial) ih

theorem Concludes.mono (hclose : ∀ body, (close body).Approx (close' body)) {rest : Value κ}
    {played : Outcome κ β (Progress κ σ)} {o : Outcome κ β (Value κ)}
    (h : Concludes close rest played visits o) : Concludes close' rest played visits o := by
  cases h with
  | returned value w => exact .returned value w
  | raised cause w => exact .raised cause w
  | waiting hheld hrun => exact .waiting hheld ((hclose _).run_eq hrun trivial)
  | unanswerable hheld hop hrun => exact .unanswerable hheld hop ((hclose _).run_eq hrun trivial)
  | refused hheld hrun => exact .refused hheld ((hclose _).run_eq hrun trivial)
  | resisted hrun => exact .resisted ((hclose _).run_eq hrun trivial)

theorem Handled.mono (hadvance : ∀ body value, (advance body value).Approx (advance' body value))
    (hclose : ∀ body, (close body).Approx (close' body)) {rest : List (Value κ) → Value κ}
    {o : Outcome κ β (Value κ)} (h : Handled start advance close rest history w sent visits o) :
    Handled start advance' close' rest history w sent visits o := by
  cases h with
  | unstarted hstart => exact .unstarted hstart
  | broken hstart hrun => exact .broken hstart ((hadvance _ _).run_eq hrun trivial)
  | played hstart hrun hplays hends =>
      exact .played hstart ((hadvance _ _).run_eq hrun trivial) (hplays.mono hadvance)
        (hends.mono hclose)

end Mono

/-! ## Every call of a routine handles its body -/

theorem andThen_refused (d : Dispatch κ β) {waiting : Value κ} (f : Value κ)
    (h : ∀ op, waiting ≠ .operation op) :
    andThen d (.pending waiting) f = .fail (.unknownOperation waiting) := by
  simp only [andThen, Host.mapOperation_refused _ h]
  rfl

theorem andThen_invalid (d : Dispatch κ β) {p : Value κ} (f : Value κ)
    (h : p.isProgram = false) : andThen d p f = .fail (.invalidProgram p) := by
  cases p with
  | terminal value => cases h
  | pending waiting => cases h
  | _ => rfl

namespace Host

variable {host : Host κ β σ} {d : Dispatch κ β} {rest : List (Value κ) → Value κ}

theorem due_eq_none {value : Value κ} :
    due [] value = none ↔ ∀ answer, value.held ≠ .terminal answer := by
  constructor
  · intro h answer hheld
    simp [due, hheld] at h
  · intro h
    cases hheld : value.held with
    | terminal answer => exact absurd hheld (h answer)
    | _ => simp only [due, hheld]

/-- A finished program is answered by the same body. -/
theorem settle_answered {value answer : Value κ} (h : value.held = .terminal answer)
    (rounds : Nat) (received : List (Value κ)) (body : σ) :
    host.settle d rest (rounds + 1) received (.yielded value body) =
      (host.advance d body answer >>= host.settle d rest rounds (answer :: received)) := by
  rcases value.asProgram_eq with hvalue | ⟨_, hheld, hvalue⟩
  · rw [h] at hvalue
    simp only [settle, hvalue]
  · rw [← hheld, h] at hvalue
    cases hvalue

/-- Before anything else is done with what the body waits for, the body is closed. -/
theorem settle_waiting {value : Value κ} (h : due [] value = none) (rounds : Nat)
    (received : List (Value κ)) (body : σ) :
    host.settle d rest (rounds + 1) received (.yielded value body) =
      (host.close d body >>= fun _ => andThen d value.held (rest received.reverse)) := by
  rw [due_eq_none] at h
  rcases value.asProgram_eq with hvalue | ⟨hvalue, hheld, hprogram⟩
  · simp only [settle, hvalue]
  · simp only [settle, hvalue, hheld, andThen_invalid d _ hprogram]
    rfl

theorem concludes_of_close {value : Value κ} {received : List (Value κ)} {body : σ} {w : World κ β}
    {o : Outcome κ β (Value κ)} (hdue : due [] value = none) (ho : o.Finished)
    (h : (host.close d body >>= fun _ => andThen d value.held (rest received)).run w = o) :
    ∃ visits,
      Concludes (host.close d) (rest received) (.value (.yielded value body) w) visits o := by
  rcases Action.run_bind_cases h ho with ⟨cause, v, hclose, rfl⟩ | ⟨_, v, hclose, hand⟩
  · exact ⟨_, .resisted hclose⟩
  · rcases program_cases value.held with
      ⟨answer, hheld⟩ | ⟨op, hheld⟩ | ⟨waiting, hheld, hop⟩ | hinvalid
    · exact absurd hheld (due_eq_none.1 hdue answer)
    · rw [← hand, hheld]
      exact ⟨_, .waiting hheld hclose⟩
    · rw [← hand, hheld, andThen_refused d _ hop]
      exact ⟨_, .unanswerable hheld hop hclose⟩
    · rw [← hand, andThen_invalid d _ hinvalid]
      exact ⟨_, .refused hinvalid hclose⟩

theorem due_answer {value answer : Value κ} (h : value.held = .terminal answer) :
    due [] value = some (answer, []) := by
  simp only [due, h]

/-- Once everything recorded was sent, the body is played on until the routine ends. -/
theorem settle_plays (rounds : Nat) :
    ∀ {received : List (Value κ)} {progress : Progress κ σ} {w : World κ β}
      {o : Outcome κ β (Value κ)}, o.Finished →
      (host.settle d rest rounds received.reverse progress).run w = o →
      ∃ sent visits played last, Plays (host.advance d) [] progress w sent visits played ∧
        Concludes (host.close d) (rest (received ++ sent)) played last o := by
  induction rounds with
  | zero =>
      intro received progress w o ho h
      exact absurd h.symm (Outcome.finished_iff.1 ho)
  | succ rounds ih =>
      intro received progress w o ho h
      cases progress with
      | returned value =>
          rw [← h]
          exact ⟨[], [], _, _, .returned [] value w, .returned value w⟩
      | yielded value body =>
          by_cases hheld : ∃ answer, value.held = .terminal answer
          · -- The answer is sent to the same body, and the record grows by it.
            rcases hheld with ⟨answer, hheld⟩
            rw [settle_answered hheld] at h
            rcases Action.run_bind_cases h ho with
              ⟨cause, v, hadvance, rfl⟩ | ⟨progress, v, hadvance, hsettle⟩
            · exact ⟨[answer], _, _, _, .raises (due_answer hheld) hadvance, .raised cause v⟩
            · have hrecord : answer :: received.reverse = (received ++ [answer]).reverse := by
                simp
              rw [hrecord] at hsettle
              rcases ih ho hsettle with ⟨sent, visits, played, last, hplays, hends⟩
              rw [List.append_assoc] at hends
              exact ⟨answer :: sent, _, played, last,
                .sends (due_answer hheld) hadvance hplays, hends⟩
          · have hdue : due [] value = none := due_eq_none.2 fun answer h => hheld ⟨answer, h⟩
            rw [settle_waiting hdue, List.reverse_reverse] at h
            rcases concludes_of_close hdue ho h with ⟨last, hends⟩
            refine ⟨[], [], _, last, .waits body w hdue, ?_⟩
            rw [List.append_nil]
            exact hends

/-- The recorded values come first. -/
theorem feed_plays (rounds : Nat) :
    ∀ {history received : List (Value κ)} {progress : Progress κ σ} {w : World κ β}
      {o : Outcome κ β (Value κ)}, o.Finished →
      (host.feed d progress history >>=
        host.settle d rest rounds (received ++ history).reverse).run w = o →
      ∃ sent visits played last, Plays (host.advance d) history progress w sent visits played ∧
        Concludes (host.close d) (rest (received ++ sent)) played last o := by
  intro history
  induction history with
  | nil =>
      intro received progress w o ho h
      have hfed : host.feed d progress [] = pure progress := by cases progress <;> rfl
      rw [List.append_nil, hfed, pure_bind] at h
      exact settle_plays rounds ho h
  | cons next history ih =>
      intro received progress w o ho h
      cases progress with
      | returned value =>
          -- A body that has returned gets no more of them.
          have hfed : host.feed d (.returned value) (next :: history) =
              pure (.returned value) := rfl
          rw [hfed, pure_bind] at h
          cases rounds with
          | zero =>
              exact absurd h.symm (Outcome.finished_iff.1 ho)
          | succ rounds =>
              rw [← h]
              exact ⟨[], [], _, _, .returned _ value w, .returned value w⟩
      | yielded value body =>
          have hfed : host.feed d (.yielded value body) (next :: history) =
              (host.advance d body next >>= fun progress => host.feed d progress history) := rfl
          rw [hfed, bind_assoc] at h
          rcases Action.run_bind_cases h ho with
            ⟨cause, v, hadvance, rfl⟩ | ⟨progress, v, hadvance, hfeed⟩
          · exact ⟨[next], _, _, _, .raises rfl hadvance, .raised cause v⟩
          · have hrecord : received ++ next :: history = (received ++ [next]) ++ history := by
              simp
            rw [hrecord] at hfeed
            rcases ih ho hfeed with ⟨sent, visits, played, last, hplays, hends⟩
            rw [List.append_assoc] at hends
            exact ⟨next :: sent, _, played, last, .sends rfl hadvance hplays, hends⟩

/-- Whenever a call of a routine ends, it has handled the body that it started. -/
theorem resume_handled (d : Dispatch κ β) (code : κ) (captured : Scope κ)
    (arguments history : List (Value κ)) {w : World κ β} {o : Outcome κ β (Value κ)}
    (ho : o.Finished) (h : (host.resume d code captured arguments history).run w = o) :
    ∃ sent visits, Handled (host.start code captured arguments) (host.advance d) (host.close d)
      (resumption code captured arguments) history w sent visits o := by
  have hresume : host.resume d code captured arguments history =
      (host.start code captured arguments >>= fun body => host.advance d body .null >>= fun first =>
        host.feed d first history >>= host.settle d (resumption code captured arguments) d.rounds
          ([] ++ history).reverse) := rfl
  rw [hresume] at h
  rcases Action.run_bind_cases h ho with ⟨cause, v, hstart, rfl⟩ | ⟨body, v, hstart, hrest⟩
  · exact ⟨[], [], .unstarted hstart⟩
  · rcases Action.run_bind_cases hrest ho with ⟨cause, u, hfirst, rfl⟩ | ⟨first, u, hfirst, hfed⟩
    · exact ⟨[], _, .broken hstart hfirst⟩
    · rcases feed_plays d.rounds ho hfed with ⟨sent, visits, played, last, hplays, hends⟩
      exact ⟨sent, _, .played hstart hfirst hplays hends⟩

/-- So it has at unbounded depth. -/
theorem fully_resume_handled (lawful : host.Lawful) (code : κ) (captured : Scope κ)
    (arguments history : List (Value κ)) {w : World κ β} {o : Outcome κ β (Value κ)}
    (ho : o.Finished)
    (h : (host.fully fun d => host.resume d code captured arguments history).run w = o) :
    ∃ sent visits, Handled (host.start code captured arguments) host.advanced
      (fun body => host.fully fun d => host.close d body) (resumption code captured arguments)
      history w sent visits o := by
  rcases Action.Rising.exists_of_limit h ho with ⟨depth, hdepth⟩
  rcases resume_handled (host.dispatch depth) code captured arguments history ho hdepth with
    ⟨sent, visits, hhandled⟩
  refine ⟨sent, visits, hhandled.mono (fun body value => ?_) fun body => ?_⟩
  · exact lawful.approx_fully (deepens_advance lawful body value) depth
  · exact lawful.approx_fully (fun h => lawful.deeper.close h body) depth

end Host

/-- What the body of a script does from some depth on, it does at unbounded depth. -/
theorem Script.advanced_eq {globals : Scope Script.Code} {body : Script.Body}
    {sent : Value Script.Code} {x : Script.Act (Progress Script.Code Script.Body)} (n : Nat)
    (h : ∀ depth, body.advance globals ((Script.host globals).dispatch (depth + n)) sent = x) :
    (Script.host globals).advanced body sent = x :=
  (Script.host_lawful globals).fully_eq_const
    (Host.deepens_advance (Script.host_lawful globals) body sent) n h

end Workflow

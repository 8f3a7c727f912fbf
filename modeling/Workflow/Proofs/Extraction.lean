import Workflow.Proofs.Associativity
import Workflow.Proofs.Handling

/-!
# Extracting a routine

A body that first does what an inner body does and then goes on may leave the inner part to a
routine of its own: it yields the program of that routine and goes on with the value that is sent
back.  The program stays the same.

On the one side one body has one record of received values.  On the other side the inner routine
keeps a record while its part lasts, and the outer body sees only the value that the part has
come to, so that its record starts with that value.  The two sides are followed from one waiting
program to the next (`Split`): within the inner part, where the outer body waits for the first
value, and after it.
-/

namespace Workflow

variable {κ β σ α : Type}

/-! ## Reading through finished programs -/

/-- The value that a body is answered with at once. -/
def Reaction.answer? : Reaction κ → Option (Value κ)
  | .yields value =>
      match asProgram value with
      | .ok (.terminal answer) => some answer
      | _ => none
  | _ => none

/-- The body is answered at once until it has received `later`. -/
inductive Passes (react : List (Value κ) → Reaction κ) :
    List (Value κ) → List (Value κ) → Prop
  | here (received : List (Value κ)) : Passes react received received
  | next {received later : List (Value κ)} {answer : Value κ} :
      (react received).answer? = some answer → Passes react (received ++ [answer]) later →
      Passes react received later

/-- The reading after `received`, gone through to its next waiting program or its end. -/
noncomputable def readThrough (react : List (Value κ) → Reaction κ)
    (rest : List (Value κ) → Value κ) (received : List (Value κ)) : Action κ β (Value κ) :=
  Action.limit fun rounds => unrolled react rest rounds received

section ReadThrough

variable {react whole inner : List (Value κ) → Reaction κ} {rest : List (Value κ) → Value κ}
  {received later : List (Value κ)}

theorem Reaction.exists_of_answer {reaction : Reaction κ} {answer : Value κ}
    (h : reaction.answer? = some answer) :
    ∃ value, reaction = .yields value ∧ asProgram value = .ok (.terminal answer) := by
  cases reaction with
  | yields value =>
      simp only [Reaction.answer?] at h
      split at h
      · cases h
        exact ⟨value, rfl, by assumption⟩
      · cases h
  | returns value => cases h
  | raises cause => cases h

theorem reading_answer (d : Dispatch κ β) {answer : Value κ}
    (h : (react received).answer? = some answer) :
    reading d react rest received = d.apply (rest received) [answer] := by
  rcases Reaction.exists_of_answer h with ⟨value, hyields, hprogram⟩
  rw [reading_accepted d rest hyields hprogram]
  rfl

/-- Where the body is not answered at once, reading it calls nothing. -/
theorem reading_idle (d d' : Dispatch κ β) (h : (react received).answer? = none) :
    reading d react rest received = reading d' react rest received := by
  cases hreact : react received with
  | returns value => rw [reading_returns d rest hreact, reading_returns d' rest hreact]
  | raises cause => rw [reading_raises d rest hreact, reading_raises d' rest hreact]
  | yields value =>
      cases hprogram : asProgram value with
      | error cause =>
          rw [reading_refused d rest hreact hprogram, reading_refused d' rest hreact hprogram]
      | ok program =>
          rw [reading_accepted d rest hreact hprogram, reading_accepted d' rest hreact hprogram]
          cases program with
          | terminal answer => simp [Reaction.answer?, hreact, hprogram] at h
          | _ => rfl

theorem readThrough_answer {answer : Value κ} (h : (react received).answer? = some answer) :
    (readThrough react rest received : Action κ β _) =
      readThrough react rest (received ++ [answer]) := by
  have hshift := Action.limit_shift (unrolled_rising (β := β) react rest received)
  refine hshift.symm.trans (congrArg Action.limit (funext fun rounds => ?_))
  rw [unrolled, reading_answer _ h]

theorem readThrough_idle (d : Dispatch κ β) (rest : List (Value κ) → Value κ)
    (h : (react received).answer? = none) :
    readThrough react rest received = reading d react rest received := by
  have hshift := Action.limit_shift (unrolled_rising (β := β) react rest received)
  have hconst : (fun rounds => (unrolled react rest (rounds + 1) received : Action κ β _)) =
      fun _ => reading d react rest received :=
    funext fun rounds => by rw [unrolled, reading_idle _ d h]
  rw [hconst, Action.limit_const] at hshift
  exact hshift.symm

theorem Passes.readThrough_eq (h : Passes react received later) :
    (readThrough react rest received : Action κ β _) = readThrough react rest later := by
  induction h with
  | here => rfl
  | next hanswer _ ih => rw [readThrough_answer hanswer, ih]

/-- Bodies that do the same after the one and the other record wait alike from then on. -/
theorem Waits.congr {react react' : List (Value κ) → Reaction κ} :
    ∀ {sent received received' : List (Value κ)},
      (∀ more, react (received ++ more) = react' (received' ++ more)) →
      Waits react received sent → Waits react' received' sent
  | [], _, _, _, _ => trivial
  | value :: sent, received, received', hsame, ⟨⟨yielded, hyields⟩, hsent⟩ => by
      have hhere : react' received' = .yields yielded := by simpa [hyields] using (hsame []).symm
      refine ⟨⟨yielded, hhere⟩, Waits.congr (fun more => ?_) hsent⟩
      simpa using hsame (value :: more)

theorem Waits.append {react : List (Value κ) → Reaction κ} :
    ∀ {sent received more : List (Value κ)}, Waits react received sent →
      Waits react (received ++ sent) more → Waits react received (sent ++ more)
  | [], _, _, _, hmore => by simpa using hmore
  | value :: sent, received, more, ⟨hyields, hsent⟩, hmore =>
      ⟨hyields, hsent.append (by simpa using hmore)⟩

theorem Waits.answered {answer : Value κ} (hwaits : Waits react [] received)
    (h : (react received).answer? = some answer) : Waits react [] (received ++ [answer]) := by
  rcases Reaction.exists_of_answer h with ⟨value, hyields, _⟩
  exact hwaits.snoc answer (by simpa using hyields)

theorem Passes.waits (h : Passes react received later) (hwaits : Waits react [] received) :
    Waits react [] later := by
  induction h with
  | here => exact hwaits
  | next hanswer _ ih => exact ih (hwaits.answered hanswer)

/-- As long as the body `inner` yields, the body `whole` yields the same. -/
def Begins (whole inner : List (Value κ) → Reaction κ) : Prop :=
  ∀ received value, Waits inner [] received → inner received = .yields value →
    whole received = .yields value

theorem Begins.refl (inner : List (Value κ) → Reaction κ) : Begins inner inner :=
  fun _ _ _ h => h

theorem Begins.answer (h : Begins whole inner) (hwaits : Waits inner [] received)
    {answer : Value κ} (hanswer : (inner received).answer? = some answer) :
    (whole received).answer? = some answer := by
  rcases Reaction.exists_of_answer hanswer with ⟨value, hyields, _⟩
  rw [h received value hwaits hyields, ← hyields, hanswer]

theorem Begins.passes (h : Begins whole inner) (hwaits : Waits inner [] received)
    (hpasses : Passes inner received later) : Passes whole received later := by
  induction hpasses with
  | here => exact .here _
  | next hanswer _ ih => exact .next (h.answer hwaits hanswer) (ih (hwaits.answered hanswer))

theorem Begins.waits (h : Begins whole inner) : ∀ {sent received : List (Value κ)},
    Waits inner [] received → Waits inner received sent → Waits whole received sent
  | [], _, _, _ => trivial
  | value :: sent, received, hwaits, ⟨⟨yielded, hyields⟩, hsent⟩ =>
      ⟨⟨yielded, h received yielded hwaits hyields⟩,
        h.waits (hwaits.snoc value (by simpa using hyields)) hsent⟩

theorem Begins.waited (h : Begins whole inner) (hwaits : Waits inner [] received) :
    Waits whole [] received :=
  h.waits trivial hwaits

/-- A reading that ends has come to where the inner body is not answered at once. -/
theorem Begins.exists_idle (h : Begins whole inner) (rest : List (Value κ) → Value κ)
    (w : World κ β) : ∀ (rounds : Nat) {received : List (Value κ)}, Waits inner [] received →
      ((unrolled whole rest rounds received : Action κ β _).run w).Finished →
      ∃ later, Passes inner received later ∧ (inner later).answer? = none := by
  intro rounds
  induction rounds with
  | zero => exact fun _ hfinished => absurd hfinished id
  | succ rounds ih =>
      intro received hwaits hfinished
      cases hanswer : (inner received).answer? with
      | none => exact ⟨received, .here received, hanswer⟩
      | some answer =>
          rw [unrolled, reading_answer _ (h.answer hwaits hanswer)] at hfinished
          rcases ih (hwaits.answered hanswer) hfinished with ⟨later, hpasses, hidle⟩
          exact ⟨later, .next hanswer hpasses, hidle⟩

/-- Where the inner body is answered at once for ever, no reading that begins with it ends. -/
theorem Begins.readThrough_unfinished (h : Begins whole inner) (hwaits : Waits inner [] received)
    (hnever : ¬ ∃ later, Passes inner received later ∧ (inner later).answer? = none) :
    (readThrough whole rest received : Action κ β _) = .unfinished := by
  apply Action.ext
  intro w
  refine Outcome.eq_unfinished fun hfinished => hnever ?_
  rcases Action.Rising.exists_of_limit rfl hfinished with ⟨rounds, hrounds⟩
  exact h.exists_idle rest w rounds hwaits (hrounds.symm ▸ hfinished)

end ReadThrough

/-! ## The two bodies -/

/-- The body `whole` first does what `inner` does; where `inner` returns a value, it does what `k`
does after that value, and where `inner` raises a fault, it raises it as well. -/
structure Prolongs (whole inner : List (Value κ) → Reaction κ)
    (k : Value κ → List (Value κ) → Reaction κ) : Prop where
  begins : Begins whole inner
  raises : ∀ received cause, Waits inner [] received → inner received = .raises cause →
    whole received = .raises cause
  returns : ∀ received value, Waits inner [] received → inner received = .returns value →
    ∀ later, whole (received ++ later) = k value later

/-- What a body does that first yields `q` and then does what `k` does after what it is sent. -/
def delegated (q : Value κ) (k : Value κ → List (Value κ) → Reaction κ) :
    List (Value κ) → Reaction κ
  | [] => .yields q
  | value :: later => k value later

/-- The body first yields what `call` answers, whose faults it lets pass, and then does what `k`
does after the value that is sent back.  It has no effects of its own and closing it where it waits
does nothing: `Called` says where it waits for that value, and `At` where it waits later. -/
structure Host.Delegates (host : Host κ β σ) (code : κ) (captured : Scope κ)
    (arguments : List (Value κ)) (call : Action κ β (Value κ))
    (k : Value κ → List (Value κ) → Reaction κ) (Called : σ → Prop)
    (At : Value κ → List (Value κ) → σ → Prop) : Prop where
  start : ∀ w, ∃ body waiting, (host.start code captured arguments).run w = .value body w ∧
    Called waiting ∧ host.advanced body .null =
      (call.within .generator >>= fun q => pure (.yielded q waiting))
  answered : ∀ {body}, Called body → ∀ value,
    Shows (k value) (At value) [] (host.advanced body value)
  advance : ∀ {value received body}, At value received body → ∀ sent,
    Shows (k value) (At value) (received ++ [sent]) (host.advanced body sent)
  closeCalled : ∀ {body}, Called body →
    ∀ w, (host.fully fun d => host.close d body).run w = .value () w
  close : ∀ {value received body}, At value received body →
    ∀ w, (host.fully fun d => host.close d body).run w = .value () w

/-- Where a delegating body waits: for the value of the call, or after it. -/
def delegatedAt (Called : σ → Prop) (At : Value κ → List (Value κ) → σ → Prop) :
    List (Value κ) → σ → Prop
  | [] => Called
  | value :: later => At value later

/-- An action that shows one reaction shows every other one that does the same. -/
theorem Shows.congr {react react' : List (Value κ) → Reaction κ}
    {At At' : List (Value κ) → σ → Prop} {received received' : List (Value κ)}
    {x : Action κ β (Progress κ σ)} (h : Shows react At received x)
    (hreact : react received = react' received')
    (hAt : ∀ body, At received body → At' received' body) : Shows react' At' received' x := by
  intro w
  rcases h w with ⟨progress, hprogress, hrun⟩ | ⟨cause, hraises, hrun⟩
  · cases hprogress with
    | yielded hyields hat => exact Or.inl ⟨_, .yielded (hreact ▸ hyields) (hAt _ hat), hrun⟩
    | returned hreturns => exact Or.inl ⟨_, .returned (hreact ▸ hreturns), hrun⟩
  · exact Or.inr ⟨cause, hreact ▸ hraises, hrun⟩

theorem Shows.of_pure {react : List (Value κ) → Reaction κ} {At : List (Value κ) → σ → Prop}
    {received : List (Value κ)} {x : Action κ β (Progress κ σ)} {progress : Progress κ σ}
    (hx : x = pure progress) (h : Shown react At received progress) :
    Shows react At received x :=
  fun w => Or.inl ⟨progress, h, congrArg (fun y : Action κ β (Progress κ σ) => y.run w) hx⟩

namespace Host

variable {host : Host κ β σ} {code : κ} {captured : Scope κ} {arguments : List (Value κ)}
  {call : Action κ β (Value κ)} {k : Value κ → List (Value κ) → Reaction κ} {Called : σ → Prop}
  {At : Value κ → List (Value κ) → σ → Prop} {q : Value κ}

/-- Once it is known what the call answers, a delegating body is one without effects. -/
theorem Delegates.follows (h : host.Delegates code captured arguments call k Called At)
    (hcall : call = pure q) :
    host.Follows code captured arguments (delegated q k) (delegatedAt Called At) where
  start w := by
    rcases h.start w with ⟨body, waiting, hstart, hwaiting, hadvanced⟩
    have hyields : host.advanced body .null = pure (.yielded q waiting) := by
      rw [hadvanced, hcall]
      rfl
    exact ⟨body, hstart, .of_pure hyields (.yielded rfl hwaiting)⟩
  advance := by
    intro received body hat value
    cases received with
    | nil => exact (h.answered hat value).congr rfl fun _ => id
    | cons first later => exact (h.advance hat value).congr rfl fun _ => id
  close := by
    intro received body hat w
    cases received with
    | nil => exact h.closeCalled hat w
    | cons first later => exact h.close hat w

/-- What a routine over a body without effects does is the reading of the body. -/
theorem resume_eq_readThrough (lawful : host.Lawful) {react : List (Value κ) → Reaction κ}
    {At : List (Value κ) → σ → Prop} (hfollows : host.Follows code captured arguments react At)
    {received : List (Value κ)} (hwaits : Waits react [] received) :
    host.fully (fun d => host.resume d code captured arguments received) =
      readThrough react (fun values => .fn (.resumeRest code captured arguments values)) received :=
  resume_eq_unrolled lawful hfollows hwaits

end Host

/-! ## The same program -/

theorem asProgram_kind_ne_stop {value : Value κ} {cause : Fault κ}
    (h : asProgram value = .error cause) : cause.kind ≠ .stop := by
  cases value with
  | query program => cases h
  | terminal value => cases h
  | pending waiting => cases h
  | _ =>
      cases h
      simp [Fault.kind]

/-- A program that cannot be continued fails in the same way for every continuation. -/
theorem andThen_fails {p : Value κ} (hterminal : ∀ value, p ≠ .terminal value)
    (hop : ∀ op, p ≠ .pending (.operation op)) :
    ∃ cause : Fault κ, cause.kind ≠ .stop ∧
      ∀ (d : Dispatch κ β) (f : Value κ), andThen d p f = .fail cause := by
  rcases Host.program_cases p with ⟨value, rfl⟩ | ⟨op, rfl⟩ | ⟨waiting, rfl, hwaiting⟩ | hinvalid
  · exact absurd rfl (hterminal value)
  · exact absurd rfl (hop op)
  · exact ⟨.unknownOperation waiting, by simp [Fault.kind], fun d f => andThen_refused d f hwaiting⟩
  · exact ⟨.invalidProgram p, by simp [Fault.kind], fun d f => andThen_invalid d f hinvalid⟩

/-- Two programs that are the same; or one that goes on with the whole body and one that goes on
with the inner body and then with the outer one, within the inner part or after it. -/
inductive Split (inner : List (Value κ) → Reaction κ)
    (k : Value κ → List (Value κ) → Reaction κ)
    (wholeRest innerRest outerRest : List (Value κ) → Value κ) : Value κ → Value κ → Prop
  | refl (p : Value κ) : Split inner k wholeRest innerRest outerRest p p
  | inside {received : List (Value κ)} {yielded : Value κ} (op : Operation (Value κ)) :
      Waits inner [] received → inner received = .yields yielded →
      Split inner k wholeRest innerRest outerRest
        (.pending (.operation (op.followedBy (wholeRest received))))
        (.pending (.operation ((op.followedBy (innerRest received)).followedBy (outerRest []))))
  | after {received later : List (Value κ)} {value yielded : Value κ}
      (op : Operation (Value κ)) : Waits inner [] received → inner received = .returns value →
      Waits (k value) [] later → k value later = .yields yielded →
      Split inner k wholeRest innerRest outerRest
        (.pending (.operation (op.followedBy (wholeRest (received ++ later)))))
        (.pending (.operation (op.followedBy (outerRest (value :: later)))))

section Split

variable {whole inner : List (Value κ) → Reaction κ} {k : Value κ → List (Value κ) → Reaction κ}
  {wholeRest innerRest outerRest : List (Value κ) → Value κ} {received : List (Value κ)}
  {q value : Value κ}

/-- Bodies that do the same read in related ways, if they go on in related ways. -/
theorem reading_related {R : Value κ → Value κ → Prop} (hR : ∀ p, R p p) {d d' : Dispatch κ β}
    {react react' : List (Value κ) → Reaction κ} {rest rest' : List (Value κ) → Value κ}
    {received received' : List (Value κ)} {w : World κ β}
    (hreact : react received = react' received')
    (hanswer : ∀ answer, (react received).answer? = some answer →
      Outcome.Related R ((d.apply (rest received) [answer]).run w)
        ((d'.apply (rest' received') [answer]).run w))
    (hwaiting : ∀ yielded (op : Operation (Value κ)), react received = .yields yielded →
      R (.pending (.operation (op.followedBy (rest received))))
        (.pending (.operation (op.followedBy (rest' received'))))) :
    Outcome.Related R ((reading d react rest received).run w)
      ((reading d' react' rest' received').run w) := by
  cases hyields : react received with
  | returns value =>
      rw [reading_returns d rest hyields, reading_returns d' rest' (hreact ▸ hyields)]
      exact .value w (hR _)
  | raises cause =>
      rw [reading_raises d rest hyields, reading_raises d' rest' (hreact ▸ hyields)]
      exact .fault _ w
  | yields yielded =>
      cases hprogram : asProgram yielded with
      | error cause =>
          rw [reading_refused d rest hyields hprogram,
            reading_refused d' rest' (hreact ▸ hyields) hprogram]
          exact .fault cause w
      | ok program =>
          rw [reading_accepted d rest hyields hprogram,
            reading_accepted d' rest' (hreact ▸ hyields) hprogram]
          by_cases hterminal : ∃ answer, program = .terminal answer
          · rcases hterminal with ⟨answer, rfl⟩
            exact hanswer answer (by simp only [hyields, Reaction.answer?, hprogram])
          · by_cases hop : ∃ op, program = .pending (.operation op)
            · rcases hop with ⟨op, rfl⟩
              exact .value w (hwaiting yielded op hyields)
            · rcases andThen_fails (β := β) (fun value h => hterminal ⟨value, h⟩)
                (fun op h => hop ⟨op, h⟩) with ⟨cause, _, hfails⟩
              rw [hfails, hfails]
              exact .fault cause w

/-- After the inner part the two bodies are read alike. -/
theorem Prolongs.unrolled_after (h : Prolongs whole inner k) (hwaits : Waits inner [] received)
    (hreturns : inner received = .returns value) : ∀ (rounds : Nat) {later : List (Value κ)},
      Waits (k value) [] later → ∀ w : World κ β,
      Outcome.Related (Split inner k wholeRest innerRest outerRest)
        ((unrolled whole wholeRest rounds (received ++ later)).run w)
        ((unrolled (delegated q k) outerRest rounds (value :: later)).run w) := by
  intro rounds
  induction rounds with
  | zero => exact fun _ _ => .unfinished
  | succ rounds ih =>
      intro later hlater w
      have hreact : whole (received ++ later) = delegated q k (value :: later) :=
        h.returns received value hwaits hreturns later
      rw [unrolled, unrolled]
      refine reading_related .refl hreact (fun answer hanswer => ?_) fun yielded op hyields => ?_
      · rw [hreact] at hanswer
        have hnext := ih (hlater.answered hanswer) w
        rwa [← List.append_assoc] at hnext
      · exact .after op hwaits hreturns hlater (hreact ▸ hyields)

theorem Prolongs.readThrough_after (h : Prolongs whole inner k) (hwaits : Waits inner [] received)
    (hreturns : inner received = .returns value) {later : List (Value κ)}
    (hlater : Waits (k value) [] later) (w : World κ β) :
    Outcome.Related (Split inner k wholeRest innerRest outerRest)
      ((readThrough whole wholeRest (received ++ later)).run w)
      ((readThrough (delegated q k) outerRest (value :: later)).run w) :=
  .limit (unrolled_rising _ _ _) (unrolled_rising _ _ _) fun rounds =>
    h.unrolled_after hwaits hreturns rounds hlater w

end Split

namespace Host

variable {host : Host κ β σ} {whole inner : List (Value κ) → Reaction κ}
  {k : Value κ → List (Value κ) → Reaction κ}
  {wholeRest innerRest outerRest : List (Value κ) → Value κ} {received : List (Value κ)}

/-- Wherever the inner part has got to, reading the whole body is reading the inner one and going
on with the outer one, if that holds where the inner part has returned. -/
theorem readThrough_split (hprolongs : Prolongs whole inner k) (hwaits : Waits inner [] received)
    (hreturned : ∀ later value, Passes inner received later → inner later = .returns value →
      ∀ w : World κ β, Outcome.Related (Split inner k wholeRest innerRest outerRest)
        ((readThrough whole wholeRest later).run w)
        ((host.continued (.terminal value) (outerRest [])).run w)) (w : World κ β) :
    Outcome.Related (Split inner k wholeRest innerRest outerRest)
      ((readThrough whole wholeRest received).run w)
      ((readThrough inner innerRest received >>= fun p =>
        host.continued p (outerRest [])).run w) := by
  by_cases hstop : ∃ later, Passes inner received later ∧ (inner later).answer? = none
  · rcases hstop with ⟨later, hpasses, hidle⟩
    have hlater : Waits inner [] later := hpasses.waits hwaits
    have hboth : Passes whole received later := hprolongs.begins.passes hwaits hpasses
    rw [hboth.readThrough_eq, hpasses.readThrough_eq]
    let d : Dispatch κ β := host.dispatch 0
    cases hinner : inner later with
    | returns value =>
        rw [readThrough_idle d innerRest hidle, reading_returns d _ hinner,
          pure_bind]
        exact hreturned later value hpasses hinner w
    | raises cause =>
        have hwhole := hprolongs.raises later cause hlater hinner
        have hnone : (whole later).answer? = none := by rw [hwhole]; rfl
        rw [readThrough_idle d innerRest hidle, reading_raises d _ hinner,
          readThrough_idle d wholeRest hnone, reading_raises d _ hwhole]
        exact .fault _ w
    | yields yielded =>
        have hwhole := hprolongs.begins later yielded hlater hinner
        have hnone : (whole later).answer? = none := by rw [hwhole, ← hinner, hidle]
        rw [readThrough_idle d innerRest hidle, readThrough_idle d wholeRest hnone]
        cases hprogram : asProgram yielded with
        | error cause =>
            rw [reading_refused d _ hinner hprogram, reading_refused d _ hwhole hprogram]
            exact .fault cause w
        | ok program =>
            rw [reading_accepted d _ hinner hprogram, reading_accepted d _ hwhole hprogram]
            have hterminal : ∀ answer, program ≠ .terminal answer := by
              rintro answer rfl
              simp [Reaction.answer?, hinner, hprogram] at hidle
            by_cases hop : ∃ op, program = .pending (.operation op)
            · rcases hop with ⟨op, rfl⟩
              have hleft : andThen d (.pending (.operation op)) (innerRest later) =
                  pure (.pending (.operation (op.followedBy (innerRest later)))) := rfl
              rw [hleft, pure_bind, continued_waiting]
              exact .value w (.inside op hlater hinner)
            · rcases andThen_fails (β := β) hterminal (fun op h => hop ⟨op, h⟩) with
                ⟨cause, _, hfails⟩
              rw [hfails, hfails]
              exact .fault cause w
  · rw [hprolongs.begins.readThrough_unfinished hwaits hstop,
      (Begins.refl inner).readThrough_unfinished hwaits hstop]
    exact .unfinished

theorem result_followedBy (lawful : host.Lawful) (op : Operation (Value κ)) (f outcome : Value κ) :
    host.result (op.followedBy f).next [outcome] =
      (host.result op.next [outcome] >>= fun p => host.continued p f) := by
  rw [Operation.followedBy, lawful.result_compose]
  exact congrArg (_ >>= ·) (funext fun p => lawful.result_thenRest f p)

/-- Programs that wait are followed by either function, and what cannot be continued fails. -/
theorem continued_related {R : Value κ → Value κ → Prop} {p : Value κ}
    {x : Value κ → Action κ β (Value κ)} {f : Value κ} (w : World κ β)
    (hterminal : ∀ value, p = .terminal value → ∀ w,
      Outcome.Related R ((host.continued (.terminal value) f).run w) ((x (.terminal value)).run w))
    (hwaiting : ∀ op : Operation (Value κ), p = .pending (.operation op) → ∃ op',
      x (.pending (.operation op)) = pure (.pending (.operation op')) ∧
        R (.pending (.operation (op.followedBy f))) (.pending (.operation op')))
    (hfails : ∀ cause, (∀ g, host.continued p g = .fail cause) → x p = .fail cause) :
    Outcome.Related R ((host.continued p f).run w) ((x p).run w) := by
  by_cases hvalue : ∃ value, p = .terminal value
  · rcases hvalue with ⟨value, rfl⟩
    exact hterminal value rfl w
  · by_cases hop : ∃ op, p = .pending (.operation op)
    · rcases hop with ⟨op, rfl⟩
      rcases hwaiting op rfl with ⟨op', hx, hR⟩
      rw [continued_waiting, hx]
      exact .value w hR
    · rcases andThen_fails (β := β) (fun value h => hvalue ⟨value, h⟩)
        (fun op h => hop ⟨op, h⟩) with ⟨cause, _, hand⟩
      have hall : ∀ g, host.continued p g = .fail cause := by
        intro g
        simp only [continued, hand]
        exact fully_const host _
      rw [hall f, hfails cause hall]
      exact .fault cause w

section Bisimulation

variable {wholeCode innerCode outerCode : κ} {wholeCaptured innerCaptured outerCaptured : Scope κ}
  {wholeArguments innerArguments outerArguments : List (Value κ)}
  {AtWhole AtInner : List (Value κ) → σ → Prop} {Called : σ → Prop}
  {At : Value κ → List (Value κ) → σ → Prop} {q : Value κ}

/-- A finished program goes on with a routine as the reading of its body. -/
theorem continued_terminal_resumed (lawful : host.Lawful) {code : κ} {captured : Scope κ}
    {arguments : List (Value κ)} {react : List (Value κ) → Reaction κ}
    {At : List (Value κ) → σ → Prop} (hfollows : host.Follows code captured arguments react At)
    {yielded : Value κ} (hwaits : Waits react [] received)
    (hyields : react received = .yields yielded) (value : Value κ) :
    host.continued (.terminal value) (resumption code captured arguments received) =
      readThrough react (resumption code captured arguments) (received ++ [value]) :=
  (lawful.result_fn (.resumeRest code captured arguments received) [value]).trans
    (resume_eq_readThrough lawful hfollows (hwaits.snoc value (by simpa using hyields)))

theorem continued_terminal_delegated (lawful : host.Lawful) {call : Action κ β (Value κ)}
    (houter : host.Delegates outerCode outerCaptured outerArguments call k Called At)
    (hcall : call = pure q) (value : Value κ) :
    host.continued (.terminal value) (resumption outerCode outerCaptured outerArguments []) =
      readThrough (delegated q k) (resumption outerCode outerCaptured outerArguments) [value] :=
  have hnothing : Waits (delegated q k) [] [] := trivial
  continued_terminal_resumed lawful (houter.follows hcall) hnothing rfl value

/-- Nobody can tell the two programs apart while they wait. -/
theorem split_bisimulation (lawful : host.Lawful) {call : Action κ β (Value κ)}
    (hwhole : host.Follows wholeCode wholeCaptured wholeArguments whole AtWhole)
    (hinner : host.Follows innerCode innerCaptured innerArguments inner AtInner)
    (houter : host.Delegates outerCode outerCaptured outerArguments call k Called At)
    (hprolongs : Prolongs whole inner k) (hcall : call = pure q) :
    host.Bisimulation (Split inner k (resumption wholeCode wholeCaptured wholeArguments)
      (resumption innerCode innerCaptured innerArguments)
      (resumption outerCode outerCaptured outerArguments)) := by
  intro p p' hpp'
  cases hpp' with
  | refl p => exact .refl .refl p
  | @inside received yielded op hwaits hyields =>
      -- Both call the program's own continuation first.
      refine .waiting op.request fun outcome w => ?_
      have hleft := result_followedBy lawful op
        (resumption wholeCode wholeCaptured wholeArguments received) outcome
      have hright := (result_followedBy lawful
        (op.followedBy (resumption innerCode innerCaptured innerArguments received))
        (resumption outerCode outerCaptured outerArguments []) outcome).trans
          (congrArg (· >>= _) (result_followedBy lawful op _ outcome))
      rw [bind_assoc] at hright
      refine hleft ▸ hright ▸ Outcome.Related.bind_same _ (fun p v => ?_) w
      refine continued_related (x := fun p => host.continued p _ >>= fun r => host.continued r _) v
        (fun value hp w => ?_) (fun next hp => ?_) fun cause hfails => ?_
      · -- The inner part goes on after one more value.
        have hwholeYields := hprolongs.begins received yielded hwaits hyields
        have hwholeWaits := hprolongs.begins.waited hwaits
        rw [continued_terminal_resumed lawful hwhole hwholeWaits hwholeYields,
          continued_terminal_resumed lawful hinner hwaits hyields]
        refine readThrough_split hprolongs (hwaits.snoc value (by simpa using hyields)) ?_ w
        intro later answer hpasses hreturns w
        rw [continued_terminal_delegated lawful houter hcall]
        have hlater := hpasses.waits (hwaits.snoc value (by simpa using hyields))
        have hnothing : Waits (k answer) [] [] := trivial
        simpa using hprolongs.readThrough_after hlater hreturns hnothing w
      · refine ⟨_, ?_, .inside next hwaits hyields⟩
        rw [continued_waiting, pure_bind, continued_waiting]
        rfl
      · rw [hfails]
        rfl
  | @after received later value yielded op hwaits hreturns hlater hyields =>
      refine .waiting op.request fun outcome w => ?_
      have hleft := result_followedBy lawful op
        (resumption wholeCode wholeCaptured wholeArguments (received ++ later)) outcome
      have hright := result_followedBy lawful op
        (resumption outerCode outerCaptured outerArguments (value :: later)) outcome
      refine hleft ▸ hright ▸ Outcome.Related.bind_same _ (fun p v => ?_) w
      refine continued_related (x := fun p => host.continued p _) v
        (fun sent hp w => ?_) (fun next hp => ?_) fun cause hfails => hfails _
      · have hwholeYields : whole (received ++ later) = .yields yielded :=
          (hprolongs.returns received value hwaits hreturns later).trans hyields
        have hwholeWaits : Waits whole [] (received ++ later) :=
          (hprolongs.begins.waited hwaits).append
            (hlater.congr fun more => (hprolongs.returns received value hwaits hreturns more).symm)
        have hrest : ∀ more, k value ([] ++ more) = delegated q k ([value] ++ more) := fun _ => rfl
        have houterWaits : Waits (delegated q k) [] (value :: later) :=
          ⟨⟨q, rfl⟩, hlater.congr hrest⟩
        have hmore := hlater.snoc sent (by simpa using hyields)
        rw [continued_terminal_resumed lawful hwhole hwholeWaits hwholeYields,
          continued_terminal_resumed lawful (houter.follows hcall) houterWaits hyields,
          List.append_assoc, List.cons_append]
        exact hprolongs.readThrough_after hwaits hreturns hmore w
      · exact ⟨_, continued_waiting next _, .after next hwaits hreturns hlater hyields⟩

/-! ### Building the two programs -/

/-- A reading does not end, or fails with what is no stop signal, or gives a program. -/
theorem readThrough_cases (rest : List (Value κ) → Value κ) (hwaits : Waits inner [] received) :
    (readThrough inner rest received : Action κ β _) = .unfinished ∨
      (∃ cause : Fault κ, cause.kind ≠ .stop ∧
        (readThrough inner rest received : Action κ β _) = .fail cause) ∨
      (∃ value, (readThrough inner rest received : Action κ β _) = pure (.terminal value)) ∨
      ∃ op, (readThrough inner rest received : Action κ β _) =
        pure (.pending (.operation op)) := by
  by_cases hstop : ∃ later, Passes inner received later ∧ (inner later).answer? = none
  · rcases hstop with ⟨later, hpasses, hidle⟩
    right
    let d : Dispatch κ β := ⟨fun _ _ => .unfinished, 0⟩
    rw [hpasses.readThrough_eq, readThrough_idle d rest hidle]
    cases hinner : inner later with
    | returns value =>
        rw [reading_returns d rest hinner]
        exact Or.inr (Or.inl ⟨value, rfl⟩)
    | raises cause =>
        rw [reading_raises d rest hinner]
        exact Or.inl ⟨_, Fault.kind_crossing .generator cause, rfl⟩
    | yields yielded =>
        cases hprogram : asProgram yielded with
        | error cause =>
            rw [reading_refused d rest hinner hprogram]
            exact Or.inl ⟨cause, asProgram_kind_ne_stop hprogram, rfl⟩
        | ok program =>
            rw [reading_accepted d rest hinner hprogram]
            by_cases hop : ∃ op, program = .pending (.operation op)
            · rcases hop with ⟨op, rfl⟩
              exact Or.inr (Or.inr ⟨_, rfl⟩)
            · have hterminal : ∀ answer, program ≠ .terminal answer := by
                rintro answer rfl
                simp [Reaction.answer?, hinner, hprogram] at hidle
              rcases andThen_fails (β := β) hterminal (fun op h => hop ⟨op, h⟩) with
                ⟨cause, hkind, hfails⟩
              exact Or.inl ⟨cause, hkind, hfails d _⟩
  · exact Or.inl ((Begins.refl inner).readThrough_unfinished hwaits hstop)

/-- A delegating routine calls, and goes on with what the call answers. -/
theorem resume_delegating (lawful : host.Lawful) {call : Action κ β (Value κ)}
    (houter : host.Delegates outerCode outerCaptured outerArguments call k Called At)
    (hinner : call = readThrough inner innerRest []) :
    host.fully (fun d => host.resume d outerCode outerCaptured outerArguments []) =
      (call >>= fun p =>
        host.continued p (resumption outerCode outerCaptured outerArguments [])) := by
  have hnothing : Waits inner [] [] := trivial
  -- Where the call gives nothing to yield, the body gets no further.
  have hfirst : ∀ w, ∃ waiting,
      (host.fully (fun d => host.resume d outerCode outerCaptured outerArguments [])).run w =
        (((call.within .generator >>= fun q => pure (.yielded q waiting)) >>= fun first =>
          host.fed first []) >>= fun progress =>
            host.settled (resumption outerCode outerCaptured outerArguments) [] progress).run
              w := by
    intro w
    rcases houter.start w with ⟨body, waiting, hstart, _, hadvanced⟩
    refine ⟨waiting, ?_⟩
    rw [fully_resume lawful, Action.run_bind_of_value _ hstart, hadvanced]
    rfl
  have hread : ∀ {q}, call = pure q →
      host.fully (fun d => host.resume d outerCode outerCaptured outerArguments []) =
        readThrough (delegated q k) (resumption outerCode outerCaptured outerArguments) [] :=
    fun hcall => resume_eq_readThrough lawful (houter.follows hcall) trivial
  rcases readThrough_cases (β := β) innerRest hnothing with
    hnone | ⟨cause, hkind, hfail⟩ | ⟨value, hvalue⟩ | ⟨op, hop⟩
  · rw [← hinner] at hnone
    apply Action.ext
    intro w
    rcases hfirst w with ⟨waiting, hrun⟩
    rw [hrun, hnone]
    rfl
  · rw [← hinner] at hfail
    apply Action.ext
    intro w
    rcases hfirst w with ⟨waiting, hrun⟩
    have hpasses : (Action.fail cause : Action κ β (Value κ)).within .generator = .fail cause :=
      congrArg Action.fail (Fault.crossing_of_ne .generator hkind)
    rw [hrun, hfail, hpasses]
    rfl
  · rw [← hinner] at hvalue
    rw [hread hvalue, hvalue, pure_bind, continued_terminal_delegated lawful houter hvalue]
    exact readThrough_answer rfl
  · rw [← hinner] at hop
    rw [hread hop, hop, pure_bind, continued_waiting]
    exact readThrough_idle (host.dispatch 0) _ rfl

/-- Built at once, the two programs fail in the same way, or do not end, or are the same. -/
theorem routine_same_extracted (lawful : host.Lawful)
    (hwhole : host.Follows wholeCode wholeCaptured wholeArguments whole AtWhole)
    (hinner : host.Follows innerCode innerCaptured innerArguments inner AtInner)
    (houter : host.Delegates outerCode outerCaptured outerArguments
      (host.result (.fn (.routine innerCode innerCaptured)) innerArguments) k Called At)
    (hprolongs : Prolongs whole inner k) (w : World κ β) :
    Outcome.Related host.Same
      ((host.result (.fn (.routine wholeCode wholeCaptured)) wholeArguments).run w)
      ((host.result (.fn (.routine outerCode outerCaptured)) outerArguments).run w) := by
  let call := host.result (.fn (.routine innerCode innerCaptured)) innerArguments
  have hnothing : Waits inner [] [] := trivial
  have hcall : call = readThrough inner (resumption innerCode innerCaptured innerArguments) [] :=
    (lawful.result_fn _ _).trans (resume_eq_readThrough lawful hinner trivial)
  have hleft : host.result (.fn (.routine wholeCode wholeCaptured)) wholeArguments =
      readThrough whole (resumption wholeCode wholeCaptured wholeArguments) [] :=
    (lawful.result_fn _ _).trans (resume_eq_readThrough lawful hwhole trivial)
  have hright : host.result (.fn (.routine outerCode outerCaptured)) outerArguments =
      (call >>= fun p =>
        host.continued p (resumption outerCode outerCaptured outerArguments [])) :=
    (lawful.result_fn _ _).trans (resume_delegating lawful houter hcall)
  rw [hleft, hright, hcall]
  by_cases hpure : ∃ q, call = pure q
  · rcases hpure with ⟨q, hpure⟩
    refine (readThrough_split hprolongs hnothing (fun later value hpasses hreturns v => ?_) w).mono
      fun p p' h => ⟨_, split_bisimulation lawful hwhole hinner houter hprolongs hpure, h⟩
    rw [continued_terminal_delegated lawful houter hpure]
    have hlast : Waits (k value) [] [] := trivial
    simpa using hprolongs.readThrough_after (hpasses.waits hnothing) hreturns hlast v
  · -- No inner part has returned, or the call would have given a finished program.
    have hrelated : Outcome.Related (Split inner k
        (resumption wholeCode wholeCaptured wholeArguments)
        (resumption innerCode innerCaptured innerArguments)
        (resumption outerCode outerCaptured outerArguments)) _
        ((readThrough inner _ [] >>= fun p =>
          host.continued p (resumption outerCode outerCaptured outerArguments [])).run w) :=
      readThrough_split hprolongs hnothing (fun later value hpasses hreturns => by
        refine absurd ⟨.terminal value, ?_⟩ hpure
        have hidle : (inner later).answer? = none := by rw [hreturns]; rfl
        rw [hcall, hpasses.readThrough_eq, readThrough_idle (host.dispatch 0) _ hidle,
          reading_returns _ _ hreturns]) w
    generalize (readThrough whole (resumption wholeCode wholeCaptured wholeArguments) []).run w = o
      at hrelated ⊢
    rcases readThrough_cases (β := β) (resumption innerCode innerCaptured innerArguments) hnothing
      with hnone | ⟨cause, _, hfail⟩ | ⟨value, hvalue⟩ | ⟨op, hop⟩
    · rw [hnone, Action.run_bind_of_unfinished _ rfl] at hrelated ⊢
      cases hrelated
      exact .unfinished
    · rw [hfail, Action.run_bind_of_fault _ (Action.run_fail cause w)] at hrelated ⊢
      cases hrelated
      exact .fault cause w
    · exact absurd ⟨_, hcall.trans hvalue⟩ hpure
    · exact absurd ⟨_, hcall.trans hop⟩ hpure

end Bisimulation

end Host

/-! ## A script and its part -/

namespace Script

/-- A document is asked for, then all of them. -/
def wholeBody : List Stmt :=
  [.yield "doc" (.strict (.programOf .getById) [.lit (.text "a")]),
    .yield "docs" (.strict (.programOf .getAll) []),
    .ret (.strict .tuple [.var "doc", .var "docs"])]

/-- The first part of it. -/
def partBody : List Stmt :=
  [.yield "doc" (.strict (.programOf .getById) [.lit (.text "a")]), .ret (.var "doc")]

/-- The same with the first part left to a routine. -/
def delegatingBody : List Stmt :=
  [.yield "doc" (.strict .call [.routine [] partBody]),
    .yield "docs" (.strict (.programOf .getAll) []),
    .ret (.strict .tuple [.var "doc", .var "docs"])]

def wholeReaction : List (Value Code) → Reaction Code
  | [] => .yields (Request.toProgram (.getById (.text "a")))
  | [_] => .yields (Request.toProgram .getAll)
  | doc :: docs :: _ => .returns (.tuple [doc, docs])

def partReaction : List (Value Code) → Reaction Code
  | [] => .yields (Request.toProgram (.getById (.text "a")))
  | doc :: _ => .returns doc

/-- What the whole body does once the document is known. -/
def afterPart (doc : Value Code) : List (Value Code) → Reaction Code
  | [] => .yields (Request.toProgram .getAll)
  | docs :: _ => .returns (.tuple [doc, docs])

theorem wholeReaction_prolongs : Prolongs wholeReaction partReaction afterPart where
  begins received value _ h := by
    cases received with
    | nil => exact h
    | cons doc more => cases h
  raises received cause _ h := by
    cases received <;> cases h
  returns received value hwaits h later := by
    match received, hwaits, h with
    | [doc], _, rfl => cases later <;> rfl

/-- The bodies in the order in which they wait. -/
def wholeAt : List (Value Code) → Body → Prop
  | [], body => body = ⟨[], some "doc", wholeBody.drop 1, []⟩
  | [doc], body => body = ⟨[("doc", doc)], some "docs", wholeBody.drop 2, []⟩
  | _, _ => False

def partAt : List (Value Code) → Body → Prop
  | [], body => body = ⟨[], some "doc", partBody.drop 1, []⟩
  | _, _ => False

def afterAt (doc : Value Code) : List (Value Code) → Body → Prop
  | [], body => body = ⟨[("doc", doc)], some "docs", delegatingBody.drop 2, []⟩
  | _, _ => False

theorem closed_pure (scope : Scope Code) (awaiting : Option String) (rest : List Stmt) :
    (host []).fully (fun d => (host []).close d ⟨scope, awaiting, rest, []⟩) = pure () := by
  have lawful := host_lawful []
  exact lawful.fully_eq_const (fun h => lawful.deeper.close h _) 1 fun _ => rfl

theorem wholeBody_follows :
    (host []).Follows (.routine [] wholeBody) [] [] wholeReaction wholeAt where
  start _ := ⟨⟨[], none, wholeBody, []⟩, rfl, .of_pure (advanced_eq 3 fun _ => rfl)
    (.yielded rfl rfl)⟩
  advance := by
    intro received body hat value
    match received, hat with
    | [], rfl => exact .of_pure (advanced_eq 3 fun _ => rfl) (.yielded rfl rfl)
    | [doc], rfl => exact .of_pure (advanced_eq 3 fun _ => rfl) (.returned rfl)
  close := by
    intro received body hat w
    match received, hat with
    | [], rfl | [doc], rfl =>
        exact congrArg (fun x => Action.run x w) (closed_pure _ _ _)

theorem partBody_follows :
    (host []).Follows (.routine [] partBody) [] [] partReaction partAt where
  start _ := ⟨⟨[], none, partBody, []⟩, rfl, .of_pure (advanced_eq 3 fun _ => rfl)
    (.yielded rfl rfl)⟩
  advance := by
    intro received body hat value
    match received, hat with
    | [], rfl => exact .of_pure (advanced_eq 3 fun _ => rfl) (.returned rfl)
  close := by
    intro received body hat w
    match received, hat with
    | [], rfl => exact congrArg (fun x => Action.run x w) (closed_pure _ _ _)

/-- A body that first yields begins with the value of what it yields. -/
theorem advance_yield {globals scope : Scope Code} {d : Dispatch Code Stores} {rounds : Nat}
    (hrounds : d.rounds = rounds + 3) (name : String) (e : Expr) (rest : List Stmt)
    (sent : Value Code) :
    Body.advance globals d ⟨scope, none, .yield name e :: rest, []⟩ sent =
      ((e.eval globals d scope).within .generator >>= fun value =>
        pure (.yielded value ⟨scope, some name, rest, []⟩)) := by
  let called := (e.eval globals d scope).within .generator
  let statements := Stmt.yield name e :: rest
  have hanswered : ∀ w o, called.run w = o → (valueIn globals d scope e).run w =
      (Action.attempt fun _ => o).run w := by
    rintro w o rfl
    rfl
  apply Action.ext
  intro w
  unfold Body.advance
  rw [hrounds]
  cases hcall : called.run w with
  | value value v =>
      have hturn : (turn globals d scope (.run statements) []).run w =
          .value (.stop (.yielded value ⟨scope, some name, rest, []⟩)) v :=
        Action.run_bind_of_value _ (hanswered w _ hcall)
      have hrun : (runBlocks globals d (rounds + 3) scope (.run statements) []).run w =
          .value (.yielded value ⟨scope, some name, rest, []⟩) v :=
        Action.run_bind_of_value _ hturn
      rw [Action.run_bind_of_value _ hcall]
      exact Action.run_bind_of_value _ hrun
  | fault cause v =>
      -- A fault takes two more rounds to leave the body.
      have hturn : (turn globals d scope (.run statements) []).run w =
          .value (Turn.fail scope [] cause) v :=
        Action.run_bind_of_value _ (hanswered w _ hcall)
      have hrun : (runBlocks globals d (rounds + 3) scope (.run statements) []).run w =
          .value (.ended (.failed cause) scope) v :=
        Action.run_bind_of_value _ hturn
      rw [Action.run_bind_of_fault _ hcall]
      exact Action.run_bind_of_value _ hrun
  | unfinished =>
      have hturn : (turn globals d scope (.run statements) []).run w = .unfinished :=
        Action.run_bind_of_unfinished _ (hanswered w _ hcall)
      have hrun : (runBlocks globals d (rounds + 3) scope (.run statements) []).run w =
          .unfinished := Action.run_bind_of_unfinished _ hturn
      rw [Action.run_bind_of_unfinished _ hcall]
      exact Action.run_bind_of_unfinished _ hrun

/-- The body that leaves its part to a routine begins with a call of it. -/
theorem advanced_delegatingBody :
    (host []).advanced ⟨[], none, delegatingBody, []⟩ .null =
      (((host []).result (.fn (.routine (.routine [] partBody) [])) []).within .generator >>=
        fun q => pure (.yielded q ⟨[], some "doc", delegatingBody.drop 1, []⟩)) := by
  have lawful := host_lawful []
  let part : Value Code := .fn (.routine (.routine [] partBody) [])
  let waiting : Body := ⟨[], some "doc", delegatingBody.drop 1, []⟩
  let called := fun d : Dispatch Code Stores => (d.apply part []).within .generator
  have hcalled : Deepens called := fun h => (h.apply part []).mapFault _
  have hlater : ∀ depth, Body.advance [] ((host []).dispatch (depth + 3))
      ⟨[], none, delegatingBody, []⟩ .null =
        (called ((host []).dispatch (depth + 3)) >>= fun q => pure (.yielded q waiting)) :=
    fun depth => advance_yield rfl "doc" _ (delegatingBody.drop 1) .null
  calc
    (host []).advanced ⟨[], none, delegatingBody, []⟩ .null
        = (host []).fully fun d => called d >>= fun q => pure (.yielded q waiting) :=
          lawful.fully_eq_of_later (Host.deepens_advance lawful _ _)
            (fun h => (hcalled h).bind fun _ => .refl _) 3 hlater
    _ = ((host []).fully called >>= fun q => pure (.yielded q waiting)) :=
          lawful.fully_bind_right hcalled _
    _ = _ := congrArg (· >>= _) (Action.limit_mapFault (lawful.rising_call part []) _)

theorem delegatingBody_delegates :
    (host []).Delegates (.routine [] delegatingBody) [] []
      ((host []).result (.fn (.routine (.routine [] partBody) [])) []) afterPart
      (fun body => body = ⟨[], some "doc", delegatingBody.drop 1, []⟩) afterAt where
  start w := by
    refine ⟨⟨[], none, delegatingBody, []⟩, _, rfl, rfl, ?_⟩
    exact advanced_delegatingBody
  answered := by
    rintro body rfl value
    exact .of_pure (advanced_eq 3 fun _ => rfl) (.yielded rfl rfl)
  advance := by
    intro value received body hat sent
    match received, hat with
    | [], rfl => exact .of_pure (advanced_eq 3 fun _ => rfl) (.returned rfl)
  closeCalled := by
    rintro body rfl w
    exact congrArg (fun x => Action.run x w) (closed_pure _ _ _)
  close := by
    intro value received body hat w
    match received, hat with
    | [], rfl => exact congrArg (fun x => Action.run x w) (closed_pure _ _ _)

end Script

/-! ## The same runs -/

namespace Host

variable {host : Host κ β σ} {whole inner : List (Value κ) → Reaction κ}
  {k : Value κ → List (Value κ) → Reaction κ}

/-- A part of a body may be left to a routine of its own.  A body without effects, silent when it
is closed, that first does what an inner body does and then goes on with the value that this part
returns, and a body that yields the program of the inner routine instead and goes on with what it
is sent, make the same program: under every driver, and with every executor that only calls
continuations, the same operations are asked for in the same order, and both runs leave the same
world and end with the same value or fault, or neither ends. -/
theorem drive_extracted (lawful : host.Lawful) (driver : Driver) {executor : Value κ}
    (hE : host.CallsOnly executor driver)
    {wholeCode innerCode outerCode : κ} {wholeCaptured innerCaptured outerCaptured : Scope κ}
    {wholeArguments innerArguments outerArguments : List (Value κ)}
    {AtWhole AtInner : List (Value κ) → σ → Prop} {Called : σ → Prop}
    {At : Value κ → List (Value κ) → σ → Prop}
    (hwhole : host.Follows wholeCode wholeCaptured wholeArguments whole AtWhole)
    (hinner : host.Follows innerCode innerCaptured innerArguments inner AtInner)
    (houter : host.Delegates outerCode outerCaptured outerArguments
      (host.result (.fn (.routine innerCode innerCaptured)) innerArguments) k Called At)
    (hprolongs : Prolongs whole inner k) :
    Action.Matches (host.SameValue driver) (host.SameFault driver)
      (host.fully fun d => do
        let p ← d.apply (.fn (.routine wholeCode wholeCaptured)) wholeArguments
        driver.drive d executor p)
      (host.fully fun d => do
        let p ← d.apply (.fn (.routine outerCode outerCaptured)) outerArguments
        driver.drive d executor p) := by
  have hbuilt : ∀ f arguments,
      (host.fully fun d => d.apply f arguments >>= driver.drive d executor) =
        (host.result f arguments >>= host.driven driver executor) := fun f arguments =>
    lawful.fully_bind (fun h => h.apply f arguments) fun p => deepens_drive driver executor p
  rw [hbuilt, hbuilt]
  exact driven_matches lawful hE (lawful.result_blind _ _) fun w =>
    routine_same_extracted lawful hwhole hinner houter hprolongs w

/-- A script asks for a document and then for all of them, and the first request may be left to a
routine, also under an executor that calls each continuation twice. -/
theorem drive_extracted_document :
    let host := Script.host []
    host.CallsOnly Script.twice .eager ∧
      host.Follows (.routine [] Script.wholeBody) [] [] Script.wholeReaction Script.wholeAt ∧
      host.Follows (.routine [] Script.partBody) [] [] Script.partReaction Script.partAt ∧
      host.Delegates (.routine [] Script.delegatingBody) [] []
        (host.result (.fn (.routine (.routine [] Script.partBody) [])) []) Script.afterPart
        (fun body => body = ⟨[], some "doc", Script.delegatingBody.drop 1, []⟩) Script.afterAt ∧
      Prolongs Script.wholeReaction Script.partReaction Script.afterPart ∧
      Action.Matches (host.SameValue .eager) (host.SameFault .eager)
        (host.fully fun d => do
          let p ← d.apply (.fn (.routine (.routine [] Script.wholeBody) [])) []
          Driver.eager.drive d Script.twice p)
        (host.fully fun d => do
          let p ← d.apply (.fn (.routine (.routine [] Script.delegatingBody) [])) []
          Driver.eager.drive d Script.twice p) := by
  intro host
  exact ⟨Script.callsOnly_twice .eager, Script.wholeBody_follows, Script.partBody_follows,
    Script.delegatingBody_delegates, Script.wholeReaction_prolongs,
    drive_extracted (Script.host_lawful []) .eager (Script.callsOnly_twice .eager)
      Script.wholeBody_follows Script.partBody_follows Script.delegatingBody_delegates
      Script.wholeReaction_prolongs⟩

end Host

end Workflow

import Workflow.Proofs.Bisimulation

/-!
# The direct reading of a routine

A body without side effects is given by what it does next after the values it has received, its
reaction.  Read directly, such a body is a program: finished where the body returns, and
otherwise the yielded program followed by the reading with one more value received.

A routine does not read its body directly.  It starts the body afresh for every continuation,
sends it the recorded values, answers finished programs in a loop and closes the body at a
waiting one.  It is the same program nevertheless.
-/

namespace Workflow

variable {κ β σ α : Type}

/-- What a body does next. -/
inductive Reaction (κ : Type) where
  | yields (value : Value κ)
  | returns (value : Value κ)
  | raises (cause : Fault κ)

/-- The direct reading of a body that has received `received`; `rest received` is the function
that goes on with the reading once another value is received. -/
def reading (d : Dispatch κ β) (react : List (Value κ) → Reaction κ)
    (rest : List (Value κ) → Value κ) (received : List (Value κ)) : Action κ β (Value κ) :=
  match react received with
  | .returns value => pure (.terminal value)
  | .raises cause => .fail (cause.crossing .generator)
  | .yields value => do
      let program ← asProgram value
      andThen d program (rest received)

section Equations

variable (d : Dispatch κ β) {react : List (Value κ) → Reaction κ}
  (rest : List (Value κ) → Value κ) {received : List (Value κ)} {value : Value κ}

theorem reading_returns (h : react received = .returns value) :
    reading d react rest received = pure (.terminal value) := by
  simp only [reading, h]

theorem reading_raises {cause : Fault κ} (h : react received = .raises cause) :
    reading d react rest received = .fail (cause.crossing .generator) := by
  simp only [reading, h]

theorem reading_refused {cause : Fault κ} (h : react received = .yields value)
    (hvalue : asProgram value = .error cause) : reading d react rest received = .fail cause := by
  simp only [reading, h, hvalue]
  rfl

theorem reading_accepted {program : Value κ} (h : react received = .yields value)
    (hvalue : asProgram value = .ok program) :
    reading d react rest received = andThen d program (rest received) := by
  simp only [reading, h, hvalue]
  rfl

end Equations

/-- The reading depends on its dispatch only through the function that goes on with it. -/
theorem reading_congr {C : Congruence κ β} {d d' : Dispatch κ β}
    {react : List (Value κ) → Reaction κ} {rest : List (Value κ) → Value κ}
    {received : List (Value κ)}
    (h : ∀ value, C.rel (d.apply (rest received) [value]) (d'.apply (rest received) [value])) :
    C.rel (reading d react rest received) (reading d' react rest received) := by
  unfold reading
  split
  · exact C.value _
  · exact C.fault _
  · refine C.bind (Congruence.lift _) fun program => ?_
    cases program with
    | terminal value => exact h value
    | pending operation => exact C.bind (Congruence.lift _) fun _ => C.value _
    | _ => exact C.fault _

/-- The reading, gone through for at most so many yields. -/
def unrolled (react : List (Value κ) → Reaction κ) (rest : List (Value κ) → Value κ) :
    Nat → List (Value κ) → Action κ β (Value κ)
  | 0, _ => .unfinished
  | rounds + 1, received =>
      reading ⟨fun _ sent => unrolled react rest rounds (received ++ sent), rounds⟩ react rest
        received

theorem unrolled_rising (react : List (Value κ) → Reaction κ) (rest : List (Value κ) → Value κ)
    (received : List (Value κ)) :
    Action.Rising fun rounds => (unrolled react rest rounds received : Action κ β _) := by
  have hstep : ∀ (rounds : Nat) (received : List (Value κ)),
      (unrolled react rest rounds received : Action κ β _).Approx
        (unrolled react rest (rounds + 1) received) := by
    intro rounds
    induction rounds with
    | zero => exact fun _ => .of_unfinished _
    | succ rounds ih =>
        intro received
        exact reading_congr (C := Congruence.approx) fun value => ih (received ++ [value])
  refine ⟨fun {m n} hle => ?_⟩
  induction hle with
  | refl => exact .refl _
  | step _ ih => exact ih.trans (hstep _ received)

/-! ## Bodies without side effects -/

/-- How far a body has come that has received `received` and does not raise; `At` says where the
body waits after which values. -/
inductive Shown (react : List (Value κ) → Reaction κ) (At : List (Value κ) → σ → Prop)
    (received : List (Value κ)) : Progress κ σ → Prop
  | yielded {value : Value κ} {body : σ} : react received = .yields value → At received body →
      Shown react At received (.yielded value body)
  | returned {value : Value κ} : react received = .returns value →
      Shown react At received (.returned value)

/-- The action shows what the body does after `received`, and leaves the world as it is. -/
def Shows (react : List (Value κ) → Reaction κ) (At : List (Value κ) → σ → Prop)
    (received : List (Value κ)) (x : Action κ β (Progress κ σ)) : Prop :=
  ∀ w, (∃ progress, Shown react At received progress ∧ x.run w = .value progress w) ∨
    ∃ cause, react received = .raises cause ∧ x.run w = .fault (cause.crossing .generator) w

/-- What a body does next depends only on the values it has received, and closing it where it
waits does nothing: `react` is its reaction, and `At` says where it waits after which values. -/
structure Host.Follows (host : Host κ β σ) (code : κ) (captured : Scope κ)
    (arguments : List (Value κ)) (react : List (Value κ) → Reaction κ)
    (At : List (Value κ) → σ → Prop) : Prop where
  start : ∀ w, ∃ body, (host.start code captured arguments).run w = .value body w ∧
    Shows react At [] (host.fully fun d => host.advance d body .null)
  advance : ∀ {received body}, At received body → ∀ value,
    Shows react At (received ++ [value]) (host.fully fun d => host.advance d body value)
  close : ∀ {received body}, At received body →
    ∀ w, (host.fully fun d => host.close d body).run w = .value () w

/-- The function value that goes on with the reading: the callback `reader`, closed over the values
received. -/
def readOn (reader : κ) (received : List (Value κ)) : Value κ :=
  .fn (.callback reader [("received", .list received)])

/-- The callback `reader` goes on with the direct reading of the reaction. -/
def Host.Reads (host : Host κ β σ) (reader : κ) (react : List (Value κ) → Reaction κ) : Prop :=
  ∀ d received value, host.callback d reader [("received", .list received)] [value] =
    reading d react (readOn reader) (received ++ [value])

/-- The body waits each time one of the values `sent` is sent to it after `received`. -/
def Waits (react : List (Value κ) → Reaction κ) : List (Value κ) → List (Value κ) → Prop
  | _, [] => True
  | received, value :: sent =>
      (∃ yielded, react received = .yields yielded) ∧ Waits react (received ++ [value]) sent

theorem Waits.snoc {react : List (Value κ) → Reaction κ} {yielded : Value κ} (value : Value κ) :
    ∀ {sent received : List (Value κ)}, Waits react received sent →
      react (received ++ sent) = .yields yielded → Waits react received (sent ++ [value])
  | [], received, _, h => by
      rw [List.append_nil] at h
      exact ⟨⟨yielded, h⟩, trivial⟩
  | first :: sent, received, ⟨hfirst, hsent⟩, h => by
      have hlast : react (received ++ [first] ++ sent) = .yields yielded := by
        rw [List.append_assoc]
        exact h
      exact ⟨hfirst, Waits.snoc value hsent hlast⟩

/-! ## The reading at unbounded depth -/

namespace Host

variable {host : Host κ β σ} {react : List (Value κ) → Reaction κ} {reader : κ}

/-- A reader that may nest so deep goes through so many yields. -/
theorem reading_eq_unrolled (hreads : host.Reads reader react) :
    ∀ (depth : Nat) (received : List (Value κ)),
      reading (host.dispatch depth) react (readOn reader) received =
        unrolled react (readOn reader) (depth + 1) received := by
  -- Readings whose functions go on in the same way are equal.
  have hequal : ∀ {d d' : Dispatch κ β} {received : List (Value κ)},
      (∀ value, d.apply (readOn reader received) [value] =
        d'.apply (readOn reader received) [value]) →
      reading d react (readOn reader) received = reading d' react (readOn reader) received := by
    intro d d' received h
    apply Action.Approx.antisymm
    · refine reading_congr (C := Congruence.approx) fun value => ?_
      rw [h value]
      exact .refl _
    · refine reading_congr (C := Congruence.approx) fun value => ?_
      rw [h value]
      exact .refl _
  intro depth
  induction depth with
  | zero => exact fun received => hequal fun _ => rfl
  | succ depth ih =>
      intro received
      refine hequal fun value => ?_
      exact (hreads (host.dispatch depth) received value).trans (ih (received ++ [value]))

theorem fully_reading (hreads : host.Reads reader react) (received : List (Value κ)) :
    host.fully (fun d => reading d react (readOn reader) received) =
      Action.limit fun rounds => unrolled react (readOn reader) rounds received := by
  have hrising := unrolled_rising (β := β) react (readOn reader) received
  rw [← Action.limit_shift hrising]
  simp only [fully, reading_eq_unrolled hreads]

/-! ## The routine at unbounded depth -/

/-- A body goes on at unbounded depth. -/
noncomputable def advanced (host : Host κ β σ) (body : σ) (sent : Value κ) :
    Action κ β (Progress κ σ) :=
  host.fully fun d => host.advance d body sent

/-- Values are sent to a body at unbounded depth. -/
noncomputable def fed (host : Host κ β σ) (progress : Progress κ σ) (sent : List (Value κ)) :
    Action κ β (Progress κ σ) :=
  host.fully fun d => host.feed d progress sent

/-- A routine goes on from where its body is, at unbounded depth. -/
noncomputable def settled (host : Host κ β σ) (rest : List (Value κ) → Value κ)
    (received : List (Value κ)) (progress : Progress κ σ) : Action κ β (Value κ) :=
  host.fully fun d => host.settle d rest d.rounds received progress

theorem deepens_advance (lawful : host.Lawful) (body : σ) (sent : Value κ) :
    Deepens fun d : Dispatch κ β => host.advance d body sent :=
  fun h => lawful.deeper.advance h body sent

theorem deepens_feed (lawful : host.Lawful) (sent : List (Value κ)) (progress : Progress κ σ) :
    Deepens fun d : Dispatch κ β => host.feed d progress sent :=
  fun h => lawful.deeper.feed h sent progress

theorem deepens_settle (lawful : host.Lawful) (rest : List (Value κ) → Value κ)
    (received : List (Value κ)) (progress : Progress κ σ) :
    Deepens fun d : Dispatch κ β => host.settle d rest d.rounds received progress :=
  fun h => lawful.deeper.settle h rest h.rounds received progress

/-- A round more makes no difference at unbounded depth. -/
theorem settle_more_approx (lawful : host.Lawful) (rest : List (Value κ) → Value κ)
    (received : List (Value κ)) (progress : Progress κ σ) :
    (host.fully fun d => host.settle d rest (d.rounds + 1) received progress).Approx
      (host.settled rest received progress) := by
  refine Action.limit_approx fun depth => ?_
  have hdeeper : (host.settle (host.dispatch depth) rest (depth + 1) received progress).Approx
      (host.settle (host.dispatch (depth + 1)) rest (depth + 1) received progress) :=
    lawful.deeper.settle (lawful.dispatches (Nat.le_succ depth)) rest
      (Congruence.Rounds.refl _) received progress
  exact hdeeper.trans (lawful.approx_fully (deepens_settle lawful rest received progress) _)

variable {code : κ} {captured : Scope κ} {arguments : List (Value κ)}
  {At : List (Value κ) → σ → Prop}

/-! ### A routine does no more than the reading -/

/-- Behind a body that shows what it does, whatever does no more than the reading does no more
than the reading. -/
theorem bind_approx_unrolled {rest : List (Value κ) → Value κ} {received : List (Value κ)}
    {x shown : Action κ β (Progress κ σ)} {f : Progress κ σ → Action κ β (Value κ)}
    {rounds : Nat} (hx : x.Approx shown) (hshows : Shows react At received shown)
    (hf : ∀ progress, Shown react At received progress →
      (f progress).Approx (unrolled react rest (rounds + 1) received)) :
    (x >>= f).Approx (unrolled react rest (rounds + 1) received) := by
  intro w
  rcases hx w with hu | heq
  · exact Or.inl (Action.run_bind_of_unfinished f hu)
  · rcases hshows w with ⟨progress, hprogress, hrun⟩ | ⟨cause, hraises, hrun⟩
    · rw [Action.run_bind_of_value f (heq.trans hrun)]
      exact hf progress hprogress w
    · right
      rw [Action.run_bind_of_fault f (heq.trans hrun), unrolled, reading_raises _ _ hraises]
      rfl

theorem settle_approx_unrolled (lawful : host.Lawful)
    (hfollows : host.Follows code captured arguments react At)
    (rest : List (Value κ) → Value κ) (depth : Nat) :
    ∀ (rounds : Nat) (received : List (Value κ)) (progress : Progress κ σ),
      Shown react At received progress →
      (host.settle (host.dispatch depth) rest rounds received.reverse progress).Approx
        (unrolled react rest (rounds + 1) received) := by
  -- Each round of the loop goes through one yield of the reading.
  intro rounds
  induction rounds with
  | zero => exact fun _ _ _ => .of_unfinished _
  | succ rounds ih =>
      intro received progress hprogress
      rw [unrolled]
      cases hprogress with
      | returned hreturns =>
          rw [reading_returns _ _ hreturns]
          exact .refl _
      | @yielded value body hyields hat =>
          -- Closing the body does not show.
          have hclose : ∀ y : Action κ β (Value κ),
              (host.close (host.dispatch depth) body >>= fun _ => y).Approx y := by
            intro y w
            have hsilent : (host.close (host.dispatch depth) body).Approx
                (host.fully fun d => host.close d body) :=
              lawful.approx_fully (fun h => lawful.deeper.close h body) depth
            rcases hsilent w with hu | heq
            · exact Or.inl (Action.run_bind_of_unfinished _ hu)
            · exact Or.inr (Action.run_bind_of_value _ (heq.trans (hfollows.close hat w)))
          cases hprogram : asProgram value with
          | error cause =>
              rw [reading_refused _ _ hyields hprogram]
              simp only [Host.settle, hprogram]
              exact hclose _
          | ok program =>
              rw [reading_accepted _ _ hyields hprogram]
              cases program with
              | terminal answer =>
                  -- The answer goes to the same body, and into the record.
                  simp only [Host.settle, hprogram]
                  have hadvance := lawful.approx_fully (deepens_advance lawful body answer) depth
                  refine bind_approx_unrolled hadvance (hfollows.advance hat answer) ?_
                  intro progress hprogress
                  have hrest := ih (received ++ [answer]) progress hprogress
                  rwa [List.reverse_append] at hrest
              | _ =>
                  simp only [Host.settle, hprogram, List.reverse_reverse]
                  exact hclose _

/-! ### A routine does no less than the reading -/

theorem unrolled_approx_bind {rest : List (Value κ) → Value κ} {received : List (Value κ)}
    {shown : Action κ β (Progress κ σ)} {f : Progress κ σ → Action κ β (Value κ)} {rounds : Nat}
    (hshows : Shows react At received shown)
    (hf : ∀ progress, Shown react At received progress →
      (unrolled react rest rounds received).Approx (f progress)) :
    (unrolled react rest rounds received).Approx (shown >>= f) := by
  intro w
  rcases hshows w with ⟨progress, hprogress, hrun⟩ | ⟨cause, hraises, hrun⟩
  · rw [Action.run_bind_of_value f hrun]
    exact hf progress hprogress w
  · cases rounds with
    | zero => exact Or.inl rfl
    | succ rounds =>
        right
        rw [Action.run_bind_of_fault f hrun, unrolled, reading_raises _ _ hraises]
        rfl

theorem unrolled_approx_settled (lawful : host.Lawful)
    (hfollows : host.Follows code captured arguments react At)
    (rest : List (Value κ) → Value κ) :
    ∀ (rounds : Nat) (received : List (Value κ)) (progress : Progress κ σ),
      Shown react At received progress →
      (unrolled react rest rounds received).Approx
        (host.settled rest received.reverse progress) := by
  intro rounds
  induction rounds with
  | zero => exact fun _ _ _ => .of_unfinished _
  | succ rounds ih =>
      intro received progress hprogress
      refine Action.Approx.trans ?_ (settle_more_approx lawful rest received.reverse progress)
      rw [unrolled]
      cases hprogress with
      | returned hreturns =>
          rw [reading_returns _ _ hreturns]
          exact (Action.rising_const _).approx_limit 0
      | @yielded value body hyields hat =>
          have hclose : ∀ y : Action κ β (Value κ),
              y.Approx (host.fully fun d => host.close d body >>= fun _ => y) := by
            intro y w
            have hsplit := lawful.fully_bind (f := fun d => host.close d body)
              (g := fun _ _ => y) (fun h => lawful.deeper.close h body) fun _ => by
                intro d d' _
                exact .refl y
            have hrun := Action.run_bind_of_value (fun _ => y) (hfollows.close hat w)
            rw [hsplit, fully_const]
            exact Or.inr hrun.symm
          cases hprogram : asProgram value with
          | error cause =>
              rw [reading_refused _ _ hyields hprogram]
              simp only [Host.settle, hprogram]
              exact hclose _
          | ok program =>
              rw [reading_accepted _ _ hyields hprogram]
              cases program with
              | terminal answer =>
                  simp only [Host.settle, hprogram]
                  have hsplit := lawful.fully_bind (deepens_advance lawful body answer)
                    fun progress =>
                      deepens_settle lawful rest (answer :: received.reverse) progress
                  rw [hsplit]
                  refine unrolled_approx_bind (hfollows.advance hat answer) ?_
                  intro progress hprogress
                  have hrest := ih (received ++ [answer]) progress hprogress
                  rwa [List.reverse_append] at hrest
              | _ =>
                  simp only [Host.settle, hprogram, List.reverse_reverse]
                  exact hclose _

/-! ### Sending the recorded values -/

/-- A body that has shown what it does after `received` shows it after all values sent to it
while it waits. -/
theorem shows_fed (lawful : host.Lawful)
    (hfollows : host.Follows code captured arguments react At) :
    ∀ (sent received : List (Value κ)) (x : Action κ β (Progress κ σ)),
      Shows react At received x → Waits react received sent →
      Shows react At (received ++ sent) (x >>= fun progress => host.fed progress sent) := by
  intro sent
  induction sent with
  | nil =>
      intro received x hx _
      have hfed : ∀ progress : Progress κ σ, host.fed progress [] = pure progress := by
        intro progress
        simp only [fed, Host.feed]
        exact fully_const host _
      simpa only [hfed, bind_pure, List.append_nil] using hx
  | cons value sent ih =>
      rintro received x hx ⟨⟨yielded, hyields⟩, hsent⟩ w
      rcases hx w with ⟨progress, hprogress, hrun⟩ | ⟨cause, hraises, _⟩
      · cases hprogress with
        | returned hreturns =>
            -- The body waits here, so it has not returned.
            rw [hyields] at hreturns
            cases hreturns
        | @yielded asked body _ hat =>
            have hfed : host.fed (.yielded asked body) (value :: sent) =
                (host.advanced body value >>= fun next => host.fed next sent) :=
              lawful.fully_bind (deepens_advance lawful body value)
                fun next => deepens_feed lawful sent next
            rw [Action.run_bind_of_value _ hrun, hfed]
            have hrest := ih (received ++ [value]) _ (hfollows.advance hat value) hsent w
            rwa [List.append_assoc] at hrest
      · rw [hyields] at hraises
        cases hraises

/-- What a resumed routine does, one part after the other. -/
theorem fully_resume (lawful : host.Lawful) (code : κ) (captured : Scope κ)
    (arguments received : List (Value κ)) :
    host.fully (fun d => host.resume d code captured arguments received) =
      (host.start code captured arguments >>= fun body =>
        (host.advanced body .null >>= fun first => host.fed first received) >>= fun progress =>
          host.settled (fun values => .fn (.resumeRest code captured arguments values))
            received.reverse progress) := by
  let settle := fun (d : Dispatch κ β) (progress : Progress κ σ) =>
    host.settle d (fun values => .fn (.resumeRest code captured arguments values)) d.rounds
      received.reverse progress
  have hsettle : ∀ progress, Deepens fun d => settle d progress := fun progress =>
    deepens_settle lawful _ _ progress
  have hfed : ∀ first, Deepens fun d => host.feed d first received >>= settle d := by
    intro first d d' h
    exact (deepens_feed lawful received first h).bind fun progress => hsettle progress h
  have hplayed : ∀ body, Deepens fun d => host.advance d body .null >>= fun first =>
      host.feed d first received >>= settle d := by
    intro body d d' h
    exact (deepens_advance lawful body .null h).bind fun first => hfed first h
  calc
    host.fully (fun d => host.resume d code captured arguments received)
        = (host.start code captured arguments >>= fun body => host.fully fun d =>
            host.advance d body .null >>= fun first =>
              host.feed d first received >>= settle d) := by
          have hstart := lawful.fully_bind (f := fun _ => host.start code captured arguments)
            (fun _ => .refl _) hplayed
          rwa [fully_const] at hstart
    _ = (host.start code captured arguments >>= fun body =>
          host.advanced body .null >>= fun first =>
            host.fully fun d => host.feed d first received >>= settle d) := by
          refine congrArg (_ >>= ·) (funext fun body => ?_)
          exact lawful.fully_bind (deepens_advance lawful body .null) hfed
    _ = (host.start code captured arguments >>= fun body =>
          host.advanced body .null >>= fun first =>
            host.fed first received >>= fun progress =>
              host.fully fun d => settle d progress) := by
          refine congrArg (_ >>= ·) (funext fun body => congrArg (_ >>= ·) (funext fun first => ?_))
          exact lawful.fully_bind (deepens_feed lawful received first) hsettle
    _ = _ := by
          simp only [bind_assoc]
          rfl

/-- A resumed routine is the reading of its body after the recorded values. -/
theorem resume_eq_unrolled (lawful : host.Lawful)
    (hfollows : host.Follows code captured arguments react At) {received : List (Value κ)}
    (hwaits : Waits react [] received) :
    host.fully (fun d => host.resume d code captured arguments received) =
      Action.limit fun rounds =>
        unrolled react (fun values => .fn (.resumeRest code captured arguments values)) rounds
          received := by
  let rest := fun values => Value.fn (.resumeRest code captured arguments values)
  have hrising := unrolled_rising (β := β) react rest received
  -- The body is played at once up to where it has received everything.
  have hplayed : ∀ w, ∃ body, (host.start code captured arguments).run w = .value body w ∧
      Shows react At received
        (host.advanced body .null >>= fun first => host.fed first received) := by
    intro w
    rcases hfollows.start w with ⟨body, hstart, hfirst⟩
    exact ⟨body, hstart, shows_fed lawful hfollows received [] _ hfirst hwaits⟩
  apply Action.Approx.antisymm
  · -- At some depth, playing the body may not end; where it does, it shows the reaction.
    refine Action.limit_approx fun depth w => ?_
    rcases hplayed w with ⟨body, hstart, hshows⟩
    have hdepth : (host.advance (host.dispatch depth) body .null >>= fun first =>
        host.feed (host.dispatch depth) first received).Approx
          (host.advanced body .null >>= fun first => host.fed first received) :=
      (lawful.approx_fully (deepens_advance lawful body .null) depth).bind fun first =>
        lawful.approx_fully (deepens_feed lawful received first) depth
    have hupper := bind_approx_unrolled hdepth hshows
      (settle_approx_unrolled lawful hfollows rest depth depth received)
    have hresume : (host.resume (host.dispatch depth) code captured arguments received).run w =
        ((host.advance (host.dispatch depth) body .null >>= fun first =>
          host.feed (host.dispatch depth) first received) >>= fun progress =>
            host.settle (host.dispatch depth) rest depth received.reverse progress).run w := by
      rw [bind_assoc]
      exact Action.run_bind_of_value _ hstart
    show (host.resume (host.dispatch depth) code captured arguments received).run w = _ ∨
      (host.resume (host.dispatch depth) code captured arguments received).run w = _
    rw [hresume]
    exact (hupper.trans (hrising.approx_limit (depth + 1))) w
  · rw [fully_resume lawful]
    refine Action.limit_approx fun rounds w => ?_
    rcases hplayed w with ⟨body, hstart, hshows⟩
    rw [Action.run_bind_of_value _ hstart]
    exact unrolled_approx_bind hshows
      (unrolled_approx_settled lawful hfollows rest rounds received) w

/-! ## The same program -/

/-- Two programs that are the same, or that wait on the same request before a routine goes on
with `rest`, or the reading with `rest'`, after values that the body has received. -/
inductive Resumes (react : List (Value κ) → Reaction κ) (rest rest' : List (Value κ) → Value κ) :
    Value κ → Value κ → Prop
  | refl (p : Value κ) : Resumes react rest rest' p p
  | waiting {received : List (Value κ)} {yielded : Value κ} (request : Request (Value κ))
      (next : Value κ) : Waits react [] received → react received = .yields yielded →
      Resumes react rest rest'
        (.pending (.operation ⟨request, .fn (.compose (.fn (.thenRest (rest received))) next)⟩))
        (.pending (.operation ⟨request, .fn (.compose (.fn (.thenRest (rest' received))) next)⟩))

section Resumes

variable {rest rest' : List (Value κ) → Value κ} {received : List (Value κ)}

/-- Continuing a program with either of the two gives programs that are related again. -/
theorem andThen_resumes {d d' : Dispatch κ β} {yielded : Value κ} (hwaits : Waits react [] received)
    (hyields : react received = .yields yielded) {program : Value κ} {w : World κ β}
    (hterminal : ∀ value, program = .terminal value →
      Outcome.Related (Resumes react rest rest') ((d.apply (rest received) [value]).run w)
        ((d'.apply (rest' received) [value]).run w)) :
    Outcome.Related (Resumes react rest rest') ((andThen d program (rest received)).run w)
      ((andThen d' program (rest' received)).run w) := by
  cases program with
  | terminal value => exact hterminal value rfl
  | pending operation =>
      cases operation with
      | operation op => exact .value w (.waiting op.request op.next hwaits hyields)
      | _ => exact .fault _ w
  | _ => exact .fault _ w

/-- The unrolled readings are related after whatever values the body has received. -/
theorem unrolled_resumes : ∀ (rounds : Nat) {received : List (Value κ)},
    Waits react [] received → ∀ w : World κ β,
      Outcome.Related (Resumes react rest rest') ((unrolled react rest rounds received).run w)
        ((unrolled react rest' rounds received).run w) := by
  intro rounds
  induction rounds with
  | zero => exact fun _ _ => .unfinished
  | succ rounds ih =>
      intro received hwaits w
      rw [unrolled, unrolled]
      cases hreact : react received with
      | returns value =>
          rw [reading_returns _ _ hreact, reading_returns _ _ hreact]
          exact .value w (.refl _)
      | raises cause =>
          rw [reading_raises _ _ hreact, reading_raises _ _ hreact]
          exact .fault _ w
      | yields value =>
          cases hprogram : asProgram value with
          | error cause =>
              rw [reading_refused _ _ hreact hprogram, reading_refused _ _ hreact hprogram]
              exact .fault cause w
          | ok program =>
              rw [reading_accepted _ _ hreact hprogram, reading_accepted _ _ hreact hprogram]
              refine andThen_resumes hwaits hreact fun answer _ => ?_
              exact ih (hwaits.snoc answer (by simpa using hreact)) w

end Resumes

/-- Wherever the body has got to, the resumed routine and the reading end in related ways. -/
theorem resume_reading_related (lawful : host.Lawful) (hreads : host.Reads reader react)
    (hfollows : host.Follows code captured arguments react At) {received : List (Value κ)}
    (hwaits : Waits react [] received) (w : World κ β) :
    Outcome.Related
      (Resumes react (fun values => .fn (.resumeRest code captured arguments values))
        (readOn reader))
      ((host.fully fun d => host.resume d code captured arguments received).run w)
      ((host.fully fun d => reading d react (readOn reader) received).run w) := by
  rw [resume_eq_unrolled lawful hfollows hwaits, fully_reading hreads]
  exact .limit (unrolled_rising _ _ _) (unrolled_rising _ _ _) fun rounds =>
    unrolled_resumes rounds hwaits w

/-- Nobody can tell a routine that waits from the reading that waits. -/
theorem resumes_bisimulation (lawful : host.Lawful) (hreads : host.Reads reader react)
    (hfollows : host.Follows code captured arguments react At) :
    host.Bisimulation
      (Resumes react (fun values => .fn (.resumeRest code captured arguments values))
        (readOn reader)) := by
  intro p q hpq
  cases hpq with
  | refl p => exact .refl (fun p => .refl p) p
  | @waiting received yielded request next hwaits hyields =>
      -- Both call the yielded program's own continuation first.
      refine .waiting request fun outcome w => ?_
      rw [lawful.result_compose, lawful.result_compose]
      refine Outcome.Related.bind_same _ (fun program v => ?_) w
      rw [lawful.result_thenRest, lawful.result_thenRest]
      by_cases hterminal : ∃ value, program = .terminal value
      · rcases hterminal with ⟨value, rfl⟩
        -- Both go on after one more value.
        have hmore : Waits react [] (received ++ [value]) :=
          hwaits.snoc value (by simpa using hyields)
        have hresume : (host.fully fun d => andThen d (.terminal value)
            (.fn (.resumeRest code captured arguments received))) =
              host.fully fun d => host.resume d code captured arguments (received ++ [value]) :=
          lawful.result_fn (.resumeRest code captured arguments received) [value]
        have hread : (host.fully fun d => andThen d (.terminal value) (readOn reader received)) =
            host.fully fun d => reading d react (readOn reader) (received ++ [value]) := by
          refine (lawful.result_fn (.callback reader _) [value]).trans ?_
          exact congrArg host.fully (funext fun d => hreads d received value)
        rw [hresume, hread]
        exact resume_reading_related lawful hreads hfollows hmore v
      · -- What is not finished is passed on, without any call.
        have hidle : ∀ f : Value κ, (host.fully fun d => andThen d program f) =
            andThen (host.dispatch 0) program f := by
          intro f
          have hconst : (fun d : Dispatch κ β => andThen d program f) =
              fun _ => andThen (host.dispatch 0) program f := by
            funext d
            cases program with
            | terminal value => exact absurd ⟨value, rfl⟩ hterminal
            | _ => rfl
          rw [hconst, fully_const]
        rw [hidle, hidle]
        exact andThen_resumes hwaits hyields fun value h => absurd ⟨value, h⟩ hterminal

/-- Calling a routine over a body without side effects gives the same program as reading the body
directly: the two calls fail in the same way, or do not end, or give programs that nobody who
runs them can tell apart. -/
theorem routine_same_reading (lawful : host.Lawful) (hreads : host.Reads reader react)
    (hfollows : host.Follows code captured arguments react At) (w : World κ β) :
    Outcome.Related host.Same
      ((host.result (.fn (.routine code captured)) arguments).run w)
      ((host.fully fun d => reading d react (readOn reader) []).run w) := by
  have hroutine : host.result (.fn (.routine code captured)) arguments =
      host.fully fun d => host.resume d code captured arguments [] :=
    lawful.result_fn (.routine code captured) arguments
  have hbisimulation := resumes_bisimulation lawful hreads hfollows
  have hwaits : Waits react [] [] := trivial
  rw [hroutine]
  exact (resume_reading_related lawful hreads hfollows hwaits w).mono fun p q h =>
    ⟨_, hbisimulation, h⟩

/-! ## A host for every reaction -/

/-- The code of a host that is made for one reaction. -/
inductive ReadingCode where
  | body
  | reader

/-- What a body has received once a value is sent to it; it does not see the first. -/
def heard : Option (List (Value κ)) → Value κ → List (Value κ)
  | none, _ => []
  | some received, sent => received ++ [sent]

/-- The host of one body, which reacts as given, and of its reader.  A suspended body is what it
has received, or nothing before it has begun. -/
def ofReaction (react : List (Value ReadingCode) → Reaction ReadingCode) :
    Host ReadingCode β (Option (List (Value ReadingCode))) where
  callback d code captured arguments :=
    match code, captured, arguments with
    | .reader, [("received", .list received)], [value] =>
        reading d react (readOn .reader) (received ++ [value])
    | _, _, _ => .fail .wrongArity
  start _ _ _ := pure none
  advance _ body sent :=
    match react (heard body sent) with
    | .yields value => pure (.yielded value (some (heard body sent)))
    | .returns value => pure (.returned value)
    | .raises cause => .fail (cause.crossing .generator)
  close _ _ := pure ()

section OfReaction

variable (react : List (Value ReadingCode) → Reaction ReadingCode)

theorem ofReaction_respects (C : Congruence ReadingCode β) : (ofReaction react).Respects C where
  callback h code captured arguments := by
    simp only [ofReaction]
    split
    · exact reading_congr fun value => h.apply _ [value]
    · exact C.fault _
  start _ _ _ := C.value _
  advance h body sent := by
    simp only [ofReaction]
    split
    · exact C.value _
    · exact C.value _
    · exact C.fault _
  close _ _ := C.value _

theorem ofReaction_lawful : (ofReaction react : Host ReadingCode β _).Lawful :=
  ⟨ofReaction_respects react Congruence.approx, ofReaction_respects react Congruence.blind⟩

theorem ofReaction_follows (captured : Scope ReadingCode) (arguments : List (Value ReadingCode)) :
    (ofReaction react : Host ReadingCode β _).Follows .body captured arguments react
      fun received body => body = some received := by
  have hshows : ∀ (body : Option (List (Value ReadingCode))) (sent : Value ReadingCode),
      Shows react (fun received body => body = some received) (heard body sent)
        ((ofReaction react : Host ReadingCode β _).fully fun d =>
          (ofReaction react).advance d body sent) := by
    intro body sent w
    -- Advancing needs no depth, so it does at unbounded depth what it does without any.
    have hconst : (fun d : Dispatch ReadingCode β => (ofReaction react).advance d body sent) =
        fun _ => (ofReaction react).advance ((ofReaction react).dispatch 0) body sent := rfl
    rw [hconst, fully_const]
    simp only [ofReaction]
    cases hreact : react (heard body sent) with
    | yields value => exact Or.inl ⟨_, .yielded hreact rfl, rfl⟩
    | returns value => exact Or.inl ⟨_, .returned hreact, rfl⟩
    | raises cause => exact Or.inr ⟨cause, rfl, rfl⟩
  refine ⟨fun w => ⟨none, rfl, hshows none .null⟩, ?_, ?_⟩
  · rintro received body rfl value
    exact hshows (some received) value
  · intro received body _ w
    exact congrFun (fully_const _ (pure ())) w

end OfReaction

/-- A body that asks for everything, passes over a finished program and returns what it has
received. -/
theorem routine_same_reading_getAll :
    let react : List (Value ReadingCode) → Reaction ReadingCode := fun received =>
      match received with
      | [] => .yields (Request.toProgram .getAll)
      | [_] => .yields (.terminal (.bool true))
      | _ => .returns (.list received)
    let h : Host ReadingCode Unit _ := ofReaction react
    let w : World ReadingCode Unit := ⟨[], {}, ()⟩
    Outcome.Related h.Same ((h.result (.fn (.routine .body [])) []).run w)
      ((h.fully fun d => reading d react (readOn .reader) []).run w) := by
  intro react h w
  exact routine_same_reading (ofReaction_lawful react) (fun _ _ _ => rfl)
    (ofReaction_follows react [] []) w

end Host

end Workflow

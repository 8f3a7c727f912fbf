import Workflow.Proofs.Contract
import Workflow.Proofs.Reading

/-!
# Well-formed programs stay well formed

Every way to build programs, from the single steps to routines, makes well-formed programs of
well-formed ones and stays within the contract of the functions it is given.
-/

namespace Workflow

variable {κ β σ : Type}

namespace Host

variable {host : Host κ β σ} {now c : Contract κ β}

/-! ## Single steps -/

theorem wellFormed_thenCall {f : Callable κ} (request : Request (Value κ))
    (hf : host.Calls c (host.WellFormed c) (.fn f)) :
    host.WellFormed c (request.thenCall (.fn f)) :=
  wellFormed_of_node (.waiting request f hf)

theorem calls_finish (lawful : host.Lawful) :
    host.Calls c (host.WellFormed c) (.fn .finish) := by
  intro value
  rw [result_finish lawful]
  exact .pure (wellFormed_terminal value)

theorem wellFormed_toProgram (lawful : host.Lawful) (request : Request (Value κ)) :
    host.WellFormed c request.toProgram :=
  wellFormed_thenCall request (calls_finish lawful)

/-! ## Combinators -/

variable {f p q : Value κ}

theorem continued_safe (lawful : host.Lawful) (hp : host.WellFormed c p)
    (hf : host.Calls c (host.WellFormed c) f) (hnow : host.CallsAt now (host.WellFormed c) f p) :
    (host.continued p f).Safe now (host.WellFormed c) := by
  refine (walks_continued lawful f).toThreads.safe hf hp ?_
  rintro value rfl
  exact hnow value rfl

theorem mapped_safe (lawful : host.Lawful) (hp : host.WellFormed c p)
    (hf : host.Calls c (fun _ => True) f) (hnow : host.CallsAt now (fun _ => True) f p) :
    (host.mapped f p).Safe now (host.WellFormed c) := by
  -- Whatever the function answers is the value of a finished program.
  have hterminal : ∀ {c' : Contract κ β} {value : Value κ},
      (host.result f [value]).Safe c' (fun _ => True) →
        (host.mapped f (.terminal value)).Safe c' (host.WellFormed c) := by
    intro c' value hvalue
    rw [mapped_terminal lawful]
    exact hvalue.bind fun answer _ => .pure (wellFormed_terminal answer)
  refine (walks_mapped lawful f).toThreads.safe (fun value => hterminal (hf value)) hp ?_
  rintro value rfl
  exact hterminal (hnow value rfl)

theorem calls_pairRest (lawful : host.Lawful) (hq : host.WellFormed c q) :
    host.Calls now (host.WellFormed c) (.fn (.pairRest q)) := by
  intro first
  have hpair : ∀ {c' : Contract κ β}, host.Calls c' (fun _ => True) (.fn (.pairWith first)) := by
    intro c' second
    rw [result_pairWith lawful]
    exact .pure trivial
  rw [result_pairRest lawful]
  exact mapped_safe lawful hq hpair fun value _ => hpair value

theorem paired_safe (lawful : host.Lawful) (hp : host.WellFormed c p)
    (hq : host.WellFormed c q) :
    (host.fully fun d => pair d p q).Safe now (host.WellFormed c) :=
  continued_safe lawful hp (calls_pairRest lawful hq) fun value _ => calls_pairRest lawful hq value

/-! ## Sequences -/

/-- Nothing of the caller's is called while a sequence is built, so it keeps any contract. -/
theorem sequenced_safe (lawful : host.Lawful) :
    ∀ (programs results : List (Value κ)), (∀ p ∈ programs, host.WellFormed c p) →
      ∀ {now : Contract κ β}, (host.sequenced programs results).Safe now (host.WellFormed c)
  | [], results, _, _ => by
      rw [sequenced_nil]
      exact .pure (wellFormed_terminal _)
  | p :: rest, results, hall, _ => by
      have hrest : ∀ {c' : Contract κ β},
          host.Calls c' (host.WellFormed c) (.fn (.sequenceRest rest results)) := by
        intro c' value
        rw [result_sequenceRest lawful]
        exact sequenced_safe lawful rest (value :: results) fun q hq => hall q (by simp [hq])
      rw [sequenced_cons lawful]
      exact continued_safe lawful (hall p (by simp)) hrest fun value _ => hrest value

/-- The programs that a function makes of the items, at unbounded depth. -/
theorem mapItems_safe (lawful : host.Lawful) :
    ∀ items : List (Value κ),
      (∀ item ∈ items, (host.result f [item]).Safe now (host.WellFormed c)) →
      (host.fully fun d => mapItems d f items).Safe now
        fun programs => ∀ p ∈ programs, host.WellFormed c p
  | [], _ => by
      have hnil : (host.fully fun d => mapItems d f []) = pure [] := fully_const host _
      rw [hnil]
      exact .pure (by simp)
  | item :: rest, hf => by
      have hrest : ∀ answer, (host.fully fun d =>
          mapItems d f rest >>= fun answers => pure (answer :: answers)) =
            ((host.fully fun d => mapItems d f rest) >>= fun answers =>
              pure (answer :: answers)) := fun answer =>
        lawful.fully_bind_right (fun h => Congruence.mapItems h f rest) _
      have hcons : (host.fully fun d => mapItems d f (item :: rest)) =
          (host.result f [item] >>= fun answer =>
            (host.fully fun d => mapItems d f rest) >>= fun answers =>
              pure (answer :: answers)) := by
        have hsplit := lawful.fully_bind (f := fun d => d.apply f [item])
          (g := fun d answer => mapItems d f rest >>= fun answers => pure (answer :: answers))
          (fun h => h.apply f [item]) fun answer => by
            intro d d' h
            exact (Congruence.mapItems h f rest).bind fun _ => .refl _
        simp only [hrest] at hsplit
        exact hsplit
      rw [hcons]
      have hitems := mapItems_safe lawful rest fun other hother =>
        hf other (List.mem_cons_of_mem item hother)
      refine (hf item (by simp)).bind fun answer hanswer => ?_
      refine hitems.bind fun answers hanswers => .pure ?_
      simpa using ⟨hanswer, hanswers⟩

theorem itemsOf_eq {v : Value κ} {items : List (Value κ)} (h : v.items? = some items) :
    itemsOf v = .ok items := by
  simp only [itemsOf, h]

theorem sequence_safe (lawful : host.Lawful) {programs : Value κ}
    {items : List (Value κ)} (hitems : programs.items? = some items) (hall : ∀ p ∈ items, host.WellFormed c p) :
    (host.fully fun d => sequence d programs).Safe now (host.WellFormed c) := by
  have hsplit : (host.fully fun d => sequence d programs) =
      ((liftM (itemsOf programs) : Action κ β _) >>= fun items => host.sequenced items []) :=
    lawful.fully_bind_left _ fun items => fun h => Congruence.sequenceFrom h items []
  rw [hsplit]
  exact .ok_bind (itemsOf_eq hitems) (sequenced_safe lawful items [] hall)

theorem traverse_safe (lawful : host.Lawful) {listed : Value κ}
    {items : List (Value κ)} (hitems : listed.items? = some items)
    (hf : ∀ item ∈ items, (host.result f [item]).Safe now (host.WellFormed c)) :
    (host.fully fun d => traverse d f listed).Safe now (host.WellFormed c) := by
  have hsplit : (host.fully fun d => traverse d f listed) =
      ((liftM (itemsOf listed) : Action κ β _) >>= fun items =>
        (host.fully fun d => mapItems d f items) >>= fun programs =>
          host.sequenced programs []) := by
    have hmapped := fun items => lawful.fully_bind (f := fun d => mapItems d f items)
      (g := fun d programs => sequenceFrom d programs [])
      (fun h => Congruence.mapItems h f items) fun programs => fun h =>
        Congruence.sequenceFrom h programs []
    have hwhole := lawful.fully_bind_left (liftM (itemsOf listed)) fun items => by
      intro d d' h
      exact (Congruence.mapItems h f items).bind fun programs =>
        Congruence.sequenceFrom h programs []
    simp only [hmapped] at hwhole
    exact hwhole
  rw [hsplit]
  refine .ok_bind (itemsOf_eq hitems) ?_
  exact (mapItems_safe lawful items hf).bind fun programs hall =>
    sequenced_safe lawful programs [] hall

/-! ## Queries -/

theorem ofProgram_ok (hp : host.WellFormed c p) :
    ∃ query, Query.ofProgram p = .ok query ∧ host.WellFormedQuery c query := by
  refine ⟨.query p, ?_, p, rfl, hp⟩
  simp only [Query.ofProgram, ensureProgram, hp.isProgram]
  rfl

/-- A query is made of a well-formed program. -/
theorem wrapping_safe (lawful : host.Lawful) {build : Dispatch κ β → Action κ β (Value κ)}
    (hbuild : Deepens build) (hsafe : (host.fully build).Safe now (host.WellFormed c)) :
    (host.fully fun d => Query.wrapping (build d)).Safe now (host.WellFormedQuery c) := by
  have hsplit : (host.fully fun d => Query.wrapping (build d)) =
      (host.fully build >>= fun p => liftM (Query.ofProgram p)) :=
    lawful.fully_bind_right hbuild _
  rw [hsplit]
  refine hsafe.bind fun p hp => ?_
  rcases ofProgram_ok hp with ⟨query, hquery, hwellFormed⟩
  exact .ok hquery hwellFormed

/-- What is well formed, or a query on it, counts as a program. -/
theorem asProgram_ok {v : Value κ} (h : host.WellFormed c v ∨ host.WellFormedQuery c v) :
    ∃ p, asProgram v = .ok p ∧ host.WellFormed c p := by
  rcases h with h | ⟨p, rfl, hp⟩
  · refine ⟨v, ?_, h⟩
    cases h.node <;> rfl
  · exact ⟨p, rfl, hp⟩

theorem asProgram_safe (lawful : host.Lawful) {value : Value κ}
    (hf : (host.result f [value]).Safe now fun v => host.WellFormed c v ∨ host.WellFormedQuery c v) :
    (host.result (.fn (.compose (.fn .asProgram) f)) [value]).Safe now (host.WellFormed c) := by
  rw [lawful.result_compose]
  refine hf.bind fun v hv => ?_
  rcases asProgram_ok hv with ⟨p, hprogram, hp⟩
  rw [result_asProgram lawful]
  exact .ok hprogram hp

theorem calls_always (lawful : host.Lawful) (hp : host.WellFormed c p) :
    host.Calls now (host.WellFormed c) (.fn (.always p)) := by
  intro value
  rw [result_always lawful]
  exact .pure hp

theorem mapM_asProgram_ok :
    ∀ items : List (Value κ),
      (∀ v ∈ items, host.WellFormed c v ∨ host.WellFormedQuery c v) →
      ∃ programs, items.mapM asProgram = .ok programs ∧ ∀ p ∈ programs, host.WellFormed c p
  | [], _ => ⟨[], rfl, by simp⟩
  | v :: rest, hall => by
      rcases asProgram_ok (hall v (by simp)) with ⟨p, hp, hpwf⟩
      have htail : ∀ u ∈ rest, host.WellFormed c u ∨ host.WellFormedQuery c u := fun u hu =>
        hall u (List.mem_cons_of_mem v hu)
      rcases mapM_asProgram_ok rest htail with ⟨programs, hrest, hwf⟩
      refine ⟨p :: programs, ?_, by simpa using ⟨hpwf, hwf⟩⟩
      simp only [List.mapM_cons, hp, hrest]
      rfl

theorem querySequence_safe (lawful : host.Lawful) {queries : Value κ}
    {items : List (Value κ)} (hitems : queries.items? = some items)
    (hall : ∀ v ∈ items, host.WellFormed c v ∨ host.WellFormedQuery c v) :
    (host.fully fun d => Query.sequence d queries).Safe now (host.WellFormedQuery c) := by
  have hsplit : (host.fully fun d => Query.sequence d queries) =
      ((liftM (Query.programsOf queries) : Action κ β _) >>= fun programs =>
        host.fully fun d => Query.wrapping (sequenceFrom d programs [])) :=
    lawful.fully_bind_left _ fun programs => fun h =>
      Congruence.wrapping (Congruence.sequenceFrom h programs [])
  rcases mapM_asProgram_ok items hall with ⟨programs, hprograms, hwf⟩
  have hlisted : Query.programsOf queries = .ok programs := by
    simp only [Query.programsOf, itemsOf_eq hitems]
    exact hprograms
  have hsequenced : (host.sequenced programs []).Safe now (host.WellFormed c) :=
    sequenced_safe lawful programs [] hwf
  rw [hsplit]
  exact .ok_bind hlisted
    (wrapping_safe lawful (fun h => Congruence.sequenceFrom h programs []) hsequenced)

/-! ## Routines -/

/-- What a body comes to: it yields a well-formed program or a query on one, and goes on within
`At`, or it returns. -/
inductive Yields (host : Host κ β σ) (c : Contract κ β) (At : σ → Prop) : Progress κ σ → Prop
  | yielded {value : Value κ} {body : σ} :
      host.WellFormed c value ∨ host.WellFormedQuery c value → At body →
      Yields host c At (.yielded value body)
  | returned (value : Value κ) : Yields host c At (.returned value)

/-- The body of a routine yields nothing but well-formed programs and queries on them, whatever it
is sent, `At` being what holds of it where it waits; and if the contract asks for that, it always
comes to a program that waits, or to its end.  A body that has not begun is sent nothing. -/
structure WellBehaved (host : Host κ β σ) (now c : Contract κ β) (code : κ) (captured : Scope κ)
    (arguments : List (Value κ)) (At : σ → Prop) : Prop where
  start : (host.start code captured arguments).Safe now fun body =>
    (host.fully fun d => host.advance d body .null).Safe now (host.Yields c At)
  advance : ∀ body sent, At body →
    (host.fully fun d => host.advance d body sent).Safe now (host.Yields c At)
  close : ∀ body, At body → (host.fully fun d => host.close d body).Safe now fun _ => True
  ends : now.total → ∀ (received : List (Value κ)) (w : World κ β), now.keeps w.outside →
    ((host.fully fun d => host.resume d code captured arguments received).run w).Finished

section Routine

variable {code : κ} {captured : Scope κ} {arguments : List (Value κ)} {At : σ → Prop}

/-- A routine goes on, after values that it has received, with the next one. -/
noncomputable def resumed (host : Host κ β σ) (code : κ) (captured : Scope κ)
    (arguments received : List (Value κ)) : Action κ β (Value κ) :=
  host.fully fun d => host.resume d code captured arguments received

/-- The programs that a routine waits for, each continued with the rest of it. -/
noncomputable def awaiting (host : Host κ β σ) (code : κ) (captured : Scope κ)
    (arguments received : List (Value κ)) (p : Value κ) : Action κ β (Value κ) :=
  host.continued p (.fn (.resumeRest code captured arguments received))

/-- The continuation of a program that a routine waits for. -/
theorem result_resumed (lawful : host.Lawful) (op : Operation (Value κ))
    (received : List (Value κ)) (outcome : Value κ) :
    host.result (op.followedBy (.fn (.resumeRest code captured arguments received))).next
        [outcome] =
      (host.result op.next [outcome] >>= host.awaiting code captured arguments received) := by
  have hnext : host.result (op.followedBy
      (.fn (.resumeRest code captured arguments received))).next [outcome] = _ :=
    lawful.result_compose _ _ _
  simp only [lawful.result_thenRest] at hnext
  exact hnext

theorem feed_safe (lawful : host.Lawful) (hbody : host.WellBehaved now c code captured arguments At)
    (depth : Nat) :
    ∀ (received : List (Value κ)) (progress : Progress κ σ), host.Yields c At progress →
      (host.feed (host.dispatch depth) progress received).Safe now.partly (host.Yields c At)
  | [], _, hprogress => .pure hprogress
  | _ :: _, .returned value, _ => .pure (.returned value)
  | sent :: rest, .yielded _ body, .yielded _ hat => by
      have hadvance : (host.advance (host.dispatch depth) body sent).Safe now.partly
          (host.Yields c At) :=
        .of_approx (lawful.approx_fully (deepens_advance lawful body sent) depth)
          (hbody.advance body sent hat).partly
      exact hadvance.bind fun next hnext => feed_safe lawful hbody depth rest next hnext

/-- Within some depth and some rounds, a routine comes to its end or to a program that waits and
goes on with the routine. -/
theorem settle_safe (lawful : host.Lawful)
    (hbody : host.WellBehaved now c code captured arguments At) (depth : Nat) :
    ∀ (rounds : Nat) (received : List (Value κ)) (progress : Progress κ σ),
      host.Yields c At progress →
      (host.settle (host.dispatch depth)
        (fun values => .fn (.resumeRest code captured arguments values)) rounds received
          progress).Safe now.partly (host.Grown c (host.awaiting code captured arguments))
  | 0, _, _, _ => .unfinished
  | rounds + 1, received, .returned value, _ => .pure (.wellFormed (wellFormed_terminal value))
  | rounds + 1, received, .yielded value body, .yielded hvalue hat => by
      rcases asProgram_ok hvalue with ⟨p, hprogram, hp⟩
      cases hp.node with
      | finished answer =>
          -- The loop goes another round, with what the program has finished with.
          have hadvance : (host.advance (host.dispatch depth) body answer).Safe now.partly
              (host.Yields c At) :=
            .of_approx (lawful.approx_fully (deepens_advance lawful body answer) depth)
              (hbody.advance body answer hat).partly
          simp only [Host.settle, hprogram]
          exact hadvance.bind fun next hnext =>
            settle_safe lawful hbody depth rounds (answer :: received) next hnext
      | waiting request f hf =>
          -- The body is given up, and the program goes on with the routine instead.
          have hclose : (host.close (host.dispatch depth) body).Safe now.partly fun _ => True :=
            .of_approx (lawful.approx_fully (fun h => lawful.deeper.close h body) depth)
              (hbody.close body hat).partly
          simp only [Host.settle, hprogram]
          exact hclose.bind fun _ _ => .pure (.waiting received.reverse ⟨request, .fn f⟩ hp
            (result_resumed lawful _ received.reverse))

/-- Whatever a routine has received, what becomes of it waits and goes on with the routine. -/
theorem resumed_grown (lawful : host.Lawful)
    (hbody : host.WellBehaved now c code captured arguments At) (received : List (Value κ)) :
    (host.resumed code captured arguments received).Safe now
      (host.Grown c (host.awaiting code captured arguments)) := by
  -- Within some depth the routine may not come to an end; at unbounded depth `hbody` says that it
  -- does, so the two are shown apart.
  refine .of_partly (.limit fun depth => ?_) fun htotal w hw => hbody.ends htotal received w hw
  refine hbody.start.partly.bind fun body hbegins => ?_
  have hadvance : (host.advance (host.dispatch depth) body .null).Safe now.partly
      (host.Yields c At) :=
    .of_approx (lawful.approx_fully (deepens_advance lawful body .null) depth) hbegins.partly
  refine hadvance.bind fun first hfirst => ?_
  refine (feed_safe lawful hbody depth received first hfirst).bind fun progress hprogress => ?_
  exact settle_safe lawful hbody depth _ received.reverse progress hprogress

/-- A routine makes a well-formed program. -/
theorem resumed_safe (lawful : host.Lawful) (hnow : now.Refines c)
    (hbody : host.WellBehaved now c code captured arguments At) (received : List (Value κ)) :
    (host.resumed code captured arguments received).Safe now (host.WellFormed c) := by
  have hthreads : ∀ received, host.Threads (host.awaiting code captured arguments received) :=
    fun received => (walks_continued lawful _).toThreads
  refine (resumed_grown lawful hbody received).mono fun p hp => ?_
  refine hp.isWellFormed hthreads fun received value => ?_
  -- At a finished program the routine is resumed at once, with one value more.
  have hresume : host.awaiting code captured arguments received (.terminal value) =
      host.resumed code captured arguments (received ++ [value]) :=
    lawful.result_fn (.resumeRest code captured arguments received) [value]
  rw [hresume]
  exact (resumed_grown lawful hbody _).refine hnow

/-- A body without side effects behaves well if its reaction does. -/
theorem Follows.wellBehaved {react : List (Value κ) → Reaction κ}
    {At : List (Value κ) → σ → Prop}
    (hfollows : host.Follows code captured arguments react At)
    (hyields : ∀ received value, react received = .yields value →
      host.WellFormed c value ∨ host.WellFormedQuery c value)
    (hraises : ∀ received cause, react received = .raises cause →
      now.allowed (cause.crossing .generator))
    (hends : now.total → ∀ (received : List (Value κ)) (w : World κ β), now.keeps w.outside →
      ((host.resumed code captured arguments received).run w).Finished) :
    host.WellBehaved now c code captured arguments fun body => ∃ received, At received body := by
  have hshows : ∀ {received : List (Value κ)} {x : Action κ β (Progress κ σ)},
      Shows react At received x →
      x.Safe now (host.Yields c fun body => ∃ received, At received body) := by
    intro received x hx
    refine .of_still fun w => ?_
    rcases hx w with ⟨progress, hprogress, hvalue⟩ | ⟨cause, hreact, hfault⟩
    · refine Or.inl ⟨progress, ?_, hvalue⟩
      cases hprogress with
      | yielded hreact hat => exact .yielded (hyields _ _ hreact) ⟨received, hat⟩
      | returned => exact .returned _
    · exact Or.inr ⟨_, hraises received cause hreact, hfault⟩
  refine ⟨.of_still fun w => ?_, fun body sent hat => ?_, fun body hat => ?_, hends⟩
  · rcases hfollows.start w with ⟨body, hstart, hfirst⟩
    exact Or.inl ⟨body, hshows hfirst, hstart⟩
  · rcases hat with ⟨received, hat⟩
    exact hshows (hfollows.advance hat sent)
  · rcases hat with ⟨received, hat⟩
    exact .of_still fun w => Or.inl ⟨(), trivial, hfollows.close hat w⟩

end Routine

end Host

end Workflow

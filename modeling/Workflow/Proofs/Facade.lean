import Workflow.Proofs.Executors
import Workflow.Proofs.Members

/-!
# The facade adds no meaning

An expression of the facade is put together from the class and the methods of queries
(`Facade`).  Each of them stands for an expression in the bare combinators, its core, which knows
no queries and checks for programs only where the facade promises to.  Evaluating an expression
fails exactly as building its core does, or gives a query of the same program
(`Host.queried_related`).

The core is written with functions of its own for what the facade passes on inside: the function
that drops a result and the function that unwraps what another one answers.  Any functions will do
that behave so, since a program is the same whichever of them it goes on with
(`Host.continued_same`).
-/

namespace Workflow

variable {κ β σ α : Type}

/-! ## Expressions -/

/-- A verb of the facade with its operands. -/
inductive Facade.Verb (κ : Type) where
  | request (made : Request (Value κ))
  | finished (value : Value κ)

namespace Facade.Verb

/-- The program of the helper that goes by the name of the verb. -/
def program : Verb κ → Value κ
  | .request made => made.toProgram
  | .finished value => .terminal value

def name : Verb κ → String
  | .request made => made.kind.verb
  | .finished _ => "finished"

theorem program_isProgram (verb : Verb κ) : verb.program.isProgram = true := by
  cases verb <;> rfl

end Facade.Verb

mutual

/-- An expression that ends in a query. -/
inductive Facade (κ : Type) where
  /-- The constructor on any value. -/
  | wrap (value : Value κ)
  /-- A verb on the class. -/
  | start (verb : Facade.Verb κ)
  /-- A verb on a query. -/
  | followedBy (query : Facade κ) (verb : Facade.Verb κ)
  | map (query : Facade κ) (f : Value κ)
  | zipProgram (query : Facade κ) (other : Value κ)
  | zip (query other : Facade κ)
  | andThenProgram (query : Facade κ) (f : Value κ)
  | andThen (query : Facade κ) (f : Value κ)
  | sequence (elements : Facade.Elements κ)

/-- What a sequence is made of: further expressions and any values. -/
inductive Facade.Elements (κ : Type) where
  | nil
  | query (first : Facade κ) (rest : Facade.Elements κ)
  | value (first : Value κ) (rest : Facade.Elements κ)

end

namespace Facade

/-- Uses a member that queries alone have. -/
def onQuery (member : String) (body : Value κ → Action κ β (Value κ)) :
    Value κ → Action κ β (Value κ)
  | .query program => body program
  | value => .fail (.missingMember value member)

mutual

/-- Evaluates an expression by the class and the methods of queries. -/
def evaluate (d : Dispatch κ β) : Facade κ → Action κ β (Value κ)
  | .wrap value => liftM (Query.ofProgram value)
  | .start verb => liftM (Query.ofProgram verb.program)
  | .followedBy query verb =>
      query.evaluate d >>= onQuery verb.name fun program =>
        Query.followedBy d program verb.program
  | .map query f => query.evaluate d >>= onQuery "map" fun program => Query.map d program f
  | .zipProgram query other =>
      query.evaluate d >>= onQuery "zip_" fun program => Query.zipProgram d program other
  | .zip query other =>
      query.evaluate d >>= onQuery "zip" fun program => do
        Query.zip d program (← other.evaluate d)
  | .andThenProgram query f =>
      query.evaluate d >>= onQuery "and_then_" fun program => Query.andThenProgram d program f
  | .andThen query f =>
      query.evaluate d >>= onQuery "and_then" fun program => Query.andThen d program f
  | .sequence elements => do Query.sequence d (.list (← elements.evaluate d))

def Elements.evaluate (d : Dispatch κ β) : Elements κ → Action κ β (List (Value κ))
  | .nil => pure []
  | .query first rest => do
      let value ← first.evaluate d
      return value :: (← rest.evaluate d)
  | .value first rest => do return first :: (← rest.evaluate d)

end

/-! ## Cores -/

/-- The functions that the cores are written with: `constant p` answers everything with `p`, and
`unwrapping f` answers with the program of what `f` answers. -/
structure Functions (κ : Type) where
  constant : Value κ → Value κ
  unwrapping : Value κ → Value κ

/-- The functions behave as their names say. -/
structure Functions.Behave (functions : Functions κ) (host : Host κ β σ) : Prop where
  constant : ∀ program value, host.result (functions.constant program) [value] = pure program
  unwrapping : ∀ f value, host.result (functions.unwrapping f) [value] =
    (host.result f [value] >>= fun answer => liftM (asProgram answer))

mutual

/-- Builds the core of an expression by the bare combinators. -/
def core (functions : Functions κ) (d : Dispatch κ β) : Facade κ → Action κ β (Value κ)
  | .wrap value => liftM (ensureProgram value)
  | .start verb => pure verb.program
  | .followedBy query verb => do
      Workflow.andThen d (← query.core functions d) (functions.constant verb.program)
  | .map query f => do mapProgram d f (← query.core functions d)
  | .zipProgram query other => do pair d (← query.core functions d) other
  | .zip query other => do
      let first ← query.core functions d
      pair d first (← other.core functions d)
  | .andThenProgram query f => do
      ensureProgram (← Workflow.andThen d (← query.core functions d) f)
  | .andThen query f => do
      ensureProgram (← Workflow.andThen d (← query.core functions d) (functions.unwrapping f))
  | .sequence elements => do
      let elements ← elements.core functions d
      let programs ← (elements.mapM asProgram : Except (Fault κ) (List (Value κ)))
      Workflow.sequence d (.list programs)

/-- The cores of the expressions among the elements and the values as they are. -/
def Elements.core (functions : Functions κ) (d : Dispatch κ β) :
    Elements κ → Action κ β (List (Value κ))
  | .nil => pure []
  | .query first rest => do
      let program ← first.core functions d
      return program :: (← rest.core functions d)
  | .value first rest => do return first :: (← rest.core functions d)

end

end Facade

namespace Congruence

variable {C : Congruence κ β} {d d' : Dispatch κ β}

theorem onQuery {member : String} {body body' : Value κ → Action κ β (Value κ)}
    (h : ∀ program, C.rel (body program) (body' program)) (value : Value κ) :
    C.rel (Facade.onQuery member body value) (Facade.onQuery member body' value) := by
  cases value with
  | query program => exact h program
  | _ => exact C.fault _

mutual

theorem facadeEvaluate (h : C.Dispatches d d') :
    ∀ e : Facade κ, C.rel (e.evaluate d) (e.evaluate d')
  | .wrap _ | .start _ => lift _
  | .followedBy query _ =>
      C.bind (facadeEvaluate h query) (onQuery fun _ => wrapping (andThen h _ _))
  | .map query _ => C.bind (facadeEvaluate h query) (onQuery fun _ => wrapping (mapProgram h _ _))
  | .zipProgram query _ => C.bind (facadeEvaluate h query) (onQuery fun _ => wrapping (pair h _ _))
  | .zip query other =>
      C.bind (facadeEvaluate h query)
        (onQuery fun _ => C.bind (facadeEvaluate h other) fun _ => queryZip h _ _)
  | .andThenProgram query _ | .andThen query _ =>
      C.bind (facadeEvaluate h query) (onQuery fun _ => wrapping (andThen h _ _))
  | .sequence elements => C.bind (facadeElements h elements) fun _ => querySequence h _

theorem facadeElements (h : C.Dispatches d d') :
    ∀ elements : Facade.Elements κ, C.rel (elements.evaluate d) (elements.evaluate d')
  | .nil => C.value _
  | .query first rest =>
      C.bind (facadeEvaluate h first) fun _ => C.bind (facadeElements h rest) fun _ => C.value _
  | .value _ rest => C.bind (facadeElements h rest) fun _ => C.value _

end

mutual

theorem facadeCore (functions : Facade.Functions κ) (h : C.Dispatches d d') :
    ∀ e : Facade κ, C.rel (e.core functions d) (e.core functions d')
  | .wrap _ => lift _
  | .start _ => C.value _
  | .followedBy query _ => C.bind (facadeCore functions h query) fun _ => andThen h _ _
  | .map query _ => C.bind (facadeCore functions h query) fun _ => mapProgram h _ _
  | .zipProgram query _ => C.bind (facadeCore functions h query) fun _ => pair h _ _
  | .zip query other =>
      C.bind (facadeCore functions h query) fun _ =>
        C.bind (facadeCore functions h other) fun _ => pair h _ _
  | .andThenProgram query _ | .andThen query _ =>
      C.bind (facadeCore functions h query) fun _ => C.bind (andThen h _ _) fun _ => lift _
  | .sequence elements =>
      C.bind (facadeCoreElements functions h elements) fun _ =>
        C.bind (lift _) fun _ => sequence h _

theorem facadeCoreElements (functions : Facade.Functions κ) (h : C.Dispatches d d') :
    ∀ elements : Facade.Elements κ,
      C.rel (elements.core functions d) (elements.core functions d')
  | .nil => C.value _
  | .query first rest =>
      C.bind (facadeCore functions h first) fun _ =>
        C.bind (facadeCoreElements functions h rest) fun _ => C.value _
  | .value _ rest => C.bind (facadeCoreElements functions h rest) fun _ => C.value _

end

end Congruence

namespace Host

variable {host : Host κ β σ} {functions : Facade.Functions κ} {p q f : Value κ}

/-! ## What the combinators give -/

theorem Same.isProgram_eq (h : host.Same p q) : p.isProgram = q.isProgram := by
  cases same_bisimulation p q h <;> rfl

/-- A program that `f` follows is a program, if `f` answers with programs. -/
theorem continued_isProgram (lawful : host.Lawful)
    (hf : ∀ value r w v, (host.result f [value]).run w = .value r v → r.isProgram = true)
    {r : Value κ} {w v : World κ β} (h : (host.continued p f).run w = .value r v) :
    r.isProgram = true := by
  rcases (walks_continued lawful f).value_cases h with ⟨value, rfl⟩ | ⟨op, rfl⟩
  · exact hf value r w v h
  · rw [continued_waiting] at h
    cases h
    rfl

theorem mapped_isProgram (lawful : host.Lawful) {r : Value κ} {w v : World κ β}
    (h : (host.mapped f p).run w = .value r v) : r.isProgram = true := by
  rcases (walks_mapped lawful f).value_cases h with ⟨value, rfl⟩ | ⟨op, rfl⟩
  · rw [mapped_terminal lawful] at h
    rcases Action.exists_of_run_bind_value h with ⟨answer, u, _, hpure⟩
    cases hpure
    rfl
  · rw [mapped_waiting] at h
    cases h
    rfl

theorem paired_isProgram (lawful : host.Lawful) {r : Value κ} {w v : World κ β}
    (h : (host.paired p q).run w = .value r v) : r.isProgram = true := by
  refine continued_isProgram lawful (fun first r w v hrest => ?_) h
  rw [result_pairRest lawful] at hrest
  exact mapped_isProgram lawful hrest

theorem sequenced_isProgram (lawful : host.Lawful) :
    ∀ (ps results : List (Value κ)) {r : Value κ} {w v : World κ β},
      (host.sequenced ps results).run w = .value r v → r.isProgram = true
  | [], results, r, w, v, h => by
      rw [sequenced_nil] at h
      cases h
      rfl
  | p :: rest, results, r, w, v, h => by
      rw [sequenced_cons lawful] at h
      refine continued_isProgram lawful (fun value r w v hrest => ?_) h
      rw [result_sequenceRest lawful] at hrest
      exact sequenced_isProgram lawful rest (value :: results) hrest

/-! ## Queries and their programs -/

/-- The query holds a program that nobody can tell from `program`. -/
def Wraps (host : Host κ β σ) (query program : Value κ) : Prop :=
  ∃ wrapped, query = .query wrapped ∧ wrapped.isProgram = true ∧ host.Same wrapped program

variable {x y : Action κ β (Value κ)}

/-- The constructor of queries refuses what the check for programs refuses. -/
theorem wrapping_related (h : ∀ w, Outcome.Related host.Same (x.run w) (y.run w))
    (w : World κ β) :
    Outcome.Related host.Wraps ((Query.wrapping x).run w)
      ((y >>= fun program => liftM (ensureProgram program)).run w) := by
  refine (h w).bind fun p q v hpq => ?_
  cases same_bisimulation p q hpq with
  | waiting => exact .value v ⟨_, rfl, rfl, hpq⟩
  | idle =>
      by_cases hp : p.isProgram = true
      · have hquery : Query.ofProgram p = .ok (.query p) := by
          simp only [Query.ofProgram, ensureProgram, hp]
          rfl
        rw [hquery, ensureProgram, if_pos hp]
        exact .value v ⟨p, rfl, hp, hpq⟩
      · have hquery : Query.ofProgram p = .error (.invalidProgram p) := by
          simp only [Query.ofProgram, ensureProgram, hp]
          rfl
        rw [hquery, ensureProgram, if_neg hp]
        exact .fault _ v

/-- It refuses nothing where only programs are built. -/
theorem wrapping_related_of_isProgram (h : ∀ w, Outcome.Related host.Same (x.run w) (y.run w))
    (hy : ∀ {r w v}, y.run w = .value r v → r.isProgram = true) (w : World κ β) :
    Outcome.Related host.Wraps ((Query.wrapping x).run w) (y.run w) := by
  have hcheck : (y >>= fun program => liftM (ensureProgram program)) = y := by
    apply Action.ext
    intro w
    cases hrun : y.run w with
    | value r v =>
        rw [Action.run_bind_of_value _ hrun, ensureProgram, if_pos (hy hrun)]
        rfl
    | fault cause v => exact Action.run_bind_of_fault _ hrun
    | unfinished => exact Action.run_bind_of_unfinished _ hrun
  have hwrapped := wrapping_related h w
  rwa [hcheck] at hwrapped

/-! ## Evaluating and building -/

/-- Evaluating an expression, at unbounded depth. -/
noncomputable def queried (host : Host κ β σ) (e : Facade κ) : Action κ β (Value κ) :=
  host.fully fun d => e.evaluate d

/-- Building its core, at unbounded depth. -/
noncomputable def cored (host : Host κ β σ) (functions : Facade.Functions κ) (e : Facade κ) :
    Action κ β (Value κ) :=
  host.fully fun d => e.core functions d

/-- A method does with the query what its core does with the core of the query. -/
theorem method_related (lawful : host.Lawful) {e : Facade κ} {member : String}
    {body build : Dispatch κ β → Value κ → Action κ β (Value κ)}
    (hbody : ∀ p, Deepens fun d => body d p) (hbuild : ∀ p, Deepens fun d => build d p)
    (he : ∀ w, Outcome.Related host.Wraps ((host.queried e).run w)
      ((host.cored functions e).run w))
    (h : ∀ q p w, host.Same q p → Outcome.Related host.Wraps
      ((host.fully fun d => body d q).run w) ((host.fully fun d => build d p).run w))
    (w : World κ β) :
    Outcome.Related host.Wraps
      ((host.fully fun d => e.evaluate d >>= Facade.onQuery member (body d)).run w)
      ((host.fully fun d => e.core functions d >>= build d).run w) := by
  rw [lawful.fully_bind (fun hd => Congruence.facadeEvaluate hd e) fun value => fun hd =>
      Congruence.onQuery (C := Congruence.approx) (fun p => hbody p hd) value,
    lawful.fully_bind (fun hd => Congruence.facadeCore functions hd e) hbuild]
  refine (he w).bind fun query p v hquery => ?_
  rcases hquery with ⟨q, rfl, _, hsame⟩
  exact h q p v hsame

/-- An element of a sequence and what stands for it in the core: a query and its program, or one
and the same value. -/
def Element (host : Host κ β σ) (v v' : Value κ) : Prop :=
  host.Wraps v v' ∨ v = v'

theorem asProgram_related {v v' : Value κ} (h : host.Element v v') (w : World κ β) :
    Outcome.Related host.Same
      ((liftM (asProgram v) : Action κ β (Value κ)).run w)
      ((liftM (asProgram v') : Action κ β (Value κ)).run w) := by
  rcases h with ⟨p, rfl, hp, hsame⟩ | rfl
  · rw [hsame.isProgram_eq] at hp
    have hprogram : asProgram v' = .ok v' := by
      cases v' with
      | terminal | pending => rfl
      | _ => cases hp
    rw [hprogram]
    exact .value w hsame
  · exact .refl .refl _

/-- All elements are checked, and the first one that is refused is the same. -/
theorem mapM_asProgram_related {vs vs' : List (Value κ)}
    (h : List.Forall₂ host.Element vs vs') (w : World κ β) :
    Outcome.Related (List.Forall₂ host.Same)
      ((liftM (vs.mapM asProgram) : Action κ β (List (Value κ))).run w)
      ((liftM (vs'.mapM asProgram) : Action κ β (List (Value κ))).run w) := by
  -- A lifted list is gone through by lifted actions.
  have hcons : ∀ (v : Value κ) (vs : List (Value κ)),
      (liftM ((v :: vs).mapM asProgram) : Action κ β (List (Value κ))) =
        (liftM (asProgram v) >>= fun p => liftM (vs.mapM asProgram) >>= fun ps =>
          pure (p :: ps)) := by
    intro v vs
    rw [List.mapM_cons]
    cases asProgram v with
    | error cause => rfl
    | ok p => cases vs.mapM asProgram <;> rfl
  induction h generalizing w with
  | nil => exact .value w .nil
  | cons hv _ ih =>
      rw [hcons, hcons]
      refine (asProgram_related hv w).bind fun p q u hpq => ?_
      exact (ih u).bind fun ps qs z hall => .value z (.cons hpq hall)

/-! ## The facade and its core -/

/-- A verb behaves as its core does. -/
theorem followedBy_related (lawful : host.Lawful) (behave : functions.Behave host)
    (verb : Facade.Verb κ) (hqp : host.Same q p) (w : World κ β) :
    Outcome.Related host.Wraps
      ((host.fully fun d => Query.followedBy d q verb.program).run w)
      ((host.continued p (functions.constant verb.program)).run w) := by
  have halways : ∀ value, host.result (.fn (.always verb.program)) [value] = pure verb.program :=
    result_always lawful verb.program
  have hsplit : (host.fully fun d => Query.followedBy d q verb.program) =
      Query.wrapping (host.continued q (.fn (.always verb.program))) :=
    lawful.fully_bind_right (deepens_andThen q _) _
  rw [hsplit]
  refine wrapping_related_of_isProgram (fun w => ?_) (continued_isProgram lawful ?_) w
  · refine continued_same lawful hqp (fun value v => ?_) w
    rw [halways, behave.constant]
    exact .refl .refl _
  · intro value r u v hconstant
    rw [behave.constant] at hconstant
    cases hconstant
    exact verb.program_isProgram

/-- What is checked by the constructor on the one side is checked on the other. -/
theorem andThenProgram_related (lawful : host.Lawful) {f g : Value κ} (hqp : host.Same q p)
    (hfg : ∀ value w, Outcome.Related host.Same ((host.result f [value]).run w)
      ((host.result g [value]).run w)) (w : World κ β) :
    Outcome.Related host.Wraps
      ((host.fully fun d => Query.andThenProgram d q f).run w)
      ((host.fully fun d => andThen d p g >>= fun r => liftM (ensureProgram r)).run w) := by
  have hquery : (host.fully fun d => Query.andThenProgram d q f) =
      Query.wrapping (host.continued q f) := lawful.fully_bind_right (deepens_andThen q f) _
  have hcore : (host.fully fun d => andThen d p g >>= fun r => liftM (ensureProgram r)) =
      (host.continued p g >>= fun r => liftM (ensureProgram r)) :=
    lawful.fully_bind_right (deepens_andThen p g) _
  rw [hquery, hcore]
  exact wrapping_related (continued_same lawful hqp hfg) w

theorem pair_related (lawful : host.Lawful) {q' p' : Value κ} (hqp : host.Same q p)
    (hqp' : host.Same q' p') (w : World κ β) :
    Outcome.Related host.Wraps ((host.fully fun d => Query.zipProgram d q q').run w)
      ((host.paired p p').run w) := by
  have hquery : (host.fully fun d => Query.zipProgram d q q') =
      Query.wrapping (host.paired q q') :=
    lawful.fully_bind_right (fun h => Congruence.pair h q q') _
  rw [hquery]
  exact wrapping_related_of_isProgram (paired_same lawful hqp hqp') (paired_isProgram lawful) w

theorem map_related (lawful : host.Lawful) (f : Value κ) (hqp : host.Same q p) (w : World κ β) :
    Outcome.Related host.Wraps ((host.fully fun d => Query.map d q f).run w)
      ((host.mapped f p).run w) := by
  have hquery : (host.fully fun d => Query.map d q f) = Query.wrapping (host.mapped f q) :=
    lawful.fully_bind_right (deepens_mapProgram f q) _
  rw [hquery]
  exact wrapping_related_of_isProgram (mapped_same lawful f hqp) (mapped_isProgram lawful) w

/-- A sequence of queries checks its elements before it builds anything. -/
theorem fully_querySequence (lawful : host.Lawful) (queries : List (Value κ)) :
    (host.fully fun d => Query.sequence d (.list queries)) =
      (liftM (queries.mapM asProgram) >>= fun programs =>
        Query.wrapping (host.sequenced programs [])) := by
  refine (lawful.fully_bind_left (liftM (queries.mapM asProgram)) fun programs => fun hd =>
    Congruence.wrapping (Congruence.sequenceFrom hd programs [])).trans ?_
  refine congrArg (_ >>= ·) (funext fun programs => ?_)
  exact lawful.fully_bind_right (fun hd => Congruence.sequenceFrom hd programs []) _

/-- A sequence checks its elements in their order, then goes on with their programs. -/
theorem sequence_related (lawful : host.Lawful) {vs vs' : List (Value κ)}
    (h : List.Forall₂ host.Element vs vs') (w : World κ β) :
    Outcome.Related host.Wraps ((host.fully fun d => Query.sequence d (.list vs)).run w)
      ((host.fully fun d => liftM (vs'.mapM asProgram) >>= fun programs =>
        sequence d (.list programs)).run w) := by
  have hcore : (host.fully fun d => liftM (vs'.mapM asProgram) >>= fun programs =>
      sequence d (.list programs)) =
        (liftM (vs'.mapM asProgram) >>= fun programs => host.sequenced programs []) :=
    lawful.fully_bind_left _ fun programs => fun hd => Congruence.sequenceFrom hd programs []
  rw [fully_querySequence lawful, hcore]
  refine (mapM_asProgram_related h w).bind fun ps qs v hall => ?_
  exact wrapping_related_of_isProgram (sequenced_same lawful hall [])
    (sequenced_isProgram lawful qs []) v

mutual

/-- Evaluating an expression fails as building its core does, or gives a query of the same
program. -/
theorem queried_related (lawful : host.Lawful) (behave : functions.Behave host) :
    ∀ (e : Facade κ) (w : World κ β),
      Outcome.Related host.Wraps ((host.queried e).run w) ((host.cored functions e).run w)
  | .wrap value, w => by
      have hquery : host.queried (.wrap value) = Query.wrapping (pure value) :=
        fully_const host _
      have hcore : host.cored functions (.wrap value) =
          (pure value >>= fun program => liftM (ensureProgram program)) := fully_const host _
      rw [hquery, hcore]
      exact wrapping_related (fun _ => .refl .refl _) w
  | .start verb, w => by
      have hquery : host.queried (.start verb) = Query.wrapping (pure verb.program) :=
        fully_const host _
      have hcore : host.cored functions (.start verb) = pure verb.program := fully_const host _
      rw [hquery, hcore]
      refine wrapping_related_of_isProgram (fun _ => .refl .refl _) ?_ w
      intro r w v h
      cases h
      exact verb.program_isProgram
  | .followedBy query verb, w =>
      method_related lawful (fun p => fun hd => Congruence.wrapping (Congruence.andThen hd p _))
        (fun p => deepens_andThen p _) (queried_related lawful behave query)
        (fun q p v hqp => followedBy_related lawful behave verb hqp v) w
  | .map query f, w =>
      method_related lawful (fun p => fun hd => Congruence.wrapping (Congruence.mapProgram hd f p))
        (fun p => deepens_mapProgram f p) (queried_related lawful behave query)
        (fun q p v hqp => map_related lawful f hqp v) w
  | .zipProgram query other, w =>
      method_related lawful (fun p => fun hd => Congruence.wrapping (Congruence.pair hd p other))
        (fun p => fun hd => Congruence.pair hd p other) (queried_related lawful behave query)
        (fun q p v hqp => pair_related lawful hqp (.refl other) v) w
  | .zip query other, w => by
      refine method_related lawful
        (fun p => fun hd => (Congruence.facadeEvaluate hd other).bind fun r => Congruence.queryZip hd p r)
        (fun p => fun hd => (Congruence.facadeCore functions hd other).bind fun r =>
          Congruence.pair hd p r)
        (queried_related lawful behave query) (fun q p v hqp => ?_) w
      -- The other query is evaluated once there is a query to zip it with.
      rw [lawful.fully_bind (fun hd => Congruence.facadeEvaluate hd other) fun r => fun hd =>
          Congruence.queryZip hd q r,
        lawful.fully_bind (fun hd => Congruence.facadeCore functions hd other) fun r => fun hd =>
          Congruence.pair hd p r]
      refine (queried_related lawful behave other v).bind fun second program u hsecond => ?_
      rcases hsecond with ⟨q', rfl, _, hsame⟩
      exact pair_related lawful hqp hsame u
  | .andThenProgram query f, w =>
      method_related lawful (fun p => fun hd => Congruence.wrapping (Congruence.andThen hd p f))
        (fun p => fun hd => (Congruence.andThen hd p f).bind fun _ => .refl _)
        (queried_related lawful behave query)
        (fun q p v hqp => andThenProgram_related lawful hqp (fun _ _ => .refl .refl _) v) w
  | .andThen query f, w => by
      refine method_related lawful (fun p => fun hd => Congruence.wrapping (Congruence.andThen hd p _))
        (fun p => fun hd => (Congruence.andThen hd p (functions.unwrapping f)).bind fun _ => .refl _)
        (queried_related lawful behave query) (fun q p v hqp => ?_) w
      refine andThenProgram_related lawful hqp (fun value u => ?_) v
      rw [behave.unwrapping, lawful.result_compose]
      simp only [result_asProgram lawful]
      exact .refl .refl _
  | .sequence elements, w => by
      have hquery : host.queried (.sequence elements) =
          (host.fully (fun d => elements.evaluate d) >>= fun vs =>
            host.fully fun d => Query.sequence d (.list vs)) :=
        lawful.fully_bind (fun hd => Congruence.facadeElements hd elements) fun vs => fun hd =>
          Congruence.querySequence hd (.list vs)
      have hcore : host.cored functions (.sequence elements) =
          (host.fully (fun d => elements.core functions d) >>= fun vs =>
            host.fully fun d => liftM (vs.mapM asProgram) >>= fun programs =>
              sequence d (.list programs)) :=
        lawful.fully_bind (fun hd => Congruence.facadeCoreElements functions hd elements)
          fun vs => fun hd => (Action.Approx.refl _).bind fun programs =>
            Congruence.sequence hd (.list programs)
      rw [hquery, hcore]
      exact (elements_related lawful behave elements w).bind fun vs vs' v hall =>
        sequence_related lawful hall v

theorem elements_related (lawful : host.Lawful) (behave : functions.Behave host) :
    ∀ (elements : Facade.Elements κ) (w : World κ β),
      Outcome.Related (List.Forall₂ host.Element)
        ((host.fully fun d => elements.evaluate d).run w)
        ((host.fully fun d => elements.core functions d).run w)
  | .nil, w => by
      have hnil : host.fully (fun d => Facade.Elements.nil.evaluate d) = pure [] :=
        fully_const host _
      have hnil' : host.fully (fun d => Facade.Elements.nil.core functions d) = pure [] :=
        fully_const host _
      rw [hnil, hnil']
      exact .value w .nil
  | .query first rest, w => by
      have hquery : host.fully (fun d => (Facade.Elements.query first rest).evaluate d) =
          (host.queried first >>= fun value =>
            host.fully (fun d => rest.evaluate d) >>= fun values => pure (value :: values)) := by
        refine (lawful.fully_bind (fun hd => Congruence.facadeEvaluate hd first) fun value =>
          fun hd => (Congruence.facadeElements hd rest).bind fun _ => .refl _).trans ?_
        refine congrArg (_ >>= ·) (funext fun value => ?_)
        exact lawful.fully_bind_right (fun hd => Congruence.facadeElements hd rest) _
      have hcore : host.fully (fun d => (Facade.Elements.query first rest).core functions d) =
          (host.cored functions first >>= fun program =>
            host.fully (fun d => rest.core functions d) >>= fun programs =>
              pure (program :: programs)) := by
        refine (lawful.fully_bind (fun hd => Congruence.facadeCore functions hd first)
          fun program => fun hd => (Congruence.facadeCoreElements functions hd rest).bind
            fun _ => .refl _).trans ?_
        refine congrArg (_ >>= ·) (funext fun program => ?_)
        exact lawful.fully_bind_right (fun hd => Congruence.facadeCoreElements functions hd rest) _
      rw [hquery, hcore]
      refine (queried_related lawful behave first w).bind fun query program v hfirst => ?_
      refine (elements_related lawful behave rest v).bind fun vs vs' u hall => ?_
      exact .value u (.cons (Or.inl hfirst) hall)
  | .value first rest, w => by
      have hquery : host.fully (fun d => (Facade.Elements.value first rest).evaluate d) =
          (host.fully (fun d => rest.evaluate d) >>= fun values => pure (first :: values)) :=
        lawful.fully_bind_right (fun hd => Congruence.facadeElements hd rest) _
      have hcore : host.fully (fun d => (Facade.Elements.value first rest).core functions d) =
          (host.fully (fun d => rest.core functions d) >>= fun values =>
            pure (first :: values)) :=
        lawful.fully_bind_right (fun hd => Congruence.facadeCoreElements functions hd rest) _
      rw [hquery, hcore]
      refine (elements_related lawful behave rest w).bind fun vs vs' u hall => ?_
      exact .value u (.cons (Or.inr rfl) hall)

end

end Host

end Workflow

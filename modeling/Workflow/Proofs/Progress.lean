import Workflow.Proofs.Scripts
import Workflow.Proofs.WellFormed

/-!
# Well-formed programs do not go wrong

A run of a well-formed program over a backend that keeps the contract comes to well-formed programs
alone, so it never meets a value that it would have to refuse: all that can leave a driver is a
fault that a function of the caller raised.  Together with the ways to build well-formed programs
this is `Host.wellFormed_closed`.
-/

namespace Workflow

variable {κ β σ : Type}

/-- Whether the fault is of one of the library's own classes. -/
def Fault.isOwn (cause : Fault κ) : Bool :=
  cause.isA "ICRUDError"

/-- On its way out of a driver no fault turns into one of the library's own. -/
theorem Driver.leaving_isOwn (driver : Driver) {cause : Fault κ} (h : cause.isOwn = false) :
    (driver.leaving cause).isOwn = false := by
  cases driver with
  | eager | stepped => exact h
  | awaited =>
      simp only [Driver.leaving, Fault.crossing]
      split
      · rfl
      · exact h

namespace Host

variable {host : Host κ β σ} {now c : Contract κ β} {driver : Driver} {b : Backend (Value κ)}

/-! ## Backends -/

/-- The functions of the backend stay within the contract, and what answers a request for
everything can be listed. -/
def Answers (host : Host κ β σ) (c : Contract κ β) (b : Backend (Value κ)) : Prop :=
  ∀ request : Request (Value κ), (host.result (b.functionFor request) request.operands).Safe c
    fun answer => request = .getAll → ∃ items, answer.items? = some items

theorem outcome_ok {request : Request (Value κ)} {answer : Value κ}
    (h : request = .getAll → ∃ items, answer.items? = some items) :
    ∃ outcome, request.outcome answer = .ok outcome := by
  cases request with
  | getById id | create doc => exact ⟨answer, rfl⟩
  | update id doc => exact ⟨.null, rfl⟩
  | getAll =>
      rcases h rfl with ⟨items, hitems⟩
      refine ⟨.list items, ?_⟩
      simp only [Request.outcome, itemsOf_eq hitems]
      rfl

theorem ask_safe (lawful : host.Lawful) (hb : host.Answers c b) (request : Request (Value κ)) :
    (host.ask b request).Safe c fun _ => True := by
  rw [ask_eq_result lawful]
  refine (Action.Safe.record _).bind fun _ _ => (hb request).bind fun answer hlisted => ?_
  rcases outcome_ok hlisted with ⟨outcome, houtcome⟩
  exact .ok houtcome trivial

/-- A step of a well-formed program stays within the contract and comes to a well-formed one. -/
theorem turn_safe (lawful : host.Lawful) (hb : host.Answers c b) {op : Operation (Value κ)}
    (hp : host.WellFormed c (.pending (.operation op))) :
    (host.turn b op).Safe c (host.WellFormed c) :=
  (ask_safe lawful hb op.request).bind fun outcome _ => hp.continuation outcome

/-! ## Runs -/

/-- Whatever a run of a well-formed program comes to is well formed. -/
theorem WellFormed.path (lawful : host.Lawful) (hb : host.Answers c b) {steps : Nat}
    {p q : Value κ} {w v : World κ β} {ops : List (Operation (Value κ))}
    (hpath : host.Path driver b steps p w ops q v) (hp : host.WellFormed c p)
    (hw : c.keeps w.outside) : host.WellFormed c q ∧ c.keeps v.outside := by
  induction hpath with
  | here => exact ⟨hp, hw⟩
  | step hturn _ ih =>
      rcases (turn_safe lawful hb hp).value (by simpa using hw) hturn with ⟨hnext, hv⟩
      exact ih hnext hv

/-- Where a run has come to a well-formed program, it has finished, or a step is possible that
stays within the contract. -/
theorem WellFormed.progress (lawful : host.Lawful) (hb : host.Answers c b) {p : Value κ}
    (hp : host.WellFormed c p) :
    (∃ value, p = .terminal value) ∨
      ∃ op, p = .pending (.operation op) ∧ (host.turn b op).Safe c (host.WellFormed c) := by
  cases hp.node with
  | finished value => exact Or.inl ⟨value, rfl⟩
  | waiting request f hf => exact Or.inr ⟨_, rfl, turn_safe lawful hb hp⟩

/-- A run of a well-formed program ends with a value, or with a fault that a function of the caller
has raised. -/
theorem Runs.fault_allowed (lawful : host.Lawful) (hb : host.Answers c b) {steps : Nat}
    {p : Value κ} {w v : World κ β} {ops : List (Operation (Value κ))}
    {o : Outcome κ β (Value κ)} {cause : Fault κ} (h : host.Runs driver b steps p w ops o)
    (hp : host.WellFormed c p) (hw : c.keeps w.outside) (ho : o = .fault cause v) :
    ∃ raised, c.allowed raised ∧ cause = driver.leaving raised := by
  induction h with
  | done hhalt =>
      cases hhalt with
      | finished => cases ho
      | refused w hwaiting =>
          cases hp.node
          exact absurd rfl (hwaiting _)
      | invalid w hinvalid =>
          rw [hp.isProgram] at hinvalid
          cases hinvalid
      | @broken op w u raised hturn =>
          cases ho
          exact ⟨raised, (turn_safe lawful hb hp).fault (by simpa using hw) hturn, rfl⟩
  | more hturn _ ih =>
      rcases (turn_safe lawful hb hp).value (by simpa using hw) hturn with ⟨hnext, hv⟩
      exact ih hnext hv ho

/-- A path that leads to a program that waits goes on with the next step. -/
theorem Path.snoc {steps : Nat} {p q : Value κ} {w v u : World κ β}
    {ops : List (Operation (Value κ))} {op : Operation (Value κ)}
    (hpath : host.Path driver b steps p w ops (.pending (.operation op)) v)
    (hturn : (host.turn b op).run
      (v.write (driver.stepLine (steps + ops.length) (.operation op))) = .value q u) :
    host.Path driver b steps p w (ops ++ [op]) q u := by
  generalize hlast : Value.pending (.operation op) = last at hpath
  induction hpath with
  | here steps p w =>
      subst hlast
      exact .step hturn (.here _ q u)
  | @step steps first w x v p r ops hfirst _ ih =>
      refine .step hfirst (ih ?_ hlast)
      rw [List.length_cons] at hturn
      rwa [Nat.add_assoc, Nat.add_comm 1]

/-- Unless it ends, a run of a well-formed program goes on for any number of steps. -/
theorem WellFormed.goes_on (lawful : host.Lawful) (hb : host.Answers c b) (htotal : c.total)
    {p : Value κ} {w : World κ β} (hp : host.WellFormed c p) (hw : c.keeps w.outside)
    (hnever : ∀ ops o, ¬ host.Runs driver b 0 p w ops o) :
    ∀ n, ∃ ops q v, host.Path driver b 0 p w ops q v ∧ ops.length = n
  | 0 => ⟨[], p, w, .here 0 p w, rfl⟩
  | n + 1 => by
      rcases hp.goes_on lawful hb htotal hw hnever n with ⟨ops, q, v, hpath, rfl⟩
      rcases hp.path lawful hb hpath hw with ⟨hq, hv⟩
      -- A run that has come to an end is excluded, so there is a step, and it ends with a program.
      cases hq.node with
      | finished value =>
          exact absurd (hpath.runs (.done (.finished value v))) (hnever _ _)
      | waiting request f hf =>
          have hsafe := turn_safe lawful hb hq
          have hstart : c.keeps
              (v.write (driver.stepLine (0 + ops.length) (.operation ⟨request, .fn f⟩))).outside := by
            simpa using hv
          have hends := hsafe.ends htotal hstart
          cases hturn : (host.turn b ⟨request, .fn f⟩).run
              (v.write (driver.stepLine (0 + ops.length) (.operation ⟨request, .fn f⟩))) with
          | value r u => exact ⟨_, r, u, hpath.snoc hturn, by simp⟩
          | fault cause u =>
              exact absurd (hpath.runs (.done (.broken hturn))) (hnever _ _)
          | unfinished =>
              rw [hturn] at hends
              exact absurd hends id

/-! ## Everything together -/

/-- Whatever is built of well-formed programs is well formed, and driving it does not go wrong.
What is called at once, while a program is built, is held to the contract `now`, and the building
stays within that: it raises nothing but what a function of the caller raises there, and it comes to
an end if they do.  What is called when the program runs is held to `c`. -/
structure Closed (host : Host κ β σ) (now c : Contract κ β) : Prop where
  finished : ∀ value, host.WellFormed c (.terminal value)
  single : ∀ request : Request (Value κ), host.WellFormed c request.toProgram
  single_then : ∀ (request : Request (Value κ)) (f : Callable κ),
    host.Calls c (host.WellFormed c) (.fn f) → host.WellFormed c (request.thenCall (.fn f))
  map : ∀ f p, host.WellFormed c p → host.Calls c (fun _ => True) f →
    host.CallsAt now (fun _ => True) f p →
    (host.fully fun d => mapProgram d f p).Safe now (host.WellFormed c)
  and_then : ∀ p f, host.WellFormed c p → host.Calls c (host.WellFormed c) f →
    host.CallsAt now (host.WellFormed c) f p →
    (host.fully fun d => andThen d p f).Safe now (host.WellFormed c)
  pair : ∀ p q, host.WellFormed c p → host.WellFormed c q →
    (host.fully fun d => pair d p q).Safe now (host.WellFormed c)
  sequence : ∀ programs items, programs.items? = some items →
    (∀ p ∈ items, host.WellFormed c p) →
    (host.fully fun d => sequence d programs).Safe now (host.WellFormed c)
  /-- The function is called on every item at once. -/
  traverse : ∀ f listed items, listed.items? = some items →
    (∀ item ∈ items, (host.result f [item]).Safe now (host.WellFormed c)) →
    (host.fully fun d => traverse d f listed).Safe now (host.WellFormed c)
  query_of : ∀ p, host.WellFormed c p →
    ∃ query, Query.ofProgram p = .ok query ∧ host.WellFormedQuery c query
  query_map : ∀ p f, host.WellFormed c p → host.Calls c (fun _ => True) f →
    host.CallsAt now (fun _ => True) f p →
    (host.fully fun d => Query.map d p f).Safe now (host.WellFormedQuery c)
  query_zip : ∀ p other, host.WellFormed c p → host.WellFormedQuery c other →
    (host.fully fun d => Query.zip d p other).Safe now (host.WellFormedQuery c)
  query_zip_program : ∀ p q, host.WellFormed c p → host.WellFormed c q →
    (host.fully fun d => Query.zipProgram d p q).Safe now (host.WellFormedQuery c)
  query_and_then : ∀ p f, host.WellFormed c p →
    host.Calls c (fun v => host.WellFormed c v ∨ host.WellFormedQuery c v) f →
    host.CallsAt now (fun v => host.WellFormed c v ∨ host.WellFormedQuery c v) f p →
    (host.fully fun d => Query.andThen d p f).Safe now (host.WellFormedQuery c)
  query_and_then_program : ∀ p f, host.WellFormed c p → host.Calls c (host.WellFormed c) f →
    host.CallsAt now (host.WellFormed c) f p →
    (host.fully fun d => Query.andThenProgram d p f).Safe now (host.WellFormedQuery c)
  query_followed_by : ∀ p q, host.WellFormed c p → host.WellFormed c q →
    (host.fully fun d => Query.followedBy d p q).Safe now (host.WellFormedQuery c)
  query_sequence : ∀ queries items, queries.items? = some items →
    (∀ v ∈ items, host.WellFormed c v ∨ host.WellFormedQuery c v) →
    (host.fully fun d => Query.sequence d queries).Safe now (host.WellFormedQuery c)
  /-- A body runs at once and once more, from its beginning, after each outcome. -/
  routine : ∀ code captured arguments At, host.WellBehaved now c code captured arguments At →
    (host.result (.fn (.routine code captured)) arguments).Safe now (host.WellFormed c)
  /-- Only what a function of the caller raised leaves a driver, and none of it is the library's
  own if none of that is. -/
  drive : ∀ (driver : Driver) (b : Backend (Value κ)) (p : Value κ) (w : World κ β),
    host.Answers c b → host.WellFormed c p → c.keeps w.outside →
    ∀ cause v, (host.drive driver b p).run w = .fault cause v →
      (∃ raised, c.allowed raised ∧ cause = driver.leaving raised) ∧
        ((∀ raised, c.allowed raised → raised.isOwn = false) → cause.isOwn = false)
  /-- Wherever a run comes to, it has finished or a step is possible. -/
  progress : ∀ (driver : Driver) (b : Backend (Value κ)) (p : Value κ) (w : World κ β),
    host.Answers c b → host.WellFormed c p → c.keeps w.outside →
    ∀ ops q v, host.Path driver b 0 p (w.write (.started driver)) ops q v →
      host.WellFormed c q ∧ ((∃ value, q = .terminal value) ∨
        ∃ op, q = .pending (.operation op) ∧ (host.turn b op).Safe c (host.WellFormed c))
  /-- A run ends or goes on for ever, if every function that it calls comes to an end. -/
  goes_on : ∀ (driver : Driver) (b : Backend (Value κ)) (p : Value κ) (w : World κ β),
    host.Answers c b → host.WellFormed c p → c.keeps w.outside → c.total →
    ((host.drive driver b p).run w).Finished ∨
      ∀ n, ∃ ops q v, host.Path driver b 0 p (w.write (.started driver)) ops q v ∧
        ops.length = n

/-- Well-formed programs are closed under every way to build programs, and they do not go
wrong. -/
theorem wellFormed_closed (lawful : host.Lawful) (hnow : now.Refines c) :
    host.Closed now c where
  finished := wellFormed_terminal
  single := wellFormed_toProgram lawful
  single_then request _ hf := wellFormed_thenCall request hf
  map _ _ hp hf hat := mapped_safe lawful hp hf hat
  and_then _ _ hp hf hat := continued_safe lawful hp hf hat
  pair _ _ hp hq := paired_safe lawful hp hq
  sequence _ _ hitems hall := sequence_safe lawful hitems hall
  traverse _ _ _ hitems hf := traverse_safe lawful hitems hf
  query_of _ hp := ofProgram_ok hp
  query_map p f hp hf hat :=
    wrapping_safe lawful (deepens_mapProgram f p) (mapped_safe lawful hp hf hat)
  query_zip p other hp hother := by
    rcases hother with ⟨q, rfl, hq⟩
    exact wrapping_safe lawful (deepens_andThen p _) (paired_safe lawful hp hq)
  query_zip_program p _ hp hq :=
    wrapping_safe lawful (deepens_andThen p _) (paired_safe lawful hp hq)
  query_and_then p f hp hf hat := by
    refine wrapping_safe lawful (deepens_andThen p _) ?_
    exact continued_safe lawful hp (fun value => asProgram_safe lawful (hf value))
      fun value h => asProgram_safe lawful (hat value h)
  query_and_then_program p f hp hf hat :=
    wrapping_safe lawful (deepens_andThen p f) (continued_safe lawful hp hf hat)
  query_followed_by p _ hp hq := by
    refine wrapping_safe lawful (deepens_andThen p _) ?_
    exact continued_safe lawful hp (calls_always lawful hq) fun value _ =>
      calls_always lawful hq value
  query_sequence _ _ hitems hall := querySequence_safe lawful hitems hall
  routine code captured arguments _ hbody := by
    rw [lawful.result_fn]
    exact resumed_safe lawful hnow hbody []
  drive driver b p w hb hp hw cause v hdrive := by
    rcases (drive_eq_iff (o := .fault cause v) lawful trivial).1 hdrive with ⟨ops, hruns⟩
    rcases hruns.fault_allowed lawful hb hp (by simpa using hw) rfl with ⟨raised, hraised, rfl⟩
    exact ⟨⟨raised, hraised, rfl⟩, fun hforeign => driver.leaving_isOwn (hforeign raised hraised)⟩
  progress driver b p w hb hp hw ops q v hpath := by
    have hq := (hp.path lawful hb hpath (by simpa using hw)).1
    exact ⟨hq, hq.progress lawful hb⟩
  goes_on driver b p w hb hp hw htotal := by
    by_cases hends : ((host.drive driver b p).run w).Finished
    · exact Or.inl hends
    · refine Or.inr (hp.goes_on lawful hb htotal (by simpa using hw) fun ops o hruns => hends ?_)
      rw [(drive_eq_iff lawful hruns.outcome_finished).2 ⟨ops, hruns⟩]
      exact hruns.outcome_finished

end Host

/-! ## The store of a script -/

namespace Script

/-- A script that raises nothing of the library's own and comes to its end, over one store that
lists its own documents and does not fail. -/
def storeContract : Contract Code Stores where
  allowed cause := cause.isOwn = false
  keeps stores := ∃ memory : Memory Code,
    stores.memories = [memory] ∧ memory.listing? = none ∧ memory.failure? = none
  total := True

theorem perform_settings (memory : Memory Code) (request : Request (Value Code)) :
    (memory.perform request).2.listing? = memory.listing? ∧
      (memory.perform request).2.failure? = memory.failure? := by
  cases request with
  | getById id =>
      simp only [Memory.perform]
      split
      · exact ⟨rfl, rfl⟩
      · split <;> exact ⟨rfl, rfl⟩
  | getAll | update | create => exact ⟨rfl, rfl⟩

/-- What a store that does not fail answers, and what it has become. -/
theorem answer_eq {memory : Memory Code} (h : memory.failure? = none)
    (request : Request (Value Code)) :
    memory.answer request = { memory with calls := memory.calls + 1 }.perform request := by
  simp only [Memory.answer, h]

/-- The only fault of a store that does not fail is a missing key. -/
theorem perform_error {memory : Memory Code} {request : Request (Value Code)}
    {cause : Fault Code} (h : (memory.perform request).1 = .error cause) :
    ∃ key, cause = .missingKey key := by
  cases request with
  | getById id =>
      simp only [Memory.perform] at h
      split at h
      · cases h
      · split at h
        · cases h
        · cases h
          exact ⟨id, rfl⟩
  | getAll | update | create => cases h

theorem answers_store : (host []).Answers storeContract (Stores.backend 0) := by
  intro request
  rw [result_functionFor]
  -- One call leaves the settings of the store as they are.
  have hrun : ∀ {w : World Code Stores}, storeContract.keeps w.outside → ∃ counted : Memory Code,
      counted.listing? = none ∧ (askStore 0 request).run w =
        (liftM (counted.perform request).1 : Act (Value Code)).run
          { w with outside := ⟨[(counted.perform request).2]⟩ } ∧
        storeContract.keeps ⟨[(counted.perform request).2]⟩ := by
    rintro w ⟨memory, hmemory, hlisting, hfailure⟩
    refine ⟨{ memory with calls := memory.calls + 1 }, hlisting, ?_, _, rfl, ?_, ?_⟩
    · have hpresent : w.outside.memories[0]? = some memory := by
        rw [hmemory]
        rfl
      rw [askStore_run hpresent, hmemory, answer_eq hfailure]
      rfl
    · rw [(perform_settings _ request).1]
      exact hlisting
    · rw [(perform_settings _ request).2]
      exact hfailure
  refine ⟨fun {w v answer} hw hvalue => ?_, fun {w v cause} hw hfault => ?_, fun _ {w} hw => ?_⟩
  · rcases hrun hw with ⟨counted, hlisting, hask, hkeeps⟩
    rw [hask] at hvalue
    cases hanswer : (counted.perform request).1 with
    | ok answered =>
        rw [hanswer] at hvalue
        cases hvalue
        refine ⟨?_, hkeeps⟩
        rintro rfl
        simp only [Memory.perform, hlisting] at hanswer
        cases hanswer
        exact ⟨_, rfl⟩
    | error cause =>
        rw [hanswer] at hvalue
        cases hvalue
  · rcases hrun hw with ⟨counted, _, hask, _⟩
    rw [hask] at hfault
    cases hanswer : (counted.perform request).1 with
    | ok answered =>
        rw [hanswer] at hfault
        cases hfault
    | error raised =>
        rw [hanswer] at hfault
        cases hfault
        rcases perform_error hanswer with ⟨key, rfl⟩
        rfl
  · rcases hrun hw with ⟨counted, _, hask, _⟩
    rw [hask]
    cases (counted.perform request).1 <;> trivial

end Script

namespace Host

/-- Over the store of a script: everything is asked for, then what was found is stored, and a mark
is left in between.  And a routine that asks for everything and returns what it has received. -/
theorem wellFormed_closed_store :
    let h := Script.host []
    let c := Script.storeContract
    let p : Value Script.Code := Request.toProgram .getAll
    let f : Value Script.Code := .fn (.callback (.function ["docs"]
      (.strict (.programOf .create) [.trace "found" (.var "docs")])) [])
    let react : List (Value ReadingCode) → Reaction ReadingCode := fun received =>
      match received with
      | [] => .yields (Request.toProgram .getAll)
      | _ => .returns (.list received)
    let reader : Host ReadingCode Unit _ := ofReaction react
    let quiet : Contract ReadingCode Unit := ⟨fun _ => False, fun _ => True, False⟩
    c.silent.Refines c ∧ h.Closed c.silent c ∧ h.Answers c (Script.Stores.backend 0) ∧
      h.Calls c (h.WellFormed c) f ∧
      (h.fully fun d => andThen d p f).Safe c.silent (h.WellFormed c) ∧
      (reader.result (.fn (.routine .body [])) []).Safe quiet (reader.WellFormed quiet) := by
  intro h c p f react reader quiet
  have lawful : h.Lawful := Script.host_lawful []
  have hclosed : h.Closed c.silent c := wellFormed_closed lawful c.silent_refines
  have hf : h.Calls c (h.WellFormed c) f := by
    intro value
    have hcall : h.result f [value] = (Action.record (.trace "found" value) >>= fun _ =>
        pure (Request.toProgram (.create value))) :=
      (lawful.result_fn _ [value]).trans (fully_const h _)
    rw [hcall]
    exact (Action.Safe.record _).bind fun _ _ => .pure (hclosed.single _)
  -- The first program waits, so nothing is called while the two are put together.
  have hat : h.CallsAt c.silent (h.WellFormed c) f p := by
    intro value hvalue
    have hwaits : p = .pending (.operation ⟨.getAll, .fn .finish⟩) := rfl
    rw [hwaits] at hvalue
    cases hvalue
  have hand_then := hclosed.and_then p f (hclosed.single _) hf hat
  have hreader : reader.Closed quiet quiet :=
    wellFormed_closed (ofReaction_lawful react) (.refl quiet)
  have hbody : reader.WellBehaved quiet quiet .body [] [] fun body =>
      ∃ received, body = some received := by
    refine (ofReaction_follows react [] []).wellBehaved ?_ ?_ fun htotal => absurd htotal id
    · intro received value hyields
      cases received with
      | nil =>
          cases hyields
          exact Or.inl (hreader.single _)
      | cons first rest => cases hyields
    · intro received cause hraises
      cases received with
      | nil => cases hraises
      | cons first rest => cases hraises
  exact ⟨c.silent_refines, hclosed, Script.answers_store, hf, hand_then,
    hreader.routine _ _ _ _ hbody⟩

end Host

end Workflow

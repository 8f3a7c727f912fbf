import Workflow.Proofs.Associativity
import Workflow.Proofs.Sameness

/-!
# Sequences of sequences

Programs in sequence may be put into batches, each of them a sequence of its own: the sequence of
the batches, with the lists that it finishes with made into one, is the sequence of all the
programs (`Host.drive_sequence_batches`).

A sequence does not look beyond its first program that waits, so a batch is built without a call,
and what is behind that program is reached through its continuation.  The proof therefore keeps
the batch that is under way open, with the results that it has so far, and goes through its
programs first and through the batches then.
-/

namespace Workflow

variable {κ β σ : Type}

/-! ## What a sequence looks at -/

/-- A program whose first step can be taken: it has finished, or it waits on an operation.
Nothing is said of the continuation. -/
inductive Value.Ready : Value κ → Prop
  | finished (value : Value κ) : Ready (.terminal value)
  | waiting (op : Operation (Value κ)) : Ready (.pending (.operation op))

theorem Value.Ready.isProgram {p : Value κ} (h : p.Ready) : p.isProgram = true := by
  cases h <;> rfl

/-- The results of finished programs are taken up at once. -/
theorem sequenceFrom_finished (d : Dispatch κ β) (values rest : List (Value κ)) :
    ∀ results : List (Value κ), sequenceFrom d (values.map .terminal ++ rest) results =
      sequenceFrom d rest (values.reverse ++ results) := by
  induction values with
  | nil => exact fun _ => rfl
  | cons value values ih =>
      intro results
      calc
        sequenceFrom d ((value :: values).map .terminal ++ rest) results
            = sequenceFrom d (values.map .terminal ++ rest) (value :: results) := rfl
        _ = sequenceFrom d rest (values.reverse ++ value :: results) := ih (value :: results)
        _ = sequenceFrom d rest ((value :: values).reverse ++ results) := by
            rw [List.reverse_cons, List.append_assoc, List.singleton_append]

/-- What is behind the first program that waits becomes its continuation, unseen. -/
theorem sequenceFrom_waiting (d : Dispatch κ β) (op : Operation (Value κ))
    (rest results : List (Value κ)) :
    sequenceFrom d (.pending (.operation op) :: rest) results =
      pure (.pending (.operation (op.followedBy (.fn (.sequenceRest rest results))))) := rfl

/-- Programs that are ready have all finished, or there is a first one that waits. -/
theorem ready_cases {programs : List (Value κ)} (h : ∀ p ∈ programs, p.Ready) :
    (∃ values : List (Value κ), programs = values.map .terminal) ∨
      ∃ (values : List (Value κ)) (op : Operation (Value κ)) (rest : List (Value κ)),
        programs = values.map .terminal ++ .pending (.operation op) :: rest := by
  -- Finished programs at the front are added to those that the rest begins with.
  induction programs with
  | nil => exact Or.inl ⟨[], rfl⟩
  | cons p programs ih =>
      cases h p List.mem_cons_self with
      | waiting op => exact Or.inr ⟨[], op, programs, rfl⟩
      | finished value =>
          rcases ih fun q hq => h q (List.mem_cons_of_mem _ hq) with
            ⟨values, rfl⟩ | ⟨values, op, rest, rfl⟩
          · exact Or.inl ⟨value :: values, rfl⟩
          · exact Or.inr ⟨value :: values, op, rest, rfl⟩

/-- A sequence of programs that are ready is built without a call, and is ready itself. -/
theorem exists_sequenceFrom_ready {programs : List (Value κ)} (h : ∀ p ∈ programs, p.Ready)
    (results : List (Value κ)) :
    ∃ q : Value κ, q.Ready ∧ ∀ d : Dispatch κ β, sequenceFrom d programs results = pure q := by
  rcases ready_cases h with ⟨values, rfl⟩ | ⟨values, op, rest, rfl⟩
  · refine ⟨.terminal (.list (values.reverse ++ results).reverse), .finished _, fun d => ?_⟩
    have hall := sequenceFrom_finished d values [] results
    rw [List.append_nil] at hall
    exact hall
  · exact ⟨_, .waiting _, fun d =>
      (sequenceFrom_finished d values _ results).trans (sequenceFrom_waiting d op rest _)⟩

/-- The programs of batches are built without a call. -/
theorem exists_mapM_sequence {batches : List (List (Value κ))}
    (h : ∀ batch ∈ batches, ∀ p ∈ batch, p.Ready) :
    ∃ parts : List (Value κ),
      (∀ d : Dispatch κ β, (batches.mapM fun batch => sequence d (.list batch)) = pure parts) ∧
      List.Forall₂ (fun batch part => ∀ d : Dispatch κ β, sequenceFrom d batch [] = pure part)
        batches parts := by
  induction batches with
  | nil => exact ⟨[], fun _ => rfl, .nil⟩
  | cons batch batches ih =>
      obtain ⟨part, _, hbuilt⟩ :=
        exists_sequenceFrom_ready (β := β) (h batch List.mem_cons_self) []
      obtain ⟨parts, hmap, hall⟩ := ih fun b hb => h b (List.mem_cons_of_mem _ hb)
      refine ⟨part :: parts, fun d => ?_, .cons hbuilt hall⟩
      have hfirst : sequence d (.list batch) = pure part := hbuilt d
      rw [List.mapM_cons, hfirst, pure_bind, hmap d]
      rfl

namespace Host

variable {host : Host κ β σ} {concat : Value κ}

/-- The function `concat` makes one list of a list of lists. -/
def Concatenates (host : Host κ β σ) (concat : Value κ) : Prop :=
  ∀ lists : List (List (Value κ)),
    host.result concat [.list (lists.map .list)] = pure (.list lists.flatten)

theorem deepens_sequenceFrom (programs results : List (Value κ)) :
    Deepens fun d : Dispatch κ β => sequenceFrom d programs results :=
  fun h => Congruence.sequenceFrom h programs results

theorem sequenced_blind (lawful : host.Lawful) (programs results : List (Value κ)) :
    (host.sequenced programs results).Blind :=
  lawful.fully_blind (deepens_sequenceFrom programs results) fun depth =>
    (Congruence.sequenceFrom (lawful.dispatch_blind depth) programs results).2

/-! ## The same program -/

/-- The results of finished batches, put together and turned around: what the plain sequence has
when they are done.  Of `batches` the latest comes first, and so it does of the results. -/
def collected (batches : List (List (Value κ))) : List (Value κ) :=
  batches.reverse.flatten.reverse

theorem collected_cons (batch : List (Value κ)) (batches : List (List (Value κ))) :
    collected (batch.reverse :: batches) = batch ++ collected batches := by
  simp only [collected, List.reverse_cons, List.flatten_append, List.flatten_cons,
    List.flatten_nil, List.append_nil, List.reverse_append, List.reverse_reverse]

/-- Once the last batch is done, the list of lists is made into one. -/
theorem sequenced_concat_nil (lawful : host.Lawful) (hconcat : host.Concatenates concat)
    (done : List (List (Value κ))) :
    (host.sequenced [] (done.map .list) >>= fun nested => host.mapped concat nested) =
      host.sequenced [] (collected done) := by
  have hlists : (done.map Value.list).reverse = done.reverse.map .list := List.map_reverse.symm
  calc
    (host.sequenced [] (done.map .list) >>= fun nested => host.mapped concat nested)
        = host.mapped concat (.terminal (.list (done.reverse.map .list))) := by
          rw [sequenced_nil, pure_bind, hlists]
    _ = pure (.terminal (.list done.reverse.flatten)) := by
          rw [mapped_terminal lawful, hconcat, pure_bind]
    _ = host.sequenced [] (collected done) := by
          rw [sequenced_nil, collected, List.reverse_reverse]

/-- The batch under way has `batch` left and the results `found`, latest first; the batches `done`
are finished and those in `parts` are not begun.  If from the end of this batch on the two
sequences are the same, whatever it finishes with, they are the same now. -/
theorem sequenced_open_same (lawful : host.Lawful) {parts rest : List (Value κ)}
    {done : List (List (Value κ))}
    (hnext : ∀ items w, Outcome.Related host.Same
      ((host.sequenced parts (.list items :: done.map .list) >>= fun nested =>
        host.mapped concat nested).run w)
      ((host.sequenced rest (collected (items :: done))).run w)) :
    ∀ (batch found : List (Value κ)) (w : World κ β),
      Outcome.Related host.Same
        ((host.sequenced batch found >>= fun part =>
          host.continued part (.fn (.sequenceRest parts (done.map .list))) >>= fun nested =>
            host.mapped concat nested).run w)
        ((host.sequenced (batch ++ rest) (found ++ collected done)).run w) := by
  -- On the programs that the batch has left: each is followed on both sides.
  intro batch
  induction batch with
  | nil =>
      intro found w
      have hend : host.continued (.terminal (.list found.reverse))
          (.fn (.sequenceRest parts (done.map .list))) =
            host.sequenced parts (.list found.reverse :: done.map .list) :=
        result_sequenceRest lawful parts _ _
      rw [sequenced_nil, pure_bind, hend, List.nil_append, ← collected_cons]
      exact hnext found.reverse w
  | cons p batch ih =>
      intro found w
      have htail : host.Threads fun part =>
          host.continued part (.fn (.sequenceRest parts (done.map .list))) >>= fun nested =>
            host.mapped concat nested :=
        (walks_continued lawful _).toThreads.comp (walks_mapped lawful concat).toThreads
      have hleft : host.Walks fun p =>
          host.continued p (.fn (.sequenceRest batch found)) >>= fun part =>
            host.continued part (.fn (.sequenceRest parts (done.map .list))) >>= fun nested =>
              host.mapped concat nested :=
        (walks_continued lawful _).comp htail
      have hright : host.Walks fun p =>
          host.continued p (.fn (.sequenceRest (batch ++ rest) (found ++ collected done))) :=
        walks_continued lawful _
      rw [List.cons_append, sequenced_cons lawful, sequenced_cons lawful]
      refine hleft.same hright (fun value v => ?_) p w
      -- A finished program adds its value to the results of the batch.
      have hleft_value : host.continued (.terminal value) (.fn (.sequenceRest batch found)) =
          host.sequenced batch (value :: found) := result_sequenceRest lawful batch found value
      have hright_value : host.continued (.terminal value)
          (.fn (.sequenceRest (batch ++ rest) (found ++ collected done))) =
            host.sequenced (batch ++ rest) (value :: found ++ collected done) :=
        result_sequenceRest lawful _ _ value
      rw [hleft_value, hright_value]
      exact ih (value :: found) v

/-- The sequence of the batches that are left is, after `concat`, the sequence of the programs in
them. -/
theorem sequenced_batches_same (lawful : host.Lawful) (hconcat : host.Concatenates concat)
    {batches : List (List (Value κ))} {parts : List (Value κ)}
    (hparts : List.Forall₂
      (fun batch part => ∀ d : Dispatch κ β, sequenceFrom d batch [] = pure part) batches parts) :
    ∀ (done : List (List (Value κ))) (w : World κ β),
      Outcome.Related host.Same
        ((host.sequenced parts (done.map .list) >>= fun nested =>
          host.mapped concat nested).run w)
        ((host.sequenced batches.flatten (collected done)).run w) := by
  -- On the batches that are left: the first of them is opened, the others follow it.
  induction hparts with
  | nil =>
      intro done w
      rw [sequenced_concat_nil lawful hconcat]
      exact .refl .refl _
  | @cons batch part batches parts hpart _ ih =>
      intro done w
      have hbuilt : host.sequenced batch [] = pure part := by
        simp only [sequenced, hpart]
        exact fully_const host _
      have hnext : ∀ items v, Outcome.Related host.Same
          ((host.sequenced parts (.list items :: done.map .list) >>= fun nested =>
            host.mapped concat nested).run v)
          ((host.sequenced batches.flatten (collected (items :: done))).run v) :=
        fun items v => ih (items :: done) v
      have hopen := sequenced_open_same lawful hnext batch [] w
      rw [hbuilt, pure_bind, List.nil_append, ← List.flatten_cons] at hopen
      rw [sequenced_cons lawful]
      exact hopen

/-! ## The same run -/

/-- The host that leaves a mark for each call of a callback whose code is watched. -/
def watching (host : Host κ β σ) (watched : κ → Bool) : Host κ β σ :=
  { host with
    callback := fun d code captured arguments => do
      if watched code then
        .record (.trace "call" (.tuple [.fn (.callback code captured), .list arguments]))
      host.callback d code captured arguments }

theorem Respects.watching {C : Congruence κ β} (hc : host.Respects C) (watched : κ → Bool) :
    (host.watching watched).Respects C where
  callback h code captured arguments := by
    simp only [Host.watching]
    split
    · exact C.bind (C.record _) fun _ => hc.callback h code captured arguments
    · exact hc.callback h code captured arguments
  start := hc.start
  advance := hc.advance
  close := hc.close

theorem Lawful.watching (lawful : host.Lawful) (watched : κ → Bool) :
    (host.watching watched).Lawful :=
  ⟨lawful.deeper.watching watched, lawful.blind.watching watched⟩

/-- The sequence of the sequences of batches, the lists that it finishes with made into one. -/
def batched (d : Dispatch κ β) (concat : Value κ) (batches : List (List (Value κ))) :
    Action κ β (Value κ) := do
  let parts ← batches.mapM fun batch => sequence d (.list batch)
  let lists ← sequence d (.list parts)
  mapProgram d concat lists

/-- Batches that are built without a call leave the sequence of their programs to be built. -/
theorem batched_eq {batches : List (List (Value κ))} {parts : List (Value κ)} (d : Dispatch κ β)
    (hmap : (batches.mapM fun batch => sequence d (.list batch)) = pure parts) :
    batched d concat batches =
      (sequenceFrom d parts [] >>= fun lists => mapProgram d concat lists) := by
  rw [batched, hmap, pure_bind]
  rfl

theorem deepens_batched (concat : Value κ) {batches : List (List (Value κ))}
    (hbatches : ∀ batch ∈ batches, ∀ p ∈ batch, p.Ready) :
    Deepens fun d : Dispatch κ β => batched d concat batches := by
  -- The batches come to the same programs at every depth.
  obtain ⟨parts, hmap, _⟩ := exists_mapM_sequence (β := β) hbatches
  intro d d' h
  simp only [batched_eq _ (hmap _)]
  exact (deepens_sequenceFrom parts [] h).bind fun lists => deepens_mapProgram concat lists h

theorem batched_same (lawful : host.Lawful) (hconcat : host.Concatenates concat)
    {batches : List (List (Value κ))} (hbatches : ∀ batch ∈ batches, ∀ p ∈ batch, p.Ready)
    (w : World κ β) :
    Outcome.Related host.Same ((host.fully fun d => batched d concat batches).run w)
      ((host.sequenced batches.flatten []).run w) := by
  obtain ⟨parts, hmap, hparts⟩ := exists_mapM_sequence (β := β) hbatches
  have hbuilt : (host.fully fun d => batched d concat batches) =
      (host.sequenced parts [] >>= fun lists => host.mapped concat lists) := by
    simp only [batched_eq _ (hmap _)]
    exact lawful.fully_bind (deepens_sequenceFrom parts []) fun lists =>
      deepens_mapProgram concat lists
  rw [hbuilt]
  exact sequenced_batches_same lawful hconcat hparts [] w

/-- Batches make no difference.  Programs in sequence and the sequence of their batches, with
`concat` applied to the lists that it finishes with, are built without a call and cannot be told
apart; under every driver and every executor that only calls continuations the two ask for the
same operations in the same order, call the same functions on the same values, leave the same
world and end with the same value or fault, or neither ends.  Only the first step of each program
is presupposed; whatever its continuation answers may raise or be no program.  Over
`host.watching` the calls of continuations are events of the world. -/
theorem drive_sequence_batches (lawful : host.Lawful) (driver : Driver) {executor : Value κ}
    (hE : host.CallsOnly executor driver) (hconcat : host.Concatenates concat)
    {batches : List (List (Value κ))} (hbatches : ∀ batch ∈ batches, ∀ p ∈ batch, p.Ready) :
    (∀ w, ∃ nested whole, host.Same nested whole ∧
      (host.fully fun d => batched d concat batches).run w = .value nested w ∧
      (host.fully fun d => sequence d (.list batches.flatten)).run w = .value whole w) ∧
    Action.Matches (host.SameValue driver) (host.SameFault driver)
      (host.fully fun d => do
        let nested ← batched d concat batches
        driver.drive d executor nested)
      (host.fully fun d => do
        let whole ← sequence d (.list batches.flatten)
        driver.drive d executor whole) := by
  have hsame := batched_same lawful hconcat hbatches
  constructor
  · intro w
    -- The plain sequence is built without a call, so the other one is built as well.
    have hflat : ∀ p ∈ batches.flatten, p.Ready := fun p hp =>
      (List.mem_flatten.1 hp).elim fun batch hb => hbatches batch hb.1 p hb.2
    obtain ⟨whole, _, hwhole⟩ := exists_sequenceFrom_ready (β := β) hflat []
    have hplain : host.sequenced batches.flatten [] = pure whole := by
      simp only [sequenced, hwhole]
      exact fully_const host _
    have hw := hsame w
    rw [hplain] at hw
    generalize hrun : (host.fully fun d => batched d concat batches).run w = o at hw
    cases hw with
    | @value nested _ _ hnested =>
        exact ⟨nested, whole, hnested, rfl, congrArg (fun x => x.run w) hplain⟩
  · have hnested : (host.fully fun d => batched d concat batches >>= driver.drive d executor) =
        ((host.fully fun d => batched d concat batches) >>= host.driven driver executor) :=
      lawful.fully_bind (deepens_batched concat hbatches) fun q => deepens_drive driver executor q
    have hwhole : (host.fully fun d =>
        sequence d (.list batches.flatten) >>= driver.drive d executor) =
          (host.sequenced batches.flatten [] >>= host.driven driver executor) :=
      lawful.fully_bind (deepens_sequenceFrom _ _) fun q => deepens_drive driver executor q
    have hmatch := driven_matches lawful hE (sequenced_blind lawful _ _) hsame
    rw [← hnested, ← hwhole] at hmatch
    exact hmatch

end Host

/-! ## Batches of a script -/

namespace Script

/-- Puts the lists from `index` on behind what was found before them. -/
def joinBody : Expr :=
  .branch (.strict .lt [.var "index", .strict .len [.var "lists"]])
    (.strict .call [.var "join", .var "lists", .strict .add [.var "index", .lit (.int 1)],
      .strict .cat [.var "found", .strict .get [.var "lists", .var "index"]]])
    (.var "found")

def join : Value Code :=
  .fn (.callback (.function ["lists", "index", "found"] joinBody) [])

/-- Makes one list of a list of lists. -/
def concat : Value Code :=
  .fn (.callback (.function ["lists"]
    (.strict .call [.var "join", .var "lists", .lit (.int 0), .strict .list []])) [])

/-- The host of scripts that may use `join`.  Every call of a function leaves a mark, except those
of functions whose first parameter is called `lists`. -/
def joining : Host Code Stores Body :=
  (host [("join", join)]).watching fun
    | .function ("lists" :: _) _ => false
    | _ => true

theorem joining_lawful : joining.Lawful :=
  (host_lawful _).watching _

/-- A call of `join` takes up the list at `index` and calls `join` again, or answers. -/
theorem result_join_eq (items found : List (Value Code)) (index : Nat) :
    joining.result join [.list items, .int index, .list found] =
      match items[index]? with
      | some item => joining.fully fun d =>
          Primitive.cat.run d [.list found, item] >>= fun more =>
            d.apply join [.list items, .int (index + 1 : Nat), more]
      | none => pure (.list found) := by
  let globals : Scope Code := [("join", join)]
  let scope : Scope Code :=
    [("lists", .list items), ("index", .int index), ("found", .list found)]
  have hcall : joining.result join [.list items, .int index, .list found] =
      joining.fully fun d => joinBody.eval globals d scope :=
    joining_lawful.result_fn _ _
  -- What the names stand for and what the operands come to.
  have hlists : (liftM (lookup globals scope "lists") : Act (Value Code)) = pure (.list items) :=
    rfl
  have hindex : (liftM (lookup globals scope "index") : Act (Value Code)) = pure (.int index) :=
    rfl
  have hfound : (liftM (lookup globals scope "found") : Act (Value Code)) = pure (.list found) :=
    rfl
  have hjoin : (liftM (lookup globals scope "join") : Act (Value Code)) = pure join := rfl
  have hone : Value.ofWritten (.int 1) = (.int 1 : Value Code) := rfl
  have hlen : ∀ d, Primitive.len.run d [.list items] = pure (.int items.length) := fun _ => rfl
  have hnext : ∀ d, Primitive.add.run d [.int index, .int 1] = pure (.int (index + 1 : Nat)) :=
    fun _ => rfl
  rw [hcall]
  cases hitem : items[index]? with
  | some item =>
      have hindex_lt : index < items.length := (List.getElem?_eq_some_iff.1 hitem).1
      have htest : ∀ d, Primitive.lt.run d [.int index, .int items.length] =
          pure (.bool true) := fun d => by
        simp only [Primitive.run, Primitive.data?, Int.ofNat_lt.2 hindex_lt, decide_true]
      have hget : ∀ d, Primitive.get.run d [.list items, .int index] = pure item := fun d => by
        simp [Primitive.run, Primitive.data?, itemAt?, hitem]
      simp only [joinBody, Expr.eval, Expr.evalAll, hlists, hindex, hfound, hjoin, hlen, htest,
        hget, hone, hnext, pure_bind, bind_assoc]
      rfl
  | none =>
      have hindex_ge : ¬ index < items.length := by
        simpa using List.getElem?_eq_none_iff.1 hitem
      have htest : ∀ d, Primitive.lt.run d [.int index, .int items.length] =
          pure (.bool false) := fun d => by
        simp only [Primitive.run, Primitive.data?, Int.ofNat_lt, hindex_ge, decide_false]
      simp only [joinBody, Expr.eval, Expr.evalAll, hlists, hindex, hfound, hlen, htest, pure_bind]
      exact Host.fully_const joining _

theorem result_join : ∀ (rest done : List (List (Value Code))) (found : List (Value Code)),
    joining.result join [.list ((done ++ rest).map .list), .int done.length, .list found] =
      pure (.list (found ++ rest.flatten))
  | [], done, found => by
      have hend : ((done ++ []).map Value.list)[done.length]? = none := by simp
      rw [result_join_eq, hend, List.flatten_nil, List.append_nil found]
  | items :: rest, done, found => by
      have hitem : ((done ++ items :: rest).map Value.list)[done.length]? = some (.list items) := by
        simp
      have hrest := result_join rest (done ++ [items]) (found ++ items)
      have hmore : done ++ [items] ++ rest = done ++ items :: rest := by simp
      have hlength : (done ++ [items]).length = done.length + 1 := by simp
      rw [hmore, hlength] at hrest
      rw [result_join_eq, hitem, List.flatten_cons, ← List.append_assoc]
      exact hrest

theorem joining_concatenates : joining.Concatenates concat := fun lists =>
  (joining_lawful.result_fn _ _).trans (result_join lists [] [])

end Script

namespace Host

/-- Batches of a script: one with a program that waits, an empty one, one of finished programs
alone, and one whose programs go on to a fault and to what is no program. -/
theorem drive_sequence_batches_script :
    let host := Script.joining
    let backend := Script.Stores.backend 0
    let answering : Value Script.Code := .fn (.callback (.function ["docs"] (.var "docs")) [])
    let raising : Value Script.Code := .fn (.callback (.function ["doc"] (.raise .value "no")) [])
    let batches := [[Request.toProgram .getAll, .terminal (.int 1)], [],
      [.terminal (.int 2), .terminal (.int 3)],
      [Request.thenCall .getAll raising, Request.thenCall .getAll answering]]
    host.CallsOnly (Driver.awaited.executorOver backend) .awaited ∧
      host.Concatenates Script.concat ∧ (∀ batch ∈ batches, ∀ p ∈ batch, p.Ready) ∧
      Action.Matches (host.SameValue .awaited) (host.SameFault .awaited)
        (host.fully fun d => do
          let nested ← batched d Script.concat batches
          Driver.awaited.drive d (Driver.awaited.executorOver backend) nested)
        (host.fully fun d => do
          let whole ← sequence d (.list batches.flatten)
          Driver.awaited.drive d (Driver.awaited.executorOver backend) whole) := by
  intro host backend answering raising batches
  have lawful : host.Lawful := Script.joining_lawful
  have hE : host.CallsOnly (Driver.awaited.executorOver backend) .awaited :=
    callsOnly_executorOver lawful .awaited backend
  have hready : ∀ batch ∈ batches, ∀ p ∈ batch, p.Ready := by
    intro batch hbatch p hp
    simp only [batches, List.mem_cons, List.not_mem_nil, or_false] at hbatch
    rcases hbatch with rfl | rfl | rfl | rfl <;>
      simp only [List.mem_cons, List.not_mem_nil, or_false] at hp
    · rcases hp with rfl | rfl
      · exact .waiting _
      · exact .finished _
    · rcases hp with rfl | rfl <;> exact .finished _
    · rcases hp with rfl | rfl <;> exact .waiting _
  exact ⟨hE, Script.joining_concatenates, hready,
    (drive_sequence_batches lawful .awaited hE Script.joining_concatenates hready).2⟩

end Host

end Workflow

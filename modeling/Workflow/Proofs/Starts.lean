import Workflow.Proofs.Handling
import Workflow.Proofs.Parts

/-!
# How often a body runs

Every continuation of a routine starts the body afresh.  Where what the body does next depends
only on the values it has received (`Host.Determined`), the body is then taken through the same
yields as before, so a run of the routine's program can be counted: the body starts once when the
program is built, and once more each time a yield that had to wait has got its result.  Neither a
finished yield nor a further operation of a yielded program starts it.

`Host.Restarts` follows a run from one waiting program to the next and lists the starts and the
results on the way; `Host.drive_restarts` says how often each stretch of the body is run.
-/

namespace Workflow

variable {κ β σ : Type}

/-! ## The results of yields -/

/-- `Recorded react received results`: `received` holds the results of the yields of a body, in
order; `results` are the ones among them that had to be waited for. -/
inductive Recorded (react : List (Value κ) → Reaction κ) :
    List (Value κ) → List (Value κ) → Prop
  | nothing : Recorded react [] []
  | answered {received results : List (Value κ)} {value answer : Value κ} :
      Recorded react received results → react received = .yields value →
      value.held = .terminal answer → Recorded react (received ++ [answer]) results
  | resolved {received results : List (Value κ)} {value result : Value κ}
      {op : Operation (Value κ)} : Recorded react received results →
      react received = .yields value → value.held = .pending (.operation op) →
      Recorded react (received ++ [result]) (results ++ [result])

/-- The body does not yield a finished program after `received`. -/
def Idle (react : List (Value κ) → Reaction κ) (received : List (Value κ)) : Prop :=
  ∀ value answer, react received = .yields value → value.held ≠ .terminal answer

section Record

variable {react : List (Value κ) → Reaction κ} {received results history left : List (Value κ)}
  {value next : Value κ}

/-- The body yields at every place in its record but the last. -/
theorem Recorded.yields {all : List (Value κ)} (h : Recorded react all results)
    (hbegins : received <+: all) (hne : received ≠ all) :
    ∃ value, react received = .yields value := by
  induction h with
  | nothing => exact absurd (List.prefix_nil.1 hbegins) hne
  | @answered earlier results value answer _ hreact _ ih =>
      by_cases hlast : received = earlier
      · exact ⟨value, hlast ▸ hreact⟩
      · exact ih ((List.prefix_concat_iff.1 hbegins).resolve_left hne) hlast
  | @resolved earlier results value result op _ hreact _ ih =>
      by_cases hlast : received = earlier
      · exact ⟨value, hlast ▸ hreact⟩
      · exact ih ((List.prefix_concat_iff.1 hbegins).resolve_left hne) hlast

theorem Recorded.eq_of_not_yields {all : List (Value κ)} (h : Recorded react all results)
    (hbegins : received <+: all) (hnot : ∀ value, react received ≠ .yields value) :
    received = all := by
  refine Classical.byContradiction fun hne => ?_
  rcases h.yields hbegins hne with ⟨value, hreact⟩
  exact hnot value hreact

theorem due_cases (h : due history value = some (next, left)) :
    history = next :: left ∨ history = [] ∧ left = [] ∧ value.held = .terminal next := by
  cases history with
  | cons first history =>
      cases h
      exact Or.inl rfl
  | nil =>
      simp only [due] at h
      split at h
      · cases h
        exact Or.inr ⟨rfl, rfl, by assumption⟩
      · cases h

/-- Sending the value that is due keeps the record. -/
theorem Recorded.send (h : Recorded react (received ++ history) results)
    (hreact : react received = .yields value) (hdue : due history value = some (next, left)) :
    Recorded react ((received ++ [next]) ++ left) results := by
  rcases due_cases hdue with rfl | ⟨rfl, rfl, hheld⟩
  · simpa using h
  · simpa using Recorded.answered (by simpa using h) hreact hheld

theorem prefix_of_due (hdue : due history value = some (next, left)) {sent : List (Value κ)}
    (h : left <+: sent) : history <+: next :: sent := by
  rcases due_cases hdue with rfl | ⟨rfl, _, _⟩
  · exact (List.prefix_cons_inj next).2 h
  · exact List.nil_prefix

end Record

/-! ## Bodies that depend on what they have received -/

/-- However the action ends, it shows what the body does after `received`; the world may change. -/
def Tells (react : List (Value κ) → Reaction κ) (At : List (Value κ) → σ → Prop)
    (received : List (Value κ)) (x : Action κ β (Progress κ σ)) : Prop :=
  ∀ w, (∀ progress v, x.run w = .value progress v → Shown react At received progress) ∧
    ∀ cause v, x.run w = .fault cause v → ∃ raised, react received = .raises raised

/-- What a body does next depends only on the values it has received; it may change the world. -/
structure Host.Determined (host : Host κ β σ) (code : κ) (captured : Scope κ)
    (arguments : List (Value κ)) (react : List (Value κ) → Reaction κ)
    (At : List (Value κ) → σ → Prop) : Prop where
  start : ∀ w, ∃ body v, (host.start code captured arguments).run w = .value body v ∧
    Tells react At [] (host.advanced body .null)
  advance : ∀ {received body}, At received body → ∀ value,
    Tells react At (received ++ [value]) (host.advanced body value)

/-- How the last visit of a body that has received `received` has ended. -/
inductive Stops (react : List (Value κ) → Reaction κ) (received : List (Value κ)) :
    Outcome κ β (Progress κ σ) → Prop
  | raised {raised cause : Fault κ} {w : World κ β} : react received = .raises raised →
      Stops react received (.fault cause w)
  | returned {value : Value κ} {w : World κ β} : react received = .returns value →
      Stops react received (.value (.returned value) w)
  | waits {value : Value κ} {body : σ} {w : World κ β} : react received = .yields value →
      due [] value = none → Stops react received (.value (.yielded value body) w)

section Determined

variable {host : Host κ β σ} {code : κ} {captured : Scope κ}
  {arguments history sent received results : List (Value κ)}
  {react : List (Value κ) → Reaction κ} {At : List (Value κ) → σ → Prop}
  {visits : List (Visit κ β σ)} {w : World κ β}

theorem Stops.idle {o : Outcome κ β (Progress κ σ)} (h : Stops react received o) :
    Idle react received := by
  intro value answer hreact hheld
  cases h with
  | raised hraises => cases hraises.symm.trans hreact
  | returned hreturns => cases hreturns.symm.trans hreact
  | waits hyields hdue =>
      cases hyields.symm.trans hreact
      exact Host.due_eq_none.1 hdue answer hheld

/-- Played with its record, a body gets to the end of it and on to where it stops. -/
theorem Plays.recorded (hbody : host.Determined code captured arguments react At)
    {progress : Progress κ σ} {o : Outcome κ β (Progress κ σ)}
    (h : Plays host.advanced history progress w sent visits o) :
    ∀ {received}, Shown react At received progress →
      Recorded react (received ++ history) results →
      history <+: sent ∧ Recorded react (received ++ sent) results ∧
        Stops react (received ++ sent) o := by
  induction h with
  | returned history value w =>
      rintro received (_ | hreact) hrecorded
      -- A body that has returned has nothing left to replay.
      have hend : received = received ++ history :=
        hrecorded.eq_of_not_yields (List.prefix_append _ _) fun value hyields => by
          cases hyields.symm.trans hreact
      obtain rfl : history = [] := by simpa using hend
      exact ⟨List.prefix_rfl, hrecorded, .returned (by simpa using hreact)⟩
  | waits body w hdue =>
      rintro received (⟨hreact, _⟩ | _) hrecorded
      exact ⟨List.prefix_rfl, hrecorded, .waits (by simpa using hreact) hdue⟩
  | @raises history left value next body w v cause hdue hrun =>
      rintro received (⟨hreact, hat⟩ | _) hrecorded
      rcases (hbody.advance hat next w).2 cause v hrun with ⟨raised, hraises⟩
      have hsent := hrecorded.send hreact hdue
      have hend : received ++ [next] = received ++ [next] ++ left :=
        hsent.eq_of_not_yields (List.prefix_append _ _) fun value hyields => by
          cases hyields.symm.trans hraises
      obtain rfl : left = [] := by simpa using hend
      exact ⟨prefix_of_due hdue List.prefix_rfl, by simpa using hsent, .raised hraises⟩
  | @sends history left sent value next body w v progress visits o hdue hrun _ ih =>
      rintro received (⟨hreact, hat⟩ | _) hrecorded
      have hshown := (hbody.advance hat next w).1 progress v hrun
      rcases ih hshown (hrecorded.send hreact hdue) with ⟨hbegins, hsent, hstops⟩
      rw [List.append_cons received]
      exact ⟨prefix_of_due hdue hbegins, hsent, hstops⟩

/-- A start that is given a record replays it and goes on to where the body stops. -/
theorem Handled.recorded (hbody : host.Determined code captured arguments react At)
    {close : σ → Action κ β Unit} {rest : List (Value κ) → Value κ}
    {o : Outcome κ β (Value κ)}
    (h : Handled (host.start code captured arguments) host.advanced close rest history w sent
      visits o) (hhistory : Recorded react history results) :
    history <+: sent ∧ Recorded react sent results ∧
      ∃ (played : Outcome κ β (Progress κ σ)) (last : List (Visit κ β σ)),
        Stops react sent played ∧ Concludes close (rest sent) played last o := by
  rcases hbody.start w with ⟨body, v, hstart, htells⟩
  cases h with
  | unstarted hfault => cases hstart.symm.trans hfault
  | broken hstart' hrun =>
      cases hstart.symm.trans hstart'
      rcases (htells _).2 _ _ hrun with ⟨raised, hraises⟩
      obtain rfl : [] = history :=
        hhistory.eq_of_not_yields List.nil_prefix fun value hyields => by
          cases hyields.symm.trans hraises
      exact ⟨List.prefix_rfl, hhistory, _, _, .raised hraises, .raised _ _⟩
  | played hstart' hrun hplays hconcludes =>
      cases hstart.symm.trans hstart'
      rcases hplays.recorded hbody ((htells _).1 _ _ hrun) hhistory with
        ⟨hbegins, hsent, hstops⟩
      exact ⟨hbegins, hsent, _, _, hstops, hconcludes⟩

end Determined

/-! ## The starts of a run -/

/-- A start of a body: the record that is replayed, and all that the body is sent. -/
structure Start (κ : Type) where
  history : List (Value κ)
  sent : List (Value κ)

/-- The start replays the record of all yields up to the last one that was waited for, and is then
answered at once until the body waits, returns or raises. -/
structure Start.Replays (react : List (Value κ) → Reaction κ) (start : Start κ)
    (results : List (Value κ)) : Prop where
  recorded : Recorded react start.history results
  onward : start.history <+: start.sent
  received : Recorded react start.sent results
  idle : Idle react start.sent

namespace Host

/-- A call of a routine makes this start and ends with `o`. -/
def Starts (host : Host κ β σ) (code : κ) (captured : Scope κ) (arguments : List (Value κ))
    (start : Start κ) (w : World κ β) (o : Outcome κ β (Value κ)) : Prop :=
  ∃ visits, Handled (host.start code captured arguments) host.advanced
    (fun body => host.fully fun d => host.close d body) (resumption code captured arguments)
    start.history w start.sent visits o

/-- `Restarts host driver b code captured arguments steps p w starts results o`: from the program
`p` of a routine in the world `w`, after `steps` steps, a run resolves yields with `results`, makes
the starts `starts` and ends with `o`. -/
inductive Restarts (host : Host κ β σ) (driver : Driver) (b : Backend (Value κ)) (code : κ)
    (captured : Scope κ) (arguments : List (Value κ)) :
    Nat → Value κ → World κ β → List (Start κ) → List (Value κ) → Outcome κ β (Value κ) → Prop
  | finished (steps : Nat) (value : Value κ) (w : World κ β) :
      Restarts host driver b code captured arguments steps (.terminal value) w [] []
        (.value value (w.write (driver.finishLine steps)))
  /-- The operation fails. -/
  | broken {steps : Nat} {op : Operation (Value κ)} {f : Value κ} {w v : World κ β}
      {cause : Fault κ} :
      (host.turn b op).run (w.write (driver.stepLine steps (.operation (op.followedBy f)))) =
        .fault cause v →
      Restarts host driver b code captured arguments steps
        (.pending (.operation (op.followedBy f))) w [] [] (.fault (driver.leaving cause) v)
  /-- The operation leads to what is no program, or waits for no operation. -/
  | stuck {steps : Nat} {op : Operation (Value κ)} {f q : Value κ} {w v u : World κ β}
      {cause : Fault κ} :
      (host.turn b op).run (w.write (driver.stepLine steps (.operation (op.followedBy f)))) =
        .value q v →
      (∀ result, q ≠ .terminal result) → (host.continued q f).run v = .fault cause u →
      Restarts host driver b code captured arguments steps
        (.pending (.operation (op.followedBy f))) w [] [] (.fault (driver.leaving cause) u)
  /-- The yielded program goes on to its next operation; the body is not started. -/
  | further {steps : Nat} {op next : Operation (Value κ)} {f : Value κ} {w v : World κ β}
      {starts : List (Start κ)} {results : List (Value κ)} {o : Outcome κ β (Value κ)} :
      (host.turn b op).run (w.write (driver.stepLine steps (.operation (op.followedBy f)))) =
        .value (.pending (.operation next)) v →
      Restarts host driver b code captured arguments (steps + 1)
        (.pending (.operation (next.followedBy f))) v starts results o →
      Restarts host driver b code captured arguments steps
        (.pending (.operation (op.followedBy f))) w starts results o
  /-- The yielded program finishes; the start that follows fails. -/
  | failed {steps : Nat} {op : Operation (Value κ)} {received sent : List (Value κ)}
      {result : Value κ} {w v u : World κ β} {cause : Fault κ} :
      (host.turn b op).run (w.write (driver.stepLine steps
        (.operation (op.followedBy (resumption code captured arguments received))))) =
        .value (.terminal result) v →
      host.Starts code captured arguments ⟨received ++ [result], sent⟩ v (.fault cause u) →
      Restarts host driver b code captured arguments steps
        (.pending (.operation (op.followedBy (resumption code captured arguments received)))) w
        [⟨received ++ [result], sent⟩] [result] (.fault (driver.leaving cause) u)
  /-- The yielded program finishes; the start that follows makes the next program. -/
  | again {steps : Nat} {op : Operation (Value κ)} {received sent : List (Value κ)}
      {result q : Value κ} {w v u : World κ β} {starts : List (Start κ)}
      {results : List (Value κ)} {o : Outcome κ β (Value κ)} :
      (host.turn b op).run (w.write (driver.stepLine steps
        (.operation (op.followedBy (resumption code captured arguments received))))) =
        .value (.terminal result) v →
      host.Starts code captured arguments ⟨received ++ [result], sent⟩ v (.value q u) →
      Restarts host driver b code captured arguments (steps + 1) q u starts results o →
      Restarts host driver b code captured arguments steps
        (.pending (.operation (op.followedBy (resumption code captured arguments received)))) w
        (⟨received ++ [result], sent⟩ :: starts) (result :: results) o

variable {host : Host κ β σ} {driver : Driver} {b : Backend (Value κ)} {code : κ}
  {captured : Scope κ} {arguments : List (Value κ)}

/-- Every call of a routine that ends makes a start. -/
theorem exists_starts (lawful : host.Lawful) (history : List (Value κ)) {w : World κ β}
    {o : Outcome κ β (Value κ)}
    (h : (host.fully fun d => host.resume d code captured arguments history).run w = o)
    (ho : o.Finished) :
    ∃ sent, host.Starts code captured arguments ⟨history, sent⟩ w o := by
  rcases host.fully_resume_handled lawful code captured arguments history ho h with
    ⟨sent, visits, hhandled⟩
  exact ⟨sent, visits, hhandled⟩

/-- A result is sent by another start. -/
theorem starts_of_continued (lawful : host.Lawful) {received : List (Value κ)} {result : Value κ}
    {w : World κ β} {o : Outcome κ β (Value κ)}
    (h : (host.continued (.terminal result) (resumption code captured arguments received)).run w =
      o) (ho : o.Finished) :
    ∃ sent, host.Starts code captured arguments ⟨received ++ [result], sent⟩ w o := by
  have hresumed : host.continued (.terminal result) (resumption code captured arguments received) =
      host.fully fun d => host.resume d code captured arguments (received ++ [result]) :=
    lawful.result_fn (.resumeRest code captured arguments received) [result]
  rw [hresumed] at h
  exact exists_starts lawful _ h ho

/-- The programs that a run of a routine comes to: finished ones, and those that wait and go on with
what was received. -/
inductive Resuming (code : κ) (captured : Scope κ) (arguments : List (Value κ)) : Value κ → Prop
  | finished (value : Value κ) : Resuming code captured arguments (.terminal value)
  | waiting (op : Operation (Value κ)) (received : List (Value κ)) :
      Resuming code captured arguments
        (.pending (.operation (op.followedBy (resumption code captured arguments received))))

theorem Starts.resuming {start : Start κ} {w v : World κ β} {p : Value κ}
    (h : host.Starts code captured arguments start w (.value p v)) :
    Resuming code captured arguments p := by
  rcases start with ⟨history, sent⟩
  rcases h with ⟨visits, hhandled⟩
  dsimp only at hhandled
  cases hhandled with
  | played _ _ _ hconcludes =>
      cases hconcludes with
      | returned value w => exact .finished value
      | waiting _ _ => exact .waiting _ _

/-- A run from such a program makes starts, and ends as it does. -/
theorem Runs.restarts (lawful : host.Lawful) {steps : Nat} {p : Value κ} {w : World κ β}
    {ops : List (Operation (Value κ))} {o : Outcome κ β (Value κ)}
    (h : host.Runs driver b steps p w ops o) (hp : Resuming code captured arguments p) :
    ∃ starts results,
      Restarts host driver b code captured arguments steps p w starts results o := by
  induction h with
  | @done steps p w ops o hhalt =>
      cases hp with
      | finished value =>
          cases hhalt with
          | finished value w => exact ⟨[], [], .finished steps value w⟩
          | invalid w hinvalid => cases hinvalid
      | waiting op received =>
          cases hhalt with
          | refused w hrefused => exact absurd rfl (hrefused _)
          | invalid w hinvalid => cases hinvalid
          | broken hturn =>
              -- Either the operation fails, or what follows its program does.
              rw [turn_followedBy lawful] at hturn
              rcases Action.run_bind_fault_cases hturn with hop | ⟨q, v, hop, hrest⟩
              · exact ⟨[], [], .broken hop⟩
              · by_cases hq : ∃ result, q = .terminal result
                · rcases hq with ⟨result, rfl⟩
                  rcases starts_of_continued lawful hrest trivial with ⟨sent, hstarts⟩
                  exact ⟨_, _, .failed hop hstarts⟩
                · exact ⟨[], [], .stuck hop (fun result hresult => hq ⟨result, hresult⟩) hrest⟩
  | @more steps op w v p ops o hturn hruns ih =>
      cases hp with
      | waiting op received =>
          rw [turn_followedBy lawful] at hturn
          rcases Action.exists_of_run_bind_value hturn with ⟨q, u, hop, hrest⟩
          -- Only a result starts the body again.
          rcases (walks_continued lawful _).value_cases hrest with ⟨result, rfl⟩ | ⟨next, rfl⟩
          · rcases starts_of_continued lawful hrest trivial with ⟨sent, hstarts⟩
            rcases ih hstarts.resuming with ⟨starts, results, hrestarts⟩
            exact ⟨_, _, .again hop hstarts hrestarts⟩
          · rw [continued_waiting] at hrest
            cases hrest
            rcases ih (.waiting next received) with ⟨starts, results, hrestarts⟩
            exact ⟨starts, results, .further hop hrestarts⟩

/-! ## The starts of a determined body -/

theorem followedBy_injective {op op' : Operation (Value κ)} {f f' : Value κ}
    (h : Value.pending (.operation (op.followedBy f)) =
      .pending (.operation (op'.followedBy f'))) : f = f' := by
  simp only [Operation.followedBy, Value.pending.injEq, Value.operation.injEq,
    Operation.mk.injEq, Value.fn.injEq, Callable.compose.injEq, Callable.thenRest.injEq] at h
  exact h.2.1

/-- If the program `p` goes on with a routine, then with what its body has received, and the body
waits for an operation there. -/
def Expects (react : List (Value κ) → Reaction κ) (code : κ) (captured : Scope κ)
    (arguments received : List (Value κ)) (p : Value κ) : Prop :=
  ∀ (op : Operation (Value κ)) (earlier : List (Value κ)),
    p = .pending (.operation (op.followedBy (resumption code captured arguments earlier))) →
    earlier = received ∧ ∃ value asked, react received = .yields value ∧
      value.held = .pending (.operation asked)

variable {react : List (Value κ) → Reaction κ} {At : List (Value κ) → σ → Prop}

theorem Starts.replays (hbody : host.Determined code captured arguments react At)
    {start : Start κ} {results : List (Value κ)} {w : World κ β} {o : Outcome κ β (Value κ)}
    (h : host.Starts code captured arguments start w o)
    (hrecorded : Recorded react start.history results) : start.Replays react results := by
  rcases h with ⟨visits, hhandled⟩
  rcases hhandled.recorded hbody hrecorded with ⟨hbegins, hreceived, played, last, hstops, _⟩
  exact ⟨hrecorded, hbegins, hreceived, hstops.idle⟩

/-- What a start makes waits for what the body has yielded last. -/
theorem Starts.expects (hbody : host.Determined code captured arguments react At)
    {start : Start κ} {results : List (Value κ)} {w v : World κ β} {p : Value κ}
    (h : host.Starts code captured arguments start w (.value p v))
    (hrecorded : Recorded react start.history results) :
    Expects react code captured arguments start.sent p := by
  rcases h with ⟨visits, hhandled⟩
  rcases hhandled.recorded hbody hrecorded with ⟨_, _, played, last, hstops, hconcludes⟩
  intro op earlier hp
  cases hconcludes with
  | returned value w => cases hp
  | waiting hheld hclose =>
      cases followedBy_injective hp
      cases hstops with
      | waits hyields _ => exact ⟨rfl, _, _, hyields, hheld⟩

/-- `Successive react start before starts results`: after the start `start`, for which the results
`before` were waited for, each further result is sent by another start. -/
inductive Successive (react : List (Value κ) → Reaction κ) :
    Start κ → List (Value κ) → List (Start κ) → List (Value κ) → Prop
  | last {start : Start κ} {before : List (Value κ)} : start.Replays react before →
      Successive react start before [] []
  | next {start : Start κ} {before sent results : List (Value κ)} {result : Value κ}
      {starts : List (Start κ)} : start.Replays react before →
      Successive react ⟨start.sent ++ [result], sent⟩ (before ++ [result]) starts results →
      Successive react start before (⟨start.sent ++ [result], sent⟩ :: starts) (result :: results)

/-- The starts that a run of a determined body makes follow one another: each replays what the one
before it was sent. -/
theorem Restarts.successive (hbody : host.Determined code captured arguments react At) {steps : Nat}
    {p : Value κ} {w : World κ β} {starts : List (Start κ)} {results : List (Value κ)}
    {o : Outcome κ β (Value κ)}
    (h : Restarts host driver b code captured arguments steps p w starts results o) :
    ∀ {start before}, start.Replays react before →
      Expects react code captured arguments start.sent p →
      Successive react start before starts results := by
  induction h with
  | finished steps value w => exact fun hstart _ => .last hstart
  | broken hturn => exact fun hstart _ => .last hstart
  | stuck hturn hq hrest => exact fun hstart _ => .last hstart
  | further hturn _ ih =>
      -- The record stays as it is while the yielded program goes on.
      intro start before hstart hexpects
      refine ih hstart fun op earlier hp => ?_
      cases followedBy_injective hp
      exact hexpects _ earlier rfl
  | failed hturn hstarts =>
      intro start before hstart hexpects
      rcases hexpects _ _ rfl with ⟨rfl, value, asked, hyields, hheld⟩
      exact .next hstart (.last (hstarts.replays hbody (.resolved hstart.received hyields hheld)))
  | again hturn hstarts _ ih =>
      intro start before hstart hexpects
      rcases hexpects _ _ rfl with ⟨rfl, value, asked, hyields, hheld⟩
      exact .next hstart (ih (hstarts.replays hbody (.resolved hstart.received hyields hheld))
        (hstarts.expects hbody (.resolved hstart.received hyields hheld)))

/-! ## Counting -/

namespace Successive

variable {start later : Start κ} {before results : List (Value κ)} {starts : List (Start κ)}

theorem head (h : Successive react start before starts results) : start.Replays react before := by
  cases h with
  | last hstart => exact hstart
  | next hstart _ => exact hstart

theorem length_eq (h : Successive react start before starts results) :
    starts.length = results.length := by
  induction h with
  | last _ => rfl
  | next _ _ ih => exact congrArg (· + 1) ih

theorem replays (h : Successive react start before starts results) :
    ∀ {j : Nat} {later : Start κ}, (start :: starts)[j]? = some later →
      later.Replays react (before ++ results.take j) := by
  induction h with
  | last hstart =>
      intro j later hj
      cases j with
      | zero => cases hj; simpa using hstart
      | succ j => cases hj
  | next hstart _ ih =>
      intro j later hj
      cases j with
      | zero => cases hj; simpa using hstart
      | succ j => simpa using ih hj

theorem history_eq (h : Successive react start before starts results) :
    ∀ {j : Nat} {earlier later : Start κ} {result : Value κ}, (start :: starts)[j]? = some earlier →
      starts[j]? = some later → results[j]? = some result →
      later.history = earlier.sent ++ [result] := by
  induction h with
  | last _ =>
      intro j earlier later result _ hj
      cases hj
  | next _ _ ih =>
      intro j earlier later result hearlier hlater hresult
      cases j with
      | zero => cases hearlier; cases hlater; cases hresult; rfl
      | succ j => exact ih hearlier hlater hresult

/-- Later starts are sent all that an earlier one was sent, and replay more. -/
theorem grows (h : Successive react start before starts results) :
    ∀ later ∈ starts, start.sent <+: later.sent ∧ start.sent.length < later.history.length := by
  induction h with
  | last _ => exact fun later hmem => absurd hmem (List.not_mem_nil)
  | @next start before sent results result starts _ hrest ih =>
      have honward : start.sent <+: sent :=
        (List.prefix_append _ _).trans hrest.head.onward
      have hlonger : start.sent.length < (start.sent ++ [result]).length := by simp
      intro later hmem
      rcases List.mem_cons.1 hmem with rfl | hmem
      · exact ⟨honward, hlonger⟩
      · rcases ih later hmem with ⟨hbegins, hlength⟩
        exact ⟨honward.trans hbegins, Nat.lt_of_le_of_lt honward.length_le hlength⟩

end Successive

open Classical in
/-- How many of the starts run the stretch of the body that follows `history`. -/
noncomputable def runsAfter (starts : List (Start κ)) (history : List (Value κ)) : Nat :=
  starts.countP fun start => history <+: start.sent

theorem Successive.repeated {start : Start κ} {before results : List (Value κ)}
    {starts : List (Start κ)} (h : Successive react start before starts results) :
    ∀ {j : Nat} {later : Start κ}, (start :: starts)[j]? = some later →
      runsAfter (start :: starts) later.history = results.length + 1 - j := by
  induction h with
  | last hstart =>
      intro j later hj
      cases j with
      | zero =>
          cases hj
          simp [runsAfter, hstart.onward]
      | succ j => cases hj
  | @next start before sent results result starts hstart hrest ih =>
      have hgrows := (Successive.next hstart hrest).grows
      intro j later hj
      cases j with
      | zero =>
          -- What this start replays is sent by every start.
          cases hj
          have hall : ∀ other ∈ start :: ⟨start.sent ++ [result], sent⟩ :: starts,
              start.history <+: other.sent :=
            List.forall_mem_cons.2 ⟨hstart.onward, fun other hmem =>
              hstart.onward.trans (hgrows other hmem).1⟩
          calc
            runsAfter (start :: ⟨start.sent ++ [result], sent⟩ :: starts) start.history
                = (start :: ⟨start.sent ++ [result], sent⟩ :: starts).length :=
                  List.countP_eq_length.2 fun other hmem => by simpa using hall other hmem
            _ = (result :: results).length + 1 - 0 := by simp [hrest.length_eq]
      | succ j =>
          -- What a later start replays is longer than all that this one was sent.
          have hlater : (⟨start.sent ++ [result], sent⟩ :: starts)[j]? = some later := hj
          have hmem := List.mem_of_getElem? hlater
          have hshort : ¬ later.history <+: start.sent := fun hbegins =>
            absurd hbegins.length_le (Nat.not_le.2 (hgrows later hmem).2)
          calc
            runsAfter (start :: ⟨start.sent ++ [result], sent⟩ :: starts) later.history
                = runsAfter (⟨start.sent ++ [result], sent⟩ :: starts) later.history := by
                  simp [runsAfter, List.countP_cons, hshort]
            _ = results.length + 1 - j := ih hlater
            _ = (result :: results).length + 1 - (j + 1) := by simp

/-- The starts of a run whose waiting yields got the results `results`: there is one more start
than results; each start after the first replays what the one before it was sent and the result
that came last; each is sent the results of all yields up to the next one that waits, returns or
raises; and the stretch that follows the `j`-th result is run by the starts from the `j`-th on. -/
structure Counted (react : List (Value κ) → Reaction κ) (starts : List (Start κ))
    (results : List (Value κ)) : Prop where
  length : starts.length = results.length + 1
  first : ∀ start, starts[0]? = some start → start.history = []
  next : ∀ (j : Nat) (earlier later : Start κ) (result : Value κ), starts[j]? = some earlier →
    starts[j + 1]? = some later → results[j]? = some result →
    later.history = earlier.sent ++ [result]
  replays : ∀ (j : Nat) (start : Start κ), starts[j]? = some start →
    start.Replays react (results.take j)
  repeated : ∀ (j : Nat) (start : Start κ), starts[j]? = some start →
    runsAfter starts start.history = results.length - j + 1

theorem Successive.counted {start : Start κ} {results : List (Value κ)} {starts : List (Start κ)}
    (h : Successive react start [] starts results) (hfirst : start.history = []) :
    Counted react (start :: starts) results where
  length := congrArg (· + 1) h.length_eq
  first first hj := by
    cases hj
    exact hfirst
  next j earlier later result hearlier hlater hresult := h.history_eq hearlier hlater hresult
  replays j later hj := h.replays hj
  repeated j later hj := by
    -- There are as many starts after the first as results.
    have hbound : j < (start :: starts).length := (List.getElem?_eq_some_iff.1 hj).1
    have hlength := h.length_eq
    have hcount := h.repeated hj
    simp only [List.length_cons] at hbound
    omega

end Host

/-! ## A script that lists twice -/

namespace Script

/-- A body that yields a finished program, leaves a mark and asks for all documents twice. -/
def listingBody : List Stmt :=
  [.yield "n" (.strict .terminal [.lit (.int 7)]),
    .assign "mark" (.trace "listing" (.var "n")),
    .yield "one" (.strict (.programOf .getAll) []),
    .yield "other" (.strict (.programOf .getAll) []),
    .ret (.strict .tuple [.var "n", .var "one", .var "other"])]

def listingReaction : List (Value Code) → Reaction Code
  | [] => .yields (.terminal (.int 7))
  | [_] | [_, _] => .yields (Request.toProgram .getAll)
  | n :: one :: other :: _ => .returns (.tuple [n, one, other])

/-- The bodies in the order in which they wait. -/
def listingAt : List (Value Code) → Body → Prop
  | [], body => body = ⟨[], some "n", listingBody.drop 1, []⟩
  | [n], body => body = ⟨[("n", n), ("mark", n)], some "one", listingBody.drop 3, []⟩
  | [n, one], body =>
      body = ⟨[("n", n), ("mark", n), ("one", one)], some "other", listingBody.drop 4, []⟩
  | _, _ => False

theorem tells_pure {received : List (Value Code)} {progress : Progress Code Body}
    {x : Act (Progress Code Body)} (hx : x = pure progress)
    (h : Shown listingReaction listingAt received progress) :
    Tells listingReaction listingAt received x := by
  subst hx
  refine fun w => ⟨fun _ _ hvalue => ?_, fun _ _ hfault => ?_⟩
  · cases hvalue
    exact h
  · cases hfault

theorem listingBody_determined :
    (host []).Determined (.routine [] listingBody) [] [] listingReaction listingAt where
  start w := ⟨⟨[], none, listingBody, []⟩, w, rfl,
    tells_pure (advanced_eq 3 fun _ => rfl) (.yielded rfl rfl)⟩
  advance := by
    intro received body hat value
    match received, hat with
    | [], rfl =>
        -- The mark is made before the next yield.
        have hadvanced : (host []).advanced ⟨[], some "n", listingBody.drop 1, []⟩ value =
            (Action.record (.trace "listing" value) >>= fun _ => pure (.yielded
              (Request.toProgram .getAll)
              ⟨[("n", value), ("mark", value)], some "one", listingBody.drop 3, []⟩)) :=
          advanced_eq 3 fun _ => rfl
        rw [hadvanced]
        refine fun w => ⟨fun _ _ hvalue => ?_, fun _ _ hfault => ?_⟩
        · cases hvalue
          exact .yielded rfl rfl
        · cases hfault
    | [n], rfl => exact tells_pure (advanced_eq 3 fun _ => rfl) (.yielded rfl rfl)
    | [n, one], rfl => exact tells_pure (advanced_eq 3 fun _ => rfl) (.returned rfl)

end Script

/-! ## The number of starts -/

namespace Host

variable {host : Host κ β σ} {code : κ} {captured : Scope κ} {arguments : List (Value κ)}
  {react : List (Value κ) → Reaction κ} {At : List (Value κ) → σ → Prop}

/-- How often a body runs.  For a body whose next yield, return or raising depends only on the
values it has received, building the program of its routine starts it once; and whenever a run of
the program ends, under any driver over a backend, each yield that had to wait and got its result
has started it once more.  Finished yields and the further operations of a yielded program have
not.  A start is sent, in order, the results of all yields, finished and waiting, up to the last one
that was waited for, and is then answered at once up to the next yield that waits, the return or the
fault.  So the stretch of the body after the `j`-th of `m` such results is run `m - j + 1` times. -/
theorem drive_restarts (lawful : host.Lawful) (driver : Driver) (b : Backend (Value κ))
    (hbody : host.Determined code captured arguments react At) :
    (∀ (w : World κ β) (o : Outcome κ β (Value κ)), o.Finished →
      (host.result (.fn (.routine code captured)) arguments).run w = o →
      ∃ first, host.Starts code captured arguments first w o ∧ Counted react [first] []) ∧
    ∀ (w v u : World κ β) (p : Value κ) (o : Outcome κ β (Value κ)), o.Finished →
      (host.result (.fn (.routine code captured)) arguments).run w = .value p v →
      (host.drive driver b p).run u = o →
      ∃ first starts results, host.Starts code captured arguments first w (.value p v) ∧
        Restarts host driver b code captured arguments 0 p (u.write (.started driver)) starts
          results o ∧
        Counted react (first :: starts) results := by
  have hbuilt : host.result (.fn (.routine code captured)) arguments =
      host.fully fun d => host.resume d code captured arguments [] :=
    lawful.result_fn (.routine code captured) arguments
  rw [hbuilt]
  constructor
  · intro w o ho h
    rcases exists_starts lawful [] h ho with ⟨sent, hstarts⟩
    exact ⟨⟨[], sent⟩, hstarts,
      (Successive.last (hstarts.replays hbody .nothing)).counted rfl⟩
  · intro w v u p o ho hp h
    rcases exists_starts lawful [] hp trivial with ⟨sent, hstarts⟩
    rcases (drive_eq_iff lawful ho).1 h with ⟨ops, hruns⟩
    rcases hruns.restarts lawful hstarts.resuming with ⟨starts, results, hrestarts⟩
    have hsuccessive := hrestarts.successive hbody (hstarts.replays hbody .nothing)
      (hstarts.expects hbody .nothing)
    exact ⟨⟨[], sent⟩, starts, results, hstarts, hrestarts, hsuccessive.counted rfl⟩

/-- The script that lists twice, over a store that holds nothing. -/
theorem drive_restarts_listing :
    let host := Script.host []
    let b := Script.Stores.backend 0
    let code : Script.Code := .routine [] Script.listingBody
    let asked : Operation (Value Script.Code) := ⟨.getAll, .fn .finish⟩
    let p : Value Script.Code := .pending (.operation (asked.followedBy
      (resumption code [] [] [.int 7])))
    let built := Script.emptyStore.recorded (.trace "listing" (.int 7))
    host.Determined code [] [] Script.listingReaction Script.listingAt ∧
      (host.result (.fn (.routine code [])) []).run Script.emptyStore = .value p built ∧
      ∃ v, (host.drive .stepped b p).run built =
          .value (.tuple [.int 7, .list [], .list []]) v ∧
        ∃ first starts results,
          host.Starts code [] [] first Script.emptyStore (.value p built) ∧
          Restarts host .stepped b code [] [] 0 p (built.write (.started .stepped)) starts results
            (.value (.tuple [.int 7, .list [], .list []]) v) ∧
          Counted Script.listingReaction (first :: starts) results := by
  intro host b code asked p built
  have lawful : host.Lawful := Script.host_lawful []
  have hbuilt : (host.result (.fn (.routine code [])) []).run Script.emptyStore =
      .value p built :=
    (lawful.call_approx 8 _ _).run_eq rfl trivial
  have hends : ∃ v, (Driver.stepped.drive (host.dispatch 12) (Driver.stepped.executorOver b) p).run
      built = .value (.tuple [.int 7, .list [], .list []]) v := ⟨_, rfl⟩
  rcases hends with ⟨v, hends⟩
  have hv : (host.drive .stepped b p).run built = .value (.tuple [.int 7, .list [], .list []]) v :=
    drive_of_run lawful 12 hends trivial
  exact ⟨Script.listingBody_determined, hbuilt, v, hv,
    (drive_restarts lawful .stepped b Script.listingBody_determined).2 _ _ _ _ _ trivial hbuilt hv⟩

end Host

end Workflow

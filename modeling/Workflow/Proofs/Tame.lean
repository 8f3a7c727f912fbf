import Workflow.Call
import Workflow.Proofs.Inert
import Workflow.Script.Primitive

/-!
# Tame calls

The combinators are given tame values and a dispatch whose calls of tame functions are inert.
Then they are inert themselves and give tame values.  Of the functions inside the values that they
are given, they call those that a caller hands them to be called; a continuation is passed on
inside another one, and whether it is tame does not matter.

A host is tame if the code that its caller vouches for is inert whenever the functions that it
calls are (`Host.Tame`).  By induction on how deep calls nest, all calls of tame functions are
inert then (`Host.Tame.dispatch`).
-/

namespace Workflow

variable {κ β σ : Type} {t : Terms κ} {E E' : Effects κ β} {d : Dispatch κ β}

/-! ## Checks and operations -/

section Checks

variable {f v : Value κ}

theorem ensureProgram_found (hv : v.Tame t) : Found t (Value.Tame t) (ensureProgram v) := by
  unfold ensureProgram
  split
  · exact .ok hv
  · exact .error (Fault.tame_of_carried rfl hv)

theorem asProgram_found (hv : v.Tame t) : Found t (Value.Tame t) (asProgram v) := by
  cases hv with
  | query hprogram => exact .ok hprogram
  | _ => exact ensureProgram_found (by constructor <;> assumption)

theorem items?_tame (hv : v.Tame t) {items : List (Value κ)} (h : v.items? = some items) :
    ∀ item ∈ items, item.Tame t := by
  intro item hitem
  cases hv with
  | list hitems | tuple hitems =>
      cases h
      exact hitems item hitem
  | text s =>
      cases h
      rcases List.mem_map.1 hitem with ⟨c, _, rfl⟩
      exact .text _
  | bytes content =>
      cases h
      rcases List.mem_map.1 hitem with ⟨b, _, rfl⟩
      exact .int _
  | dict hmembers =>
      cases h
      rcases List.mem_map.1 hitem with ⟨member, _, rfl⟩
      exact .text _
  | _ => cases h

theorem itemsOf_found (hv : v.Tame t) :
    Found t (fun items => ∀ item ∈ items, item.Tame t) (itemsOf v) := by
  unfold itemsOf
  split
  · exact .ok (items?_tame hv ‹_›)
  · exact .error (Fault.tame_of_carried rfl hv)

theorem mapOperation_found (hf : f.Tame t) (hv : v.Tame t) :
    Found t (Value.Tame t) (mapOperation f v) := by
  cases hv with
  | operation hoperands hnext =>
      exact .ok (.operation hoperands fun h => .fn (.compose hf (hnext h)))
  | _ => exact .error (Fault.tame_of_carried rfl (by constructor <;> assumption))

end Checks

/-! ## Combinators -/

section Combinators

variable {f p q v : Value κ}

theorem mapProgram_inert (hd : d.Tame t E) (hf : f.Tame t) (hp : p.Tame t) :
    (mapProgram d f p).Inert t E (Value.Tame t) := by
  cases hp with
  | terminal hvalue =>
      exact (hd f _ hf (List.forall_mem_singleton.2 hvalue)).bind fun _ h => .pure (.terminal h)
  | pending hwaiting =>
      exact (Action.Inert.lift (mapOperation_found (.fn (.mapRest hf)) hwaiting)).bind fun _ h =>
        .pure (.pending h)
  | _ => exact .fail (Fault.tame_of_carried rfl (by constructor <;> assumption))

theorem andThen_inert (hd : d.Tame t E) (hp : p.Tame t) (hf : f.Tame t) :
    (andThen d p f).Inert t E (Value.Tame t) := by
  cases hp with
  | terminal hvalue => exact hd f _ hf (List.forall_mem_singleton.2 hvalue)
  | pending hwaiting =>
      exact (Action.Inert.lift (mapOperation_found (.fn (.thenRest hf)) hwaiting)).bind fun _ h =>
        .pure (.pending h)
  | _ => exact .fail (Fault.tame_of_carried rfl (by constructor <;> assumption))

theorem pair_inert (hd : d.Tame t E) (hp : p.Tame t) (hq : q.Tame t) :
    (pair d p q).Inert t E (Value.Tame t) :=
  andThen_inert hd hp (.fn (.pairRest hq))

theorem sequenceFrom_inert (hd : d.Tame t E) :
    ∀ programs results : List (Value κ), (∀ program ∈ programs, program.Tame t) →
      (∀ result ∈ results, result.Tame t) →
      (sequenceFrom d programs results).Inert t E (Value.Tame t)
  | [], results, _, hresults =>
      -- The results were kept latest first.
      .pure (.terminal (.list fun result h => hresults result (List.mem_reverse.1 h)))
  | program :: remaining, results, hprograms, hresults => by
      have hfirst : program.Tame t := hprograms program (by simp)
      have hremaining : ∀ other ∈ remaining, other.Tame t := fun other hother =>
        hprograms other (List.mem_cons_of_mem program hother)
      have hrest : (andThen d program (.fn (.sequenceRest remaining results))).Inert t E
          (Value.Tame t) :=
        andThen_inert hd hfirst (.fn (.sequenceRest hremaining hresults))
      cases program with
      | terminal value =>
          -- A finished program is passed over at once.
          cases hfirst with
          | terminal hvalue =>
              exact sequenceFrom_inert hd remaining (value :: results) hremaining
                (List.forall_mem_cons.2 ⟨hvalue, hresults⟩)
      | _ => exact hrest

theorem sequence_inert (hd : d.Tame t E) (hv : v.Tame t) :
    (sequence d v).Inert t E (Value.Tame t) :=
  (Action.Inert.lift (itemsOf_found hv)).bind fun items hitems =>
    sequenceFrom_inert hd items [] hitems (by simp)

theorem mapItems_inert (hd : d.Tame t E) (hf : f.Tame t) :
    ∀ items : List (Value κ), (∀ item ∈ items, item.Tame t) →
      (mapItems d f items).Inert t E fun answers => ∀ answer ∈ answers, answer.Tame t
  | [], _ => .pure (by simp)
  | item :: rest, hitems => by
      rcases List.forall_mem_cons.1 hitems with ⟨hitem, hitems⟩
      have hrest := mapItems_inert hd hf rest hitems
      refine (hd f [item] hf (List.forall_mem_singleton.2 hitem)).bind fun answer hanswer => ?_
      exact hrest.bind fun answers hanswers =>
        .pure (List.forall_mem_cons.2 ⟨hanswer, hanswers⟩)

theorem traverse_inert (hd : d.Tame t E) (hf : f.Tame t) (hv : v.Tame t) :
    (traverse d f v).Inert t E (Value.Tame t) := by
  refine (Action.Inert.lift (itemsOf_found hv)).bind fun items hitems => ?_
  exact (mapItems_inert hd hf items hitems).bind fun programs hprograms =>
    sequenceFrom_inert hd programs [] hprograms (by simp)

end Combinators

/-! ## Queries -/

namespace Query

variable {f p q v : Value κ}

theorem ofProgram_found (hv : v.Tame t) : Found t (Value.Tame t) (ofProgram v) :=
  (ensureProgram_found hv).bind fun _ hprogram => .ok (.query hprogram)

theorem wrapping_inert {build : Action κ β (Value κ)} (h : build.Inert t E (Value.Tame t)) :
    (wrapping build).Inert t E (Value.Tame t) :=
  h.bind fun _ hprogram => .lift (ofProgram_found hprogram)

theorem map_inert (hd : d.Tame t E) (hp : p.Tame t) (hf : f.Tame t) :
    (map d p f).Inert t E (Value.Tame t) :=
  wrapping_inert (mapProgram_inert hd hf hp)

theorem zipProgram_inert (hd : d.Tame t E) (hp : p.Tame t) (hq : q.Tame t) :
    (zipProgram d p q).Inert t E (Value.Tame t) :=
  wrapping_inert (pair_inert hd hp hq)

theorem zip_inert (hd : d.Tame t E) (hp : p.Tame t) (hv : v.Tame t) :
    (zip d p v).Inert t E (Value.Tame t) := by
  cases hv with
  | query hother => exact zipProgram_inert hd hp hother
  | _ => exact .fail (Fault.tame_of_carried rfl (by constructor <;> assumption))

theorem andThenProgram_inert (hd : d.Tame t E) (hp : p.Tame t) (hf : f.Tame t) :
    (andThenProgram d p f).Inert t E (Value.Tame t) :=
  wrapping_inert (andThen_inert hd hp hf)

theorem andThen_inert (hd : d.Tame t E) (hp : p.Tame t) (hf : f.Tame t) :
    (andThen d p f).Inert t E (Value.Tame t) :=
  andThenProgram_inert hd hp (.fn (.compose (.fn .asProgram) hf))

theorem chain_inert (hd : d.Tame t E) (hp : p.Tame t) {next? : Option (Value κ)}
    (hnext : ∀ next, next? = some next → next.Tame t) :
    (chain d p next?).Inert t E (Value.Tame t) := by
  refine andThenProgram_inert hd hp (.fn ?_)
  cases next? with
  | some next => exact .always (hnext next rfl)
  | none => exact .misfit

theorem programsOf_found (hv : v.Tame t) :
    Found t (fun programs => ∀ program ∈ programs, program.Tame t) (programsOf v) :=
  (itemsOf_found hv).bind fun items hitems =>
    Found.mapM items fun item hitem => asProgram_found (hitems item hitem)

theorem sequence_inert (hd : d.Tame t E) (hv : v.Tame t) :
    (sequence d v).Inert t E (Value.Tame t) :=
  (Action.Inert.lift (programsOf_found hv)).bind fun programs hprograms =>
    wrapping_inert (sequenceFrom_inert hd programs [] hprograms (by simp))

end Query

/-! ### Methods -/

namespace Script

variable {p : Value κ} {operands : List (Value κ)}

/-- A request is made of the first operands, and the others are left. -/
theorem request?_eq {asked : RequestKind} {made : Request (Value κ)} {rest : List (Value κ)}
    (h : asked.request? operands = some (made, rest)) : operands = made.operands ++ rest := by
  unfold RequestKind.request? at h
  split at h <;> cases h <;> rfl

theorem request?_tame (hoperands : ∀ operand ∈ operands, operand.Tame t) {asked : RequestKind}
    {made : Request (Value κ)} {rest : List (Value κ)}
    (h : asked.request? operands = some (made, rest)) :
    (∀ operand ∈ made.operands, operand.Tame t) ∧ ∀ operand ∈ rest, operand.Tame t := by
  rw [request?_eq h] at hoperands
  exact List.forall_mem_append.1 hoperands

theorem operation_tame (hoperands : ∀ operand ∈ operands, operand.Tame t) {asked : RequestKind}
    {made : Request (Value κ)} {next : Value κ}
    (h : asked.request? operands = some (made, [next])) :
    (Value.operation ⟨made, next⟩).Tame t := by
  have hmade := request?_tame hoperands h
  exact .operation hmade.1 fun _ => List.forall_mem_singleton.1 hmade.2

theorem toProgram_tame {made : Request (Value κ)} (h : ∀ operand ∈ made.operands, operand.Tame t) :
    made.toProgram.Tame t :=
  .pending (.operation h fun _ => .fn .finish)

theorem Verb.program?_tame (hoperands : ∀ operand ∈ operands, operand.Tame t) {verb : Verb}
    {program : Value κ} (h : verb.program? operands = some program) : program.Tame t := by
  unfold Verb.program? at h
  split at h
  · split at h
    · cases h
      exact toProgram_tame (request?_tame hoperands ‹_›).1
    · cases h
  · cases h
    exact .terminal (hoperands _ (by simp))
  · cases h

theorem Method.run_inert (hd : d.Tame t E) (hp : p.Tame t)
    (hoperands : ∀ operand ∈ operands, operand.Tame t) (method : Method) :
    (method.run d p operands).Inert t E (Value.Tame t) := by
  have hone : ∀ {value : Value κ}, operands = [value] → value.Tame t := fun h =>
    hoperands _ (by simp [h])
  unfold Method.run
  split
  · exact Query.chain_inert hd hp fun next hnext => Verb.program?_tame hoperands hnext
  · exact Query.map_inert hd hp (hone rfl)
  · exact Query.zip_inert hd hp (hone rfl)
  · exact Query.zipProgram_inert hd hp (hone rfl)
  · exact Query.andThen_inert hd hp (hone rfl)
  · exact Query.andThenProgram_inert hd hp (hone rfl)
  · exact Query.sequence_inert hd (hone rfl)
  · exact .fail (Fault.tame_of_none rfl)

end Script

/-! ## Hosts -/

/-- What comes of a body is tame: the value that it yields or returns, and where it waits. -/
inductive Progress.Tame (t : Terms κ) (At : σ → Prop) : Progress κ σ → Prop
  | yielded {value : Value κ} {body : σ} :
      value.Tame t → At body → Progress.Tame t At (.yielded value body)
  | returned {value : Value κ} : value.Tame t → Progress.Tame t At (.returned value)

/-- Code that the caller vouches for has no other effects of its own than `E`, whatever effects
the functions have that it calls; `At` holds of its bodies where they wait. -/
structure Host.Tame (host : Host κ β σ) (t : Terms κ) (E : Effects κ β) (At : σ → Prop) :
    Prop where
  callback : ∀ {E' : Effects κ β} {d : Dispatch κ β}, E.Within E' → d.Tame t E' →
    ∀ {code : κ} {captured : Scope κ} {arguments : List (Value κ)}, t.codes code →
      captured.Tame t → (∀ argument ∈ arguments, argument.Tame t) →
      (host.callback d code captured arguments).Inert t E' (Value.Tame t)
  start : ∀ {code : κ} {captured : Scope κ} {arguments : List (Value κ)}, t.codes code →
    captured.Tame t → (∀ argument ∈ arguments, argument.Tame t) →
    (host.start code captured arguments).Inert t E At
  advance : ∀ {E' : Effects κ β} {d : Dispatch κ β}, E.Within E' → d.Tame t E' →
    ∀ {body : σ} {sent : Value κ}, At body → sent.Tame t →
      (host.advance d body sent).Inert t E' (Progress.Tame t At)
  close : ∀ {E' : Effects κ β} {d : Dispatch κ β}, E.Within E' → d.Tame t E' →
    ∀ {body : σ}, At body → (host.close d body).Inert t E' fun _ => True

namespace Host.Tame

variable {host : Host κ β σ} {At : σ → Prop}

theorem feed_inert (h : host.Tame t E At) (hd : d.Tame t E) :
    ∀ (received : List (Value κ)) {progress : Progress κ σ}, progress.Tame t At →
      (∀ value ∈ received, value.Tame t) →
      (host.feed d progress received).Inert t E (Progress.Tame t At)
  | [], progress, hprogress, _ => by
      cases hprogress with
      | yielded hvalue hat => exact .pure (.yielded hvalue hat)
      | returned hvalue => exact .pure (.returned hvalue)
  | sent :: rest, progress, hprogress, hreceived => by
      cases hprogress with
      | yielded hvalue hat =>
          have hsent : sent.Tame t := hreceived sent (by simp)
          refine (h.advance (fun h => h) hd hat hsent).bind fun next hnext => ?_
          exact feed_inert h hd rest hnext fun value hmem =>
            hreceived value (List.mem_cons_of_mem sent hmem)
      | returned hvalue =>
          -- A body that returns early gets no more of the values.
          exact .pure (.returned hvalue)

/-- Where the program that is yielded waits, the body is closed, and only then is the program
continued; nothing of its continuation is called. -/
theorem settle_inert (h : host.Tame t E At) (hd : d.Tame t E)
    {rest : List (Value κ) → Value κ}
    (hrest : ∀ received, (∀ value ∈ received, value.Tame t) → (rest received).Tame t) :
    ∀ (rounds : Nat) (received : List (Value κ)) {progress : Progress κ σ},
      (∀ value ∈ received, value.Tame t) → progress.Tame t At →
      (host.settle d rest rounds received progress).Inert t E (Value.Tame t)
  | 0, _, _, _, _ => .unfinished
  | rounds + 1, received, _, hreceived, hprogress => by
      cases hprogress with
      | returned hvalue => exact .pure (.terminal hvalue)
      | @yielded value body hvalue hat =>
          have hprogram := asProgram_found hvalue
          simp only [Host.settle]
          generalize asProgram value = result at hprogram
          cases hprogram with
          | error hcause => exact (h.close (fun h => h) hd hat).bind fun _ _ => .fail hcause
          | @ok program hprogram =>
              have hwaits : (host.close d body >>= fun _ =>
                  andThen d program (rest received.reverse)).Inert t E (Value.Tame t) :=
                (h.close (fun h => h) hd hat).bind fun _ _ => andThen_inert hd hprogram
                  (hrest _ fun v hv => hreceived v (List.mem_reverse.1 hv))
              cases hprogram with
              | terminal hanswer =>
                  -- The loop goes another round, with what the program has finished with.
                  refine (h.advance (fun h => h) hd hat hanswer).bind fun next hnext => ?_
                  exact settle_inert h hd hrest rounds _
                    (List.forall_mem_cons.2 ⟨hanswer, hreceived⟩) hnext
              | _ => exact hwaits

theorem resume_inert (h : host.Tame t E At) (hd : d.Tame t E) {code : κ} {captured : Scope κ}
    {arguments received : List (Value κ)} (hcode : t.codes code)
    (hcaptured : captured.Tame t)
    (harguments : ∀ argument ∈ arguments, argument.Tame t)
    (hreceived : ∀ value ∈ received, value.Tame t) :
    (host.resume d code captured arguments received).Inert t E (Value.Tame t) := by
  refine (h.start hcode hcaptured harguments).bind fun body hat => ?_
  refine (h.advance (fun h => h) hd hat .null).bind fun first hfirst => ?_
  refine (h.feed_inert hd received hfirst hreceived).bind fun progress hprogress => ?_
  exact h.settle_inert hd
    (fun values hvalues => .fn (.resumeRest hcode hcaptured harguments hvalues)) _ _
    (fun value hvalue => hreceived value (List.mem_reverse.1 hvalue)) hprogress

/-- A tame function that is called does nothing but call tame functions. -/
theorem invoke_inert (h : host.Tame t E At) (hd : d.Tame t E) {f : Callable κ} (hf : f.Tame t)
    {arguments : List (Value κ)} (harguments : ∀ argument ∈ arguments, argument.Tame t) :
    (host.invoke d f arguments).Inert t E (Value.Tame t) := by
  have hone : ∀ {value : Value κ}, arguments = [value] → value.Tame t := fun harg =>
    harguments _ (by simp [harg])
  unfold Host.invoke
  split
  · cases hf with
    | callback hcode hcaptured => exact h.callback (fun h => h) hd hcode hcaptured harguments
  · cases hf with
    | routine hcode hcaptured => exact h.resume_inert hd hcode hcaptured harguments (by simp)
  · cases hf with
    | resumeRest hcode hcaptured hpassed hreceived =>
        refine h.resume_inert hd hcode hcaptured hpassed fun value hvalue => ?_
        rcases List.mem_append.1 hvalue with hearlier | hnewest
        · exact hreceived value hearlier
        · exact harguments value hnewest
  -- Executors are not tame.
  · cases hf
  · cases hf
  · exact .pure (.terminal (hone rfl))
  · exact .lift (asProgram_found (hone rfl))
  · cases hf with
    | always hvalue => exact .pure hvalue
  · cases hf with
    | pairWith hfirst =>
        have hsecond := List.forall_mem_singleton.2 (hone rfl)
        exact .pure (.tuple (List.forall_mem_cons.2 ⟨hfirst, hsecond⟩))
  · cases hf with
    | compose houter hinner =>
        refine (hd _ _ hinner harguments).bind fun answer hanswer => ?_
        exact hd _ _ houter (List.forall_mem_singleton.2 hanswer)
  · cases hf with
    | mapRest hf => exact mapProgram_inert hd hf (hone rfl)
  · cases hf with
    | thenRest hf => exact andThen_inert hd (hone rfl) hf
  · cases hf
  · cases hf with
    | pairRest hsecond => exact mapProgram_inert hd (.fn (.pairWith (hone rfl))) hsecond
  · cases hf with
    | sequenceRest hremaining hresults =>
        exact sequenceFrom_inert hd _ _ hremaining
          (List.forall_mem_cons.2 ⟨hone rfl, hresults⟩)
  · exact .fail (Fault.tame_of_none rfl)

/-- Within every depth, calls of tame functions are inert. -/
theorem dispatch (h : host.Tame t E At) : ∀ depth, (host.dispatch depth).Tame t E
  -- By induction on the depth: what a function calls nests one call less deep.
  | 0, _, _, _, _ => .unfinished
  | depth + 1, f, arguments, hf, harguments => by
      cases hf with
      | fn hf => exact h.invoke_inert (h.dispatch depth) hf harguments
      | _ => exact .fail (Fault.tame_of_carried rfl (by constructor <;> assumption))

end Host.Tame

/-! ## Marks -/

/-- The store and the logging state are as they were before, and nothing has been noted down but
marks of these kinds: no call of the backend and no line of the log. -/
structure World.Untouched {S : Type} (store : β → S) (marks : String → Value κ → Prop)
    (w v : World κ β) : Prop where
  store : store v.outside = store w.outside
  debug : v.debug = w.debug
  journal : ∃ events, v.journal = events ++ w.journal ∧
    ∀ event ∈ events, ∃ label value, event = .trace label value ∧ marks label value

/-- To leave marks of these kinds and to touch nothing else of the store, the logging state and
the journal. -/
def Effects.leaving {S : Type} (store : β → S) (marks : String → Value κ → Prop) :
    Effects κ β where
  allows := World.Untouched store marks
  refl _ := ⟨rfl, rfl, [], rfl, by simp⟩
  trans := by
    rintro u v w ⟨hstore, hdebug, earlier, hearlier, hmarks⟩
      ⟨hstore', hdebug', later, hlater, hmarks'⟩
    refine ⟨hstore'.trans hstore, hdebug'.trans hdebug, later ++ earlier, ?_, ?_⟩
    · rw [hlater, hearlier, List.append_assoc]
    · intro event hevent
      rcases List.mem_append.1 hevent with h | h
      · exact hmarks' event h
      · exact hmarks event h

section Marks

variable {S : Type} {store : β → S} {marks marks' : String → Value κ → Prop}

theorem Effects.leaving_within (h : ∀ label value, marks label value → marks' label value) :
    (Effects.leaving store marks).Within (Effects.leaving store marks') := by
  rintro w v ⟨hstore, hdebug, events, hjournal, hmarks⟩
  refine ⟨hstore, hdebug, events, hjournal, fun event hevent => ?_⟩
  rcases hmarks event hevent with ⟨label, value, rfl, hmark⟩
  exact ⟨label, value, rfl, h label value hmark⟩

theorem Effects.leaving_allows {label : String} {value : Value κ} (h : marks label value)
    (w : World κ β) :
    (Effects.leaving store marks).allows w { w with journal := .trace label value :: w.journal } :=
  ⟨rfl, rfl, [.trace label value], rfl, List.forall_mem_singleton.2 ⟨label, value, rfl, h⟩⟩

/-- The marks that a recorded host leaves if it is asked to run no other code than this. -/
inductive Asked (codes : κ → Prop) : String → Value κ → Prop
  | call {code : κ} (captured : Scope κ) (arguments : List (Value κ)) : codes code →
      Asked codes "call" (.tuple [.fn (.callback code captured), .list arguments])
  | start {code : κ} (captured : Scope κ) (arguments : List (Value κ)) : codes code →
      Asked codes "start" (.tuple [.fn (.routine code captured), .list arguments])
  | send (value : Value κ) : Asked codes "send" value
  | close : Asked codes "close" .null

theorem Host.Tame.recorded {host : Host κ β σ} {At : σ → Prop} (h : host.Tame t E At)
    (hE : E.Within E') (hmarks : ∀ label value, Asked t.codes label value →
      ∀ w : World κ β, E'.allows w { w with journal := .trace label value :: w.journal }) :
    host.recorded.Tame t E' At where
  callback hwithin hd _ captured arguments hcode hcaptured harguments :=
    (Action.Inert.record fun w => hwithin (hmarks _ _ (.call captured arguments hcode) w)).bind
      fun _ _ => h.callback (fun ha => hwithin (hE ha)) hd hcode hcaptured harguments
  start {_ captured arguments} hcode hcaptured harguments :=
    (Action.Inert.record (hmarks _ _ (.start captured arguments hcode))).bind
      fun _ _ => (h.start hcode hcaptured harguments).within hE
  advance hwithin hd _ sent hat hsent :=
    (Action.Inert.record fun w => hwithin (hmarks _ _ (.send sent) w)).bind
      fun _ _ => h.advance (fun ha => hwithin (hE ha)) hd hat hsent
  close hwithin hd _ hat :=
    (Action.Inert.record fun w => hwithin (hmarks _ _ .close w)).bind
      fun _ _ => h.close (fun ha => hwithin (hE ha)) hd hat

end Marks

end Workflow

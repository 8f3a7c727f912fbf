import Mathlib.Algebra.Ring.Nat
import Workflow.Proofs.Parts
import Workflow.Proofs.Sameness

/-!
# Running the members

A pair or a sequence is run member by member: each program is driven in the world that the one
before has left, and the results are put together (`Host.drive_members`).  As for the two parts of
`Workflow.Proofs.Parts`, worlds are compared without their log lines, and where every member
finishes the steps add up.

A sequence that has walked past its first programs continues the next one with what is left
(`Host.sequenced_cons`), so one member is one part of a continued program, and the whole is an
induction on the programs with the results so far left open.  A pair maps its second program
inside the continuation of the first; since mapping is continuing up to sameness
(`Host.mapped_same_continued`), parts are run in the same way if they are the same programs
(`Host.Runs.of_same`).
-/

namespace Workflow

variable {κ β σ α γ : Type}

/-- After the same action, actions that look the same at its values look the same. -/
theorem Action.mapWorld_bind_congr {β' : Type} (view : World κ β → World κ β')
    {x : Action κ β α} {f g : α → Action κ β γ} {w : World κ β}
    (hfg : ∀ a v, x.run w = .value a v →
      ((f a).run v).mapWorld view = ((g a).run v).mapWorld view) :
    ((x >>= f).run w).mapWorld view = ((x >>= g).run w).mapWorld view := by
  cases hx : x.run w with
  | value a v =>
      simpa only [Action.run_bind_of_value _ hx] using hfg a v hx
  | fault cause v => simp only [Action.run_bind_of_fault _ hx]
  | unfinished => simp only [Action.run_bind_of_unfinished _ hx]

namespace Action.Blind

variable {R : α → γ → Prop} {x : Action κ β α} {y : Action κ β γ} {w w' v : World κ β}

/-- A related action ends with a related value, also where other log lines were written before. -/
theorem value_of_related (hy : y.Blind) (hxy : Outcome.Related R (x.run w) (y.run w))
    (hw : w.unlogged = w'.unlogged) {a : α} (hx : x.run w = .value a v) :
    ∃ c v', y.run w' = .value c v' ∧ R a c ∧ v.unlogged = v'.unlogged := by
  rw [hx] at hxy
  generalize hrun : y.run w = o at hxy
  cases hxy with
  | @value _ c _ hac =>
      rcases hy.value_of_unlogged hw hrun with ⟨v', hrun', hv⟩
      exact ⟨c, v', hrun', hac, hv⟩

theorem fault_of_related (hy : y.Blind) (hxy : Outcome.Related R (x.run w) (y.run w))
    (hw : w.unlogged = w'.unlogged) {cause : Fault κ} (hx : x.run w = .fault cause v) :
    ∃ v', y.run w' = .fault cause v' ∧ v.unlogged = v'.unlogged := by
  rw [hx] at hxy
  generalize hrun : y.run w = o at hxy
  cases hxy
  exact hy.fault_of_unlogged hw hrun

end Action.Blind

namespace Host

variable {host : Host κ β σ} {driver : Driver} {b : Backend (Value κ)} {p q f : Value κ}

/-! ## Runs of programs that are the same -/

/-- Steps at the same request go on to programs that are the same. -/
theorem turn_same (b : Backend (Value κ)) (request : Request (Value κ))
    {next next' : Value κ}
    (hnext : ∀ outcome w, Outcome.Related host.Same ((host.result next [outcome]).run w)
      ((host.result next' [outcome]).run w)) (w : World κ β) :
    Outcome.Related host.Same ((host.turn b ⟨request, next⟩).run w)
      ((host.turn b ⟨request, next'⟩).run w) :=
  .bind_same (host.ask b request) hnext w

/-- Programs that are the same make the same requests and end in the same way.  The log may
differ, since their continuations stand in it. -/
theorem Runs.of_same (lawful : host.Lawful) {steps : Nat} {w w' : World κ β}
    {ops : List (Operation (Value κ))} {o : Outcome κ β (Value κ)}
    (h : host.Runs driver b steps p w ops o) (hpq : host.Same p q)
    (hw : w.unlogged = w'.unlogged) :
    ∃ ops' o', host.Runs driver b steps q w' ops' o' ∧
      ops'.map (fun op => op.request) = ops.map (fun op => op.request) ∧
      o.mapWorld World.unlogged = o'.mapWorld World.unlogged := by
  -- A step announces its operation first, and the announcements are only log lines.
  have hwrite : ∀ {w w' : World κ β} (line line' : LogLine κ), w.unlogged = w'.unlogged →
      (w.write line).unlogged = (w'.write line').unlogged := by
    intro w w' line line' hw
    simpa using hw
  induction h generalizing q w' with
  | @done steps p w ops o hhalt =>
      cases same_bisimulation p q hpq with
      | @waiting request next next' hnext =>
          cases hhalt with
          | refused _ hrefused => exact absurd rfl (hrefused _)
          | invalid _ hp => cases hp
          | broken hturn =>
              rcases (turn_blind lawful b ⟨request, next'⟩).fault_of_related
                (turn_same b request hnext _) (hwrite _ _ hw) hturn with ⟨v', hturn', hv⟩
              refine ⟨_, _, .done (.broken hturn'), rfl, ?_⟩
              simp only [Outcome.mapWorld, hv]
      | idle =>
          rcases (Runs.done hhalt).of_unlogged lawful hw steps with ⟨o', hruns, ho⟩
          exact ⟨ops, o', hruns, rfl, ho⟩
  | @more steps op w v p ops o hturn _ ih =>
      cases same_bisimulation _ q hpq with
      | @waiting request next next' hnext =>
          rcases (turn_blind lawful b ⟨request, next'⟩).value_of_related
            (turn_same b request hnext _) (hwrite _ _ hw) hturn with ⟨p', v', hturn', hp, hv⟩
          rcases ih hp hv with ⟨ops', o', hruns, hops, ho⟩
          refine ⟨_, o', .more hturn' hruns, ?_, ho⟩
          simp only [List.map_cons, hops]
      | idle hidle => exact absurd rfl (hidle op)

/-- What is built in another way, up to sameness, is run in the same way. -/
theorem Ends.of_related (lawful : host.Lawful) {x y : Action κ β (Value κ)} {w : World κ β}
    (hxy : Outcome.Related host.Same (x.run w) (y.run w))
    {requests : List (Request (Value κ))} {o : Outcome κ β (Value κ)}
    (h : host.Ends driver b x w requests o) : host.Ends driver b y w requests o := by
  cases h with
  | fault hfault =>
      rw [hfault] at hxy
      generalize hy : y.run w = o at hxy
      cases hxy
      exact .fault hy
  | @runs steps p v ops o hvalue hruns =>
      rw [hvalue] at hxy
      generalize hy : y.run w = o at hxy
      cases hxy with
      | value _ hsame =>
          rcases hruns.of_same lawful hsame rfl with ⟨ops', o', hruns', hops, ho⟩
          rw [← hops, ho]
          exact .runs hy hruns'

/-! ## One member and what follows it -/

/-- Whatever is the same as `p` followed by `f` is run part by part. -/
theorem drive_followed (lawful : host.Lawful) (hdriver : driver ≠ .awaited)
    {x : Action κ β (Value κ)} {w : World κ β}
    (hx : Outcome.Related host.Same (x.run w) ((host.continued p f).run w))
    (hp : host.Asking driver b 0 p (w.write (.started driver))) :
    ((x >>= host.drive driver b).run w).mapWorld World.unlogged =
      ((host.drive driver b p >>= fun value =>
        host.result f [value] >>= host.drive driver b).run w).mapWorld World.unlogged := by
  have hblind := continued_blind lawful p f
  have hback : Outcome.Related host.Same ((host.continued p f).run w) (x.run w) :=
    hx.symm.mono fun _ _ h => h.symm
  refine Outcome.eq_of_finished_iff fun o ho => ?_
  rw [ends_iff lawful ho, parts_iff lawful ho]
  constructor
  · rintro ⟨requests, hends⟩
    have hcontinued := (ends_write_iff lawful hblind (.started driver)).2 (hends.of_related lawful hx)
    exact hcontinued.of_continued lawful hdriver hp
  · rintro ⟨first, part, rest, hruns, hafter⟩
    have hcontinued := hruns.ends_continued lawful hdriver hp hafter
    exact ⟨_, ((ends_write_iff lawful hblind _).1 hcontinued).of_related lawful hback⟩

/-- A finished program takes no step. -/
theorem finishes_terminal (driver : Driver) (b : Backend (Value κ)) (value : Value κ)
    (w : World κ β) :
    host.Finishes driver b (.terminal value) w 0 value
      ((w.write (.started driver)).write (driver.finishLine 0)) :=
  ⟨⟨[], .done (.finished value _), rfl⟩, _, rfl⟩

/-- It is driven to its value at once. -/
theorem drive_terminal (lawful : host.Lawful) (value : Value κ) (w : World κ β) :
    ((host.drive driver b (.terminal value)).run w).mapWorld World.unlogged =
      .value value w.unlogged := by
  have hdrive : (host.drive driver b (.terminal value)).run w = .value value _ :=
    (finishes_iff lawful).2 ⟨0, finishes_terminal driver b value w⟩
  simp only [hdrive, Outcome.mapWorld, World.unlogged_write]

/-- A program with `f` applied to its result is driven, then `f` is called on the value. -/
theorem drive_mapped (lawful : host.Lawful) (hdriver : driver ≠ .awaited) {w : World κ β}
    (hp : host.Asking driver b 0 p (w.write (.started driver))) :
    ((host.mapped f p >>= host.drive driver b).run w).mapWorld World.unlogged =
      ((host.drive driver b p >>= fun value => host.result f [value]).run w).mapWorld
        World.unlogged := by
  have hfinish : ∀ value (v : World κ β),
      ((host.result (finishWith f) [value] >>= host.drive driver b).run v).mapWorld
        World.unlogged = ((host.result f [value]).run v).mapWorld World.unlogged := by
    intro value v
    have hsplit : (host.result (finishWith f) [value] >>= host.drive driver b) =
        (host.result f [value] >>= fun answer => host.drive driver b (.terminal answer)) := by
      simp only [result_finishWith lawful, bind_assoc, pure_bind]
    rw [hsplit]
    calc
      _ = ((host.result f [value] >>= pure).run v).mapWorld World.unlogged :=
          Action.mapWorld_bind_congr _ fun answer u _ => drive_terminal lawful answer u
      _ = ((host.result f [value]).run v).mapWorld World.unlogged := by rw [bind_pure]
  calc
    ((host.mapped f p >>= host.drive driver b).run w).mapWorld World.unlogged
        = ((host.drive driver b p >>= fun value =>
            host.result (finishWith f) [value] >>= host.drive driver b).run w).mapWorld
              World.unlogged :=
          drive_followed lawful hdriver (mapped_same_continued lawful f p w) hp
    _ = ((host.drive driver b p >>= fun value => host.result f [value]).run w).mapWorld
          World.unlogged :=
          Action.mapWorld_bind_congr _ fun value v _ => hfinish value v

/-- Programs that are the same take equally many steps. -/
theorem Finishes.of_same (lawful : host.Lawful) {w v : World κ β} {steps : Nat} {value : Value κ}
    (h : host.Finishes driver b p w steps value v) (hpq : host.Same p q) :
    ∃ v', host.Finishes driver b q w steps value v' ∧ v'.unlogged = v.unlogged := by
  rcases h with ⟨⟨ops, hruns, rfl⟩, _⟩
  rcases hruns.of_same lawful hpq rfl with ⟨ops', o', hruns', hops, ho⟩
  rcases Outcome.exists_value_of_mapWorld ho rfl with ⟨v', rfl, hv⟩
  have hlength : ops'.length = ops.length := by
    simpa using congrArg List.length hops
  have hreported := hruns'.reported rfl
  rw [Nat.zero_add, hlength] at hreported
  exact ⟨v', ⟨⟨ops', hruns', hlength⟩, hreported⟩, hv.symm⟩

/-- A program with `f` applied to its result takes the steps of the program. -/
theorem Finishes.mapped (lawful : host.Lawful) (hdriver : driver ≠ .awaited)
    {value answer : Value κ} {w u v : World κ β} {steps : Nat}
    (hp : host.Asking driver b 0 p (w.write (.started driver)))
    (h : host.Finishes driver b p w steps value u)
    (hcall : (host.result f [value]).run u = .value answer v) :
    ∃ r x y, (host.mapped f p).run w = .value r x ∧
      host.Finishes driver b r x steps answer y ∧ y.unlogged = v.unlogged := by
  have hfinish : (host.result (finishWith f) [value]).run u = .value (.terminal answer) v := by
    rw [result_finishWith lawful, Action.run_bind_of_value _ hcall]
    rfl
  rcases h.continued lawful hdriver hp hfinish (finishes_terminal driver b answer v) with
    ⟨r, x, y, hbuilt, hall, hy⟩
  have hsame := mapped_same_continued lawful f p w
  rw [hbuilt] at hsame
  generalize hmapped : (host.mapped f p).run w = o at hsame
  cases hsame with
  | value _ hr =>
      rcases hall.of_same lawful hr.symm with ⟨y', hall', hy'⟩
      exact ⟨_, x, y', rfl, hall', by simp [hy', hy]⟩

/-! ## All members -/

/-- Each of the programs, driven in the world that the ones before have left, waits on operations
alone. -/
def AskingAll (host : Host κ β σ) (driver : Driver) (b : Backend (Value κ)) :
    List (Value κ) → World κ β → Prop
  | [], _ => True
  | p :: rest, w =>
      host.Asking driver b 0 p (w.write (.started driver)) ∧
        ∀ value v, (host.drive driver b p).run w = .value value v →
          AskingAll host driver b rest v

/-- The programs, driven one after the other from the world `w`, end with the values in the world
`v`, each after its own number of steps. -/
inductive FinishesAll (host : Host κ β σ) (driver : Driver) (b : Backend (Value κ)) :
    List (Value κ) → World κ β → List Nat → List (Value κ) → World κ β → Prop
  | nil (w : World κ β) : FinishesAll host driver b [] w [] [] w
  | cons {p value : Value κ} {ps values : List (Value κ)} {w v u : World κ β} {steps : Nat}
      {counts : List Nat} : host.Finishes driver b p w steps value v →
      FinishesAll host driver b ps v counts values u →
      FinishesAll host driver b (p :: ps) w (steps :: counts) (value :: values) u

theorem FinishesAll.length_eq {ps values : List (Value κ)} {w v : World κ β} {counts : List Nat}
    (h : host.FinishesAll driver b ps w counts values v) : values.length = ps.length := by
  induction h with
  | nil => rfl
  | cons _ _ ih => simp only [List.length_cons, ih]

/-- Programs that are driven one after the other end with values if each of them has finished
after some number of steps. -/
theorem finishesAll_iff (lawful : host.Lawful) {ps : List (Value κ)} {values : List (Value κ)}
    {w v : World κ β} :
    (ps.mapM (host.drive driver b)).run w = .value values v ↔
      ∃ counts, host.FinishesAll driver b ps w counts values v := by
  induction ps generalizing w values with
  | nil =>
      rw [List.mapM_nil]
      constructor
      · intro h
        cases h
        exact ⟨[], .nil _⟩
      · rintro ⟨counts, hall⟩
        cases hall
        rfl
  | cons p rest ih =>
      rw [List.mapM_cons]
      constructor
      · intro h
        rcases Action.exists_of_run_bind_value h with ⟨value, u, hfirst, hrest⟩
        rcases Action.exists_of_run_bind_value hrest with ⟨others, z, hothers, hpure⟩
        cases hpure
        rcases (finishes_iff lawful).1 hfirst with ⟨steps, hsteps⟩
        rcases ih.1 hothers with ⟨counts, hall⟩
        exact ⟨steps :: counts, .cons hsteps hall⟩
      · rintro ⟨counts, hall⟩
        cases hall with
        | cons hfirst hrest =>
            rw [Action.run_bind_of_value _ ((finishes_iff lawful).2 ⟨_, hfirst⟩),
              Action.run_bind_of_value _ (ih.2 ⟨_, hrest⟩)]
            rfl

/-- The first member that fails stops the rest from being driven. -/
theorem run_mapM_of_fault {f : Value κ → Action κ β (Value κ)} {before : List (Value κ)}
    {values : List (Value κ)} {w v u : World κ β} {cause : Fault κ}
    (hbefore : (before.mapM f).run w = .value values v) (hp : (f p).run v = .fault cause u)
    (after : List (Value κ)) : ((before ++ p :: after).mapM f).run w = .fault cause u := by
  rw [List.mapM_append, Action.run_bind_of_value _ hbefore, List.mapM_cons]
  exact Action.run_bind_of_fault _ (Action.run_bind_of_fault _ hp)

/-! ### Sequences -/

/-- A sequence that has got the results so far, latest first, drives what is left one after the
other, if the driver drives a program first and then what follows it in the sequence. -/
theorem drive_sequenced_of_followed (lawful : host.Lawful)
    (hfollowed : ∀ p rest results w, host.Asking driver b 0 p (w.write (.started driver)) →
      ((host.continued p (.fn (.sequenceRest rest results)) >>= host.drive driver b).run
          w).mapWorld World.unlogged =
        ((host.drive driver b p >>= fun value =>
          host.result (.fn (.sequenceRest rest results)) [value] >>=
            host.drive driver b).run w).mapWorld World.unlogged)
    (ps results : List (Value κ)) {w : World κ β} (hps : host.AskingAll driver b ps w) :
    ((host.sequenced ps results >>= host.drive driver b).run w).mapWorld World.unlogged =
      ((ps.mapM (host.drive driver b) >>= fun values =>
        pure (.list (results.reverse ++ values))).run w).mapWorld World.unlogged := by
  induction ps generalizing results w with
  | nil =>
      rw [sequenced_nil, List.mapM_nil, pure_bind, pure_bind, List.append_nil]
      exact drive_terminal lawful _ w
  | cons p rest ih =>
      -- What is left once `p` has its value is a sequence that has one result more.
      have hrest : ∀ value v, (host.drive driver b p).run w = .value value v →
          ((host.result (.fn (.sequenceRest rest results)) [value] >>=
            host.drive driver b).run v).mapWorld World.unlogged =
          ((rest.mapM (host.drive driver b) >>= fun values =>
            pure (.list (results.reverse ++ value :: values))).run v).mapWorld
              World.unlogged := by
        intro value v hvalue
        rw [result_sequenceRest lawful, ih (value :: results) (hps.2 value v hvalue)]
        simp only [List.reverse_cons, List.append_assoc, List.singleton_append]
      calc
        ((host.sequenced (p :: rest) results >>= host.drive driver b).run w).mapWorld
              World.unlogged
            = ((host.drive driver b p >>= fun value =>
                host.result (.fn (.sequenceRest rest results)) [value] >>=
                  host.drive driver b).run w).mapWorld World.unlogged := by
              rw [sequenced_cons lawful]
              exact hfollowed p rest results w hps.1
        _ = ((host.drive driver b p >>= fun value =>
              rest.mapM (host.drive driver b) >>= fun values =>
                pure (.list (results.reverse ++ value :: values))).run w).mapWorld
                  World.unlogged := Action.mapWorld_bind_congr _ hrest
        _ = (((p :: rest).mapM (host.drive driver b) >>= fun values =>
              pure (.list (results.reverse ++ values))).run w).mapWorld World.unlogged := by
              simp only [List.mapM_cons, bind_assoc, pure_bind]

theorem drive_sequenced (lawful : host.Lawful) (hdriver : driver ≠ .awaited)
    (ps results : List (Value κ)) {w : World κ β} (hps : host.AskingAll driver b ps w) :
    ((host.sequenced ps results >>= host.drive driver b).run w).mapWorld World.unlogged =
      ((ps.mapM (host.drive driver b) >>= fun values =>
        pure (.list (results.reverse ++ values))).run w).mapWorld World.unlogged :=
  drive_sequenced_of_followed lawful
    (fun _ _ _ _ hp => drive_followed lawful hdriver (.refl .refl _) hp) ps results hps

/-- A sequence takes the steps of all its members. -/
theorem FinishesAll.sequenced (lawful : host.Lawful) (hdriver : driver ≠ .awaited)
    {ps values : List (Value κ)} {w v : World κ β} {counts : List Nat}
    (h : host.FinishesAll driver b ps w counts values v) (hps : host.AskingAll driver b ps w)
    (results : List (Value κ)) :
    ∃ r x y, (host.sequenced ps results).run w = .value r x ∧
      host.Finishes driver b r x counts.sum (.list (results.reverse ++ values)) y ∧
      y.unlogged = v.unlogged := by
  induction h generalizing results with
  | nil w =>
      rw [sequenced_nil, List.append_nil]
      exact ⟨_, w, _, rfl, finishes_terminal driver b _ w, by simp⟩
  | @cons p value ps values w v u steps counts hfirst _ ih =>
      have hvalue : (host.drive driver b p).run w = .value value v :=
        (finishes_iff lawful).2 ⟨steps, hfirst⟩
      rcases ih (hps.2 value v hvalue) (value :: results) with ⟨r, x, y, hcall, hrest, hy⟩
      rw [← result_sequenceRest lawful] at hcall
      rcases hfirst.continued lawful hdriver hps.1 hcall hrest with ⟨r', x', y', hbuilt, hall, hy'⟩
      rw [← sequenced_cons lawful] at hbuilt
      rw [List.reverse_cons, List.append_assoc] at hall
      exact ⟨r', x', y', hbuilt, hall, hy'.trans hy⟩

/-! ### Pairs -/

/-- A pair drives its first program, then its second. -/
theorem drive_paired (lawful : host.Lawful) (hdriver : driver ≠ .awaited) {w : World κ β}
    (hpq : host.AskingAll driver b [p, q] w) :
    ((host.paired p q >>= host.drive driver b).run w).mapWorld World.unlogged =
      ((host.drive driver b p >>= fun first =>
        host.drive driver b q >>= fun second =>
          pure (.tuple [first, second])).run w).mapWorld World.unlogged := by
  have hrest : ∀ first v, (host.drive driver b p).run w = .value first v →
      ((host.result (.fn (.pairRest q)) [first] >>= host.drive driver b).run v).mapWorld
        World.unlogged =
      ((host.drive driver b q >>= fun second =>
        pure (.tuple [first, second])).run v).mapWorld World.unlogged := by
    intro first v hfirst
    have hmapped := drive_mapped (f := .fn (.pairWith first)) lawful hdriver (hpq.2 first v hfirst).1
    simpa only [result_pairRest lawful, result_pairWith lawful] using hmapped
  calc
    ((host.paired p q >>= host.drive driver b).run w).mapWorld World.unlogged
        = ((host.drive driver b p >>= fun first =>
            host.result (.fn (.pairRest q)) [first] >>= host.drive driver b).run w).mapWorld
              World.unlogged := drive_followed lawful hdriver (.refl .refl _) hpq.1
    _ = ((host.drive driver b p >>= fun first =>
          host.drive driver b q >>= fun second =>
            pure (.tuple [first, second])).run w).mapWorld World.unlogged :=
          Action.mapWorld_bind_congr _ hrest

/-- A pair takes the steps of both members. -/
theorem Finishes.paired (lawful : host.Lawful) (hdriver : driver ≠ .awaited)
    {first second : Value κ} {w u v : World κ β} {m n : Nat}
    (hp : host.Finishes driver b p w m first u) (hq : host.Finishes driver b q u n second v)
    (hpq : host.AskingAll driver b [p, q] w) :
    ∃ r x y, (host.paired p q).run w = .value r x ∧
      host.Finishes driver b r x (m + n) (.tuple [first, second]) y ∧
      y.unlogged = v.unlogged := by
  have hfirst : (host.drive driver b p).run w = .value first u := (finishes_iff lawful).2 ⟨m, hp⟩
  have hpair : (host.result (.fn (.pairWith first)) [second]).run v =
      .value (.tuple [first, second]) v := by
    rw [result_pairWith lawful]
    rfl
  rcases hq.mapped lawful hdriver (hpq.2 first u hfirst).1 hpair with ⟨r, x, y, hcall, hall, hy⟩
  rw [← result_pairRest lawful] at hcall
  rcases hp.continued lawful hdriver hpq.1 hcall hall with ⟨r', x', y', hbuilt, hall', hy'⟩
  exact ⟨r', x', y', hbuilt, hall', hy'.trans hy⟩

/-! ### Building and running -/

/-- A value that is no program waits on nothing. -/
theorem asking_of_not_program {steps : Nat} {w : World κ β} (hp : p.isProgram = false) :
    host.Asking driver b steps p w := by
  intro ops waiting v hpath
  cases hpath with
  | here | step => cases hp

/-- Sound programs, and whatever is no program, may be members of every sequence. -/
theorem askingAll_of_sound {ps : List (Value κ)}
    (h : ∀ p ∈ ps, host.Sound p ∨ p.isProgram = false) (w : World κ β) :
    host.AskingAll driver b ps w := by
  induction ps generalizing w with
  | nil => trivial
  | cons p rest ih =>
      refine ⟨?_, fun value v _ => ih (fun q hq => h q (List.mem_cons_of_mem p hq)) v⟩
      rcases h p List.mem_cons_self with hsound | hinvalid
      · exact hsound.asking
      · exact asking_of_not_program hinvalid

/-- Running a sequence is running its members one after the other, each in the world that the one
before has left.  If everything that their runs come to is no program or waits on an operation, if
it waits, then the sequence, built and driven, ends with the list of their values in the same
world, log lines aside, or with the fault of the first member that fails, in the world in which
that member has failed, or does not end, as its members do; and where all of them finish the steps
that are reported add up.  The same holds of a pair and the tuple of its two values.  Requests are
events of the world, and over `host.recorded` every call of a callback is one, so none of them is
lost, repeated or made in another order. -/
theorem drive_members (lawful : host.Lawful) (hdriver : driver ≠ .awaited) (w : World κ β) :
    (∀ ps, host.AskingAll driver b ps w →
      let whole := host.fully fun d => do
        let program ← sequence d (.list ps)
        driver.drive d (driver.executorOver b) program
      (whole.run w).mapWorld World.unlogged =
          ((do
            let values ← ps.mapM (host.drive driver b)
            return Value.list values).run w).mapWorld World.unlogged ∧
        (∀ before p after values v cause u, ps = before ++ p :: after →
          (before.mapM (host.drive driver b)).run w = .value values v →
          (host.drive driver b p).run v = .fault cause u →
          (whole.run w).mapWorld World.unlogged = .fault cause u.unlogged) ∧
        ∀ counts values v, host.FinishesAll driver b ps w counts values v →
          values.length = ps.length ∧
            ∃ r x y, (host.fully fun d => sequence d (.list ps)).run w = .value r x ∧
              host.Finishes driver b r x counts.sum (.list values) y ∧
              y.unlogged = v.unlogged) ∧
      ∀ p q, host.AskingAll driver b [p, q] w →
        ((host.fully fun d => do
            let program ← pair d p q
            driver.drive d (driver.executorOver b) program).run w).mapWorld World.unlogged =
          ((do
            let first ← host.drive driver b p
            let second ← host.drive driver b q
            return Value.tuple [first, second]).run w).mapWorld World.unlogged ∧
        ∀ m n first second u v, host.Finishes driver b p w m first u →
          host.Finishes driver b q u n second v →
          ∃ r x y, (host.fully fun d => pair d p q).run w = .value r x ∧
            host.Finishes driver b r x (m + n) (.tuple [first, second]) y ∧
            y.unlogged = v.unlogged := by
  constructor
  · intro ps hps whole
    have hwhole : whole = (host.sequenced ps [] >>= host.drive driver b) :=
      lawful.fully_bind (fun h => Congruence.sequence h (.list ps)) fun q =>
        deepens_drive driver _ q
    have hmembers := drive_sequenced lawful hdriver ps [] hps
    rw [← hwhole] at hmembers
    refine ⟨hmembers, ?_, ?_⟩
    · rintro before p after values v cause u rfl hbefore hp
      have hfault := run_mapM_of_fault hbefore hp after
      rw [hmembers, Action.run_bind_of_fault _ hfault]
      rfl
    · intro counts values v hall
      exact ⟨hall.length_eq, hall.sequenced lawful hdriver hps []⟩
  · intro p q hpq
    have hwhole : (host.fully fun d => pair d p q >>= driver.drive d (driver.executorOver b)) =
        (host.paired p q >>= host.drive driver b) :=
      lawful.fully_bind (fun h => Congruence.pair h p q) fun r => deepens_drive driver _ r
    have hmembers := drive_paired lawful hdriver hpq
    rw [← hwhole] at hmembers
    exact ⟨hmembers, fun m n first second u v hp hq => hp.paired lawful hdriver hq hpq⟩

/-- Over an empty store: a sequence that stores a document and then comes to what is no program
ends there, and a pair that stores a document and then lists the store finishes with both
answers. -/
theorem drive_members_stored :
    let h := Script.host []
    let b := Script.Stores.backend 0
    let store : Value Script.Code := Request.toProgram (.create (.text "doc"))
    let list : Value Script.Code := Request.toProgram .getAll
    let ps := [store, .null, list]
    h.AskingAll .stepped b ps Script.emptyStore ∧
      h.AskingAll .stepped b [store, list] Script.emptyStore ∧
      (∃ u : World Script.Code Script.Stores,
        ((h.fully fun d => do
          let program ← sequence d (.list ps)
          Driver.stepped.drive d (Driver.stepped.executorOver b) program).run
            Script.emptyStore).mapWorld World.unlogged = .fault (.invalidProgram .null) u) ∧
      ∃ m n r x y, (h.fully fun d => pair d store list).run Script.emptyStore = .value r x ∧
        h.Finishes .stepped b r x (m + n) (.tuple [.text "doc-1", .list [.text "doc"]]) y := by
  intro h b store list ps
  have lawful : h.Lawful := Script.host_lawful []
  have hstore : h.Sound store := sound_toProgram lawful (.create (.text "doc"))
  have hlist : h.Sound list := sound_toProgram lawful .getAll
  have hps : h.AskingAll .stepped b ps Script.emptyStore :=
    askingAll_of_sound (by simp [ps, hstore, hlist, Value.isProgram]) _
  have hpair : h.AskingAll .stepped b [store, list] Script.emptyStore :=
    askingAll_of_sound (by simp [hstore, hlist]) _
  -- Calls that nest ten deep are enough for each of the members.
  obtain ⟨v, u, z, hfirst, hnull, hsecond⟩ : ∃ v u z,
      (h.drive .stepped b store).run Script.emptyStore = .value (.text "doc-1") v ∧
        (h.drive .stepped b .null).run v = .fault (.invalidProgram .null) u ∧
        (h.drive .stepped b list).run v = .value (.list [.text "doc"]) z :=
    ⟨_, _, _, drive_of_run lawful 10 rfl trivial, drive_of_run lawful 10 rfl trivial,
      drive_of_run lawful 10 rfl trivial⟩
  rcases (finishes_iff lawful).1 hfirst with ⟨m, hm⟩
  rcases (finishes_iff lawful).1 hsecond with ⟨n, hn⟩
  have hmembers := drive_members (b := b) lawful (by simp : Driver.stepped ≠ .awaited)
    Script.emptyStore
  have hbefore : ([store].mapM (h.drive .stepped b)).run Script.emptyStore =
      .value [.text "doc-1"] _ := (finishesAll_iff lawful).2 ⟨[m], .cons hm (.nil _)⟩
  rcases (hmembers.2 store list hpair).2 m n _ _ _ _ hm hn with ⟨r, x, y, hbuilt, hall, _⟩
  exact ⟨hps, hpair, ⟨_, (hmembers.1 ps hps).2.1 [store] .null [list] _ _ _ _ rfl hbefore hnull⟩,
    m, n, r, x, y, hbuilt, hall⟩

end Host

end Workflow

import Workflow.Proofs.Handing
import Workflow.Proofs.Keeping

/-!
# The debug log over a history

The environment is set and unset, the log is configured, and programs are driven, in any order
(`Deed`).  The log follows the environment as it was at the last configuration: from then on the
drivers write their lines, or none of them, whatever becomes of the environment.  A run leaves the
switch alone and writes nothing while it is off; that is a discipline (`Discipline.hush`).

Whether lines are written makes no difference to anything else.  Leaving them out of a world,
together with the setting, gives a congruence (`Congruence.undebugged`), and histories with the
same runs bring the same outcomes up to that (`Host.outcomes_runs`).
-/

namespace Workflow

variable {κ β σ α γ : Type}

/-! ## Histories -/

/-- One thing that is done with the drivers and their log. -/
inductive Deed (κ : Type) where
  /-- Sets the variable of the environment, or unsets it. -/
  | environment (text : Option String)
  | configure
  | drive (driver : Driver) (executor program : Value κ)

namespace Deed

def isDrive : Deed κ → Bool
  | .drive .. => true
  | _ => false

/-- The runs of a history, without what is done about the log. -/
def runs (deeds : List (Deed κ)) : List (Deed κ) :=
  deeds.filter isDrive

end Deed

namespace Host

variable (host : Host κ β σ)

/-- Does what the deed says. -/
noncomputable def perform : Deed κ → Action κ β (Value κ)
  | .environment text => do
      .modifyDebug fun debug => { debug with environment := text }
      return .null
  | .configure => do
      .modifyDebug Debug.configure
      return .bool (← Action.debug).enabled
  | .drive driver executor program => host.driven driver executor program

/-- The world in which a history ends, also where runs in it fail; there is none if a run does not
end.  Every deed begins a journal of its own. -/
noncomputable def worldAfter : List (Deed κ) → World κ β → Option (World κ β)
  | [], w => some w
  | deed :: rest, w => ((host.perform deed).run w.fresh).world?.bind (worldAfter rest)

/-- The outcomes of the runs in a history, up to the first one that does not end. -/
noncomputable def outcomes : List (Deed κ) → World κ β → List (Outcome κ β (Value κ))
  | [], _ => []
  | deed :: rest, w =>
      let o := (host.perform deed).run w.fresh
      let later := o.world?.elim [] (outcomes rest)
      if deed.isDrive then o :: later else later

/-- A run of a driver, by itself or nested in a call that may still go some depth. -/
inductive IsRun (driver : Driver) (executor p : Value κ) : Action κ β (Value κ) → Prop
  | whole : IsRun driver executor p (host.driven driver executor p)
  | nested (depth : Nat) : IsRun driver executor p (driver.drive (host.dispatch depth) executor p)

end Host

/-! ## What the switch governs -/

/-- The switch of the log stays as it is, and while it is off no line is added to the journal. -/
def Discipline.hush : Discipline κ β where
  allows w v := v.debug.enabled = w.debug.enabled ∧
    ∃ added, v.journal = added ++ w.journal ∧
      (w.debug.enabled = false → ∀ event ∈ added, event.isLine = false)
  refl w := ⟨rfl, [], rfl, fun _ _ h => by cases h⟩
  trans := by
    rintro u v w ⟨hv, first, hfirst, hfirstOff⟩ ⟨hw, second, hsecond, hsecondOff⟩
    refine ⟨hw.trans hv, second ++ first, by rw [hsecond, hfirst, List.append_assoc], ?_⟩
    intro hoff event hevent
    rcases List.mem_append.1 hevent with hmem | hmem
    · exact hsecondOff (hv.trans hoff) event hmem
    · exact hfirstOff hoff event hmem
  record := by
    intro event hevent w
    refine ⟨rfl, [event], rfl, fun _ other hother => ?_⟩
    rw [List.mem_singleton.1 hother, hevent]
  write line w := by
    refine ⟨by rw [World.write]; split <;> rfl, ?_⟩
    by_cases h : w.debug.enabled = true
    · exact ⟨[.log line], World.write_journal h line, fun hoff => absurd hoff (by simp [h])⟩
    · exact ⟨[], by rw [World.write, if_neg h]; rfl, fun _ _ h => by cases h⟩
  outside _ w := ⟨rfl, [], rfl, fun _ _ h => by cases h⟩

/-- The environment asks for the log by one of three words, in any case. -/
theorem Debug.requested_iff (debug : Debug) :
    debug.requested = true ↔
      ∃ text, debug.environment = some text ∧ text.toLower ∈ ["1", "true", "yes"] := by
  unfold Debug.requested
  cases debug.environment with
  | none => simp
  | some text => simp

namespace Host

variable {host : Host κ β σ} {driver : Driver} {executor p : Value κ}

/-- Every run announces itself, and then keeps to what the switch says. -/
theorem IsRun.exists_rest (lawful : host.Lawful) (hk : host.Keeps .hush)
    {run : Action κ β (Value κ)} (h : host.IsRun driver executor p run) :
    ∃ rest : Action κ β (Value κ),
      run = (Action.log (.started driver) >>= fun _ => rest) ∧ rest.Keeps .hush := by
  cases h with
  | whole =>
      exact ⟨_, driven_eq lawful driver executor p,
        .limit fun depth => (hk.dispatch depth).goOn driver executor 0 p⟩
  | nested depth =>
      exact ⟨_, driver.drive_eq (host.dispatch depth) executor p,
        (hk.dispatch depth).goOn driver executor 0 p⟩

/-- A run writes lines exactly if the log is on when it starts, and leaves the switch alone. -/
theorem IsRun.lines_iff (lawful : host.Lawful) (hk : host.Keeps .hush)
    {run : Action κ β (Value κ)} (h : host.IsRun driver executor p run) {v u : World κ β}
    (hu : (run.run v).world? = some u) :
    u.debug.enabled = v.debug.enabled ∧ ∃ added, u.journal = added ++ v.journal ∧
      ((∃ line, .log line ∈ added) ↔ v.debug.enabled = true) := by
  obtain ⟨rest, rfl, hrest⟩ := h.exists_rest lawful hk
  rw [Action.run_log_bind] at hu
  -- `hrest` speaks of what is added once the run was announced.
  obtain ⟨henabled, added, hadded, hoff⟩ := hrest.allows hu
  by_cases hon : v.debug.enabled = true
  · rw [World.write_journal hon] at hadded
    refine ⟨?_, added ++ [.log (.started driver)], by simpa using hadded, ?_⟩
    · rw [henabled, World.write, if_pos hon]
    · -- The line that announces the run is among them.
      exact iff_of_true ⟨.started driver, by simp⟩ hon
  · rw [World.write, if_neg hon] at henabled hadded hoff
    refine ⟨henabled, added, hadded, iff_of_false ?_ hon⟩
    rintro ⟨line, hline⟩
    cases hoff (by simpa using hon) _ hline

/-- The switch is thrown by a configuration alone. -/
theorem enabled_worldAfter (lawful : host.Lawful) (hk : host.Keeps .hush) :
    ∀ {deeds : List (Deed κ)} {w x : World κ β}, .configure ∉ deeds →
      host.worldAfter deeds w = some x → x.debug.enabled = w.debug.enabled
  | [], w, x, _, h => by
      cases h
      rfl
  | deed :: rest, w, x, hdeeds, h => by
      -- The first deed leads to a world from which the rest goes on.
      obtain ⟨v, hv, hx⟩ := Option.bind_eq_some_iff.1 h
      have hrest : x.debug.enabled = v.debug.enabled :=
        enabled_worldAfter lawful hk (fun hmem => hdeeds (List.mem_cons_of_mem _ hmem)) hx
      cases deed with
      | environment text =>
          cases hv
          exact hrest
      | configure => exact absurd List.mem_cons_self hdeeds
      | drive driver executor p => exact hrest.trans (IsRun.whole.lines_iff lawful hk hv).1

end Host

/-! ## What the log makes no difference to -/

namespace World

/-- The world without the debug setting and without the lines that it let through. -/
def undebugged (w : World κ β) : World κ β :=
  { w.unlogged with debug := {} }

variable {w w' : World κ β}

theorem undebugged_eq_iff :
    w.undebugged = w'.undebugged ↔
      w.unlogged.journal = w'.unlogged.journal ∧ w.outside = w'.outside := by
  simp [undebugged, unlogged]

theorem undebugged_write (line : LogLine κ) (w : World κ β) :
    (w.write line).undebugged = w.undebugged := by
  rw [undebugged, unlogged_write, undebugged]

/-- With nothing recorded yet there is only the outside to compare. -/
theorem undebugged_fresh (h : w.outside = w'.outside) :
    w.fresh.undebugged = w'.fresh.undebugged :=
  undebugged_eq_iff.2 ⟨rfl, h⟩

end World

namespace Action

/-- Started in worlds that look the same through the view, the two actions end in the same way. -/
def SameThrough {β' : Type} (view : World κ β → World κ β') (x y : Action κ β α) : Prop :=
  ∀ w w', view w = view w' → (x.run w).mapWorld view = (y.run w').mapWorld view

namespace SameThrough

variable {β' : Type} {view : World κ β → World κ β'} {x y : Action κ β α}

theorem bind {f g : α → Action κ β γ} (hxy : SameThrough view x y)
    (hfg : ∀ a, SameThrough view (f a) (g a)) : SameThrough view (x >>= f) (y >>= g) := by
  intro w w' h
  have hfirst := hxy w w' h
  cases hx : x.run w with
  | value a v =>
      -- What follows starts in worlds that look the same again.
      obtain ⟨v', hy, hv⟩ := Outcome.exists_value_of_mapWorld hfirst hx
      rw [run_bind_of_value f hx, run_bind_of_value g hy]
      exact hfg a v v' hv
  | fault cause v =>
      obtain ⟨v', hy, hv⟩ := Outcome.exists_fault_of_mapWorld hfirst hx
      rw [run_bind_of_fault f hx, run_bind_of_fault g hy]
      exact congrArg (Outcome.fault cause) hv
  | unfinished =>
      have hy : y.run w' = .unfinished := Outcome.unfinished_of_mapWorld hfirst hx
      rw [run_bind_of_unfinished f hx, run_bind_of_unfinished g hy]

theorem attempt (hxy : SameThrough view x y) : SameThrough view x.attempt y.attempt := by
  -- Catching a fault does not touch the world, so it may be done after looking.
  have hlook : ∀ (z : Action κ β α) (w : World κ β), (z.attempt.run w).mapWorld view =
      match (z.run w).mapWorld view with
      | .value a v => .value (.ok a) v
      | .fault cause v => .value (.error cause) v
      | .unfinished => .unfinished := by
    intro z w
    rw [run_attempt]
    cases z.run w <;> rfl
  intro w w' h
  rw [hlook x w, hlook y w', hxy w w' h]

end SameThrough

end Action

/-- Doing the same, and ending the same, in worlds that differ in their lines and debug settings
alone. -/
def Congruence.undebugged : Congruence κ β where
  rel := Action.SameThrough World.undebugged
  value a _ _ h := congrArg (Outcome.value a) h
  fault cause _ _ h := congrArg (Outcome.fault cause) h
  unfinished _ _ _ := rfl
  bind := .bind
  attempt := .attempt
  record event w w' h := by
    obtain ⟨hjournal, houtside⟩ := World.undebugged_eq_iff.1 h
    refine congrArg (Outcome.value ()) (World.undebugged_eq_iff.2 ⟨?_, houtside⟩)
    simp only [World.unlogged] at hjournal
    simp only [World.unlogged, List.filter_cons, hjournal]
  log line w w' h := by
    rw [Action.run_log, Action.run_log]
    exact congrArg (Outcome.value ()) (by rw [w.undebugged_write, w'.undebugged_write, h])
  outside w w' h := by
    have houtside := (World.undebugged_eq_iff.1 h).2
    show Outcome.value w.outside w.undebugged = Outcome.value w'.outside w'.undebugged
    rw [houtside, h]
  modifyOutside change w w' h := by
    obtain ⟨hjournal, houtside⟩ := World.undebugged_eq_iff.1 h
    exact congrArg (Outcome.value ())
      (World.undebugged_eq_iff.2 ⟨hjournal, congrArg change houtside⟩)

namespace Host

variable {host : Host κ β σ} {driver : Driver} {executor p : Value κ}

/-- A run does the same in worlds that differ in their lines and debug settings alone. -/
theorem IsRun.undebugged (lawful : host.Lawful) (hc : host.Respects Congruence.undebugged)
    {run : Action κ β (Value κ)} (h : host.IsRun driver executor p run) :
    Congruence.undebugged.rel run run := by
  have hdrive : ∀ depth, Congruence.undebugged.rel (driver.drive (host.dispatch depth) executor p)
      (driver.drive (host.dispatch depth) executor p) := fun depth =>
    Congruence.drive (hc.dispatch (.refl depth)) driver executor p
  cases h with
  | nested depth => exact hdrive depth
  | whole =>
      -- It is alike at each depth, and so in the limit.
      intro w w' hw
      have hrising := lawful.rising (deepens_drive driver executor p)
      exact hrising.limit_alike hrising fun depth => hdrive depth w w' hw

/-- What is done about the log may be left out of a history: its runs do the same. -/
theorem outcomes_runs (lawful : host.Lawful) (hc : host.Respects Congruence.undebugged) :
    ∀ (deeds : List (Deed κ)) {w w' : World κ β}, w.outside = w'.outside →
      (host.outcomes deeds w).map (·.mapWorld World.undebugged) =
        (host.outcomes (Deed.runs deeds) w').map (·.mapWorld World.undebugged)
  | [], _, _, _ => rfl
  -- What is done about the log leaves the outside alone and gives no outcome.
  | .environment _ :: rest, _, _, h => outcomes_runs lawful hc rest h
  | .configure :: rest, _, _, h => outcomes_runs lawful hc rest h
  | .drive driver executor p :: rest, w, w', h => by
      let o := (host.driven driver executor p).run w.fresh
      let o' := (host.driven driver executor p).run w'.fresh
      have hrun : o.mapWorld World.undebugged = o'.mapWorld World.undebugged :=
        IsRun.whole.undebugged lawful hc _ _ (World.undebugged_fresh h)
      -- Both runs leave worlds with one and the same outside, or neither of them ends.
      have hlater : (o.world?.elim [] (host.outcomes rest)).map (·.mapWorld World.undebugged) =
          (o'.world?.elim [] (host.outcomes (Deed.runs rest))).map
            (·.mapWorld World.undebugged) := by
        have hworld := congrArg Outcome.world? hrun
        rw [Outcome.world?_mapWorld, Outcome.world?_mapWorld] at hworld
        cases hv : o.world? with
        | none =>
            rw [hv] at hworld
            rw [Option.map_eq_none_iff.1 hworld.symm]
            rfl
        | some v =>
            rw [hv] at hworld
            obtain ⟨v', hv', hview⟩ := Option.map_eq_some_iff.1 hworld.symm
            rw [hv']
            exact outcomes_runs lawful hc rest (World.undebugged_eq_iff.1 hview.symm).2
      calc
        (host.outcomes (.drive driver executor p :: rest) w).map (·.mapWorld World.undebugged)
            = o.mapWorld World.undebugged ::
                (o.world?.elim [] (host.outcomes rest)).map (·.mapWorld World.undebugged) := rfl
        _ = o'.mapWorld World.undebugged ::
                (o'.world?.elim [] (host.outcomes (Deed.runs rest))).map
                  (·.mapWorld World.undebugged) := by rw [hrun, hlater]
        _ = (host.outcomes (Deed.runs (.drive driver executor p :: rest)) w').map
              (·.mapWorld World.undebugged) := rfl

/-- The log is switched by the last configuration, and nothing but its lines depends on it.

The world `y` is the one in which the log was configured last, and after that came `late`.  A run
that starts now, or is nested in one that does, writes lines exactly if the variable, lowered, was
one of the three words in `y`; what the environment says by now does not matter.  A run, nested or
not, brings the same value or fault, the same events apart from lines and the same outside whatever
the debug setting is.  So histories with the same runs have the same outcomes.

What callers bring along must not configure the log or write to it themselves, nor look at the
setting.  With the host `host.recorded` the calls of callbacks are among the events. -/
theorem log_latched (lawful : host.Lawful) (hk : host.Keeps .hush)
    (hc : host.Respects Congruence.undebugged) :
    (∀ (late : List (Deed κ)) (y x : World κ β), .configure ∉ late →
      host.worldAfter (.configure :: late) y = some x →
      ∀ driver executor p run, host.IsRun driver executor p run →
        ∀ v u : World κ β, v.debug.enabled = x.debug.enabled → (run.run v).world? = some u →
          u.debug.enabled = x.debug.enabled ∧ ∃ added, u.journal = added ++ v.journal ∧
            ((∃ line, .log line ∈ added) ↔
              ∃ text, y.debug.environment = some text ∧ text.toLower ∈ ["1", "true", "yes"])) ∧
    (∀ driver executor p run, host.IsRun driver executor p run →
      ∀ w w' : World κ β, w.undebugged = w'.undebugged →
        (run.run w).mapWorld World.undebugged = (run.run w').mapWorld World.undebugged) ∧
    (∀ (deeds deeds' : List (Deed κ)) (w w' : World κ β), w.outside = w'.outside →
      Deed.runs deeds = Deed.runs deeds' →
        (host.outcomes deeds w).map (·.mapWorld World.undebugged) =
          (host.outcomes deeds' w').map (·.mapWorld World.undebugged)) := by
  refine ⟨?_, ?_, ?_⟩
  · intro late y x hlate hx driver executor p run hrun v u hv hu
    -- The configuration throws the switch, and nothing in `late` does.
    have hswitch : x.debug.enabled = y.debug.requested :=
      enabled_worldAfter (w := { y.fresh with debug := y.debug.configure }) lawful hk hlate hx
    obtain ⟨henabled, added, hadded, hlines⟩ := hrun.lines_iff lawful hk hu
    refine ⟨henabled.trans hv, added, hadded, ?_⟩
    rw [hlines, hv, hswitch]
    exact y.debug.requested_iff
  · intro driver executor p run hrun
    exact hrun.undebugged lawful hc
  · intro deeds deeds' w w' houtside hruns
    calc
      (host.outcomes deeds w).map (·.mapWorld World.undebugged)
          = (host.outcomes (Deed.runs deeds) w').map (·.mapWorld World.undebugged) :=
            outcomes_runs lawful hc deeds houtside
      _ = (host.outcomes (Deed.runs deeds') w').map (·.mapWorld World.undebugged) := by rw [hruns]
      _ = (host.outcomes deeds' w').map (·.mapWorld World.undebugged) :=
            (outcomes_runs lawful hc deeds' rfl).symm

/-- The log is configured while the variable says TRUE and the variable is unset afterwards: a run of
four steps still writes lines, and apart from them it does what it does where nothing was ever
configured. -/
theorem log_latched_amending :
    let h := Script.host []
    let y : World Script.Code Script.Stores :=
      { Script.emptyStore with debug := ⟨some "TRUE", false⟩ }
    let executor := Driver.stepped.executorOver (Script.Stores.backend 0)
    let p := Script.amending
    h.worldAfter [.configure, .environment none] y = some Script.emptyStore ∧
    (∃ u, (h.driven .stepped executor p).run Script.emptyStore =
        .value (.list [.list [.text "a"]]) u ∧
      ∃ line, .log line ∈ u.journal) ∧
    (h.outcomes [.configure, .environment none, .drive .stepped executor p] y).map
        (·.mapWorld World.undebugged) =
      (h.outcomes [.drive .stepped executor p] y).map (·.mapWorld World.undebugged) := by
  intro h y executor p
  have lawful : h.Lawful := Script.host_lawful []
  have hk : h.Keeps .hush := Script.host_keeps [] .hush
  have hc : h.Respects Congruence.undebugged := Script.host_respects [] Congruence.undebugged
  have hrequested : Debug.requested ⟨some "TRUE", false⟩ = true := by decide +kernel
  have hx : h.worldAfter [.configure, .environment none] y = some Script.emptyStore := by
    show some (World.mk [] ⟨none, Debug.requested ⟨some "TRUE", false⟩⟩ _) = some Script.emptyStore
    rw [hrequested]
    rfl
  obtain ⟨u, hruns⟩ := Script.amending_runs .stepped
  have hends : (h.driven .stepped executor p).run Script.emptyStore =
      .value (.list [.list [.text "a"]]) u :=
    (drive_eq_iff lawful hruns.outcome_finished).2 ⟨_, hruns⟩
  obtain ⟨hlatched, _, hsame⟩ := log_latched lawful hk hc
  refine ⟨hx, ⟨u, hends, ?_⟩, hsame _ _ y y rfl rfl⟩
  obtain ⟨_, added, hadded, hlines⟩ := hlatched [.environment none] y Script.emptyStore (by simp) hx
    .stepped executor p _ .whole Script.emptyStore u rfl (by rw [hends]; rfl)
  obtain ⟨line, hline⟩ := hlines.2 ⟨"TRUE", rfl, by decide +kernel⟩
  exact ⟨line, hadded ▸ List.mem_append_left _ hline⟩

end Host

end Workflow

import Workflow.Proofs.Agreement
import Workflow.Proofs.Matching
import Workflow.Proofs.Parts

/-!
# Actions without their log lines

Two actions that write different lines may otherwise do the same.  They are compared without their
log lines (`Action.unlogged`).  Since no action reads the journal, leaving out the lines of a
sequence is leaving them out of its parts (`Action.unlogged_bind`), and writing a line is then
doing nothing (`Action.unlogged_log_bind`).
-/

namespace Workflow

variable {κ β σ α γ : Type}

/-! ## Worlds -/

theorem Event.isLine_mapLine (g : LogLine κ → LogLine κ) (event : Event κ) :
    (event.mapLine g).isLine = event.isLine := by
  cases event <;> rfl

theorem Event.isLine_bare (event : Event κ) : event.bare.isLine = event.isLine := by
  cases event with
  | call | trace => rfl
  | log line => cases line <;> rfl

namespace World

theorem unlogged_unlogged (w : World κ β) : w.unlogged.unlogged = w.unlogged := by
  simp only [unlogged, List.filter_filter, Bool.and_self]

/-- Events that are rewritten may be left out before or after, if lines stay lines. -/
theorem unlogged_mapEvents {g : Event κ → Event κ} (hg : ∀ event, (g event).isLine = event.isLine)
    (w : World κ β) : (w.mapEvents g).unlogged = w.unlogged.mapEvents g := by
  have hkeep : (fun event => !event.isLine) ∘ g = fun event => !event.isLine :=
    funext fun event => congrArg (!·) (hg event)
  simp only [unlogged, mapEvents, List.filter_map, hkeep]

/-- Rewriting the log lines changes nothing where they are left out. -/
theorem unlogged_mapLine (g : LogLine κ → LogLine κ) (w : World κ β) :
    (w.mapEvents (Event.mapLine g)).unlogged = w.unlogged := by
  have hsame : w.unlogged.mapEvents (Event.mapLine g) = w.unlogged := by
    have hkept : ∀ event ∈ w.unlogged.journal, event.mapLine g = id event := by
      intro event hevent
      have hline : event.isLine = false := by
        simpa using (List.mem_filter.1 hevent).2
      cases event with
      | call | trace => rfl
      | log line => cases hline
    simp only [mapEvents, List.map_congr_left hkept, List.map_id]
  rw [unlogged_mapEvents (Event.isLine_mapLine g), hsame]

theorem Matches.unlogged {w w' : World κ β} (h : w.Matches w') :
    w.unlogged.Matches w'.unlogged := by
  have hevents : w.mapEvents Event.bare = w'.mapEvents Event.bare := h
  rw [Matches, ← unlogged_mapEvents Event.isLine_bare, ← unlogged_mapEvents Event.isLine_bare,
    hevents]

end World

/-! ## Actions -/

namespace Action

/-- The action, all log lines left out of the world in which it ends. -/
def unlogged (x : Action κ β α) : Action κ β α :=
  fun w => (x.run w).mapWorld World.unlogged

variable {x y : Action κ β α} {f : α → Action κ β γ}

/-- The lines of a sequence are left out of both of its parts. -/
theorem unlogged_bind (x : Action κ β α) (hf : ∀ a, (f a).Blind) :
    (x >>= f).unlogged = x.unlogged >>= fun a => (f a).unlogged := by
  apply Action.ext
  intro w
  have hleft : ∀ z : Action κ β γ, z.unlogged.run w = (z.run w).mapWorld World.unlogged :=
    fun _ => rfl
  have hx : x.unlogged.run w = (x.run w).mapWorld World.unlogged := rfl
  rw [hleft]
  cases hrun : x.run w with
  | value a v =>
      rw [hrun] at hx
      rw [run_bind_of_value f hrun, run_bind_of_value _ hx]
      exact (hf a).run_unlogged v.unlogged_unlogged.symm
  | fault cause v =>
      rw [hrun] at hx
      rw [run_bind_of_fault f hrun, run_bind_of_fault _ hx]
      rfl
  | unfinished =>
      rw [hrun] at hx
      rw [run_bind_of_unfinished f hrun, run_bind_of_unfinished _ hx]
      rfl

/-- A line that is written first is left out. -/
theorem unlogged_log_bind (line : LogLine κ) {f : Unit → Action κ β α} (hf : (f ()).Blind) :
    (log line >>= f).unlogged = (f ()).unlogged := by
  apply Action.ext
  intro w
  have hrun : (log line >>= f).run w = (f ()).run (w.write line) := run_log_bind line f w
  calc
    ((log line >>= f).run w).mapWorld World.unlogged
        = ((f ()).run (w.write line)).mapWorld World.unlogged := by rw [hrun]
    _ = ((f ()).run w).mapWorld World.unlogged := hf.run_unlogged (w.unlogged_write line)

theorem unlogged_mapFault (change : Fault κ → Fault κ) (x : Action κ β α) :
    (x.mapFault change).unlogged = x.unlogged.mapFault change := by
  funext w
  simp only [unlogged, run, mapFault]
  cases x w <;> rfl

theorem Approx.unlogged (h : x.Approx y) : x.unlogged.Approx y.unlogged := by
  intro w
  rcases h w with hnone | heq
  · exact Or.inl (congrArg (Outcome.mapWorld World.unlogged) hnone)
  · exact Or.inr (congrArg (Outcome.mapWorld World.unlogged) heq)

variable {V : α → γ → Prop} {F : Fault κ → Fault κ → Prop} {z : Action κ β γ}

theorem Matches.unlogged (h : Matches V F x z) : Matches V F x.unlogged z.unlogged := by
  intro w w' hw
  have hmatch := h w w' hw
  have hx : x.unlogged.run w = (x.run w).mapWorld World.unlogged := rfl
  have hz : z.unlogged.run w' = (z.run w').mapWorld World.unlogged := rfl
  rw [hx, hz]
  generalize x.run w = o at hmatch
  generalize z.run w' = o' at hmatch
  cases hmatch with
  | unfinished => exact .unfinished
  | value hv hac => exact .value hv.unlogged hac
  | fault hv hcause => exact .fault hv.unlogged hcause

/-- An action that does not read the journal matches itself, also without its lines. -/
theorem Blind.unlogged_matches {x : Action κ β α} (hx : x.Blind) :
    Matches Eq Eq x.unlogged x.unlogged :=
  (hx.matches_self (fun _ => rfl) fun _ => rfl).unlogged

/-- A limit is below an action if every member is. -/
theorem Below.unlogged_limit {family : Nat → Action κ β α}
    (h : ∀ depth, Below V F (family depth).unlogged z) :
    Below V F (Action.limit family).unlogged z := by
  intro w w' hw
  have hlimit : (Action.limit family).unlogged.run w =
      ((Action.limit family).run w).mapWorld World.unlogged := rfl
  rw [hlimit]
  by_cases hfin : ((Action.limit family).run w).Finished
  · rcases Rising.exists_of_limit rfl hfin with ⟨depth, hd⟩
    rw [← hd]
    exact h depth w w' hw
  · rw [Outcome.eq_unfinished hfin]
    exact .unfinished _

end Action

namespace Host

variable {host : Host κ β σ}

theorem driven_blind (lawful : host.Lawful) (driver : Driver) (executor p : Value κ) :
    (host.driven driver executor p).Blind :=
  lawful.fully_blind (deepens_drive driver executor p) fun depth =>
    (Congruence.drive (lawful.dispatch_blind depth) driver executor p).2

theorem drive_blind (lawful : host.Lawful) (driver : Driver) (b : Backend (Value κ))
    (p : Value κ) : (host.drive driver b p).Blind :=
  driven_blind lawful driver (driver.executorOver b) p

/-- An awaited run is a stepped run that no stop signal leaves. -/
theorem drive_awaited_unlogged (lawful : host.Lawful) (b : Backend (Value κ)) (p : Value κ) :
    (host.drive .awaited b p).unlogged =
      ((host.drive .stepped b p).mapFault (Fault.crossing .coroutine)).unlogged := by
  have hlines : ∀ (g : LogLine κ → LogLine κ) (o : Outcome κ β (Value κ)),
      (o.mapEvents (Event.mapLine g)).mapWorld World.unlogged = o.mapWorld World.unlogged := by
    intro g o
    cases o <;> simp only [Outcome.mapEvents, Outcome.mapWorld, World.unlogged_mapLine]
  apply Action.ext
  intro w
  have halike := (drive_mirror (b := b) (p := p) (w := w) lawful awaited_mirrors_stepped
    fun _ _ _ _ => rfl).1
  rw [Outcome.Alike, Outcome.mapFault_id, ← Outcome.run_mapFault] at halike
  calc
    ((host.drive .awaited b p).run w).mapWorld World.unlogged
        = (((host.drive .awaited b p).run w).mapEvents
            (Event.mapLine LogLine.unnamed)).mapWorld World.unlogged := (hlines _ _).symm
    _ = ((((host.drive .stepped b p).mapFault (Fault.crossing .coroutine)).run w).mapEvents
            (Event.mapLine LogLine.unnamed)).mapWorld World.unlogged := by rw [halike]
    _ = (((host.drive .stepped b p).mapFault (Fault.crossing .coroutine)).run w).mapWorld
          World.unlogged := hlines _ _

end Host

end Workflow

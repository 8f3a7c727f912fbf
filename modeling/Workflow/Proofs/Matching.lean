import Workflow.Proofs.Bisimulation
import Workflow.Proofs.Turn

/-!
# Runs that look the same

Two runs of programs that are the same hand different continuations to the executor, and the
continuations stand in the log and in whatever is noted down of the executor's calls.  Nothing of
them can be seen there: an operation shows its request alone.  Two worlds match if they differ in
no more than that (`World.Matches`), and two actions match if they end, from matching worlds, in
matching ways (`Action.Matches`).

An action that is gone through only so far is below another one if it matches it wherever it ends
(`Action.Below`).  Two actions match if each is below the other.
-/

namespace Workflow

variable {κ β α γ α' γ' : Type}

/-! ## What is seen of worlds -/

namespace Value

mutual

/-- The value, its operations without their continuations. -/
def bare : Value κ → Value κ
  | .list items => .list (bareItems items)
  | .tuple items => .tuple (bareItems items)
  | .dict members => .dict (bareMembers members)
  | .terminal value => .terminal (bare value)
  | .pending waiting => .pending (bare waiting)
  | .query program => .query (bare program)
  | .operation op => .operation ⟨op.request, .null⟩
  | value => value

def bareItems : List (Value κ) → List (Value κ)
  | [] => []
  | item :: rest => bare item :: bareItems rest

def bareMembers : List (String × Value κ) → List (String × Value κ)
  | [] => []
  | (key, item) :: rest => (key, bare item) :: bareMembers rest

end

end Value

/-- The event, the operations in it without their continuations. -/
def Event.bare : Event κ → Event κ
  | .trace label value => .trace label value.bare
  | .log (.step driver index operation) => .log (.step driver index operation.bare)
  | event => event

namespace World

/-- The worlds differ at most in the continuations of operations that were noted down. -/
def Matches (w w' : World κ β) : Prop :=
  w.mapEvents Event.bare = w'.mapEvents Event.bare

variable {w w' : World κ β}

theorem Matches.symm (h : w.Matches w') : w'.Matches w :=
  Eq.symm h

theorem Matches.recorded (h : w.Matches w') {event event' : Event κ}
    (hevent : event.bare = event'.bare) : (w.recorded event).Matches (w'.recorded event') := by
  have hworld : w.mapEvents Event.bare = w'.mapEvents Event.bare := h
  simp only [mapEvents, World.mk.injEq] at hworld
  simp only [Matches, mapEvents, World.recorded, List.map_cons, hevent, hworld]

theorem Matches.write (h : w.Matches w') {line line' : LogLine κ}
    (hline : (Event.log line).bare = (Event.log line').bare) :
    (w.write line).Matches (w'.write line') := by
  have hworld : w.mapEvents Event.bare = w'.mapEvents Event.bare := h
  have hdebug : w.debug = w'.debug := congrArg (fun v => v.debug) hworld
  by_cases hon : w.debug.enabled = true
  · have hon' : w'.debug.enabled = true := hdebug ▸ hon
    rw [World.write, World.write, if_pos hon, if_pos hon']
    exact h.recorded hline
  · have hoff : ¬ w'.debug.enabled = true := hdebug ▸ hon
    rw [World.write, World.write, if_neg hon, if_neg hoff]
    exact h

end World

/-! ## Outcomes -/

namespace Outcome

/-- The first outcome is none, or the two match: values that `V` relates or faults that `F`
relates, in worlds that match. -/
inductive Below (V : α → γ → Prop) (F : Fault κ → Fault κ → Prop) :
    Outcome κ β α → Outcome κ β γ → Prop
  | unfinished (o : Outcome κ β γ) : Below V F .unfinished o
  | value {a : α} {c : γ} {w w' : World κ β} :
      w.Matches w' → V a c → Below V F (.value a w) (.value c w')
  | fault {cause cause' : Fault κ} {w w' : World κ β} :
      w.Matches w' → F cause cause' → Below V F (.fault cause w) (.fault cause' w')

/-- Values that `V` relates or faults that `F` relates, in worlds that match, or both none. -/
inductive Matches (V : α → γ → Prop) (F : Fault κ → Fault κ → Prop) :
    Outcome κ β α → Outcome κ β γ → Prop
  | unfinished : Matches V F .unfinished .unfinished
  | value {a : α} {c : γ} {w w' : World κ β} :
      w.Matches w' → V a c → Matches V F (.value a w) (.value c w')
  | fault {cause cause' : Fault κ} {w w' : World κ β} :
      w.Matches w' → F cause cause' → Matches V F (.fault cause w) (.fault cause' w')

variable {V : α → γ → Prop} {F : Fault κ → Fault κ → Prop}

theorem Matches.below {o : Outcome κ β α} {o' : Outcome κ β γ} (h : Matches V F o o') :
    Below V F o o' := by
  cases h with
  | unfinished => exact .unfinished _
  | value hw hv => exact .value hw hv
  | fault hw hf => exact .fault hw hf

theorem Matches.symm {o : Outcome κ β α} {o' : Outcome κ β γ} (h : Matches V F o o') :
    Matches (fun c a => V a c) (fun cause cause' => F cause' cause) o' o := by
  cases h with
  | unfinished => exact .unfinished
  | value hw hv => exact .value hw.symm hv
  | fault hw hf => exact .fault hw.symm hf

theorem Matches.mono {V' : α → γ → Prop} {F' : Fault κ → Fault κ → Prop}
    (hV : ∀ a c, V a c → V' a c) (hF : ∀ cause cause', F cause cause' → F' cause cause')
    {o : Outcome κ β α} {o' : Outcome κ β γ} (h : Matches V F o o') : Matches V' F' o o' := by
  cases h with
  | unfinished => exact .unfinished
  | value hw hv => exact .value hw (hV _ _ hv)
  | fault hw hf => exact .fault hw (hF _ _ hf)

theorem Below.finished {o : Outcome κ β α} {o' : Outcome κ β γ} (h : Below V F o o')
    (ho : o.Finished) : o'.Finished := by
  cases h with
  | unfinished => exact absurd ho id
  | value | fault => trivial

theorem Below.eq_unfinished {o : Outcome κ β α}
    (h : Below V F o (.unfinished : Outcome κ β γ)) : o = .unfinished := by
  cases h
  rfl

/-- An outcome below one that is none when it is none matches it. -/
theorem Below.matches {o : Outcome κ β α} {o' : Outcome κ β γ} (h : Below V F o o')
    (hback : o'.Finished → o.Finished) : Matches V F o o' := by
  cases h with
  | unfinished =>
      have hnone : o' = .unfinished := Outcome.eq_unfinished fun ho => hback ho
      rw [hnone]
      exact .unfinished
  | value hw hv => exact .value hw hv
  | fault hw hf => exact .fault hw hf

/-- Outcomes in the same world that agree up to `V` match in every world that matches it. -/
theorem Related.matches_of_mapEvents (hF : ∀ cause, F cause cause) {o : Outcome κ β α}
    {o' o'' : Outcome κ β γ} (h : Related V o o')
    (hevents : o'.mapEvents Event.bare = o''.mapEvents Event.bare) : Matches V F o o'' := by
  cases h with
  | value w hv =>
      cases o'' with
      | value c v =>
          simp only [mapEvents, mapWorld, Outcome.value.injEq] at hevents
          exact .value hevents.2 (hevents.1 ▸ hv)
      | fault | unfinished => simp [mapEvents, mapWorld] at hevents
  | fault cause w =>
      cases o'' with
      | fault cause' v =>
          simp only [mapEvents, mapWorld, Outcome.fault.injEq] at hevents
          exact .fault hevents.2 (hevents.1 ▸ hF cause)
      | value | unfinished => simp [mapEvents, mapWorld] at hevents
  | unfinished =>
      cases o'' with
      | unfinished => exact .unfinished
      | value | fault => simp [mapEvents, mapWorld] at hevents

end Outcome

/-! ## Actions -/

namespace Action

/-- From matching worlds the first action ends in a matching way, if it ends. -/
def Below (V : α → γ → Prop) (F : Fault κ → Fault κ → Prop) (x : Action κ β α)
    (y : Action κ β γ) : Prop :=
  ∀ w w', w.Matches w' → Outcome.Below V F (x.run w) (y.run w')

/-- From matching worlds the two actions end in matching ways. -/
def Matches (V : α → γ → Prop) (F : Fault κ → Fault κ → Prop) (x : Action κ β α)
    (y : Action κ β γ) : Prop :=
  ∀ w w', w.Matches w' → Outcome.Matches V F (x.run w) (y.run w')

variable {V : α → γ → Prop} {F : Fault κ → Fault κ → Prop} {x : Action κ β α} {y : Action κ β γ}

theorem Matches.below (h : Matches V F x y) : Below V F x y :=
  fun w w' hw => (h w w' hw).below

theorem Matches.symm (h : Matches V F x y) :
    Matches (fun c a => V a c) (fun cause cause' => F cause' cause) y x :=
  fun w w' hw => (h w' w hw.symm).symm

theorem Matches.mono {V' : α → γ → Prop} {F' : Fault κ → Fault κ → Prop}
    (hV : ∀ a c, V a c → V' a c) (hF : ∀ cause cause', F cause cause' → F' cause cause')
    (h : Matches V F x y) : Matches V' F' x y :=
  fun w w' hw => (h w w' hw).mono hV hF

/-- Two actions match if each is below the other. -/
theorem Below.matches (h : Below V F x y) {V' : γ → α → Prop} {F' : Fault κ → Fault κ → Prop}
    (hback : Below V' F' y x) : Matches V F x y :=
  fun w w' hw => (h w w' hw).matches (hback w' w hw.symm).finished

/-- Actions that agree from each world match, if the second does not read the journal. -/
theorem Blind.matches_of_related (hy : y.Blind) (hF : ∀ cause, F cause cause)
    (h : ∀ w, Outcome.Related V (x.run w) (y.run w)) : Matches V F x y :=
  fun w _ hw => (h w).matches_of_mapEvents hF (hy.mapEvents hw)

theorem Blind.matches_self {V : α → α → Prop} (hx : x.Blind) (hV : ∀ a, V a a)
    (hF : ∀ cause, F cause cause) : Matches V F x x :=
  hx.matches_of_related hF fun w => .refl hV (x.run w)

theorem Below.of_approx {z : Action κ β α} (hzx : z.Approx x) (h : Below V F x y) :
    Below V F z y := by
  intro w w' hw
  rcases hzx w with hz | hz
  · rw [hz]
    exact .unfinished _
  · rw [hz]
    exact h w w' hw

theorem Below.approx {z : Action κ β γ} (h : Below V F x y) (hyz : y.Approx z) :
    Below V F x z := by
  intro w w' hw
  rcases hyz w' with hy | hy
  · -- Where `y` does not end, `x` does not end either.
    have hbelow := h w w' hw
    rw [hy] at hbelow
    rw [hbelow.eq_unfinished]
    exact .unfinished _
  · rw [← hy]
    exact h w w' hw

theorem unfinished_below : Below V F .unfinished y :=
  fun _ _ _ => .unfinished _

theorem pure_matches {a : α} {c : γ} (h : V a c) :
    Matches V F (pure a : Action κ β α) (pure c) :=
  fun _ _ hw => .value hw h

theorem fail_matches {cause cause' : Fault κ} (h : F cause cause') :
    Matches V F (.fail cause : Action κ β α) (.fail cause') :=
  fun _ _ hw => .fault hw h

theorem log_matches {line line' : LogLine κ}
    (h : (Event.log line).bare = (Event.log line').bare) :
    Matches Eq F (.log line : Action κ β Unit) (.log line') := by
  intro w w' hw
  rw [run_log, run_log]
  exact .value (hw.write h) rfl

theorem record_matches {event event' : Event κ} (h : event.bare = event'.bare) :
    Matches Eq F (.record event : Action κ β Unit) (.record event') :=
  fun _ _ hw => .value (hw.recorded h) rfl

section Bind

variable {W : α' → γ' → Prop} {f : α → Action κ β α'} {g : γ → Action κ β γ'}

theorem Below.bind (hxy : Below V F x y) (hfg : ∀ a c, V a c → Below W F (f a) (g c)) :
    Below W F (x >>= f) (y >>= g) := by
  intro w w' hw
  have hbelow := hxy w w' hw
  cases hx : x.run w with
  | unfinished =>
      rw [run_bind_of_unfinished f hx]
      exact .unfinished _
  | value a v =>
      rw [hx] at hbelow
      cases hy : y.run w' with
      | value c v' =>
          rw [hy] at hbelow
          cases hbelow with
          | value hv hac =>
              rw [run_bind_of_value f hx, run_bind_of_value g hy]
              exact hfg a c hac v v' hv
      | fault | unfinished =>
          rw [hy] at hbelow
          cases hbelow
  | fault cause v =>
      rw [hx] at hbelow
      cases hy : y.run w' with
      | fault cause' v' =>
          rw [hy] at hbelow
          cases hbelow with
          | fault hv hcause =>
              rw [run_bind_of_fault f hx, run_bind_of_fault g hy]
              exact .fault hv hcause
      | value | unfinished =>
          rw [hy] at hbelow
          cases hbelow

theorem Matches.bind (hxy : Matches V F x y) (hfg : ∀ a c, V a c → Matches W F (f a) (g c)) :
    Matches W F (x >>= f) (y >>= g) := by
  have hthere := hxy.below.bind fun a c hac => (hfg a c hac).below
  have hback := hxy.symm.below.bind fun c a hac => (hfg a c hac).symm.below
  exact hthere.matches hback

end Bind

theorem Below.mapFault {change : Fault κ → Fault κ}
    (hF : ∀ cause cause', F cause cause' → F (change cause) (change cause'))
    (h : Below V F x y) : Below V F (x.mapFault change) (y.mapFault change) := by
  intro w w' hw
  have hbelow := h w w' hw
  simp only [run] at hbelow
  simp only [run, Action.mapFault]
  generalize x w = o at hbelow
  generalize y w' = o' at hbelow
  cases hbelow with
  | unfinished => exact .unfinished _
  | value hv hac => exact .value hv hac
  | fault hv hcause => exact .fault hv (hF _ _ hcause)

theorem Below.limit {family : Nat → Action κ β α} (h : ∀ depth, Below V F (family depth) y) :
    Below V F (Action.limit family) y := by
  intro w w' hw
  by_cases hfin : ((Action.limit family).run w).Finished
  · rcases Rising.exists_of_limit rfl hfin with ⟨depth, hd⟩
    rw [← hd]
    exact h depth w w' hw
  · rw [Outcome.eq_unfinished hfin]
    exact .unfinished _

end Action

end Workflow

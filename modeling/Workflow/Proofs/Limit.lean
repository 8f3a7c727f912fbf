import Workflow.World

/-!
# Limits of actions

An action that runs out of depth says nothing about what it would have done.  One action
approximates another when it gives the same outcome wherever it ends at all, and a family of
actions that rises in this order, one action for each depth, has a limit: the outcome that some
depth is enough for, if there is such a depth.

The main statements are that the limit is the least upper bound of a rising family, and that the
limit of a sequence of two actions is the sequence of their limits.
-/

namespace Workflow

variable {κ β α γ : Type}

namespace Outcome

/-- The outcome is a value or a fault. -/
def Finished : Outcome κ β α → Prop
  | .value _ _ | .fault _ _ => True
  | .unfinished => False

theorem finished_iff {o : Outcome κ β α} : o.Finished ↔ o ≠ .unfinished := by
  cases o <;> simp [Finished]

theorem eq_unfinished {o : Outcome κ β α} (h : ¬ o.Finished) : o = .unfinished := by
  cases o with
  | value => exact absurd trivial h
  | fault => exact absurd trivial h
  | unfinished => rfl

end Outcome

namespace Action

theorem ext {x y : Action κ β α} (h : ∀ w, x.run w = y.run w) : x = y :=
  funext h

theorem run_bind_of_unfinished {x : Action κ β α} {w : World κ β} (next : α → Action κ β γ)
    (h : x.run w = .unfinished) : (x >>= next).run w = .unfinished := by
  simp only [run] at h
  simp only [run, Bind.bind, Action.bind, h]

/-- A chain that ends with a value has ended with one before. -/
theorem exists_of_run_bind_value {x : Action κ β α} {f : α → Action κ β γ} {w v : World κ β} {b : γ}
    (h : (x >>= f).run w = .value b v) :
    ∃ a u, x.run w = .value a u ∧ (f a).run u = .value b v := by
  cases hx : x.run w with
  | value a u => exact ⟨a, u, rfl, run_bind_of_value f hx ▸ h⟩
  | fault cause u => cases (run_bind_of_fault f hx).symm.trans h
  | unfinished => cases (run_bind_of_unfinished f hx).symm.trans h

/-- What gives a value without running anything leaves the world as it is. -/
theorem eq_of_run_lift {result : Except (Fault κ) α} {w v : World κ β} {a : α}
    (h : (liftM result : Action κ β α).run w = .value a v) : result = .ok a ∧ w = v := by
  cases result with
  | ok b =>
      cases h
      exact ⟨rfl, rfl⟩
  | error cause => cases h

/-- A chain that ends with a fault has ended with it before, or does after a value. -/
theorem run_bind_fault_cases {x : Action κ β α} {f : α → Action κ β γ} {w v : World κ β}
    {cause : Fault κ} (h : (x >>= f).run w = .fault cause v) :
    x.run w = .fault cause v ∨
      ∃ a u, x.run w = .value a u ∧ (f a).run u = .fault cause v := by
  cases hx : x.run w with
  | value a u => exact Or.inr ⟨a, u, rfl, run_bind_of_value f hx ▸ h⟩
  | fault own u =>
      cases (run_bind_of_fault f hx).symm.trans h
      exact Or.inl rfl
  | unfinished => cases (run_bind_of_unfinished f hx).symm.trans h

/-- A chain that ends has ended with a fault of its first part, or with what follows a value. -/
theorem run_bind_cases {x : Action κ β α} {f : α → Action κ β γ} {w : World κ β}
    {o : Outcome κ β γ} (h : (x >>= f).run w = o) (ho : o.Finished) :
    (∃ cause v, x.run w = .fault cause v ∧ o = .fault cause v) ∨
      ∃ a v, x.run w = .value a v ∧ (f a).run v = o := by
  cases o with
  | value b u => exact Or.inr (exists_of_run_bind_value h)
  | fault cause v =>
      rcases run_bind_fault_cases h with hfirst | hrest
      · exact Or.inl ⟨cause, v, hfirst, rfl⟩
      · exact Or.inr hrest
  | unfinished => exact absurd rfl (Outcome.finished_iff.1 ho)

theorem run_attempt (x : Action κ β α) (w : World κ β) :
    x.attempt.run w =
      match x.run w with
      | .value a v => .value (.ok a) v
      | .fault cause v => .value (.error cause) v
      | .unfinished => .unfinished := rfl

/-- An action that hands over its fault as a result is always followed by the rest, if it ends. -/
theorem run_attempt_bind_cases {x : Action κ β α} {f : Except (Fault κ) α → Action κ β γ}
    {w : World κ β} {o : Outcome κ β γ} (h : (x.attempt >>= f).run w = o) (ho : o.Finished) :
    ∃ result v, (f result).run v = o := by
  rcases run_bind_cases h ho with ⟨cause, v, hfault, _⟩ | ⟨result, v, _, hresult⟩
  · rw [run_attempt] at hfault
    cases hx : x.run w <;> rw [hx] at hfault <;> cases hfault
  · exact ⟨result, v, hresult⟩

/-! ## Approximation -/

/-- Wherever `x` ends, `y` ends in the same way. -/
def Approx (x y : Action κ β α) : Prop :=
  ∀ w, x.run w = .unfinished ∨ x.run w = y.run w

namespace Approx

variable {x y z : Action κ β α}

theorem refl (x : Action κ β α) : Approx x x :=
  fun _ => Or.inr rfl

theorem trans (hxy : Approx x y) (hyz : Approx y z) : Approx x z := by
  intro w
  rcases hxy w with h | h
  · exact Or.inl h
  · rw [h]
    exact hyz w

theorem antisymm (hxy : Approx x y) (hyx : Approx y x) : x = y := by
  apply Action.ext
  intro w
  rcases hxy w with hx | h
  · rcases hyx w with hy | h
    · rw [hx, hy]
    · exact h.symm
  · exact h

theorem of_unfinished (y : Action κ β α) : Approx unfinished y :=
  fun _ => Or.inl rfl

/-- What the approximation ends with, the other action ends with. -/
theorem run_eq (h : Approx x y) {w : World κ β} {o : Outcome κ β α} (hx : x.run w = o)
    (ho : o.Finished) : y.run w = o := by
  rcases h w with hu | heq
  · rw [hx] at hu
    exact absurd hu (Outcome.finished_iff.1 ho)
  · rw [← heq, hx]

theorem bind {f g : α → Action κ β γ} (hxy : Approx x y) (hfg : ∀ a, Approx (f a) (g a)) :
    Approx (x >>= f) (y >>= g) := by
  intro w
  -- A sequence is decided by how its first part ends.
  have hrun : ∀ (z : Action κ β α) (k : α → Action κ β γ), (z >>= k).run w =
      match z.run w with
      | .value a w' => (k a).run w'
      | .fault c w' => .fault c w'
      | .unfinished => .unfinished := fun _ _ => rfl
  rw [hrun, hrun]
  rcases hxy w with h | h
  · rw [h]
    exact Or.inl rfl
  · rw [← h]
    cases x.run w with
    | value a w' => exact hfg a w'
    | fault c w' => exact Or.inr rfl
    | unfinished => exact Or.inl rfl

theorem attempt (hxy : Approx x y) : Approx x.attempt y.attempt := by
  intro w
  have hrun : ∀ z : Action κ β α, z.attempt.run w =
      match z.run w with
      | .value a w' => .value (.ok a) w'
      | .fault c w' => .value (.error c) w'
      | .unfinished => .unfinished := fun _ => rfl
  rw [hrun, hrun]
  rcases hxy w with h | h
  · rw [h]
    exact Or.inl rfl
  · rw [h]
    exact Or.inr rfl

theorem mapFault (change : Fault κ → Fault κ) (hxy : Approx x y) :
    Approx (x.mapFault change) (y.mapFault change) := by
  intro w
  have hrun : ∀ z : Action κ β α, (z.mapFault change).run w =
      match z.run w with
      | .value a w' => .value a w'
      | .fault c w' => .fault (change c) w'
      | .unfinished => .unfinished := fun _ => rfl
  rw [hrun, hrun]
  rcases hxy w with h | h
  · rw [h]
    exact Or.inl rfl
  · rw [h]
    exact Or.inr rfl

end Approx

/-! ## Limits -/

/-- More depth never takes an outcome back. -/
structure Rising (family : Nat → Action κ β α) : Prop where
  approx : ∀ {m n : Nat}, m ≤ n → Approx (family m) (family n)

open Classical in
/-- The outcome that some depth is enough for. -/
noncomputable def limit (family : Nat → Action κ β α) : Action κ β α := fun w =>
  if h : ∃ depth, ((family depth).run w).Finished then (family h.choose).run w else .unfinished

theorem limit_run_choose {family : Nat → Action κ β α} {w : World κ β}
    (h : ∃ depth, ((family depth).run w).Finished) :
    (limit family).run w = (family h.choose).run w :=
  dif_pos h

theorem limit_run_unfinished {family : Nat → Action κ β α} {w : World κ β}
    (h : ¬ ∃ depth, ((family depth).run w).Finished) :
    (limit family).run w = .unfinished :=
  dif_neg h

namespace Rising

variable {family : Nat → Action κ β α}

/-- A limit ends only as some member of the family does. -/
theorem exists_of_limit {w : World κ β} {o : Outcome κ β α}
    (h : (limit family).run w = o) (ho : o.Finished) : ∃ depth, (family depth).run w = o := by
  -- Where no member ends the limit does not end either.
  by_cases hex : ∃ depth, ((family depth).run w).Finished
  · exact ⟨hex.choose, by rw [← limit_run_choose hex, h]⟩
  · rw [limit_run_unfinished hex] at h
    rw [← h] at ho
    exact absurd ho id

theorem approx_limit (hf : Rising family) (depth : Nat) : Approx (family depth) (limit family) := by
  intro w
  by_cases hfin : ((family depth).run w).Finished
  · right
    have hex : ∃ depth, ((family depth).run w).Finished := ⟨depth, hfin⟩
    rw [limit_run_choose hex]
    -- Two members that end agree with the deeper of the two.
    rcases Nat.le_total depth hex.choose with hle | hle
    · exact ((hf.approx hle).run_eq rfl hfin).symm
    · exact (hf.approx hle).run_eq rfl hex.choose_spec
  · exact Or.inl (Outcome.eq_unfinished hfin)

theorem limit_run (hf : Rising family) {depth : Nat} {w : World κ β} {o : Outcome κ β α}
    (h : (family depth).run w = o) (ho : o.Finished) : (limit family).run w = o :=
  (hf.approx_limit depth).run_eq h ho

end Rising

/-- The limit is the least action that every member approximates. -/
theorem limit_approx {family : Nat → Action κ β α} {y : Action κ β α}
    (h : ∀ depth, Approx (family depth) y) : Approx (limit family) y := by
  intro w
  by_cases hfin : ((limit family).run w).Finished
  · rcases Rising.exists_of_limit rfl hfin with ⟨depth, hd⟩
    right
    exact ((h depth).run_eq hd hfin).symm
  · exact Or.inl (Outcome.eq_unfinished hfin)

theorem rising_const (x : Action κ β α) : Rising fun _ => x :=
  ⟨fun _ => Approx.refl x⟩

@[simp] theorem limit_const (x : Action κ β α) : limit (fun _ => x) = x :=
  Approx.antisymm (limit_approx fun _ => Approx.refl x) ((rising_const x).approx_limit 0)

theorem Rising.bind {family : Nat → Action κ β α} {next : Nat → α → Action κ β γ}
    (hf : Rising family) (hg : ∀ a, Rising fun depth => next depth a) :
    Rising fun depth => family depth >>= next depth :=
  ⟨fun hle => (hf.approx hle).bind fun a => (hg a).approx hle⟩

/-- The limit of a sequence is the sequence of the limits. -/
theorem limit_bind {family : Nat → Action κ β α} {next : Nat → α → Action κ β γ}
    (hf : Rising family) (hg : ∀ a, Rising fun depth => next depth a) :
    limit (fun depth => family depth >>= next depth) =
      limit family >>= fun a => limit fun depth => next depth a := by
  apply Approx.antisymm
  · apply limit_approx
    intro depth
    exact (hf.approx_limit depth).bind fun a => (hg a).approx_limit depth
  · intro w
    have hboth := hf.bind hg
    cases hx : (limit family).run w with
    | unfinished =>
        exact Or.inl (run_bind_of_unfinished _ hx)
    | fault c w' =>
        right
        rcases Rising.exists_of_limit hx trivial with ⟨depth, hd⟩
        rw [run_bind_of_fault _ hx]
        exact (hboth.limit_run (run_bind_of_fault (next depth) hd) trivial).symm
    | value a w' =>
        rw [run_bind_of_value _ hx]
        -- One depth is enough for the first part, another one for the second.
        rcases Rising.exists_of_limit hx trivial with ⟨m, hm⟩
        by_cases hfin : ((limit fun depth => next depth a).run w').Finished
        · right
          rcases Rising.exists_of_limit rfl hfin with ⟨n, hn⟩
          have hvalue : (family (max m n)).run w = .value a w' :=
            (hf.approx (Nat.le_max_left m n)).run_eq hm trivial
          have hnext := ((hg a).approx (Nat.le_max_right m n)).run_eq hn hfin
          have hrun : (family (max m n) >>= next (max m n)).run w =
              (limit fun depth => next depth a).run w' := by
            rw [run_bind_of_value _ hvalue, hnext]
          exact (hboth.limit_run hrun hfin).symm
        · exact Or.inl (Outcome.eq_unfinished hfin)

theorem limit_mapFault {family : Nat → Action κ β α} (hf : Rising family)
    (change : Fault κ → Fault κ) :
    limit (fun depth => (family depth).mapFault change) = (limit family).mapFault change := by
  have hmap : Rising fun depth => (family depth).mapFault change :=
    ⟨fun hle => (hf.approx hle).mapFault change⟩
  apply Approx.antisymm
  · exact limit_approx fun depth => (hf.approx_limit depth).mapFault change
  · intro w
    by_cases hfin : ((limit family).run w).Finished
    · right
      rcases Rising.exists_of_limit rfl hfin with ⟨depth, hd⟩
      have hrun : ((family depth).mapFault change).run w =
          ((limit family).mapFault change).run w := by
        simp only [run] at hd
        simp only [run, mapFault, hd]
      -- A changed fault is an outcome as well.
      refine (hmap.limit_run hrun ?_).symm
      revert hfin
      simp only [run, mapFault]
      cases limit family w <;> simp [Outcome.Finished]
    · left
      have hx := Outcome.eq_unfinished hfin
      simp only [run] at hx
      simp only [run, mapFault, hx]

/-- A family that lies between a rising one and the same one somewhat deeper has its limit. -/
theorem limit_eq_of_between {family other : Nat → Action κ β α} (shift : Nat)
    (hf : Rising family) (lower : ∀ depth, Approx (family depth) (other (depth + shift)))
    (upper : ∀ depth, Approx (other depth) (family (depth + shift))) (ho : Rising other) :
    limit other = limit family := by
  apply Approx.antisymm
  · exact limit_approx fun depth => (upper depth).trans (hf.approx_limit (depth + shift))
  · exact limit_approx fun depth => (lower depth).trans (ho.approx_limit (depth + shift))

theorem limit_shift {family : Nat → Action κ β α} (hf : Rising family) :
    limit (fun depth => family (depth + 1)) = limit family := by
  have hshift : Rising fun depth => family (depth + 1) :=
    ⟨fun hle => hf.approx (Nat.add_le_add_right hle 1)⟩
  apply limit_eq_of_between 1 hf ?_ ?_ hshift
  · intro depth
    exact hf.approx (by omega)
  · intro depth
    exact hf.approx (by omega)

end Action

end Workflow

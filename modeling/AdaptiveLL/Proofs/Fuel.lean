import Mathlib
import AdaptiveLL.Proofs.Run

/-! # Fuel

A run that may go on for long is given fuel, and ends with an error of its own when that is used up.
`Run.SettlesBy` says that a run ends before so much is used up, and that more changes nothing.  It is shown
step by step: a run ends within one step, or takes one and settles from there.
-/
namespace AdaptiveLL

/-- From a state, every amount of fuel from `k` on leads to the same ending, at which some is left. -/
def Run.SettlesBy {σ α : Type} (m : Nat → Run σ α) (k : Nat) (s : σ) : Prop :=
  ∃ r : Ending σ α, r.1 ≠ .error .outOfFuel ∧ ∀ j, k ≤ j → m j s = r

namespace Run.SettlesBy
variable {σ α : Type} {m m' : Nat → Run σ α} {k : Nat} {s s' : σ}

/-- A run that ends within one step. -/
theorem one {r : Ending σ α} (hr : r.1 ≠ .error .outOfFuel) (h : ∀ j, m (j + 1) s = r) :
    SettlesBy m (k + 1) s := by
  refine ⟨r, hr, fun j hj => ?_⟩
  obtain ⟨i, rfl⟩ := Nat.exists_eq_succ_of_ne_zero (Nat.ne_of_gt (Nat.lt_of_lt_of_le k.succ_pos hj))
  exact h i

/-- A run that takes one step and goes on from there. -/
theorem succ (h : SettlesBy m' k s') (hstep : ∀ j, m (j + 1) s = m' j s') : SettlesBy m (k + 1) s := by
  obtain ⟨r, hr, hall⟩ := h
  refine ⟨r, hr, fun j hj => ?_⟩
  obtain ⟨i, rfl⟩ := Nat.exists_eq_succ_of_ne_zero (Nat.ne_of_gt (Nat.lt_of_lt_of_le k.succ_pos hj))
  rw [hstep]
  exact hall i (Nat.le_of_succ_le_succ hj)

/-- With enough fuel a run does not use it up. -/
theorem fuel_left (h : SettlesBy m k s) {j : Nat} (hj : k ≤ j) : (m j s).1 ≠ .error .outOfFuel := by
  obtain ⟨r, hr, hall⟩ := h
  rw [hall j hj]
  exact hr

end Run.SettlesBy

/-- An error other than that the fuel ran out. -/
abbrev RecognitionError.IsTimely (e : RecognitionError) : Prop := e ≠ .outOfFuel

theorem Run.Fails.ne_outOfFuel {σ α : Type} {m : Run σ α} (h : Fails RecognitionError.IsTimely m) (s : σ) :
    (m s).1 ≠ .error .outOfFuel := by
  intro he
  have hrun : m s = (.error .outOfFuel, (m s).2) := Prod.ext he rfl
  exact h hrun rfl

/-- A run that is held to other errors does not end for want of fuel. -/
theorem Run.Meets.ne_outOfFuel {σ α : Type} {pre : σ → Prop} {post : α → σ → Prop} {m : Run σ α} {s : σ}
    (h : Meets pre m post fun e _ => e.IsTimely) (hs : pre s) : (m s).1 ≠ .error .outOfFuel := by
  have hend := h s hs
  intro hout
  rcases hr : m s with ⟨e | a, t⟩ <;> rw [hr] at hend hout
  · exact hend (Except.error.inj hout)
  · cases hout

theorem Run.Fails.imp {σ α : Type} {bad bad' : RecognitionError → Prop} {m : Run σ α} (h : Fails bad m)
    (himp : ∀ e, bad e → bad' e) : Fails bad' m := fun _ _ _ hr => himp _ (h hr)

end AdaptiveLL

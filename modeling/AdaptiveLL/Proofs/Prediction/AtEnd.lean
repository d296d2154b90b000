import Mathlib
import AdaptiveLL.Proofs.Prediction.Offers
import AdaptiveLL.Proofs.Prediction.OverCaller
import AdaptiveLL.Proofs.Prediction.Recomputing

/-! # Configurations behind the end of the input

The end of the input can be consumed again and again, since a stream stays there.  What is reached over
it lies at the ends of rules only (`Surroundings.allStop_of_reach_end`).  Without the caller's stack such
a set always recognises something (`EveryEdge.isAccept_of_end`).  With it, consuming the end of the input
once more gives the set back (`Surroundings.reach_again`).
-/
namespace AdaptiveLL

namespace ConfigSet
variable {n : Network} {s t : ConfigSet}

theorem allStop_iff : s.allStop n ↔ ∀ c ∈ s.toList, n.isStop c.state := by
  rw [allStop, List.all_eq_true]

end ConfigSet

namespace Surroundings
variable {σ : Type} {env : Surroundings σ} {w w' : Workspace σ} {settle : Bool} {s r : ConfigSet}

/-! ## Once more -/

theorem moves_of_allStop (hs : s.allStop env.network) (x : Symbol) : env.moves x s = [] := by
  rw [moves, List.flatMap_eq_nil_iff]
  intro c hc
  exact if_pos (ConfigSet.allStop_iff.mp hs c hc)

theorem staying_of_allStop (hs : s.allStop env.network) : env.staying endOfInput s = s.toList := by
  rw [staying, if_pos (by simp), List.filter_eq_self]
  exact ConfigSet.allStop_iff.mp hs

/-- Over the caller's stack, a set at the ends of rules is what the end of the input leads to from it. -/
theorem reach_again (hf : env.fullContext = true) (hs : s.OverCaller) (hall : s.allStop env.network)
    (hne : s.isEmpty = false) {previous : ConfigSet} (hp : previous.toList = s.toList) (w : Workspace σ) :
    env.reach true endOfInput previous w = (.ok (some s), w) := by
  have hmoves : env.moves endOfInput previous = [] := by
    rw [← moves_of_allStop hall endOfInput, moves, moves, hp]
  have hstay : env.staying endOfInput previous = s.toList := by
    rw [← staying_of_allStop hall, staying, staying, hp]
  have hstays : s.toList.isEmpty = false := by
    rwa [ConfigSet.toList, Array.isEmpty_toList]
  -- nothing moves, so nothing is closed, and all that is left is to add what stays
  have hkeep : env.keep s.toList (ConfigSet.empty true) w = (.ok s, w) := by
    have hadd : insertAll (ConfigSet.empty true) s.toList w = (.ok s, w) := by
      show (Except.ok ((ConfigSet.empty true).insertAll s.toList w.graph).1,
        (⟨((ConfigSet.empty true).insertAll s.toList w.graph).2, w.author, w.closures⟩ : Workspace σ)) = _
      rw [hs.insertAll_self]
    unfold keep
    rw [hstays, if_pos (by simp [ConfigSet.hasStop, ConfigSet.toList, ConfigSet.empty]), hadd]
  have hclosed : env.closeMoved endOfInput (ConfigSet.empty true) w = (.ok (ConfigSet.empty true), w) := by
    rw [← hf]
    rfl
  have hend : env.afterEnd endOfInput (ConfigSet.empty true) w = (.ok (ConfigSet.empty true), w) := rfl
  have hnone : insertAll (ConfigSet.empty true) [] w = (.ok (ConfigSet.empty true), w) := rfl
  unfold reach
  rw [hmoves, hstay, hf, Run.bind_apply, hnone]
  have hunsettled : isSettled endOfInput s.toList (ConfigSet.empty true) = false := by
    rw [isSettled, hstays, Bool.false_and, Bool.false_and]
  dsimp only
  rw [hunsettled, Bool.and_false, if_neg Bool.false_ne_true, Run.bind_apply, hclosed]
  show (env.afterEnd endOfInput (ConfigSet.empty true) >>= fun ended => env.keep s.toList ended >>=
    fun reached => pure (if reached.isEmpty then none else some reached)) w = _
  rw [Run.bind_apply, hend]
  show (env.keep s.toList (ConfigSet.empty true) >>=
    fun reached => pure (if reached.isEmpty then none else some reached)) w = _
  rw [Run.bind_apply, hkeep]
  show (pure (if s.isEmpty then none else some s) : Run (Workspace σ) _) w = _
  rw [hne]
  rfl

end Surroundings

/-! ## What such sets recognise -/

/-- A set at the ends of rules recognises an alternative or shows a conflict. -/
theorem AutomatonState.isAccept_classify {n : Network} {s : ConfigSet} (hall : s.allStop n)
    (mode : PredictionMode) (count : Nat) (g : StackGraph) : (classify mode n count s g).1.isAccept := by
  unfold classify
  split
  · rw [recognising, isAccept_applyGuards]
  · rw [ConfigSet.stopsReading, if_pos hall]
    show (contested count s.findConflictingAlts s).isAccept
    rw [contested, isAccept_applyGuards]

/-- What an edge over the end of the input leads to recognises something. -/
theorem EveryEdge.isAccept_of_end {n : Network} {allowed : Settings → Prop} {count : Nat} {g : StackGraph}
    {s e : AutomatonState} (h : EveryEdge n allowed count g s endOfInput (some e)) : e.isAccept := by
  obtain ⟨settings, -, g₀, o₀, g₁, -, -, -, hrun, hsame, -⟩ := h
  cases hsame with
  | some halike =>
    rcases edgeResult_cases hrun with ⟨hnone, -⟩ | ⟨reached, w, hreach, hsome⟩
    · cases hnone
    · rw [← halike.isAccept, Option.some.inj hsome]
      exact AutomatonState.isAccept_classify (Surroundings.allStop_of_reach_end hreach) _ _ _

end AdaptiveLL

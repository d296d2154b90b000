import Mathlib
import AdaptiveLL.Proofs.DepthFirst.Recursion
import AdaptiveLL.Proofs.Prediction.Plain

/-! # Closing by recursion

The closure keeps what is still to be followed in lists of its own.  Here it is written as the two
procedures that call each other: one for a configuration that was reached (`Closure.closeFrom`), which at
the end of a rule pops the stacks frame by frame, and one for a configuration from which to go on
(`Closure.walkFrom`), which follows its transitions one after another.

Closing a configuration ends, however its network calls itself; it does what the procedures do; and it
fails just if the calls that are pending would nest deeper than allowed
(`Closure.close_eq_recursion`).
-/
namespace AdaptiveLL
namespace Closure
open Run DepthFirst

variable {σ : Type} (env : Surroundings σ)

/-- What a closure that is nested too deeply fails with. -/
def tooDeep : RecognitionError := .closureDepthExceeded (env.maxDepth + 1) env.maxDepth

mutual

/-- A configuration that was reached, `nesting` calls deep.  At the end of a rule its stacks are popped;
one without stacks is finished if the caller is known. -/
def closeFrom (nesting : Nat) (c : Config) (depth : Int) (collecting : Bool) :
    Run (Progress σ) Unit := do
  if env.network.isStop c.state && !c.stack.isBottom then
    let g := (← get).work.graph
    if _room : nesting < env.maxDepth then
      (g.frames c.stack).forM fun frame => do
        match frame.returnTo with
        | some state =>
          closeFrom (nesting + 1) (c.returnTo state frame.parent) (depth - 1) collecting
        | none =>
          if env.fullContext then collect (c.returnTo c.state StackRef.bottom)
          else walkFrom (nesting + 1) c depth collecting
    else throw (tooDeep env)
  else if env.network.isStop c.state && env.fullContext then collect c
  else walkFrom nesting c depth collecting
termination_by (env.maxDepth - nesting, 1)

/-- A configuration from which to go on, `nesting` calls deep: unless that was done before, it is
collected if something can be consumed there, and its transitions are followed. -/
def walkFrom (nesting : Nat) (c : Config) (depth : Int) (collecting : Bool) :
    Run (Progress σ) Unit := do
  if ← markVisited c then
    let s := env.network.state c.state
    if !s.freeOnly then collect c
    if _room : nesting < env.maxDepth then
      s.transitions.forM fun t => do
        let collecting := collecting && !isAction t
        match ← target? env c (depth = 0) collecting t with
        | none => pure ()
        | some d =>
          if env.network.isStop c.state then
            noteDip
            closeFrom (nesting + 1) { d with outerReach := d.outerReach + 1 } (depth - 1) collecting
          else if isCall t && decide (0 ≤ depth) then
            closeFrom (nesting + 1) d (depth + 1) collecting
          else closeFrom (nesting + 1) d depth collecting
    else throw (tooDeep env)
termination_by (env.maxDepth - nesting, 0)

end

variable {env} {nesting room : Nat}

/-- A transition is followed as in a walk, if what it leads to is. -/
theorem descend_follow (hclose : ∀ c depth collecting, closeFrom env nesting c depth collecting =
      arrive env c depth collecting >>= descendInto (visit env) (tooDeep env) room)
    (c : Config) (depth : Int) (collecting : Bool) (t : Transition) :
    descend (visit env) (tooDeep env) room (.follow c depth collecting t) = (do
      match ← target? env c (depth = 0) (collecting && !isAction t) t with
      | none => pure ()
      | some d =>
        if env.network.isStop c.state then
          noteDip
          closeFrom env nesting { d with outerReach := d.outerReach + 1 } (depth - 1)
            (collecting && !isAction t)
        else if isCall t && decide (0 ≤ depth) then
          closeFrom env nesting d (depth + 1) (collecting && !isAction t)
        else closeFrom env nesting d depth (collecting && !isAction t)) := by
  rw [descend_eq, visit, follow, bind_assoc]
  congr 1
  funext o
  cases o with
  | none => exact pure_bind _ _
  | some d =>
    dsimp only
    split
    · rw [bind_assoc, hclose]
    · split
      · rw [hclose]
      · rw [hclose]

/-- A frame is popped as in a walk, if what it leads to is followed as in a walk. -/
theorem descend_pop (hclose : ∀ c depth collecting, closeFrom env nesting c depth collecting =
      arrive env c depth collecting >>= descendInto (visit env) (tooDeep env) room)
    (hwalk : ∀ c depth collecting, walkFrom env nesting c depth collecting =
      enter env c depth collecting >>= descendInto (visit env) (tooDeep env) room)
    (c : Config) (depth : Int) (collecting : Bool) (frame : Frame) :
    descend (visit env) (tooDeep env) room (.pop c depth collecting frame) = (do
      match frame.returnTo with
      | some state => closeFrom env nesting (c.returnTo state frame.parent) (depth - 1) collecting
      | none =>
        if env.fullContext then collect (c.returnTo c.state StackRef.bottom)
        else walkFrom env nesting c depth collecting) := by
  rw [descend_eq, visit, pop]
  cases frame.returnTo with
  | some state => exact (hclose _ _ _).symm
  | none =>
    dsimp only
    split
    · rw [bind_assoc]
      simp only [pure_bind, descendInto, bind_pure_unit]
    · exact (hwalk _ _ _).symm

/-- Where there is no room for another call, a configuration from which to go on is entered, and the walk
fails if its transitions are to be followed. -/
theorem walkFrom_full (hfull : ¬ nesting < env.maxDepth) (c : Config) (depth : Int)
    (collecting : Bool) : walkFrom env nesting c depth collecting =
      enter env c depth collecting >>= descendInto (visit env) (tooDeep env) 0 := by
  rw [walkFrom, enter, bind_assoc]
  congr 1
  funext first
  cases first with
  | false => rfl
  | true =>
    simp only [if_true, dif_neg hfull]
    split
    · rw [bind_assoc]
      rfl
    · rfl

/-- A configuration from which to go on is walked from as in a walk, if what its transitions lead to is
followed as in a walk. -/
theorem walkFrom_succ (hroom : nesting < env.maxDepth)
    (hclose : ∀ c depth collecting, closeFrom env (nesting + 1) c depth collecting =
      arrive env c depth collecting >>= descendInto (visit env) (tooDeep env) room)
    (c : Config) (depth : Int) (collecting : Bool) : walkFrom env nesting c depth collecting =
      enter env c depth collecting >>= descendInto (visit env) (tooDeep env) (room + 1) := by
  rw [walkFrom, enter, bind_assoc]
  congr 1
  funext first
  cases first with
  | false => rfl
  | true =>
    have hall : ∀ ts : List Transition, forM (ts.map (Item.follow c depth collecting))
        (descend (visit env) (tooDeep env) room) = ts.forM _ := fun ts =>
      (List.forM_map ..).trans (congrArg _ (funext (descend_follow hclose c depth collecting)))
    simp only [if_true, dif_pos hroom]
    split
    · rw [bind_assoc]
      congr 1
      funext _
      exact (hall _).symm
    · exact (hall _).symm

/-- A configuration that was reached is closed as in a walk, if the configurations from which to go on are
walked from as in a walk, and so is what the frames of its stacks lead to. -/
theorem closeFrom_eq_of_pop
    (hwalk : ∀ c depth collecting, walkFrom env nesting c depth collecting =
      enter env c depth collecting >>= descendInto (visit env) (tooDeep env) room)
    (hpop : ∀ c depth collecting frames,
      (if _room : nesting < env.maxDepth then
        (List.forM frames fun frame => do
          match frame.returnTo with
          | some state =>
            closeFrom env (nesting + 1) (c.returnTo state frame.parent) (depth - 1) collecting
          | none =>
            if env.fullContext then collect (c.returnTo c.state StackRef.bottom)
            else walkFrom env (nesting + 1) c depth collecting)
      else throw (tooDeep env)) =
        descendInto (visit env) (tooDeep env) room
          (some (frames.map (Item.pop c depth collecting))))
    (c : Config) (depth : Int) (collecting : Bool) : closeFrom env nesting c depth collecting =
      arrive env c depth collecting >>= descendInto (visit env) (tooDeep env) room := by
  rw [closeFrom, arrive]
  split
  · rw [bind_assoc]
    congr 1
    funext p
    exact (hpop _ _ _ _).trans (pure_bind _ _).symm
  · split
    · rw [bind_assoc]
      simp only [pure_bind, descendInto, bind_pure_unit]
    · exact hwalk _ _ _

/-- What the procedures do is what the recursion over the items of a walk does. -/
theorem procedures_eq_descend (room nesting : Nat) (hroom : nesting + room = env.maxDepth) :
    (∀ c depth collecting, closeFrom env nesting c depth collecting =
      arrive env c depth collecting >>= descendInto (visit env) (tooDeep env) room) ∧
    ∀ c depth collecting, walkFrom env nesting c depth collecting =
      enter env c depth collecting >>= descendInto (visit env) (tooDeep env) room := by
  induction room generalizing nesting with
  | zero =>
    have hfull : ¬ nesting < env.maxDepth := by omega
    refine ⟨closeFrom_eq_of_pop (walkFrom_full hfull) fun c depth collecting frames => ?_,
      walkFrom_full hfull⟩
    rw [dif_neg hfull]
    rfl
  | succ room ih =>
    have hlt : nesting < env.maxDepth := by omega
    obtain ⟨hclose, hwalk⟩ := ih (nesting + 1) (by omega)
    refine ⟨closeFrom_eq_of_pop (walkFrom_succ hlt hclose) fun c depth collecting frames => ?_,
      walkFrom_succ hlt hclose⟩
    rw [dif_pos hlt]
    exact ((List.forM_map ..).trans
      (congrArg _ (funext (descend_pop hclose hwalk c depth collecting)))).symm

/-- Closing a configuration is what the procedures do for it, but that it is counted. -/
theorem close_eq_closeFrom (env : Surroundings σ) (collecting : Bool) (c : Config) (p : Progress σ) :
    close env collecting c p = closeFrom env 0 c 0 collecting
      { p with work := { p.work with closures := p.work.closures + 1 } } := by
  have hwalk : close env collecting c p = walk (visit env) (tooDeep env) env.maxDepth
      (.arrive c 0 collecting) { p with work := { p.work with closures := p.work.closures + 1 } } := rfl
  rw [hwalk, walk_eq_descend, descend_eq, (procedures_eq_descend env.maxDepth 0 (Nat.zero_add _)).1]
  rfl

/-- Closing a configuration, whatever was collected and visited before, ends after finitely many turns of
its loop, and with what the two procedures end with.  That is what following everything without a limit
leads to, if it leads anywhere and the calls that are pending nest no deeper than allowed, and otherwise
the error that says so. -/
theorem close_eq_recursion (env : Surroundings σ) (collecting : Bool) (c : Config) (p : Progress σ) :
    let counted := { p with work := { p.work with closures := p.work.closures + 1 } }
    (∃ turns, Ends (visit env) (tooDeep env) turns env.maxDepth [[.arrive c 0 collecting]] counted
      (close env collecting c p)) ∧
    close env collecting c p = closeFrom env 0 c 0 collecting counted ∧
    match close env collecting c p with
    | (.ok _, q) => Explores (visit env) env.maxDepth (.arrive c 0 collecting) counted q
    | (.error e, _) => e = tooDeep env ∧
      ∀ q, ¬ Explores (visit env) env.maxDepth (.arrive c 0 collecting) counted q := by
  intro counted
  have hwalk : close env collecting c p =
      walk (visit env) (tooDeep env) env.maxDepth (.arrive c 0 collecting) counted := rfl
  refine ⟨?_, close_eq_closeFrom env collecting c p, ?_⟩
  · rw [hwalk, walk]
    exact exists_ends _ _ _ _ _
  · rw [hwalk, walk_eq_descend]
    rcases hr : descend (visit env) (tooDeep env) env.maxDepth (.arrive c 0 collecting) counted
      with ⟨e | u, q⟩
    · refine ⟨?_, fun q' hq => ?_⟩
      · rw [← walk_eq_descend] at hr
        exact @run_fails _ _ _ _ (· = tooDeep env) (fails_visit env) rfl _ _ _ _ _ hr
      · rw [(descend_eq_ok_iff _ _ _ _).mpr hq] at hr
        cases hr
    · exact (descend_eq_ok_iff _ _ _ _).mp hr

end Closure
end AdaptiveLL

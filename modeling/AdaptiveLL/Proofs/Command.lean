import Mathlib
import AdaptiveLL.Command
import AdaptiveLL.Proofs.Run

/-!
# Carrying out commands

Pinned commands move the input to and fro.  Whatever the commands do otherwise, and whether or not
one of them fails, the input is in the end where it was (`Command.runAll_meets`).
-/

namespace AdaptiveLL
namespace Command

variable {γ : Type} [CommandTarget γ] {inv : γ → Prop} {start stop : Nat}

/-- What commands keep, and the index with it, although they move the input: single commands keep
both, moving the input keeps the first, and moving it back to `stop` leads there. -/
structure Keep (inv : γ → Prop) (stop : Nat) : Prop where
  run : ∀ (i : Nat) (c : Command), Run.Meets (fun l => inv l ∧ CommandTarget.index l = i) c.run
    (fun _ l => inv l ∧ CommandTarget.index l = i) fun _ l => inv l ∧ CommandTarget.index l = i
  seek : ∀ (i : Nat) (l : γ), inv l → inv (CommandTarget.seek i l)
  back : ∀ l : γ, inv l → CommandTarget.index (CommandTarget.seek stop l) = stop

/-- A place for the input: `stop`, unless it is `away`. -/
def Keep.Home (inv : γ → Prop) (stop : Nat) (away : Bool) (l : γ) : Prop :=
  inv l ∧ (away = false → CommandTarget.index l = stop)

theorem Keep.seek_home (h : Keep inv stop) (away : Bool) :
    Run.Meets (Keep.Home inv stop away) (if away then modify (CommandTarget.seek stop) else pure ())
      (fun _ l => inv l ∧ CommandTarget.index l = stop) fun _ _ => False := by
  refine Run.Meets.ite (fun _ => .modify fun l hl => ?_) fun haway => .pure fun l hl => ?_
  · exact ⟨h.seek stop l hl.1, h.back l hl.1⟩
  · exact ⟨hl.1, hl.2 (by simpa using haway)⟩

/-- A single command keeps the input away or not; if it fails, the input is moved back. -/
theorem Keep.runOne (h : Keep inv stop) (away : Bool) (c : Command) :
    Run.Meets (Keep.Home inv stop away) (tryCatch c.run fun e => do
        if away then modify (CommandTarget.seek stop)
        throw e)
      (fun _ l => Keep.Home inv stop away l)
      fun _ l => inv l ∧ CommandTarget.index l = stop := by
  intro l hl
  have hrun := h.run (CommandTarget.index l) c l ⟨hl.1, rfl⟩
  rw [Run.tryCatch_apply]
  rcases hr : c.run l with ⟨e | u, t⟩ <;> rw [hr] at hrun
  · have hhome : Keep.Home inv stop away t := ⟨hrun.1, fun ha => hrun.2.trans (hl.2 ha)⟩
    cases away with
    | true => exact ⟨h.seek stop t hrun.1, h.back t hrun.1⟩
    | false => exact ⟨hrun.1, hhome.2 rfl⟩
  · exact ⟨hrun.1, fun ha => hrun.2.trans (hl.2 ha)⟩

theorem Keep.runFrom (h : Keep inv stop) (commands : List Command) (away : Bool) :
    Run.Meets (Keep.Home inv stop away) (runFrom start stop away commands)
      (fun _ l => inv l ∧ CommandTarget.index l = stop)
      fun _ l => inv l ∧ CommandTarget.index l = stop := by
  induction commands generalizing away with
  | nil =>
    unfold Command.runFrom
    exact (h.seek_home away).imp (fun _ hl => hl) (fun _ _ hl => hl) fun _ _ hl => hl.elim
  | cons c rest ih =>
    unfold Command.runFrom
    have hgo : ∀ r : Bool × Command, Run.Meets (fun l => Keep.Home inv stop r.1 l)
        (do
          tryCatch r.2.run fun e => do
            if r.1 then modify (CommandTarget.seek stop)
            throw e
          Command.runFrom start stop r.1 rest)
        (fun _ l => inv l ∧ CommandTarget.index l = stop)
        fun _ l => inv l ∧ CommandTarget.index l = stop :=
      fun r => (h.runOne r.1 r.2).bind fun _ => ih r.1
    -- Whichever way the input is moved first, the flag says whether it has left `stop`.
    have hback : Run.Meets (Keep.Home inv stop away) (modify (CommandTarget.seek stop))
        (fun _ l => Keep.Home inv stop false l) fun _ l => inv l ∧ CommandTarget.index l = stop :=
      .modify fun l hl => ⟨h.seek stop l hl.1, fun _ => h.back l hl.1⟩
    have hpinned : ∀ offset : Nat, Run.Meets (Keep.Home inv stop away)
        (modify (CommandTarget.seek (replayIndex start offset)))
        (fun _ l => Keep.Home inv stop (decide (replayIndex start offset ≠ stop)) l)
        fun _ l => inv l ∧ CommandTarget.index l = stop := by
      refine fun offset => .modify fun l hl => ⟨h.seek _ l hl.1, fun ha => ?_⟩
      have hplace : replayIndex start offset = stop := by simpa using ha
      rw [hplace]
      exact h.back l hl.1
    cases c with
    | pinned offset inner =>
      exact (hpinned offset).bind fun _ => hgo (decide (replayIndex start offset ≠ stop), inner)
    | custom rule index => exact hback.bind fun _ => hgo (false, .custom rule index)
    | channel channel => exact hgo (away, .channel channel)
    | mode mode => exact hgo (away, .mode mode)
    | more => exact hgo (away, .more)
    | popMode => exact hgo (away, .popMode)
    | pushMode mode => exact hgo (away, .pushMode mode)
    | skip => exact hgo (away, .skip)
    | type type => exact hgo (away, .type type)

/-- Commands leave the input where it was, whether or not one of them fails. -/
theorem Keep.runAll (h : Keep inv stop) (commands : List Command) (start : Nat) :
    Run.Meets (fun l => inv l ∧ CommandTarget.index l = stop) (runAll commands start)
      (fun _ l => inv l ∧ CommandTarget.index l = stop)
      fun _ l => inv l ∧ CommandTarget.index l = stop := by
  rintro l ⟨hl, rfl⟩
  exact h.runFrom commands false l ⟨hl, fun _ => rfl⟩

/-! ## What commands fail with -/

section Failing
variable {bad : RecognitionError → Prop} (hpop : Run.Fails bad (CommandTarget.popMode : Run γ Unit))
include hpop

/-- A command fails only where there is no mode to return to. -/
theorem fails_run (c : Command) : Run.Fails bad (c.run : Run γ Unit) := by
  induction c with
  | popMode => exact hpop
  | pinned offset c ih => exact ih
  | _ => exact .modify _

theorem fails_runFrom (start stop : Nat) (commands : List Command) (away : Bool) :
    Run.Fails bad (runFrom start stop away commands : Run γ Unit) := by
  induction commands generalizing away with
  | nil => exact .ite (.modify _) (.pure _)
  | cons c rest ih =>
    unfold Command.runFrom
    have hgo : ∀ r : Bool × Command, Run.Fails bad (do
        tryCatch r.2.run fun e => do
          if r.1 then modify (CommandTarget.seek stop)
          throw e
        Command.runFrom start stop r.1 rest : Run γ Unit) := by
      rintro ⟨away, c⟩
      refine (Run.Fails.tryCatch (fails_run hpop c) fun e he => ?_).bind fun _ => ih away
      cases away with
      | false => exact .throw he
      | true => exact (Run.Fails.modify _).bind fun _ => .throw he
    cases c with
    | pinned offset inner => exact (Run.Fails.modify _).bind fun _ => hgo (_, inner)
    | custom rule index => exact (Run.Fails.modify _).bind fun _ => hgo (false, .custom rule index)
    | channel channel => exact hgo (away, .channel channel)
    | mode mode => exact hgo (away, .mode mode)
    | more => exact hgo (away, .more)
    | popMode => exact hgo (away, .popMode)
    | pushMode mode => exact hgo (away, .pushMode mode)
    | skip => exact hgo (away, .skip)
    | type type => exact hgo (away, .type type)

theorem fails_runAll (commands : List Command) (start : Nat) :
    Run.Fails bad (runAll commands start : Run γ Unit) :=
  Run.Fails.get.bind fun _ => fails_runFrom hpop start _ commands false

end Failing

end Command
end AdaptiveLL

import Mathlib
import AdaptiveLL.Prediction.Predictor
import AdaptiveLL.Proofs.DepthFirst
import AdaptiveLL.Proofs.Grammar.Unguarded

/-! # Guards that are taken for granted

Once a token was consumed no guard is collected any more, and none is decided: the closures of configurations
that were moved pass every guard.  So what is reached by consuming a symbol is the same in the network whose
guards are taken for granted (`Surroundings.reach_granted`), and so is the run over the caller's stack behind
the configurations with which it begins (`Predictor.runFullContext_granted`).
-/
namespace AdaptiveLL
variable {σ : Type}

/-- The same surroundings, with guards that are taken for granted. -/
def Surroundings.granted (env : Surroundings σ) : Surroundings σ :=
  { env with network := env.network.unguarded, ask := none }

theorem Run.matches_self {α : Type} (m : Run σ α) (s : σ) :
    Matches (fun a t b u => a = b ∧ t = u) Eq (m s) (m s) := by
  rcases m s with ⟨e | a, t⟩
  · exact .error e rfl
  · exact .ok ⟨rfl, rfl⟩

/-- Runs that end with the same in the same state. -/
theorem Matches.eq {α : Type} {r r' : Ending σ α} (h : Matches (fun a t b u => a = b ∧ t = u) Eq r r') :
    r = r' := by
  cases h with
  | ok h => rw [h.1, h.2]
  | error e h => rw [h]

namespace Closure
variable {env : Surroundings σ} {c : Config} {depth : Int}

/-- An item whose transition is taken for granted. -/
def Item.granted : Item → Item
  | follow c depth collecting t => follow c depth collecting t.unguarded
  | i => i

/-- Whether an item collects no guards. -/
def Item.Late : Item → Prop
  | arrive _ _ collecting | pop _ _ collecting _ | follow _ _ collecting _ => collecting = false

/-- Two visits open the same items, which collect no guards, but for what is taken for granted, and do the same
otherwise. -/
def SameVisit (r r' : Ending (Progress σ) (Option (List Item))) : Prop :=
  Matches (fun o p o' p' => p = p' ∧ True ∧
    Option.Rel (List.Forall₂ fun i i' => i' = i.granted ∧ i.Late) o o') Eq r r'

theorem SameVisit.done (p : Progress σ) : SameVisit ((pure none : Run _ _) p) ((pure none : Run _ _) p) :=
  .ok ⟨rfl, trivial, .none⟩

theorem enter_granted (p : Progress σ) :
    SameVisit (enter env c depth false p) (enter env.granted c depth false p) := by
  have hstate : env.granted.network.state c.state = { env.network.state c.state with
      transitions := (env.network.state c.state).transitions.map Transition.unguarded } :=
    env.network.state_unguarded c.state
  have hitems : List.Forall₂ (fun i i' => i' = Item.granted i ∧ i.Late)
      ((env.network.state c.state).transitions.map (Item.follow c depth false))
      (((env.network.state c.state).transitions.map Transition.unguarded).map (Item.follow c depth false)) := by
    rw [List.map_map, List.forall₂_map_left_iff, List.forall₂_map_right_iff, List.forall₂_same]
    exact fun t _ => ⟨rfl, rfl⟩
  unfold enter
  refine (Run.matches_self (markVisited c) p).bind ?_
  rintro b p _ _ ⟨rfl, rfl⟩
  cases b with
  | false => exact SameVisit.done p
  | true =>
    rw [hstate]
    dsimp only
    cases (env.network.state c.state).freeOnly with
    | true => exact .ok ⟨rfl, trivial, .some hitems⟩
    | false =>
      refine (Run.matches_self (collect c) p).bind ?_
      rintro _ p _ _ ⟨-, rfl⟩
      exact .ok ⟨rfl, trivial, .some hitems⟩

theorem arrive_granted (p : Progress σ) :
    SameVisit (arrive env c depth false p) (arrive env.granted c depth false p) := by
  have hstop : env.granted.network.isStop c.state = env.network.isStop c.state :=
    env.network.isStop_unguarded c.state
  have hcontext : env.granted.fullContext = env.fullContext := rfl
  unfold arrive
  rw [hstop, hcontext]
  split
  · refine .ok ⟨rfl, trivial, .some ?_⟩
    rw [List.forall₂_map_left_iff, List.forall₂_map_right_iff, List.forall₂_same]
    exact fun f _ => ⟨rfl, rfl⟩
  · split
    · refine (Run.matches_self (collect c) p).bind ?_
      rintro _ p _ _ ⟨-, rfl⟩
      exact SameVisit.done p
    · exact enter_granted p

theorem pop_granted (f : Frame) (p : Progress σ) :
    SameVisit (pop env c depth false f p) (pop env.granted c depth false f p) := by
  have hcontext : env.granted.fullContext = env.fullContext := rfl
  unfold pop
  cases f.returnTo with
  | some q => exact arrive_granted p
  | none =>
    dsimp only
    rw [hcontext]
    split
    · refine (Run.matches_self (collect _) p).bind ?_
      rintro _ p _ _ ⟨-, rfl⟩
      exact SameVisit.done p
    · exact enter_granted p

/-- A guard that is not collected is passed. -/
theorem target?_granted (inRule : Bool) (t : Transition) :
    (target? env.granted c inRule false t.unguarded : Run (Progress σ) (Option Config)) =
      target? env c inRule false t := by
  cases t with
  | precedence | predicate => rfl
  | _ => rfl

theorem follow_granted (t : Transition) (p : Progress σ) :
    SameVisit (follow env c depth false t p) (follow env.granted c depth false t.unguarded p) := by
  have hstop : env.granted.network.isStop c.state = env.network.isStop c.state :=
    env.network.isStop_unguarded c.state
  have hcall : isCall t.unguarded = isCall t := by cases t <;> rfl
  unfold follow
  rw [Bool.false_and, Bool.false_and, target?_granted, hstop, hcall]
  refine (Run.matches_self (target? env c _ false t) p).bind ?_
  rintro o p _ _ ⟨rfl, rfl⟩
  cases o with
  | none => exact SameVisit.done p
  | some d =>
    dsimp only
    split
    · refine (Run.matches_self noteDip p).bind ?_
      rintro _ p _ _ ⟨-, rfl⟩
      exact arrive_granted p
    · split
      · exact arrive_granted p
      · exact arrive_granted p

theorem visit_granted {i : Item} (hi : i.Late) (p : Progress σ) :
    SameVisit (visit env i p) (visit env.granted i.granted p) := by
  cases i with
  | arrive c depth collecting =>
    obtain rfl : collecting = false := hi
    exact arrive_granted p
  | pop c depth collecting f =>
    obtain rfl : collecting = false := hi
    exact pop_granted f p
  | follow c depth collecting t =>
    obtain rfl : collecting = false := hi
    exact follow_granted t p

/-- Closing without collecting guards takes them for granted. -/
theorem closeAll_granted (env : Surroundings σ) (cs : List Config) :
    closeAll env.granted false cs = closeAll env false cs := by
  have hclose : close env.granted false = close env false := by
    funext c p
    unfold close
    rw [Run.bind_apply, Run.bind_apply, Run.modify_apply]
    have hsame : ∀ q : Progress σ, Matches (fun _ p _ p' => p = p') Eq
        (DepthFirst.run (visit env) (.closureDepthExceeded (env.maxDepth + 1) env.maxDepth) env.maxDepth
          [[.arrive c 0 false]] q)
        (DepthFirst.run (visit env.granted) (.closureDepthExceeded (env.maxDepth + 1) env.maxDepth) env.maxDepth
          [[.arrive c 0 false]] q) := by
      intro q
      refine DepthFirst.run_matches _ Eq (fun _ _ _ _ => True) (fun _ _ i i' => i' = Item.granted i ∧ i.Late)
        (fun _ h => h) ?_ rfl (.cons (.cons ⟨rfl, rfl⟩ .nil) .nil)
      rintro p _ i _ rfl ⟨rfl, hi⟩
      exact visit_granted hi p
    exact ((hsame _).imp (fun _ _ _ _ h => ⟨rfl, h⟩) fun _ _ h => h).eq.symm
  unfold closeAll
  rw [hclose]
  rfl

end Closure

namespace Surroundings
variable (env : Surroundings σ)

theorem moves_granted (x : Symbol) (configs : ConfigSet) : env.granted.moves x configs = env.moves x configs := by
  unfold moves
  refine List.flatMap_congr fun c _ => ?_
  have hstate : env.granted.network.state c.state = { env.network.state c.state with
      transitions := (env.network.state c.state).transitions.map Transition.unguarded } :=
    env.network.state_unguarded c.state
  have hbounds : env.granted.network.minSymbol = env.network.minSymbol ∧
      env.granted.network.maxSymbol = env.network.maxSymbol := ⟨rfl, rfl⟩
  rw [hstate, hbounds.1, hbounds.2]
  dsimp only [State.isStop]
  rw [List.filter_map, List.map_map]
  simp [Function.comp_def]

theorem staying_granted (x : Symbol) (configs : ConfigSet) :
    env.granted.staying x configs = env.staying x configs := by
  have hstop : ∀ q, env.granted.network.isStop q = env.network.isStop q := env.network.isStop_unguarded
  unfold staying
  simp only [hstop]
  rfl

theorem finish_granted (x : Symbol) (stay : List Config) (closed : ConfigSet) :
    env.granted.finish x stay closed = env.finish x stay closed := by
  have hstop : ∀ q, env.granted.network.isStop q = env.network.isStop q := env.network.isStop_unguarded
  unfold finish afterEnd keep onlyStops ConfigSet.allStop ConfigSet.hasStop
  simp only [hstop]
  rfl

/-- What is reached by consuming a symbol is reached if guards are taken for granted, and nothing else is. -/
theorem reach_granted (settle : Bool) (x : Symbol) (configs : ConfigSet) :
    env.granted.reach settle x configs = env.reach settle x configs := by
  have hclose : ∀ moved, env.granted.closeMoved x moved = env.closeMoved x moved := fun moved =>
    Closure.closeAll_granted { env with endIsFree := x = endOfInput } moved.toList
  unfold reach
  simp only [moves_granted, staying_granted, finish_granted, hclose]
  rfl

end Surroundings

namespace Predictor

/-- Over the caller's stack guards are only decided where the configurations begin. -/
theorem runFullContext_granted (q : Question σ) (env : Surroundings σ) (fuel steps : Nat)
    (previous : ConfigSet) (x : Symbol) :
    runFullContext q env.granted fuel steps previous x = runFullContext q env fuel steps previous x := by
  induction fuel generalizing steps previous x with
  | zero => rfl
  | succ fuel ih =>
    unfold runFullContext
    simp only [Surroundings.reach_granted, ih]

end Predictor
end AdaptiveLL

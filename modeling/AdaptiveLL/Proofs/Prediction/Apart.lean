import Mathlib
import AdaptiveLL.Proofs.Prediction.Looks

/-! # What a prediction has no share in

Most steps of a prediction only touch the cache and a few counters.  Whatever else a predictor holds they leave
alone (`Predictor.Apart`), so that what such a part tells, such as the reports made, need only be followed
through the steps that are about it.

The other way round, a step may not notice that something was changed before it, and then it does not matter
whether the change is made before it or after it (`Run.Blind`).  Deciding guards is blind to every change of
the predictor.
-/
namespace AdaptiveLL

/-! ## What a run does not notice -/

/-- A run does not notice a change of the state, and keeps it. -/
def Run.Blind {σ α : Type} (f : σ → σ) (m : Run σ α) : Prop := ∀ s, m (f s) = ((m s).1, f (m s).2)

namespace Run.Blind
variable {σ α β : Type} {f : σ → σ}

theorem pure (a : α) : Blind f (Pure.pure a : Run σ α) := fun _ => rfl

theorem throw (e : RecognitionError) : Blind f (throw e : Run σ α) := fun _ => rfl

theorem modify {g : σ → σ} (h : ∀ s, g (f s) = f (g s)) : Blind f (modify g : Run σ PUnit) :=
  fun s => congrArg (Prod.mk _) (h s)

theorem modifyGet {g : σ → α × σ} (h : ∀ s, g (f s) = ((g s).1, f (g s).2)) :
    Blind f (modifyGet g : Run σ α) := fun s => by
  rw [modifyGet_apply, modifyGet_apply, h]

theorem bind {m : Run σ α} {k : α → Run σ β} (hm : Blind f m) (hk : ∀ a, Blind f (k a)) :
    Blind f (m >>= k) := by
  intro s
  rw [bind_apply, bind_apply, hm]
  rcases m s with ⟨e | a, t⟩
  · rfl
  · exact hk a t

/-- Reading the state is no harm if the change makes no difference to what follows. -/
theorem get_bind {k : σ → Run σ β} (hsame : ∀ s, k (f s) = k s) (hk : ∀ s, Blind f (k s)) :
    Blind f (MonadState.get >>= k) := by
  intro s
  rw [bind_apply, bind_apply, get_apply, get_apply]
  dsimp only
  rw [hsame]
  exact hk s s

theorem ite {p : Prop} [Decidable p] {m m' : Run σ α} (hm : Blind f m) (hm' : Blind f m') :
    Blind f (if p then m else m') := by
  split
  · exact hm
  · exact hm'

end Run.Blind

/-- Changes the predictor of a session. -/
def Session.onPredictor {σ : Type} (f : Predictor → Predictor) (s : Session σ) : Session σ :=
  { s with predictor := f s.predictor }

namespace Predictor
open Run
variable {σ : Type} (q : Question σ)

section
variable {f : Predictor → Predictor}

theorem blind_seek (index : Nat) : Blind (Session.onPredictor f) (seek index : Run (Session σ) Unit) :=
  .modify fun _ => rfl

theorem blind_passes (g : Guard) : Blind (Session.onPredictor f) (passes q g) :=
  .ite (.pure _) (.modifyGet fun _ => rfl)

theorem blind_admitted (pairs : List GuardedAlt) : Blind (Session.onPredictor f) (admitted q pairs) := by
  induction pairs with
  | nil => exact .pure _
  | cons pair pairs ih => exact (blind_passes q pair.guard).bind fun _ => ih.bind fun _ => .pure _

theorem blind_splitByGuard (cs : List Config) : Blind (Session.onPredictor f) (splitByGuard q cs) := by
  induction cs with
  | nil => exact .pure _
  | cons c cs ih => exact (blind_passes q c.guard).bind fun _ => ih.bind fun _ => .pure _

theorem blind_readOn (x : Symbol) : Blind (Session.onPredictor f) (readOn x : Run (Session σ) Symbol) :=
  .ite (.pure _) (Blind.bind (.modify fun _ => rfl) fun _ => .get_bind (fun _ => rfl) fun _ => .pure _)

end

/-! ## What deciding guards leaves alone -/

theorem predictor_seek (index : Nat) : Leaves Session.predictor (seek index : Run (Session σ) Unit) :=
  .modify fun _ => rfl

theorem predictor_passes (g : Guard) : Leaves Session.predictor (passes q g) :=
  .ite (.pure _) (.modifyGet fun _ => rfl)

theorem predictor_admitted (pairs : List GuardedAlt) : Leaves Session.predictor (admitted q pairs) := by
  induction pairs with
  | nil => exact .pure _
  | cons pair pairs ih => exact (predictor_passes q pair.guard).bind fun _ => ih.bind fun _ => .pure _

theorem predictor_splitByGuard (cs : List Config) : Leaves Session.predictor (splitByGuard q cs) := by
  induction cs with
  | nil => exact .pure _
  | cons c cs ih => exact (predictor_passes q c.guard).bind fun _ => ih.bind fun _ => .pure _

theorem predictor_giveUp (configs : ConfigSet) (x : Symbol) : Leaves Session.predictor (giveUp q configs x) := by
  refine Leaves.get.bind fun _ => (predictor_seek q.start).bind fun _ => Leaves.bind ?_ fun alt => ?_
  · exact (predictor_splitByGuard q configs.toList).bind fun _ => Leaves.get.bind fun _ => .pure _
  · cases alt with
    | none => exact .throw _
    | some alt => exact .pure _

theorem predictor_readOn (x : Symbol) : Leaves Session.predictor (readOn x : Run (Session σ) Symbol) :=
  .ite (.pure _) (Leaves.bind (.modify fun _ => rfl) fun _ => Leaves.get.bind fun _ => .pure _)

/-! ## What most steps leave alone -/

/-- A part of a predictor that is neither in the cache nor among the counts of work and of predictions made
without the caller's stack. -/
structure Apart {γ : Type} (part : Predictor → γ) : Prop where
  cache : ∀ p cache, part { p with cache } = part p
  counters : ∀ p closures hits misses sllPredictions,
    part { p with counters := { p.counters with closures, hits, misses, sllPredictions } } = part p

namespace Apart
variable {γ : Type} {part : Predictor → γ} (h : Apart part)
include h

theorem afterWork (p : Predictor) (w : Workspace σ) : part (p.afterWork w) = part p :=
  (h.counters { p with cache := { p.cache with graph := w.graph } } (p.counters.closures + w.closures)
    p.counters.hits p.counters.misses p.counters.sllPredictions).trans (h.cache p _)

theorem storeEdge (decision : Nat) (source : Target) (x : Symbol) (t : Target) :
    Leaves part (storeEdge decision source x t) :=
  Leaves.get.bind fun _ => .ite (.modify fun p => h.cache p _) (.pure _)

omit h in
theorem automatonState (decision : Nat) (source : Target) : Leaves part (automatonState decision source) := by
  refine Leaves.get.bind fun p => ?_
  split
  · exact .pure _
  · exact .throw _
  · exact .throw _

theorem computeEdge (decision : Nat) (source : Target) (x : Symbol) :
    Leaves part (computeEdge decision source x) := by
  have hwork : ∀ act : Run (Workspace Unit) (Option ConfigSet), Leaves part (withStacksOnly act) :=
    fun _ p => h.afterWork p _
  refine (automatonState decision source).bind fun s => Leaves.get.bind fun p => (hwork _).bind fun o => ?_
  cases o with
  | none => exact (h.storeEdge decision source x .error).bind fun _ => .pure _
  | some reached =>
    refine Leaves.bind (.modifyGet fun p => h.cache p _) fun made =>
      Leaves.bind (.modifyGet fun p => h.cache p _) fun t => ?_
    exact (h.storeEdge decision source x t).bind fun _ => .pure _

theorem step (decision : Nat) (source : Target) (x : Symbol) : Leaves part (step decision source x) := by
  have hhit : Leaves part (count fun c => { c with hits := c.hits + 1 }) :=
    .modify fun p => h.counters p p.counters.closures _ p.counters.misses p.counters.sllPredictions
  have hmiss : Leaves part (count fun c => { c with misses := c.misses + 1 }) :=
    .modify fun p => h.counters p p.counters.closures p.counters.hits _ p.counters.sllPredictions
  refine Leaves.get.bind fun p => ?_
  split
  · exact hhit.bind fun _ => .pure _
  · exact hmiss.bind fun _ => h.computeEdge decision source x

omit h in
theorem inSession {α : Type} {act : Run Predictor α} (hact : Leaves part act) :
    Leaves (fun s : Session σ => part s.predictor) (inSession act) := fun s => hact s.predictor

theorem withSessionStacks {α : Type} (act : Run (Workspace σ) α) :
    Leaves (fun s : Session σ => part s.predictor) (withSessionStacks act) := fun s => h.afterWork s.predictor _

theorem countSll : Leaves (fun s : Session σ => part s.predictor) countSll :=
  inSession (.modify fun p => h.counters p p.counters.closures p.counters.hits p.counters.misses _)

theorem accept (t : Target) (u : AutomatonState) (x : Symbol) :
    Leaves (fun s : Session σ => part s.predictor) (accept q t u x) := by
  unfold Predictor.accept
  split
  · refine h.countSll.bind fun _ => ?_
    split
    · exact .pure _
    · exact .throw _
  · refine Leaves.get.bind fun _ => ((predictor_seek _).map part).bind fun _ =>
      ((predictor_admitted q _).map part).bind fun alts => h.countSll.bind fun _ => ?_
    split
    · exact .pure _
    · exact .throw _

theorem lookAtState (steps : Nat) (previous : Target) (x : Symbol) :
    Leaves (fun s : Session σ => part s.predictor) (lookAtState q steps previous x) := by
  have hstate : ∀ t, Leaves (fun s : Session σ => part s.predictor)
      (Predictor.inSession (Predictor.automatonState q.decision t)) := fun t => inSession (automatonState _ t)
  refine (inSession (h.step _ _ _)).bind fun t => .ite ?_ ?_
  · exact (hstate _).bind fun _ => .pure _
  · refine (hstate _).bind fun u => Leaves.get.bind fun s => ?_
    split <;> exact .pure _

theorem lookAhead : Leaves (fun s : Session σ => part s.predictor) (lookAhead q) := by
  have hstart : Leaves (fun s : Session σ => part s.predictor) (startState q) := by
    refine Leaves.get.bind fun s => ?_
    dsimp only
    split
    · exact .pure _
    · refine (h.withSessionStacks _).bind fun _ => ?_
      refine Leaves.bind (inSession (.modifyGet fun p => h.cache p _)) fun t => ?_
      exact Leaves.bind (inSession (.modify fun p => h.cache p _)) fun _ => .pure _
  refine hstart.bind fun start => Leaves.get.bind fun stream => ?_
  rw [runAutomaton_eq]
  exact leaves_readLoop q (h.lookAtState q) (fun x => (predictor_readOn x).map part) _ _ _ _

end Apart
end Predictor
end AdaptiveLL

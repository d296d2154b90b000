import Mathlib
import AdaptiveLL.Proofs.Prediction.History
import AdaptiveLL.Proofs.Prediction.Offers
import AdaptiveLL.Proofs.Prediction.Recomputing

/-! # What the states of an automaton offer

A state of a decision's automaton that is reached on the first tokens either recognises an alternative
that is not above any that a machine can finish from, or its configurations still offer all of these
(`AutomatonState.Offers`).  This holds of the states that are worked out and of those that were stored
before, under whatever settings (`EveryEdge.offers`).
-/
namespace AdaptiveLL
open StackGraph (Extends)

/-- A set without guards and without the caller's stack that offers some alternatives. -/
structure ConfigSet.Pending (n : Network) (stop : Nat) (V : Nat → Prop) (w : List Symbol)
    (g : StackGraph) (t : ConfigSet) : Prop where
  offers : t.Offers n stop V w g
  plain : t.Plain
  noContext : t.fullContext = false

/-- What a state recognises of some alternatives, if it recognises anything. -/
structure AutomatonState.Picks (V : Nat → Prop) (s : AutomatonState) (m : Nat) : Prop where
  prediction : s.prediction = some m
  le : ∀ i, V i → m ≤ i
  only : s.needsFullContext = false → ∀ i, V i → i = m

/-- A state that recognises an alternative not above those in question, or that offers them all. -/
structure AutomatonState.Offers (n : Network) (stop : Nat) (V : Nat → Prop) (w : List Symbol)
    (g : StackGraph) (s : AutomatonState) : Prop where
  guardless : s.guardedAlts = none
  picks : s.isAccept → ∃ m, s.Picks V m
  pending : s.isAccept = false → s.needsFullContext = false ∧ w ≠ [] ∧
    s.configs.Pending n stop V w g

variable {gr : Grammar} {plan : Plan} {lazy : Prop} {n : Network} {top last stop : Nat}
  {V : Nat → Prop} {w : List Symbol} {g h : StackGraph}

theorem ConfigSet.Pending.alike {strict : Bool} {s t : ConfigSet} (hs : s.Pending n stop V w g)
    (a : ConfigSet.Alike strict g h s t) : t.Pending n stop V w h :=
  ⟨hs.offers.alike a, hs.plain.alike a, a.fullContext.symm.trans hs.noContext⟩

namespace AutomatonState

theorem Offers.alike {strict : Bool} {s t : AutomatonState} (hs : s.Offers n stop V w g)
    (a : AutomatonState.Alike strict g h s t) : t.Offers n stop V w h where
  guardless := a.guardedAlts.symm.trans hs.guardless
  picks ht := by
    obtain ⟨m, hm⟩ := hs.picks (a.isAccept.trans ht)
    exact ⟨m, a.prediction.symm.trans hm.prediction, hm.le,
      fun hn => hm.only (a.needsFullContext.trans hn)⟩
  pending ht := by
    obtain ⟨hn, hw, hp⟩ := hs.pending (a.isAccept.trans ht)
    exact ⟨a.needsFullContext.symm.trans hn, hw, hp.alike a.configs⟩

theorem applyGuards_of_plain {s : AutomatonState} (hs : s.configs.hasGuards = false) (count : Nat) :
    s.applyGuards count = s := by
  rw [applyGuards, hs, Bool.and_false, if_neg Bool.false_ne_true]

/-- Without guards nothing is merged anew before it is decided whether to read on. -/
theorem stopsReading_of_plain {s : ConfigSet} (hs : s.hasGuards = false) (mode : PredictionMode)
    (g : StackGraph) : s.stopsReading mode n g =
      (s.allStop n || Conflict.hasContested s.conflictSubsets && !s.hasStateWithOneAlt, g) := by
  unfold ConfigSet.stopsReading
  by_cases hall : s.allStop n
  · rw [if_pos hall, hall, Bool.true_or]
  · simp [hall, hs]

/-- Classifying a set to which a symbol leads gives a state that offers what the set does. -/
theorem classify_offers {r : ConfigSet} (hplain : r.Plain)
    (hr : Surroundings.Onward n stop V w false h r g) (hV : ∃ i, V i)
    (hstop : w = [] → r.allStop n) (mode : PredictionMode) (count : Nat) :
    (classify mode n count r g).1.Offers n stop V w (classify mode n count r g).2 := by
  unfold classify
  cases hunique : r.findUniqueAlt with
  | some a =>
    dsimp only
    rw [recognising, applyGuards_of_plain (by exact hplain.hasGuards)]
    have heq : ∀ i, V i → i = a := fun i hi => ConfigSet.eq_of_findUniqueAlt hunique (hr.alts i hi)
    exact ⟨rfl, fun _ => ⟨a, rfl, fun i hi => (heq i hi).ge, fun _ => heq⟩, fun hno => by cases hno⟩
  | none =>
    dsimp only
    rw [stopsReading_of_plain hplain.hasGuards]
    dsimp only
    split
    · -- the conflict names every alternative that occurs
      rw [contested, applyGuards_of_plain (by exact hplain.hasGuards)]
      obtain ⟨i₀, hi₀⟩ := hV
      have hmem : ∀ i, V i → i ∈ r.findConflictingAlts.toList := fun i hi =>
        ConfigSet.mem_findConflictingAlts.mpr (hr.alts i hi)
      obtain ⟨m, hm⟩ := AltSet.exists_min? (hmem i₀ hi₀)
      refine ⟨rfl, fun _ => ⟨m, hm, fun i hi => ?_, (fun hno => by cases hno)⟩, fun hno => by cases hno⟩
      exact (AltSet.min?_eq_some_iff.mp hm).2 i (hmem i hi)
    · next hgoesOn =>
      refine ⟨rfl, (fun hyes => by cases hyes), fun _ => ⟨rfl, ?_, hr.offers hunique, hplain, hr.fullContext⟩⟩
      rintro rfl
      rw [hstop rfl, Bool.true_or] at hgoesOn
      exact hgoesOn rfl

end AutomatonState

/-! ## Edges -/

/-- Working out an edge fails only when a closure is too deep. -/
theorem isLimit_of_edgeResult {settings : Settings} {count : Nat} {x : Symbol} {configs : ConfigSet}
    {e : RecognitionError} (he : edgeResult n settings count x configs g = (.error e, h)) : e.IsLimit := by
  unfold edgeResult at he
  rcases hr : (Surroundings.alone n settings).reach true x configs ⟨g, (), 0⟩ with ⟨e' | _ | r, w⟩
  · rw [hr] at he
    cases he
    exact Surroundings.fails_reach _ true x configs hr
  · rw [hr] at he
    cases he
  · rw [hr] at he
    cases he

/-- An edge from configurations that offer some alternatives leads to a state that does. -/
theorem edgeResult_offers (hl : gr.LaidOut plan lazy n) (hc : n.Closing top last stop)
    (hV : ∃ i, V i) (hg : g.Truthful) {settings : Settings} {count : Nat} {x : Symbol}
    {configs : ConfigSet} {o : Option AutomatonState} (hp : configs.Pending n stop V (x :: w) g)
    (hend : x = endOfInput ↔ w = [])
    (he : edgeResult n settings count x configs g = (.ok o, h)) :
    ∃ s, o = some s ∧ s.Offers n stop V w h := by
  have hun : (Surroundings.alone n settings).Unguarded := fun hf => nomatch hf
  have hnet : (Surroundings.alone n settings).network = n := rfl
  have hwork : (⟨g, (), 0⟩ : Workspace Unit).graph.Truthful := hg
  have hreach : ∀ {r w'}, (Surroundings.alone n settings).reach true x configs ⟨g, (), 0⟩ = (.ok r, w') →
      ∃ t, r = some t ∧ Surroundings.Onward n stop V w false g t w'.graph := fun hr =>
    Surroundings.reach_offers hl hc hnet hun hwork hp.offers hp.noContext hend.mp hV hr
  unfold edgeResult at he
  rcases hr : (Surroundings.alone n settings).reach true x configs ⟨g, (), 0⟩ with ⟨e' | _ | r, w'⟩
  · rw [hr] at he
    cases he
  · obtain ⟨t, ht, -⟩ := hreach hr
    cases ht
  · rw [hr] at he
    cases he
    obtain ⟨t, ht, honward⟩ := hreach hr
    cases ht
    refine ⟨_, rfl, AutomatonState.classify_offers ?_ honward hV ?_ _ _⟩
    · exact Surroundings.plain_reach (hnet.symm ▸ hc.unguarded') hp.plain hr
    · intro hw
      rw [hend.mpr hw] at hr
      exact hnet ▸ Surroundings.allStop_of_reach_end hr

/-- A stored edge from configurations that offer some alternatives leads to a state that does, whatever
the settings were when it was stored. -/
theorem EveryEdge.offers (hl : gr.LaidOut plan lazy n) (hc : n.Closing top last stop)
    (hV : ∃ i, V i) {allowed : Settings → Prop} {count : Nat} {x : Symbol} {s : AutomatonState}
    {o : Option AutomatonState} (he : EveryEdge n allowed count g s x o)
    (hp : s.configs.Pending n stop V (x :: w) g) (hend : x = endOfInput ↔ w = []) :
    ∃ t, o = some t ∧ t.Offers n stop V w g := by
  obtain ⟨settings, -, g₀, o₀, g₁, hg₀, -, ha, hres, hsame, -, -⟩ := he
  obtain ⟨t₀, rfl, ht₀⟩ := edgeResult_offers hl hc hV hg₀ (hp.alike ha.symm) hend hres
  cases hsame with
  | some hst => exact ⟨_, rfl, ht₀.alike hst⟩

end AdaptiveLL

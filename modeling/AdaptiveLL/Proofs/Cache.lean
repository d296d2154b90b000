import Mathlib
import AdaptiveLL.Network.Basic
import AdaptiveLL.Proofs.Automaton
import AdaptiveLL.Proofs.StackGraph.Merge

/-! # Caches while they are filled

The automata of a cache belong to the decisions of a network, and stay with them when one of them is
changed.  `Cache.Keeps` says that something holds of the automaton of every decision, in the cache's
truthful graph.  It lasts if it lasts while the graph grows and each change keeps it.
-/
namespace AdaptiveLL
namespace Cache
variable {n : Network}

theorem getElem?_change (c : Cache) (d e : Nat) (f : Automaton → Automaton) :
    (c.change d f).automata[e]? = if d = e then (c.automata[e]?).map f else c.automata[e]? := by
  change (c.automata.modify d f)[e]? = _
  rw [Array.getElem?_modify]

/-- Changing an automaton that is not the cache's changes nothing. -/
theorem automaton_change_cases (c : Cache) (d : Nat) (f : Automaton → Automaton) :
    (c.change d f).automaton d = f (c.automaton d) ∨ (c.change d f).automaton d = c.automaton d := by
  have hget := getElem?_change c d d f
  rw [if_pos rfl] at hget
  unfold automaton
  rw [hget]
  cases c.automata[d]? with
  | none => exact .inr rfl
  | some a => exact .inl rfl

theorem size_automata {c : Cache} (h : c.fits n) : c.automata.size = n.decisions.size := by
  have := congrArg Array.size (of_decide_eq_true h)
  simpa using this

theorem getElem?_automaton {c : Cache} (h : c.fits n) {d : Nat} (hd : d < n.decisions.size) :
    c.automata[d]? = some (c.automaton d) := by
  have hlt : d < c.automata.size := by rwa [size_automata h]
  simp [automaton, hlt]

theorem netState_automaton {c : Cache} (h : c.fits n) {d : Nat} (hd : d < n.decisions.size) :
    n.decisions[d]? = some (c.automaton d).netState := by
  have hm := congrArg (·[d]?) (of_decide_eq_true h)
  simp only [Array.getElem?_map, getElem?_automaton h hd, Option.map_some] at hm
  exact hm.symm

theorem automaton_change {c : Cache} (h : c.fits n) {d : Nat} (hd : d < n.decisions.size)
    (f : Automaton → Automaton) : (c.change d f).automaton d = f (c.automaton d) := by
  have hget := getElem?_change c d d f
  rw [if_pos rfl, getElem?_automaton h hd, Option.map_some] at hget
  rw [automaton, hget, Option.getD_some]

/-- Something holds of the automaton of every decision of a network. -/
structure Keeps (n : Network) (inv : Nat → StackGraph → Automaton → Prop) (c : Cache) : Prop where
  graph : c.graph.Truthful
  fits : c.fits n
  automata : ∀ ⦃d : Nat⦄ ⦃a : Automaton⦄, c.automata[d]? = some a → inv d c.graph a

namespace Keeps
variable {inv : Nat → StackGraph → Automaton → Prop} {c : Cache} (hc : c.Keeps n inv)
include hc

theorem automaton {d : Nat} (hd : d < n.decisions.size) : inv d c.graph (c.automaton d) :=
  hc.automata (getElem?_automaton hc.fits hd)

/-- Letting the graph grow. -/
theorem grow {h : StackGraph} (hh : h.Truthful) (hinv : ∀ d a, inv d c.graph a → inv d h a) :
    Keeps n inv { c with graph := h } where
  graph := hh
  fits := hc.fits
  automata d a ha := hinv d a (hc.automata ha)

/-- Changing the automaton of a decision. -/
theorem change {d : Nat} {f : Automaton → Automaton}
    (hf : ∀ a, c.automata[d]? = some a → (f a).netState = a.netState ∧ inv d c.graph (f a)) :
    (c.change d f).Keeps n inv where
  graph := hc.graph
  fits := by
    refine decide_eq_true (Eq.trans ?_ (of_decide_eq_true hc.fits))
    refine Array.ext_getElem? fun e => ?_
    rw [Array.getElem?_map, Array.getElem?_map, getElem?_change]
    split
    · next hde =>
      subst hde
      cases ha : c.automata[d]? with
      | none => rfl
      | some a => exact congrArg some (hf a ha).1
    · rfl
  automata e a he := by
    rw [getElem?_change] at he
    split at he
    · next hde =>
      subst hde
      obtain ⟨b, hb, rfl⟩ := Option.map_eq_some_iff.mp he
      exact (hf b hb).2
    · exact hc.automata he

/-- Dropping the states of a decision, or of all with the stacks. -/
theorem clear (hinv : ∀ d g a, inv d g (Automaton.clear a)) (d : Option Nat) :
    (c.clear d).Keeps n inv := by
  cases d with
  | some d => exact hc.change fun a _ => ⟨rfl, hinv d _ a⟩
  | none =>
    refine ⟨StackGraph.truthful_empty, ?_, fun d a ha => ?_⟩
    · refine decide_eq_true (Eq.trans ?_ (of_decide_eq_true hc.fits))
      change (c.automata.map Automaton.clear).map Automaton.netState = _
      rw [Array.map_map]
      rfl
    · change (c.automata.map Automaton.clear)[d]? = some a at ha
      rw [Array.getElem?_map, Option.map_eq_some_iff] at ha
      obtain ⟨b, -, rfl⟩ := ha
      exact hinv d _ b

end Keeps

/-- Before anything is stored. -/
theorem keeps_ofNetwork (n : Network) {inv : Nat → StackGraph → Automaton → Prop}
    (hinv : ∀ d g a, inv d g (Automaton.clear a)) : (ofNetwork n).Keeps n inv where
  graph := StackGraph.truthful_empty
  fits := by
    refine decide_eq_true (Array.ext_getElem? fun d => ?_)
    simp only [ofNetwork, Array.getElem?_map, Array.getElem?_mapIdx]
    cases n.decisions[d]? <;> rfl
  automata d a ha := by
    simp only [ofNetwork, Array.getElem?_mapIdx, Option.map_eq_some_iff] at ha
    obtain ⟨i, -, rfl⟩ := ha
    exact hinv d _ { decision := d, netState := i }

end Cache
end AdaptiveLL

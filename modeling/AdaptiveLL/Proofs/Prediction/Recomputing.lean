import Mathlib
import AdaptiveLL.Grammar.Layout
import AdaptiveLL.Proofs.Prediction.History

/-! # Working a stored edge out again

An edge that is stored in the automaton of a decision is what working it out now would give, in the
graph as it is by now and with whatever merges are remembered (`Cache.Driven.recomputes`): nowhere, or
the state with the very same set of configurations, node by node, that recognises the same.

When the edge was worked out the graph was smaller, but its nodes are still there.  Working the edge
out again gives nodes for the same stacks, and a graph has one node for a set of stacks.
-/
namespace AdaptiveLL
open StackGraph (SameStacks Extends)

/-! ## Sets that count as the same -/

namespace StackGraph.SameStacks
variable {g h : StackGraph} {a b : StackRef}

/-- In a graph that has grown from another one, nodes for the same stacks are one node. -/
theorem eq_of_extends (s : SameStacks g h a b) (hg : g.Truthful) (hh : h.Truthful)
    (e : Extends g h) : a = b :=
  hh.eq_of_stackSet_eq (e.knows s.left) s.right
    ((e.stackSet hg.toSound hh.toSound s.left).trans s.same)

end StackGraph.SameStacks

namespace ConfigSet
variable {g h : StackGraph} {s t u : ConfigSet}

/-- Alike sets of a graph and of one that has grown from it count as the same. -/
theorem Alike.same (a : Alike true g h s t) (hg : g.Truthful) (hh : h.Truthful)
    (e : Extends g h) : s.same t := by
  have hconfigs : s.toList.map Config.identity = t.toList.map Config.identity := by
    rw [← List.forall₂_eq_eq_eq, List.forall₂_map_left_iff, List.forall₂_map_right_iff]
    refine a.configs.imp fun c d hcd => ?_
    have hstack := hcd.stack.eq_of_extends hg hh e
    simp only [Config.identity, hcd.state, hcd.alt, hstack, hcd.guard, hcd.commands, hcd.passedLazy]
  simp only [ConfigSet.same, Bool.and_eq_true, decide_eq_true_eq, sameConfigs]
  exact ⟨⟨⟨⟨⟨a.fullContext, a.hasGuards⟩, a.dips rfl⟩, a.uniqueAlt⟩, a.conflictingAlts⟩, hconfigs⟩

end ConfigSet

/-! ## Histories with single steps -/

namespace Predictor
variable {n : Network} {allowed : Settings → Prop} {p : Predictor}

theorem automatonState_none {d : Nat} {source : Target}
    (h : (p.cache.automaton d).state? source = none) :
    ∃ e, automatonState d source p = (.error e, p) := by
  unfold automatonState
  rw [Run.bind_apply, Run.get_apply]
  cases source <;> simp only [h] <;> exact ⟨_, rfl⟩

/-- Following an edge keeps the cache faithful, also from a target that names no state. -/
theorem step_sane (h : p.Sane n allowed) (d : Nat) (source : Target) (x : Symbol) :
    (step d source x p).2.Sane n allowed := by
  cases hs : (p.cache.automaton d).state? source with
  | some s =>
    have hd : d < n.decisions.size := by
      by_contra hd
      have hnone : p.cache.automata[d]? = none :=
        Array.getElem?_eq_none (by rw [Cache.size_automata h.cache.fits]; omega)
      rw [Cache.automaton, hnone] at hs
      cases source <;> simp [Automaton.state?] at hs
    have hnames : Automaton.Names (p.cache.automaton d) source (some s.bare) := by
      cases source with
      | error => cases hs
      | state i => exact .state hs
    have hstep := step_ends h hd hnames x
    generalize step d source x p = r at hstep ⊢
    obtain ⟨e | t, p'⟩ := r
    · exact hstep.1.sane
    · exact hstep.1.sane
  | none =>
    have hedge : (p.cache.automaton d).edge? source x = none := by
      rw [Automaton.edge?, hs, Option.bind_none]
    have hcount := Advances.count (d := d) h fun c => { c with misses := c.misses + 1 }
    obtain ⟨e, he⟩ := automatonState_none
      (p := { p with counters := { p.counters with misses := p.counters.misses + 1 } }) hs
    unfold step
    rw [Run.bind_apply, Run.get_apply]
    simp only [hedge, Run.bind_apply, count_apply, computeEdge, he]
    exact hcount.sane

end Predictor

/-- The caches that a predictor for a network leaves behind under fixed settings, by any sequence of
predictions, of single steps along an automaton, and of clearing.  Each prediction may be about any
decision and have its own tokens, caller's stack and author. -/
inductive Cache.Driven (n : Network) (settings : Settings) : Cache → Prop
  /-- Nothing was done yet. -/
  | fresh : Driven n settings (Cache.ofNetwork n)
  /-- After a prediction, whatever its result was. -/
  | predict {σ : Type} {s : Session σ} (hooks : ParserHooks σ) (outer : List Invocation)
      (decision : Nat) : s.predictor.network = n → s.predictor.settings = settings →
      Driven n settings s.predictor.cache →
      Driven n settings (Predictor.predict hooks outer decision s).2.predictor.cache
  /-- After an edge was followed or worked out. -/
  | step {p : Predictor} (decision : Nat) (source : Target) (x : Symbol) : p.network = n →
      p.settings = settings → Driven n settings p.cache →
      Driven n settings (Predictor.step decision source x p).2.cache
  /-- After a decision's automaton was cleared, or all of them. -/
  | clear {c : Cache} (decision : Option Nat) : Driven n settings c →
      Driven n settings (c.clear decision)

theorem Cache.Driven.faithful {n : Network} {settings : Settings} {c : Cache}
    (h : c.Driven n settings) : c.Faithful n (· = settings) := by
  induction h with
  | fresh => exact faithful_ofNetwork n _
  | predict hooks outer decision hn hs _ ih =>
    exact (Predictor.predict_sane hooks outer decision ⟨hn, hs, ih⟩).cache
  | step decision source x hn hs _ ih =>
    exact (Predictor.step_sane ⟨hn, hs, ih⟩ decision source x).cache
  | clear decision _ ih => exact ih.clear decision

/-! ## Recomputing -/

/-- Working out the edge of a state for a symbol gives what `o` says: no configuration, or a state
with the same set of configurations that recognises the same. -/
def Recomputes (n : Network) (settings : Settings) (count : Nat) (g : StackGraph)
    (s : AutomatonState) (x : Symbol) : Option AutomatonState → Prop
  | none => ∃ w, (Surroundings.alone n settings).reach true x s.configs ⟨g, (), 0⟩ = (.ok none, w)
  | some e => ∃ reached w,
      (Surroundings.alone n settings).reach true x s.configs ⟨g, (), 0⟩ = (.ok (some reached), w) ∧
        let made := (AutomatonState.classify settings.mode n count reached w.graph).1
        made.configs.same e.configs ∧ made.isAccept = e.isAccept ∧
          made.prediction = e.prediction ∧ made.needsFullContext = e.needsFullContext ∧
          made.guardedAlts = e.guardedAlts

/-- What an edge that was worked out leads to, in terms of reaching and classifying. -/
theorem edgeResult_cases {n : Network} {settings : Settings} {count : Nat} {x : Symbol}
    {configs : ConfigSet} {g g' : StackGraph} {o : Option AutomatonState}
    (h : edgeResult n settings count x configs g = (.ok o, g')) :
    (o = none ∧ ∃ w,
      (Surroundings.alone n settings).reach true x configs ⟨g, (), 0⟩ = (.ok none, w)) ∨
    ∃ reached w,
      (Surroundings.alone n settings).reach true x configs ⟨g, (), 0⟩ = (.ok (some reached), w) ∧
        o = some (AutomatonState.classify settings.mode n count reached w.graph).1 := by
  unfold edgeResult at h
  rcases hr : (Surroundings.alone n settings).reach true x configs ⟨g, (), 0⟩
    with ⟨e | _ | reached, w⟩
  · rw [hr] at h
    cases h
  · rw [hr] at h
    cases h
    exact .inl ⟨rfl, w, rfl⟩
  · rw [hr] at h
    cases h
    exact .inr ⟨reached, w, rfl, rfl⟩

/-- An edge that was worked out from the very configurations of a state, in a graph from which the
present one has grown, is worked out again. -/
theorem EveryEdge.worked_again {n : Network} {settings : Settings} {count : Nat} {g : StackGraph}
    {s : AutomatonState} {x : Symbol} {o : Option AutomatonState} (hg : g.Truthful)
    (h : EveryEdge n (· = settings) count g s x o) : Recomputes n settings count g s x o := by
  obtain ⟨_, hset, g₀, o₀, g₁, hg₀, hg₁, hconfigs, hrun, hsame, hgrows, hsets⟩ := h
  obtain rfl := hset.symm
  have hagree := edgeResult_agree n settings count x hg₀ hg hconfigs
  rw [hrun] at hagree
  rcases hnow : edgeResult n settings count x s.configs g with ⟨e | o', g'⟩
  · rw [hnow] at hagree
    cases hagree
  · rw [hnow] at hagree
    cases hagree with
    | ok hrel =>
      obtain ⟨hpaired, hmade, -, -⟩ := hrel
      rcases edgeResult_cases hnow with ⟨rfl, w, hreach⟩ | ⟨reached, w, hreach, rfl⟩
      · cases hmade
        cases hsets
        exact ⟨w, hreach⟩
      · cases hmade with
        | some hmade =>
          cases hsets with
          | some hsets =>
            cases hsame with
            | some hsame =>
              have hagain := hmade.configs.same hg₁ hpaired.right (hgrows.trans hpaired.rightGrows)
              refine ⟨reached, w, hreach,
                ConfigSet.same_trans (ConfigSet.same_symm hagain) hsets, ?_, ?_, ?_, ?_⟩
              · exact hmade.isAccept.symm.trans hsame.isAccept
              · exact hmade.prediction.symm.trans hsame.prediction
              · exact hmade.needsFullContext.symm.trans hsame.needsFullContext
              · exact hmade.guardedAlts.symm.trans hsame.guardedAlts

/-- **Every stored edge is what recomputing it gives, and every stack that a state refers to is in the
graph.**  This holds of each decision at any time, however predictions, single steps and clearing
have followed one another under the same settings. -/
theorem Cache.Driven.recomputes {n : Network} {settings : Settings} {c : Cache}
    (h : c.Driven n settings) {d i : Nat} {a : Automaton} {s : AutomatonState}
    (ha : c.automata[d]? = some a) (hs : a.states[i]? = some s) :
    (∀ k ∈ s.configs.toList, c.graph.knows k.stack) ∧
      ∀ (x : Symbol) (t : Target), s.edge? x = some t →
        (t = .error ∨ ∃ e, a.state? t = some e) ∧
          Recomputes n settings (n.alternatives d) c.graph s x (a.state? t) := by
  have hfaithful := h.faithful
  have hfilled := hfaithful.automata ha
  refine ⟨(hfilled.states hs).2, fun x t ht => ?_⟩
  obtain ⟨o, hn, hedge⟩ := hfilled.edges hs ht
  have hagain := hedge.worked_again hfaithful.graph
  cases hn with
  | error => exact ⟨.inl rfl, hagain⟩
  | state he =>
    have hstate : a.state? (.state _) = some _ := he
    rw [hstate]
    exact ⟨.inr ⟨_, rfl⟩, hagain⟩

/-- The network of a rule that is one of two tokens. -/
def eitherNetwork : Network :=
  ((Grammar.parser 2).rule "either" (.alt [.symbol 1, .symbol 2])).layout.toOption.getD
    { kind := .parser, maxSymbol := 2 }

/-- A predictor for one of two tokens, after a prediction for the first. -/
def warmEither : Predictor :=
  (Predictor.predict ParserHooks.none [] 0
    ⟨Predictor.ofNetwork eitherNetwork {}, TokenStream.ofTypes [1], ()⟩).2.predictor

/-- Its cache, after a step on the second. -/
def eitherCache : Cache := (Predictor.step 0 (.state 0) 2 warmEither).2.cache

theorem Cache.Driven.recomputes_either :
    eitherCache.Driven eitherNetwork {} ∧
      ∃ a s, eitherCache.automata[0]? = some a ∧ a.states[0]? = some s ∧
        (s.edge? 1, s.edge? 2) = (some (.state 1), some (.state 2)) ∧
        (∀ k ∈ s.configs.toList, eitherCache.graph.knows k.stack) ∧
        ∀ (x : Symbol) (t : Target), s.edge? x = some t →
          (t = .error ∨ ∃ e, a.state? t = some e) ∧
            Recomputes eitherNetwork {} (eitherNetwork.alternatives 0) eitherCache.graph s x
              (a.state? t) := by
  have hwarm : warmEither.Sane eitherNetwork (· = {}) :=
    Predictor.predict_sane ParserHooks.none [] 0 ⟨rfl, rfl, Cache.faithful_ofNetwork _ _⟩
  have hdriven : eitherCache.Driven eitherNetwork {} :=
    .step 0 (.state 0) 2 hwarm.network hwarm.settings
      (.predict ParserHooks.none [] 0 rfl rfl .fresh)
  obtain ⟨hd, hedges⟩ : 0 < eitherNetwork.decisions.size ∧
      ((eitherCache.automaton 0).states[0]?).map (fun s => (s.edge? 1, s.edge? 2)) =
        some (some (.state 1), some (.state 2)) := by
    cbv
  have ha : eitherCache.automata[0]? = some (eitherCache.automaton 0) :=
    Cache.getElem?_automaton hdriven.faithful.fits hd
  obtain ⟨s, hs, he⟩ := Option.map_eq_some_iff.mp hedges
  exact ⟨hdriven, _, s, ha, hs, he, hdriven.recomputes ha hs⟩

end AdaptiveLL

import Mathlib
import AdaptiveLL.Prediction.Predictor
import AdaptiveLL.Proofs.Cache
import AdaptiveLL.Proofs.Config
import AdaptiveLL.Proofs.Prediction.Verdict

/-! # What is stored could be worked out again

A cache is faithful if each thing that it stores is what working it out anew would give: every
state recognises what its configurations say, the state to begin in has the configurations with
which the decision starts, and each edge leads where its symbol does.  "Anew" means in some
truthful graph, from configurations that are alike and under settings that were allowed; how often
a path returned past its rule is the one thing that may differ.

Every step of a prediction keeps the cache faithful (`Predictor.step_ends`), and so a stored edge and
one that is worked out now say the same.
-/
namespace AdaptiveLL
open StackGraph (SameStacks Paired)

/-- What closures depend on while nobody is asked and nothing is known of the caller. -/
def Surroundings.alone (n : Network) (settings : Settings) : Surroundings Unit :=
  { network := n, fullContext := false, maxDepth := settings.maxDepth }

theorem Surroundings.alone_alike (n : Network) (settings : Settings) :
    (alone n settings).Alike (fun _ _ => True) (alone n settings) :=
  ⟨rfl, rfl, rfl, rfl, fun h => nomatch h⟩

/-- The number of alternatives of a decision. -/
def Network.alternatives (n : Network) (decision : Nat) : Nat :=
  (n.decisionState decision).transitions.length

/-- What an edge leads to when it is worked out: nowhere, or to a state. -/
def edgeResult (n : Network) (settings : Settings) (count : Nat) (x : Symbol) (configs : ConfigSet)
    (g : StackGraph) : Ending StackGraph (Option AutomatonState) :=
  match (Surroundings.alone n settings).reach true x configs ⟨g, (), 0⟩ with
  | (.error e, w) => (.error e, w.graph)
  | (.ok none, w) => (.ok none, w.graph)
  | (.ok (some reached), w) =>
    let made := AutomatonState.classify settings.mode n count reached w.graph
    (.ok (some made.1), made.2)

/-- What corresponds when an edge is worked out twice. -/
def SameStates (strict : Bool) (g h : StackGraph) (o o' : Option AutomatonState) : Prop :=
  Option.Rel (AutomatonState.Alike strict g h) o o'

/-- Whether there is a state on both sides or on neither, and whether their configurations count as
the same, node by node. -/
def SameSets (o o' : Option AutomatonState) : Prop :=
  Option.Rel (fun s t => s.configs.same t.configs) o o'

/-- The states of an edge that is worked out. -/
def Made (count : Nat) (g : StackGraph) (o : Option AutomatonState) : Prop :=
  ∀ s, o = some s → s.Classified count ∧ s.edges = [] ∧ ∀ c ∈ s.configs.toList, g.knows c.stack

/-- Configurations of one graph that differ in their reach at most. -/
theorem Config.alike_of_identity {g : StackGraph} {c d : Config} (h : c.identity = d.identity)
    (hc : g.knows c.stack) : Config.Alike false g g c d := by
  obtain ⟨state, alt, stack, guard, reach, commands, lazy⟩ := c
  simp only [identity, Config.mk.injEq] at h
  obtain ⟨h1, h2, h3, h4, -, h6, h7⟩ := h
  exact ⟨h1, h2, h4, h6, h7, (fun hs => absurd hs Bool.false_ne_true), h3 ▸ SameStacks.refl hc⟩

namespace ConfigSet

theorem Alike.refl {strict : Bool} {g : StackGraph} {s : ConfigSet}
    (h : ∀ c ∈ s.toList, g.knows c.stack) : Alike strict g g s s :=
  ⟨List.forall₂_same.mpr fun c hc => .refl (h c hc), rfl, rfl, rfl, rfl, fun _ => rfl⟩

theorem Alike.known {strict : Bool} {g h : StackGraph} {s t : ConfigSet} (a : Alike strict g h s t) :
    ∀ c ∈ s.toList, g.knows c.stack := by
  intro c hc
  obtain ⟨i, hi, rfl⟩ := List.mem_iff_getElem.mp hc
  exact ((List.forall₂_iff_get.mp a.configs).2 i hi (a.configs.length_eq ▸ hi)).stack.left

theorem Alike.trans {strict : Bool} {g h k : StackGraph} {s t u : ConfigSet}
    (a : Alike strict g h s t) (b : Alike strict h k t u) : Alike strict g k s u where
  configs := by
    refine List.forall₂_iff_get.mpr ⟨a.configs.length_eq.trans b.configs.length_eq, fun i hi hj => ?_⟩
    have hm := a.configs.length_eq ▸ hi
    exact ((List.forall₂_iff_get.mp a.configs).2 i hi hm).trans
      ((List.forall₂_iff_get.mp b.configs).2 i hm hj)
  fullContext := a.fullContext.trans b.fullContext
  hasGuards := a.hasGuards.trans b.hasGuards
  uniqueAlt := a.uniqueAlt.trans b.uniqueAlt
  conflictingAlts := a.conflictingAlts.trans b.conflictingAlts
  dips hs := (a.dips hs).trans (b.dips hs)

/-- Sets of one graph that count as the same differ in their reach at most. -/
theorem alike_of_same {g : StackGraph} {s t : ConfigSet} (h : s.same t)
    (hs : ∀ c ∈ s.toList, g.knows c.stack) : Alike false g g s t := by
  have hcontent := same_iff.mp h
  simp only [content, Prod.mk.injEq] at hcontent
  obtain ⟨h1, h2, -, h4, h5, h6⟩ := hcontent
  refine ⟨?_, h1, h2, h4, h5, fun hs => absurd hs Bool.false_ne_true⟩
  rw [← List.forall₂_eq_eq_eq, List.forall₂_map_left_iff, List.forall₂_map_right_iff] at h6
  refine List.forall₂_iff_get.mpr ⟨h6.length_eq, fun i hi hj => ?_⟩
  exact Config.alike_of_identity ((List.forall₂_iff_get.mp h6).2 i hi hj)
    (hs _ (List.get_mem s.toList ⟨i, hi⟩))

end ConfigSet

/-- Classifying reached configurations makes a state of the automaton. -/
theorem made_classify {g : StackGraph} (hg : g.Truthful) {s : ConfigSet} (ho : s.Open)
    (hne : s.isEmpty = false) (hk : ∀ c ∈ s.toList, g.knows c.stack) (mode : PredictionMode)
    (n : Network) (count : Nat) :
    let made := AutomatonState.classify mode n count s g
    Made count made.2 (some made.1) := by
  intro made t ht
  cases ht
  have hc := AutomatonState.classified_classify ho hne mode n count g
  refine ⟨hc, ?_, ?_⟩
  · rw [hc.eq_verdict, AutomatonState.edges_verdict]
  · exact (AutomatonState.classify_alike hg hg (ConfigSet.Alike.refl hk) mode n count
      : AutomatonState.Alike true _ _ _ _ ∧ _).1.configs.known

/-- An edge that is worked out twice, from alike configurations, leads to alike states. -/
theorem edgeResult_agree {strict : Bool} (n : Network) (settings : Settings) (count : Nat)
    (x : Symbol) {g h : StackGraph} (hg : g.Truthful) (hh : h.Truthful) {s t : ConfigSet}
    (a : ConfigSet.Alike strict g h s t) :
    Matches (fun o g' o' h' => Paired g h g' h' ∧ SameStates strict g' h' o o' ∧ Made count g' o ∧
      Made count h' o') (Paired g h) (edgeResult n settings count x s g)
      (edgeResult n settings count x t h) := by
  have hreach := Surroundings.reach_agree (Surroundings.alone_alike n settings)
    (w := ⟨g, (), 0⟩) (v := ⟨h, (), 0⟩) ⟨hg, hh, trivial⟩ a true x
  unfold edgeResult
  rcases hr : (Surroundings.alone n settings).reach true x s ⟨g, (), 0⟩ with ⟨r, w⟩
  rcases hr' : (Surroundings.alone n settings).reach true x t ⟨h, (), 0⟩ with ⟨r', v⟩
  rw [hr, hr'] at hreach
  cases hreach with
  | error e hl => exact .error e hl.paired
  | ok hrel =>
    obtain ⟨hl, hrel⟩ := hrel
    cases hrel with
    | none => exact .ok ⟨hl.paired, .none, (fun _ hs => nomatch hs), fun _ hs => nomatch hs⟩
    | some hst =>
      obtain ⟨hc, hp⟩ := AutomatonState.classify_alike hl.related.left hl.related.right hst.1
        settings.mode n count
      refine .ok ⟨hl.paired.trans hp, .some hc, ?_, ?_⟩
      · exact made_classify hl.related.left hst.2.1 (Surroundings.isEmpty_of_reach hr)
          hst.1.known settings.mode n count
      · exact made_classify hl.related.right hst.2.2 (Surroundings.isEmpty_of_reach hr')
          hst.1.symm.known settings.mode n count

/-! ## Faithful caches -/

theorem AutomatonState.Alike.mono {strict : Bool} {g h g' h' : StackGraph} {s t : AutomatonState}
    (hg : g.Truthful) (hh : h.Truthful) (p : Paired g h g' h') (a : Alike strict g h s t) :
    Alike strict g' h' s t :=
  { a with configs := a.configs.mono hg hh p }

section
variable (n : Network) (allowed : Settings → Prop)

/-- A state recognises what its configurations say, and their stacks are in the graph. -/
def EveryState (count : Nat) (g : StackGraph) (s : AutomatonState) : Prop :=
  s.Classified count ∧ ∀ c ∈ s.configs.toList, g.knows c.stack

/-- A state has the configurations with which the alternatives of a network's state begin. -/
def FirstState (netState : Nat) (g : StackGraph) (s : AutomatonState) : Prop :=
  ∃ settings, allowed settings ∧ ∃ (g₀ : StackGraph) (configs : ConfigSet) (w : Workspace Unit),
    g₀.Truthful ∧ w.graph.Truthful ∧ configs.Open ∧
      (Surroundings.alone n settings).startConfigs netState [] ⟨g₀, (), 0⟩ = (.ok configs, w) ∧
      ConfigSet.Alike false w.graph g configs s.configs

/-- A symbol leads from a state to what working out the edge gave when the graph was smaller: to a
state with the very same set of configurations. -/
def EveryEdge (count : Nat) (g : StackGraph) (s : AutomatonState) (x : Symbol)
    (o : Option AutomatonState) : Prop :=
  ∃ settings, allowed settings ∧ ∃ (g₀ : StackGraph) (o₀ : Option AutomatonState)
    (g₁ : StackGraph), g₀.Truthful ∧ g₁.Truthful ∧
      ConfigSet.Alike true g₀ g s.configs s.configs ∧
      edgeResult n settings count x s.configs g₀ = (.ok o₀, g₁) ∧ SameStates false g₁ g o₀ o ∧
      StackGraph.Extends g₁ g ∧ SameSets o₀ o

/-- The automaton of a decision stores only what could be worked out again. -/
def Automaton.Faithful (decision : Nat) (g : StackGraph) (a : Automaton) : Prop :=
  a.Filled (EveryState (n.alternatives decision) g) (FirstState n allowed a.netState g)
    (EveryEdge n allowed (n.alternatives decision) g)

/-- A cache stores only what could be worked out again. -/
structure Cache.Faithful (c : Cache) : Prop where
  graph : c.graph.Truthful
  fits : c.fits n
  automata : ∀ ⦃d : Nat⦄ ⦃a : Automaton⦄, c.automata[d]? = some a → a.Faithful n allowed d c.graph

variable {n allowed} {g h : StackGraph}

/-- What is stored stays right while the graph grows. -/
theorem Automaton.Faithful.mono {decision : Nat} {a : Automaton} (hg : g.Truthful)
    (hh : h.Truthful) (e : StackGraph.Extends g h) (hf : a.Faithful n allowed decision g) :
    a.Faithful n allowed decision h := by
  have hpair : ∀ {k : StackGraph}, k.Truthful → Paired k g k h :=
    fun hk => ⟨hk, hh, StackGraph.Extends.refl _, e⟩
  refine Filled.imp hf (fun s hs => ⟨hs.1, fun c hc => e.knows (hs.2 c hc)⟩) ?_ ?_
  · rintro s ⟨settings, hall, g₀, configs, w, h₀, hw, ho, hrun, ha⟩
    exact ⟨settings, hall, g₀, configs, w, h₀, hw, ho, hrun, ha.mono hw hg (hpair hw)⟩
  · rintro s x o - - ⟨settings, hall, g₀, o₀, g₁, h₀, h₁, ha, hrun, hs, hgrows, hsets⟩
    refine ⟨settings, hall, g₀, o₀, g₁, h₀, h₁, ha.mono h₀ hg (hpair h₀), hrun, ?_,
      hgrows.trans e, hsets⟩
    cases hs with
    | none => exact .none
    | some hs => exact .some (hs.mono h₁ hg (hpair h₁))

namespace Cache

/-- A faithful cache keeps that its automata are. -/
theorem faithful_iff_keeps {c : Cache} :
    c.Faithful n allowed ↔ c.Keeps n fun d g a => a.Faithful n allowed d g :=
  ⟨fun h => ⟨h.graph, h.fits, h.automata⟩, fun h => ⟨h.graph, h.fits, h.automata⟩⟩

namespace Faithful
variable {c : Cache} (hc : c.Faithful n allowed)
include hc

theorem keeps : c.Keeps n fun d g a => a.Faithful n allowed d g :=
  faithful_iff_keeps.mp hc

theorem automaton {d : Nat} (hd : d < n.decisions.size) :
    (c.automaton d).Faithful n allowed d c.graph :=
  hc.keeps.automaton hd

/-- Letting the graph grow. -/
theorem grow {h : StackGraph} (hh : h.Truthful) (e : StackGraph.Extends c.graph h) :
    Faithful n allowed { c with graph := h } :=
  faithful_iff_keeps.mpr (hc.keeps.grow hh fun _ _ hf => hf.mono hc.graph hh e)

/-- Changing the automaton of a decision in a way that keeps it faithful. -/
theorem change {d : Nat} {f : Automaton → Automaton}
    (hf : ∀ a, c.automata[d]? = some a → (f a).netState = a.netState ∧
      (f a).Faithful n allowed d c.graph) : (c.change d f).Faithful n allowed :=
  faithful_iff_keeps.mpr (hc.keeps.change hf)

/-- Dropping the states of a decision, or of all with the stacks. -/
theorem clear (d : Option Nat) : (c.clear d).Faithful n allowed :=
  faithful_iff_keeps.mpr (hc.keeps.clear (fun _ _ a => Automaton.Filled.clear a) d)

end Faithful

/-- Nothing is stored before the first prediction. -/
theorem faithful_ofNetwork (n : Network) (allowed : Settings → Prop) :
    (ofNetwork n).Faithful n allowed :=
  faithful_iff_keeps.mpr (keeps_ofNetwork n fun _ _ a => Automaton.Filled.clear a)

end Cache
end

end AdaptiveLL

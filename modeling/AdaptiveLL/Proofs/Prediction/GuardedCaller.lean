import Mathlib
import AdaptiveLL.Proofs.Prediction.Granted
import AdaptiveLL.Proofs.Prediction.Idempotent
import AdaptiveLL.Proofs.Prediction.LowestViable

/-! # Asking the caller's stack where there are guards

Over the caller's stack guards are decided where the configurations begin, and then taken for granted.  So what
the run does is what it does in the network without guards, and the first alternative is chosen if its guards let
a machine through to where it can read the rest of the input (`Predictor.overCaller_first`).
-/
namespace AdaptiveLL
open Relation (ReflTransGen)

namespace Network
variable {n : Network} {endIsFree : Bool} {s t : Spot} {top : Option Nat} {q : Nat} {stack : List Nat}

/-- Drifting takes no notice of guards. -/
theorem drifts_unguarded_iff : n.unguarded.Drifts endIsFree s t ↔ n.Drifts endIsFree s t := by
  have hdrifts : ∀ t : Transition, t.unguarded.drifts endIsFree = t.drifts endIsFree := fun t => by
    rw [Transition.drifts, Transition.drifts, Transition.isFree_unguarded, Transition.consumes_unguarded]
  have honto : ∀ (t : Transition) s, t.unguarded.onto s = t.onto s := fun t s => by cases t <;> rfl
  constructor
  · intro h
    cases h with
    | along hq ht hd =>
      rw [ways_unguarded] at ht
      obtain ⟨u, hu, rfl⟩ := List.mem_map.mp ht
      rw [isStop_unguarded] at hq
      rw [hdrifts] at hd
      rw [Transition.target_unguarded, honto]
      exact .along hq hu hd
    | pop hq =>
      rw [isStop_unguarded] at hq
      exact .pop hq
  · intro h
    cases h with
    | @along q stack u hq hu hd =>
      rw [← Transition.target_unguarded, ← honto]
      refine .along (by rwa [isStop_unguarded]) ?_ (by rwa [hdrifts])
      rw [ways_unguarded]
      exact List.mem_map_of_mem hu
    | pop hq => exact .pop (by rwa [isStop_unguarded])

theorem rtc_drifts_unguarded_iff :
    ReflTransGen (n.unguarded.Drifts endIsFree) s t ↔ ReflTransGen (n.Drifts endIsFree) s t :=
  ⟨ReflTransGen.mono (fun _ _ => drifts_unguarded_iff.mp) _ _,
    ReflTransGen.mono (fun _ _ => drifts_unguarded_iff.mpr) _ _⟩

/-- Chains of calls take no notice of guards. -/
theorem chained_unguarded_iff : n.unguarded.Chained top q stack ↔ n.Chained top q stack := by
  have hin : ∀ rule q, n.unguarded.InRule rule q ↔ n.InRule rule q := fun rule q => by
    rw [InRule, InRule, state_unguarded]
  induction stack generalizing q with
  | nil =>
    unfold Chained
    simp only [hin]
  | cons f stack ih =>
    unfold Chained
    simp only [hin, ih, call_mem_ways_unguarded, state_unguarded]

end Network

variable {gr : Grammar} {plan : Plan} {lazy : Prop} {n : Network} {top last stop : Nat} {σ : Type}

/-- The alternatives that a set has at places where the machine without guards can read the rest of the input. -/
def ConfigSet.Ready (n : Network) (stop : Nat) (w : List Symbol) (g : StackGraph) (s : ConfigSet) (alt : Nat) :
    Prop :=
  ∃ u, s.Covers g alt u ∧ n.unguarded.Poised stop u w

namespace Surroundings
variable {env : Surroundings σ} {ws ws' : Workspace σ}

theorem collects_granted_iff {u : Spot} : env.granted.Collects u ↔ env.Collects u := by
  have hstate : (env.granted.network.state u.state).freeOnly = (env.network.state u.state).freeOnly := by
    rw [granted, Network.state_unguarded]
  have hstop : env.granted.network.isStop u.state = env.network.isStop u.state := env.network.isStop_unguarded _
  constructor
  · rintro ⟨h₁, h₂⟩
    rw [hstop] at h₁ h₂
    rw [hstate] at h₂
    exact ⟨h₁, h₂⟩
  · rintro ⟨h₁, h₂⟩
    refine ⟨?_, ?_⟩
    · rwa [hstop]
    · rwa [hstop, hstate]

/-- Where a closure collects, the machine does not drift on. -/
theorem eq_of_collects (hl : gr.LaidOut plan lazy n) (hn : env.network = n) {u v : Spot} (hu : env.Collects u)
    (hstop : ¬ n.isStop u.state) (hd : ReflTransGen (n.Drifts false) u v) : v = u := by
  subst hn
  have hconsuming := hl.unmixed.consuming (hl.freeOnly_eq _) (hu.consuming fun hf => hstop hf.2)
  rcases ReflTransGen.cases_head hd with rfl | ⟨x, hx, -⟩
  · rfl
  · cases hx with
    | along _ ht hdrifts =>
      rw [Transition.drifts, Bool.false_and, Bool.or_false, hconsuming _ ht] at hdrifts
      cases hdrifts
    | pop hq => exact absurd hq hstop

/-- The configurations with which a decision begins over the caller's stack, once guards were decided. -/
theorem startConfigs_weighs_granted (hl : gr.LaidOut plan lazy n) (hlay : gr.layout = .ok n)
    (hc : n.unguarded.Closing top last stop) (hn : env.network = n) (hf : env.fullContext = true)
    (hend : env.endIsFree = false) (hw : ws.graph.Truthful) {q : Nat} (hq : q ∈ n.decisions.toList) (hlast : q ≠ last)
    {outer : List Invocation} (hcalls : n.Calls top outer (n.state q).rule)
    (hchain : n.Chained (some top) q (n.returnStates outer)) {w : List Symbol} (hmore : w ≠ []) {out : ConfigSet}
    (h : env.startConfigs q outer ws = (.ok out, ws')) :
    out.Weighs n.unguarded top last stop (out.Ready n stop w ws'.graph) w ws'.graph := by
  have hrun : env.startConfigs q (if env.fullContext then outer else []) ws = (.ok out, ws') := by
    rwa [if_pos hf]
  obtain ⟨g, cs, hclosed, -, honly⟩ := startConfigs_closed hl hn hw hcalls hrun
  subst hn
  -- every spot is one to which the machine drifts from an alternative
  have hplace : ∀ alt s, out.Covers ws'.graph alt s → env.Collects s ∧ s.Clear last stop ∧
      env.network.unguarded.Chained (some top) s.state s.stack ∧ ¬ env.network.unguarded.isStop s.state := by
    intro alt s hs
    obtain ⟨hcollects, s₀, hs₀, hd⟩ := hclosed.sound hf alt s hs
    obtain ⟨t, ht, rfl⟩ := honly hf alt s₀ hs₀
    rw [Surroundings.Drifts, hend, ← Network.rtc_drifts_unguarded_iff] at hd
    have hmem : t ∈ env.network.ways q := List.mem_of_getElem? (State.alternative?_eq_some ht).2.2
    obtain ⟨z, rfl⟩ := (hl.epsilon_of_decision hlay hq).2 t hmem
    have hmem' : Transition.epsilon z ∈ env.network.unguarded.ways q := by
      rw [Network.ways_unguarded]
      exact List.mem_map_of_mem hmem
    have hbelow := Network.chained_unguarded_iff.mpr (hl.chained_of_alternative hlay hq hchain ht)
    have htarget : z ≠ last ∧ z ≠ stop :=
      ⟨fun he => (by cases hc.enters_last hmem' he), fun he => hlast (hc.enters_stop hmem' he)⟩
    have hclear := hc.clear_of_drifts hd (hc.clear_of_chained htarget hbelow)
    have hchain' := hl.unguarded.chained_of_drifts hd hbelow
    refine ⟨hcollects, hclear, hchain', hc.not_isStop_of_clear hclear hchain' fun hstop => ?_⟩
    rw [Network.isStop_unguarded] at hstop
    exact hcollects.stop hstop
  refine ⟨⟨hclosed.sits.known, ?_⟩, hclosed.fullContext.trans hf, fun alt s hs hfin => ?_,
    fun _ alt s hs => (hplace alt s hs).2, fun hnil => absurd hnil hmore⟩
  · rintro i ⟨s, hs, hpoised⟩
    exact ⟨s, hs, ⟨_, (hplace i s hs).2.2.1⟩, hpoised⟩
  · obtain ⟨hcollects, -, -, hstop⟩ := hplace alt s hs
    obtain ⟨t, hd, hp⟩ := hfin.exists_poised false
    rw [Network.rtc_drifts_unguarded_iff] at hd
    rw [Network.isStop_unguarded] at hstop
    obtain rfl := eq_of_collects hl rfl hcollects hstop hd
    exact ⟨t, hs, hp⟩

end Surroundings

namespace Predictor
variable {allowed : Settings → Prop} {s : Session σ}

/-- The caller's stack leads to the first alternative if its guards let a machine through to where it can read the
rest of the input. -/
theorem overCaller_first (hl : gr.LaidOut plan lazy n) (hlay : gr.layout = .ok n) (hkind : gr.kind = .parser)
    (hc : n.unguarded.Closing top last stop) (q : Question σ) {qs : Nat} (hqs : n.decisions[q.decision]? = some qs)
    (hlast : qs ≠ last) (hcalls : n.Calls top q.outer (n.state qs).rule) (h : s.predictor.Sane n allowed)
    (hplaced : (s.stream.seek q.start).Placed) {t : Transition} (ht : (n.state qs).alternative? 1 = some t) {u : Spot}
    (hglides : ∀ env : Surroundings σ, env.network = n → env.endIsFree = false →
      env.ask = some (fun g => g.eval q.hooks q.outer) → ReflTransGen env.Glides ⟨t.target, n.returnStates q.outer⟩ u)
    (hpoised : n.unguarded.Poised stop u (s.stream.seek q.start).remaining) (steps : Nat) :
    Run.Limited (fun m _ => m = 1) (overCaller q steps s) := by
  have hmem : qs ∈ n.decisions.toList := Array.mem_toList_iff.mpr (Array.mem_of_getElem? hqs)
  have hchain := hl.chained_returnStates hcalls ⟨rfl, hl.kind_ne_tokensStart hkind qs⟩
  have hmore : (s.stream.seek q.start).remaining ≠ [] := by
    obtain ⟨v, hv, -⟩ := hplaced.remaining_cases
    rw [hv]
    exact List.cons_ne_nil _ v
  have hwork : (⟨s.predictor.cache.graph, s.author, 0⟩ : Workspace σ).graph.Truthful := h.cache.graph
  refine limited_overCaller hl hqs hcalls h fun env start ws hn hf hend hask hr => ?_
  have hweighs := Surroundings.startConfigs_weighs_granted hl hlay hc hn hf hend hwork hmem hlast hcalls hchain
    hmore hr
  have hrun : env.startConfigs qs (if env.fullContext then q.outer else [])
      ⟨s.predictor.cache.graph, s.author, 0⟩ = (.ok start, ws) := by
    rwa [if_pos hf]
  obtain ⟨_, _, hclosed, hall, honly⟩ := Surroundings.startConfigs_closed hl hn hwork hcalls hrun
  have hgranted : env.granted.network = n.unguarded := congrArg Network.unguarded hn
  have hcollects : env.Collects u :=
    Surroundings.collects_granted_iff.mp (hl.unguarded.collects_of_poised hc hgranted hpoised)
  -- The first alternative is ready, and no alternative is lower.
  have hfirst : start.Ready n stop (s.stream.seek q.start).remaining ws.graph 1 := by
    refine ⟨u, hclosed.complete 1 _ u (hall 1 t ht) (fun hno => ?_) (hglides env hn hend hask) hcollects, hpoised⟩
    rw [hf] at hno
    cases hno
  have hlowest : ∀ i, start.Ready n stop (s.stream.seek q.start).remaining ws.graph i → 1 ≤ i := by
    rintro i ⟨v, hv, -⟩
    obtain ⟨-, s₀, hs₀, -⟩ := hclosed.sound hf i v hv
    obtain ⟨t', ht', -⟩ := honly hf i s₀ hs₀
    exact (State.alternative?_eq_some ht').1
  have hfuel := (s.stream.seek q.start).length_remaining_le
  have hungranted : env.granted.Unguarded := fun _ => .inl rfl
  have hlimited := runFullContext_lowest (s := ⟨s.predictor.afterWork ws, s.stream.seek q.start, ws.author⟩)
    hl.unguarded hc hgranted hungranted hf ⟨1, hfirst⟩ q (s.stream.size + 3) steps hclosed.truthful hplaced hweighs
    (hfuel.trans (Nat.add_le_add_left (by decide : 1 ≤ 3) _))
  rw [runFullContext_granted] at hlimited
  exact hlimited.imp fun m _ hm => Nat.le_antisymm (hm.2 1 hfirst) (hlowest m hm.1)

end Predictor
end AdaptiveLL

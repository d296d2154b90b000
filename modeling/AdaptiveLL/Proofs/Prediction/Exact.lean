import Mathlib
import AdaptiveLL.Proofs.Prediction.Abstraction
import AdaptiveLL.Proofs.Prediction.Termination

/-! # Closing and reaching over a known caller are exact

Over a caller's stack that is known, nothing is lost and nothing is added when configurations are closed,
or moved over a symbol and closed (`Predictor.closure_exact`).  What a set of configurations says is which
stacks stand at which state for which alternative (`ConfigSet.Denotes`), however they are shared among
configurations and nodes.  Closing gives the spots to which the machine drifts and where it has to stop:
where something is to be consumed, or at the end of the outermost rule (`Network.Final`).

One thing stays behind when a symbol is consumed.  Configurations that were at the end of a rule before are
kept, unless the end of a rule was reached anew.
-/
namespace AdaptiveLL

/-- Where a machine that consumes nothing has to stop: at the end of the outermost rule, or at a state of
which not every transition is free. -/
def Network.Final (n : Network) (s : Spot) : Prop :=
  if n.isStop s.state then s.stack = [] else (n.state s.state).freeOnly = false

/-- Whether some configuration of a set is at the state of a spot, for an alternative, and has the stack of
the spot among its stacks. -/
def ConfigSet.Denotes (g : StackGraph) (t : ConfigSet) (alt : Nat) (s : Spot) : Prop :=
  ∃ c ∈ t.toList, c.alt = alt ∧ c.state = s.state ∧ s.stack ∈ g.stacksOf c.stack

namespace ConfigSet
variable {g : StackGraph} {t : ConfigSet} {alt : Nat} {s : Spot}

/-- Over a known caller a set covers just what it denotes. -/
theorem covers_iff_denotes (ht : t.fullContext = true) : t.Covers g alt s ↔ t.Denotes g alt s := by
  refine exists_congr fun c => and_congr_right fun _ => ?_
  rw [ht, Bool.not_true]
  constructor
  · exact fun h => ⟨h.alt, h.state, StackGraph.covers_false.mp h.stack⟩
  · exact fun ⟨halt, hstate, hstack⟩ => ⟨halt, hstate, StackGraph.covers_false.mpr hstack⟩

/-- A set has a configuration at the end of a rule just if it covers such a spot. -/
theorem hasStop_iff_covers (n : Network) (hg : g.Truthful) (ht : ∀ c ∈ t.toList, g.knows c.stack) :
    t.hasStop n ↔ ∃ alt s, t.Covers g alt s ∧ n.isStop s.state := by
  rw [hasStop, List.any_eq_true]
  constructor
  · rintro ⟨c, hc, hstop⟩
    obtain ⟨stack, hstack⟩ := hg.toSound.stackSet_nonempty (ht c hc)
    exact ⟨c.alt, ⟨c.state, stack⟩, ⟨c, hc, rfl, rfl, StackGraph.covers_of_mem hstack⟩, hstop⟩
  · rintro ⟨alt, s, ⟨c, hc, hcover⟩, hstop⟩
    exact ⟨c, hc, by rwa [hcover.state]⟩

/-- A set has no configuration just if it covers nothing. -/
theorem isEmpty_iff_covers (hg : g.Truthful) (ht : ∀ c ∈ t.toList, g.knows c.stack) :
    t.isEmpty ↔ ∀ alt s, ¬ t.Covers g alt s := by
  rw [isEmpty, Array.isEmpty_iff]
  constructor
  · rintro h alt s ⟨c, hc, -⟩
    rw [toList, h] at hc
    cases hc
  · intro h
    by_contra hne
    obtain ⟨c, hc⟩ := List.exists_mem_of_ne_nil t.toList fun hnil => hne (Array.toList_eq_nil_iff.mp hnil)
    obtain ⟨stack, hstack⟩ := hg.toSound.stackSet_nonempty (ht c hc)
    exact h c.alt ⟨c.state, stack⟩ ⟨c, hc, rfl, rfl, StackGraph.covers_of_mem hstack⟩

end ConfigSet

namespace Surroundings
variable {σ : Type} {env : Surroundings σ} {w w' : Workspace σ}

/-- Over a known caller a closure collects where the machine has to stop. -/
theorem collects_iff_final (hf : env.fullContext = true) {s : Spot} :
    env.Collects s ↔ env.network.Final s := by
  unfold Network.Final
  split
  · next hstop =>
    exact ⟨fun h => h.stop hstop, fun h => ⟨fun _ => h, fun hn => absurd ⟨hf, hstop⟩ hn⟩⟩
  · next hstop =>
    exact ⟨fun h => h.consuming fun hn => hstop hn.2,
      fun h => ⟨fun hs => absurd hs hstop, fun _ => h⟩⟩

/-- A closure over a known caller covers just the spots to which the machine drifts and where it has to
stop. -/
theorem closeAll_exact (hf : env.fullContext = true) (hun : env.Unguarded) (hw : w.graph.Truthful)
    {cs : List Config} (hcs : ∀ c ∈ cs, w.graph.knows c.stack) {collecting : Bool} {out : ConfigSet}
    (h : Closure.closeAll env collecting cs w = (.ok out, w')) (alt : Nat) (s : Spot) :
    out.Covers w'.graph alt s ↔ env.network.Final s ∧
      ∃ r, Config.AnyCovers (!env.fullContext) w.graph cs alt r ∧ Relation.ReflTransGen env.Drifts r s := by
  have hclosed := Closure.closeAll_spots hw hcs h
  rw [← collects_iff_final hf]
  constructor
  · exact hclosed.sound hf alt s
  · rintro ⟨hcollects, r, hr, hd⟩
    exact hclosed.complete_of_known hf hun hr hd hcollects

/-- What stays when a symbol is consumed over a known caller: what is at the end of a rule. -/
theorem anyCovers_staying (hf : env.fullContext = true) {configs : ConfigSet}
    (hfull : configs.fullContext = true) {g : StackGraph} {x : Symbol} {alt : Nat} {s : Spot} :
    Config.AnyCovers (!env.fullContext) g (env.staying x configs) alt s ↔
      env.network.isStop s.state ∧ configs.Covers g alt s := by
  rw [staying, hf, Bool.true_or, if_pos rfl, ConfigSet.Covers, hfull]
  constructor
  · rintro ⟨c, hc, hcover⟩
    obtain ⟨hc, hstop⟩ := List.mem_filter.mp hc
    exact ⟨hcover.state ▸ hstop, c, hc, hcover⟩
  · rintro ⟨hstop, c, hc, hcover⟩
    exact ⟨c, List.mem_filter.mpr ⟨hc, by rwa [hcover.state]⟩, hcover⟩

/-- What stays is added where no end of a rule was reached. -/
theorem keep_exact (hf : env.fullContext = true) (hw : w.graph.Truthful) {stay : List Config}
    (hstay : ∀ c ∈ stay, w.graph.knows c.stack) {closed reached : ConfigSet} (hc : closed.Sits w.graph)
    (hfull : closed.fullContext = true) (h : env.keep stay closed w = (.ok reached, w')) :
    w'.graph.Truthful ∧ reached.Sits w'.graph ∧ reached.fullContext = true ∧
      ∀ alt s, reached.Covers w'.graph alt s ↔ closed.Covers w.graph alt s ∨
        (¬ ∃ a u, closed.Covers w.graph a u ∧ env.network.isStop u.state) ∧
          Config.AnyCovers (!env.fullContext) w.graph stay alt s := by
  rw [← ConfigSet.hasStop_iff_covers env.network hw hc.known]
  unfold keep at h
  split at h
  · next hkeep =>
    rw [hf, Bool.not_true, Bool.false_or, Bool.and_eq_true, Bool.not_eq_true',
      Bool.not_eq_true'] at hkeep
    have hg := insertAll_gains hw hc hstay h
    rw [hfull, ← hf] at hg
    refine ⟨hg.truthful, hg.sits, hg.fullContext.trans hfull, fun alt s => ⟨fun hs => ?_, fun hs => ?_⟩⟩
    · rcases hg.only hfull alt s hs with hs | hs
      · exact .inl hs
      · exact .inr ⟨by simp [hkeep.2], hs⟩
    · exact hg.covers alt s (hs.imp_right And.right)
  · next hkeep =>
    cases h
    refine ⟨hw, hc, hfull, fun alt s => ⟨.inl, fun hs => hs.resolve_right ?_⟩⟩
    rintro ⟨hnone, c, hmem, -⟩
    refine hkeep ?_
    have hne : stay.isEmpty = false := by
      cases stay with
      | nil => cases hmem
      | cons => rfl
    simpa [hf, hne] using hnone

/-- What is reached over a known caller by consuming a symbol other than the end of the input. -/
theorem reach_exact (hf : env.fullContext = true) (hun : env.Unguarded) (hw : w.graph.Truthful)
    {configs : ConfigSet} (hfull : configs.fullContext = true)
    (hk : ∀ c ∈ configs.toList, w.graph.knows c.stack) {x : Symbol} (hx : x ≠ endOfInput)
    {o : Option ConfigSet} (h : env.reach false x configs w = (.ok o, w')) :
    let behind : Nat → Spot → Prop := fun alt s => env.network.Final s ∧ ∃ r t,
      configs.Covers w.graph alt r ∧
        env.network.Eats env.network.minSymbol env.network.maxSymbol x r t ∧
        Relation.ReflTransGen (env.network.Drifts false) t s
    ∃ reached, (o = if reached.isEmpty then none else some reached) ∧ w'.graph.Truthful ∧
      reached.Sits w'.graph ∧ reached.fullContext = true ∧
      ∀ alt s, reached.Covers w'.graph alt s ↔ behind alt s ∨
        (¬ ∃ a u, behind a u ∧ env.network.isStop u.state) ∧
          env.network.isStop s.state ∧ configs.Covers w.graph alt s := by
  intro behind
  obtain ⟨moved, w₁, closed, w₂, hmoved, hclosed, hfinish⟩ := reach_cases h
  have hclosed : env.closeMoved x moved w₁ = (.ok closed, w₂) := by
    rcases hclosed with ⟨hsettle, -⟩ | hclosed
    · cases hsettle
    · exact hclosed
  have hmoves := insertAll_gains hw (ConfigSet.sits_empty _ env.fullContext)
    (fun c hc => knows_of_mem_moves hk hc) hmoved
  have hmovedFull : moved.fullContext = true := hmoves.fullContext.trans hf
  have hcovers : ∀ alt s, moved.Covers w₁.graph alt s ↔
      ∃ r, configs.Covers w.graph alt r ∧
        env.network.Eats env.network.minSymbol env.network.maxSymbol x r s := by
    intro alt s
    rw [← anyCovers_moves (hfull.trans hf.symm)]
    constructor
    · exact fun hs => (hmoves.only hf alt s hs).resolve_left ConfigSet.not_covers_empty
    · exact fun hs => hmoves.covers alt s (.inr hs)
  have hspots := Closure.closeAll_spots hmoves.truthful hmoves.sits.known hclosed
  -- Without guards, closing adds what the machine drifts to and nothing else.
  have hbehind : ∀ alt s, closed.Covers w₂.graph alt s ↔ behind alt s := by
    intro alt s
    have hunx : (env.behind x).Unguarded := hun
    have hfx : (env.behind x).fullContext = true := hf
    rw [closeAll_exact hfx hunx hmoves.truthful hmoves.sits.known hclosed alt s]
    refine and_congr_right fun _ => ?_
    have hdrifts : (env.behind x).Drifts = env.network.Drifts false := by
      rw [Drifts, Surroundings.behind, decide_eq_false hx]
    rw [hdrifts]
    constructor
    · rintro ⟨t, ht, hd⟩
      obtain ⟨r, hr, heat⟩ := (hcovers alt t).mp (by rw [ConfigSet.Covers, hmoves.fullContext]; exact ht)
      exact ⟨r, t, hr, heat, hd⟩
    · rintro ⟨r, t, hr, heat, hd⟩
      have ht := (hcovers alt t).mpr ⟨r, hr, heat⟩
      rw [ConfigSet.Covers, hmoves.fullContext] at ht
      exact ⟨t, ht, hd⟩
  have hclosedFull : closed.fullContext = true := hspots.fullContext.trans hf
  unfold finish at hfinish
  rw [Run.bind_apply, afterEnd, if_neg hx, Run.pure_apply] at hfinish
  obtain ⟨reached, w₃, hkeep, hfinish⟩ := Run.exists_of_bind hfinish
  have hstay : ∀ c ∈ env.staying x configs, w.graph.knows c.stack := fun c hc =>
    hk c (mem_of_mem_staying hc).1
  have hgrows := hmoves.grows.trans hspots.grows
  obtain ⟨ht, hsits, hreachedFull, hreached⟩ := keep_exact hf hspots.truthful
    (fun c hc => hgrows.knows (hstay c hc)) hspots.sits hclosedFull hkeep
  cases hfinish
  refine ⟨reached, rfl, ht, hsits, hreachedFull, fun alt s => ?_⟩
  rw [hreached, Config.anyCovers_iff hgrows hw hspots.truthful hstay, anyCovers_staying hf hfull]
  simp only [hbehind]

end Surroundings

namespace Predictor

/-- **Closing and reaching over a known caller are exact.**  Let a predictor be left by any requests, and
let `S` be a set of configurations over a known caller whose stacks are there.  If `S` can be closed, the
closure denotes just the spots to which the machine drifts from what `S` denotes, and where it has to
stop.  If `S` can be moved over a symbol, what is reached denotes the same from where that symbol was
consumed, together with what `S` has at the end of a rule, unless the end of a rule was reached; and
nothing is reached just if that is nothing. -/
theorem closure_exact {p : Predictor} (hp : p.cache.Served p.network) {S : ConfigSet}
    (hS : S.fullContext = true) (hk : ∀ c ∈ S.toList, p.cache.graph.knows c.stack) :
    (∀ T p', closure S true p = (.ok T, p') → ∀ alt s, T.Denotes p'.cache.graph alt s ↔
      p.network.Final s ∧ ∃ r, S.Denotes p.cache.graph alt r ∧
        Relation.ReflTransGen (p.network.Drifts false) r s) ∧
    ∀ x ≠ endOfInput, ∀ o p', reach S x true p = (.ok o, p') →
      let behind : Nat → Spot → Prop := fun alt s => p.network.Final s ∧ ∃ r t,
        S.Denotes p.cache.graph alt r ∧
          p.network.Eats p.network.minSymbol p.network.maxSymbol x r t ∧
          Relation.ReflTransGen (p.network.Drifts false) t s
      let reached : Nat → Spot → Prop := fun alt s => behind alt s ∨
        (¬ ∃ a u, behind a u ∧ p.network.isStop u.state) ∧
          p.network.isStop s.state ∧ S.Denotes p.cache.graph alt s
      (o = none ↔ ∀ alt s, ¬ reached alt s) ∧
        ∀ T, o = some T → ∀ alt s, T.Denotes p'.cache.graph alt s ↔ reached alt s := by
  have hg := hp.faithful.graph
  have hun : (p.surroundings true none : Surroundings Unit).Unguarded := fun _ => .inl rfl
  have hdenotes : ∀ alt s, S.Covers p.cache.graph alt s ↔ S.Denotes p.cache.graph alt s := fun alt s =>
    ConfigSet.covers_iff_denotes hS
  constructor
  · intro T p' hT alt s
    rw [closure_apply] at hT
    rcases hrun : Closure.closeAll (p.surroundings true none) false S.toList ⟨p.cache.graph, (), 0⟩
      with ⟨r, w⟩
    rw [hrun] at hT
    cases hT
    have hfull := (Closure.closeAll_spots hg hk hrun).fullContext
    rw [← ConfigSet.covers_iff_denotes hfull]
    refine (Surroundings.closeAll_exact rfl hun hg hk hrun alt s).trans ?_
    simp only [← hdenotes]
    rw [ConfigSet.Covers, hS]
    rfl
  · intro x hx o p' ho behind reached
    rw [reach_apply] at ho
    rcases hrun : (p.surroundings true none).reach false x S ⟨p.cache.graph, (), 0⟩ with ⟨r, w⟩
    rw [hrun] at ho
    cases ho
    obtain ⟨R, hresult, hw, hsits, hfull, hcovers⟩ :=
      Surroundings.reach_exact rfl hun hg hS hk hx hrun
    simp only [hdenotes] at hcovers
    have hreached : ∀ alt s, R.Covers w.graph alt s ↔ reached alt s := hcovers
    have hempty : R.isEmpty ↔ ∀ alt s, ¬ reached alt s := by
      rw [ConfigSet.isEmpty_iff_covers hw hsits.known]
      simp only [hreached]
    rw [← hempty, hresult]
    split
    · next hnone =>
      refine ⟨⟨fun _ => hnone, fun _ => rfl⟩, fun T hT => ?_⟩
      cases hT
    · next hsome =>
      refine ⟨⟨fun h => ?_, fun h => absurd h hsome⟩, fun T hT alt s => ?_⟩
      · cases h
      cases hT
      rw [← ConfigSet.covers_iff_denotes hfull]
      exact hreached alt s

/-- The nesting rule was called from itself: either a symbol follows, or it ends and another one does. -/
theorem closure_exact_nest :
    ∃ S p T p' R p'', startConfigs 0 [Invocation.root 0, Invocation.called 0 6 0] true
        (ofNetwork nestNetwork {}) = (.ok S, p) ∧
      p.cache.Served p.network ∧ S.fullContext = true ∧
      (∀ c ∈ S.toList, p.cache.graph.knows c.stack) ∧
      closure S true p = (.ok T, p') ∧ (2 : Symbol) ≠ endOfInput ∧
      reach S 2 true p = (.ok (some R), p'') ∧
      (∀ alt s, T.Denotes p'.cache.graph alt s ↔ p.network.Final s ∧ ∃ r,
        S.Denotes p.cache.graph alt r ∧ Relation.ReflTransGen (p.network.Drifts false) r s) ∧
      let behind : Nat → Spot → Prop := fun alt s => p.network.Final s ∧ ∃ r t,
        S.Denotes p.cache.graph alt r ∧
          p.network.Eats p.network.minSymbol p.network.maxSymbol 2 r t ∧
          Relation.ReflTransGen (p.network.Drifts false) t s
      ∀ alt s, R.Denotes p''.cache.graph alt s ↔ behind alt s ∨
        (¬ ∃ a u, behind a u ∧ p.network.isStop u.state) ∧
          p.network.isStop s.state ∧ S.Denotes p.cache.graph alt s := by
  obtain ⟨S, p, T, p', R, p'', hstart, hfull, hall, hnetwork, hclosure, hreach⟩ :
      ∃ S p T p' R p'', startConfigs 0 [Invocation.root 0, Invocation.called 0 6 0] true
          (ofNetwork nestNetwork {}) = (.ok S, p) ∧ S.fullContext = true ∧
        (S.toList.all fun c => p.cache.graph.knows c.stack) = true ∧ p.network = nestNetwork ∧
        closure S true p = (.ok T, p') ∧ reach S 2 true p = (.ok (some R), p'') :=
    ⟨_, _, _, _, _, _, by cbv, by cbv, by cbv, by cbv, by cbv, by cbv⟩
  have hserved : p.cache.Served p.network := by
    have := Cache.Served.startConfigs (p := ofNetwork nestNetwork {}) 0
      [Invocation.root 0, Invocation.called 0 6 0] true rfl .fresh
    rwa [hstart, ← hnetwork] at this
  have hknown : ∀ c ∈ S.toList, p.cache.graph.knows c.stack := List.all_eq_true.mp hall
  obtain ⟨hT, hR⟩ := closure_exact hserved hfull hknown
  exact ⟨S, p, T, p', R, p'', hstart, hserved, hfull, hknown, hclosure, by decide, hreach,
    hT T p' hclosure, (hR 2 (by decide) (some R) p'' hreach).2 R rfl⟩

end Predictor
end AdaptiveLL

import Mathlib
import AdaptiveLL.Proofs.Network.Finishing
import AdaptiveLL.Proofs.Prediction.Abstraction
import AdaptiveLL.Proofs.Prediction.ClosureRecursion
import AdaptiveLL.Proofs.Prediction.Resting
import AdaptiveLL.Proofs.Prediction.Termination

/-! # Closing again changes nothing

A set that starting, closing and reaching have led to is settled, so closing it once more finds nothing to
follow: every configuration is collected again where it stands, as its key is new in the set that is being
built (`Closure.closeAll_again`).  For that, the transitions of a state must be free all of them or none
(`Network.Unmixed`), which is so in every network that a grammar is laid out as.
-/
namespace AdaptiveLL
open StackGraph (Extends)

/-- At every state either all transitions are free or none is. -/
def Network.Unmixed (n : Network) : Prop :=
  ∀ q, (∀ t ∈ n.ways q, t.isFree) ∨ ∀ t ∈ n.ways q, t.isFree = false

namespace Network
variable {n m : Network}

/-- Linking marks the states that have free transitions only. -/
theorem freeOnly_of_link (h : m.link = .ok n) (q : Nat) :
    (n.state q).freeOnly = (n.state q).hasOnlyFree := by
  obtain ⟨-, rfl⟩ := link_cases h
  rw [state, states_withReturns]
  cases m.withoutReturns.states[q]? with
  | none => rfl
  | some s => rfl

theorem Unmixed.consuming (hn : n.Unmixed) {q : Nat}
    (hlinked : (n.state q).freeOnly = (n.state q).hasOnlyFree) (h : (n.state q).freeOnly = false) :
    ∀ t ∈ n.ways q, t.isFree = false := by
  rcases hn q with hfree | hnone
  · have hall : (n.state q).transitions.all Transition.isFree = true := List.all_eq_true.mpr hfree
    rw [hlinked, State.hasOnlyFree, hall, Bool.and_true, Bool.not_eq_false', List.isEmpty_iff] at h
    intro t ht
    rw [ways, h] at ht
    cases ht
  · exact hnone

end Network

/-- Where something can be consumed, a grammar is laid out with this transition alone. -/
theorem Grammar.LaidOut.unmixed {g : Grammar} {p : Plan} {lazy : Prop} {n : Network}
    (h : g.LaidOut p lazy n) : n.Unmixed := by
  intro q
  by_cases hfree : ∀ t ∈ n.ways q, t.isFree
  · exact .inl hfree
  · right
    push Not at hfree
    obtain ⟨t, ht, hfree⟩ := hfree
    have hshape : ∃ i, Laid.Shaped n.ways n.callees i (fun _ => true) (p.bound i) (p.bound (i + 1)) q := by
      rcases h.ways_cases ht with ⟨-, i, -, rfl⟩ | ⟨i, -, ⟨-, rfl⟩ | ⟨-, hret⟩ | ⟨-, -, ⟨-, rfl⟩ | hs⟩⟩
      · exact absurd rfl hfree
      · exact absurd rfl hfree
      · cases t with
        | ret => exact absurd rfl hfree
        | _ => cases hret
      · exact absurd rfl hfree
      · exact ⟨i, hs⟩
    obtain ⟨i, hs | ⟨b, u, -, -, honly, -⟩⟩ := hshape
    · obtain ⟨z, rfl, -⟩ := hs t ht
      exact absurd rfl hfree
    · intro t' ht'
      rw [honly, List.mem_singleton] at ht ht'
      rw [ht', ← ht]
      exact Bool.eq_false_iff.mpr hfree

/-! ## Closing what rests -/

namespace Closure
open Run
variable {σ : Type} {env : Surroundings σ}

/-- What consumes leads nowhere, as long as the end of the input is not free. -/
theorem target?_of_consuming (hend : env.endIsFree = false) {t : Transition} (ht : t.isFree = false)
    (c : Config) (inRule collecting : Bool) : target? env c inRule collecting t = pure none := by
  cases t with
  | symbol | range | set => simp [target?, hend]
  | notSet | wildcard => rfl
  | _ => cases ht

/-- Where nothing is free, no transition is followed. -/
theorem walkFrom_of_consuming (hend : env.endIsFree = false) (hdepth : 1 ≤ env.maxDepth) {c : Config}
    (hfree : (env.network.state c.state).freeOnly = false)
    (hconsuming : ∀ t ∈ env.network.ways c.state, t.isFree = false) (depth : Int) (collecting : Bool)
    {p : Progress σ} (hnew : c.visit ∉ p.visited) :
    walkFrom env 0 c depth collecting p =
      (.ok (), Progress.collecting ⟨p.work, p.out, p.visited.insert c.visit⟩ c) := by
  have hmark : markVisited c p = (.ok true, ⟨p.work, p.out, p.visited.insert c.visit⟩) := by
    simp [markVisited, modifyGet_apply, hnew]
  have hnone : ∀ (ts : List Transition) (f : Transition → Run (Progress σ) PUnit),
      (∀ t ∈ ts, f t = pure ⟨⟩) → ts.forM f = pure ⟨⟩ := by
    intro ts f hf
    induction ts with
    | nil => rfl
    | cons t ts ih =>
      rw [List.forall_mem_cons] at hf
      change (f t >>= fun _ => ts.forM f) = _
      rw [hf.1, pure_bind, ih hf.2]
  rw [walkFrom, bind_apply, hmark]
  dsimp only
  rw [if_pos rfl, hfree, Bool.not_false, if_pos rfl, bind_apply, collect_apply]
  dsimp only
  rw [dif_pos (Nat.lt_of_lt_of_le Nat.zero_lt_one hdepth), hnone]
  · rfl
  · intro t ht
    rw [target?_of_consuming hend (hconsuming t ht), pure_bind]

/-- A configuration that rests is closed by collecting it. -/
theorem close_again (hend : env.endIsFree = false) (hdepth : 1 ≤ env.maxDepth) {c : Config}
    (hc : c.Rests env.network env.fullContext)
    (hconsuming : ¬ (env.fullContext ∧ env.network.isStop c.state) →
      ∀ t ∈ env.network.ways c.state, t.isFree = false)
    {p : Progress σ} (hout : p.out.Open) (hnew : c.key ∉ p.out.keys) (hvisit : c.visit ∉ p.visited) :
    ∃ p', close env false c p = (.ok (), p') ∧ p'.out.Open ∧
      p'.out.configs = p.out.configs.push c ∧ ∀ v ∈ p'.visited, v ∈ p.visited ∨ v = c.visit := by
  have hopen := hout.insert c p.work.graph
  have hinsert := ConfigSet.insert_of_new hout hnew p.work.graph
  have hconfigs : (p.out.insert c p.work.graph).1.configs = p.out.configs.push c := by rw [hinsert]
  have hpop : (env.network.isStop c.state && !c.stack.isBottom) = false := by
    by_cases hstop : env.network.isStop c.state
    · rw [hc.stop hstop]
      simp [StackRef.isBottom, StackRef.bottom]
    · simp [hstop]
  rw [close_eq_closeFrom, closeFrom, hpop, if_neg Bool.false_ne_true]
  by_cases hfinal : env.fullContext ∧ env.network.isStop c.state
  · rw [hfinal.1, hfinal.2, if_pos (by rfl), collect_apply]
    exact ⟨_, rfl, hopen, hconfigs, fun v hv => .inl hv⟩
  · have hnot : (env.network.isStop c.state && env.fullContext) = false := by
      rw [Bool.and_comm, ← Bool.not_eq_true, Bool.and_eq_true]
      exact hfinal
    rw [hnot, if_neg Bool.false_ne_true]
    refine ⟨_, walkFrom_of_consuming hend hdepth (hc.consuming hfinal) (hconsuming hfinal) 0 false hvisit,
      hopen, hconfigs, fun v hv => ?_⟩
    rcases Std.HashSet.mem_insert.mp hv with hv | hv
    · exact .inr (eq_of_beq hv).symm
    · exact .inl hv

/-- Configurations that rest, no two of which have the same key, are closed by collecting them. -/
theorem forM_close_again (hend : env.endIsFree = false) (hdepth : 1 ≤ env.maxDepth)
    (hconsuming : ∀ q, (env.network.state q).freeOnly = false →
      ∀ t ∈ env.network.ways q, t.isFree = false) {cs : List Config}
    (hcs : ∀ c ∈ cs, c.Rests env.network env.fullContext) {p : Progress σ} (hout : p.out.Open)
    (hnew : (p.out.keys ++ cs.map Config.key).Nodup)
    (hvisit : ∀ v ∈ p.visited, (v.state, v.alt, v.guard) ∈ p.out.keys) :
    ∃ p', cs.forM (close env false) p = (.ok (), p') ∧
      p'.out.configs = p.out.configs ++ cs.toArray := by
  induction cs generalizing p with
  | nil => exact ⟨p, rfl, by simp⟩
  | cons c cs ih =>
    rw [List.forall_mem_cons] at hcs
    have hc : c.key ∉ p.out.keys := fun hm =>
      (List.nodup_append.mp hnew).2.2 _ hm _ List.mem_cons_self rfl
    obtain ⟨q, hclose, hq, hconfigs, hvisited⟩ := close_again hend hdepth hcs.1
      (fun h => hconsuming c.state (hcs.1.consuming h)) hout hc fun h => hc (hvisit _ h)
    have hkeys : q.out.keys = p.out.keys ++ [c.key] := by
      rw [ConfigSet.keys, ConfigSet.toList, hconfigs, Array.toList_push, List.map_append]
      rfl
    obtain ⟨p', hrest, hall⟩ := ih hcs.2 hq (by rw [hkeys]; simpa using hnew) fun v hv => by
      rw [hkeys, List.mem_append, List.mem_singleton]
      rcases hvisited v hv with hv | rfl
      · exact .inl (hvisit v hv)
      · exact .inr rfl
    refine ⟨p', ?_, ?_⟩
    · change (close env false c >>= fun _ => cs.forM (close env false)) p = _
      rw [bind_apply, hclose]
      exact hrest
    · rw [hall, hconfigs]
      simp

/-- A set at rest is closed by collecting its entries again. -/
theorem closeAll_again (hend : env.endIsFree = false) (hdepth : 1 ≤ env.maxDepth)
    (hn : env.network.Unmixed)
    (hlinked : ∀ q, (env.network.state q).freeOnly = (env.network.state q).hasOnlyFree) {g : StackGraph}
    {t : ConfigSet} (ht : t.Resting env.network g) (hf : t.fullContext = env.fullContext)
    (w : Workspace σ) :
    ∃ out w', closeAll env false t.toList w = (.ok out, w') ∧ out.configs = t.configs := by
  obtain ⟨p', hrun, hconfigs⟩ := forM_close_again hend hdepth
    (fun q hq => hn.consuming (hlinked q) hq) (hf ▸ ht.rests)
    (p := ⟨w, ConfigSet.empty env.fullContext, ∅⟩) (ConfigSet.open_empty _) ht.apart
    fun v hv => absurd hv Std.HashSet.not_mem_empty
  refine ⟨p'.out, p'.work, by rw [closeAll, hrun], ?_⟩
  rw [hconfigs]
  simp [ConfigSet.empty, ConfigSet.toList]

end Closure

/-! ## What a predictor comes to -/

namespace Predictor

/-- The sets of configurations that a predictor for a network comes to from the start of a decision, by
any number of calls that reach or close.  Between these it may be used for anything that leaves the stacks
where they are. -/
inductive ComesTo (n : Network) (fullContext : Bool) : Predictor → ConfigSet → Prop
  | start {p p' : Predictor} {decision : Nat} {outer : List Invocation} {t : ConfigSet} :
    p.network = n → p.cache.Served n → startConfigs decision outer fullContext p = (.ok t, p') →
    ComesTo n fullContext p' t
  | closure {p p' : Predictor} {s t : ConfigSet} : ComesTo n fullContext p s →
    closure s fullContext p = (.ok t, p') → ComesTo n fullContext p' t
  | reach {p p' : Predictor} {s t : ConfigSet} {x : Symbol} : ComesTo n fullContext p s →
    reach s x fullContext p = (.ok (some t), p') → ComesTo n fullContext p' t
  | later {p p' : Predictor} {t : ConfigSet} : ComesTo n fullContext p t → p'.network = n →
    p'.cache.Served n → Extends p.cache.graph p'.cache.graph → ComesTo n fullContext p' t

variable {n : Network} {fullContext : Bool} {p : Predictor} {t : ConfigSet}

/-- What a predictor comes to is at rest. -/
theorem ComesTo.resting (h : ComesTo n fullContext p t) : p.network = n ∧
    p.cache.graph.Truthful ∧ t.Resting n p.cache.graph ∧ t.fullContext = fullContext := by
  induction h with
  | @start p p' decision outer t hp hserved hstart =>
    rw [startConfigs_apply] at hstart
    rcases hrun : (p.surroundings fullContext none).startConfigs (p.network.decisionState decision).id outer
      ⟨p.cache.graph, (), 0⟩ with ⟨r, w⟩
    rw [hrun] at hstart
    cases hstart
    obtain ⟨hw, -, hrest, hfull⟩ := Surroundings.startConfigs_resting hserved.faithful.graph hrun
    exact ⟨hp, hw, hp ▸ hrest, hfull⟩
  | @closure p p' s t _ hclosure ih =>
    obtain ⟨hp, hg, hrest, hfull⟩ := ih
    rw [closure_apply] at hclosure
    rcases hrun : Closure.closeAll (p.surroundings fullContext none) false s.toList
      ⟨p.cache.graph, (), 0⟩ with ⟨r, w⟩
    rw [hrun] at hclosure
    cases hclosure
    obtain ⟨hw, -, hrest', hfull'⟩ := Closure.closeAll_resting hg (fun c hc => hfull ▸ hrest.fits c hc) hrun
    exact ⟨hp, hw, hp ▸ hrest', hfull'⟩
  | @reach p p' s t x _ hreach ih =>
    obtain ⟨hp, hg, hrest, hfull⟩ := ih
    rw [reach_apply] at hreach
    rcases hrun : (p.surroundings fullContext none).reach false x s ⟨p.cache.graph, (), 0⟩ with ⟨r, w⟩
    rw [hrun] at hreach
    cases hreach
    have hs : s.Resting p.network p.cache.graph := hp.symm ▸ hrest
    obtain ⟨hw, -, hrest', hfull'⟩ := Surroundings.reach_resting hg hs hfull hrun
    exact ⟨hp, hw, hp ▸ hrest', hfull'⟩
  | @later p p' t _ hp' hserved hgrows ih =>
    obtain ⟨hp, hg, hrest, hfull⟩ := ih
    have hg' := hserved.faithful.graph
    exact ⟨hp', hg', { hrest with
      fits := fun c hc => (hrest.fits c hc).mono hgrows hg.toSound hg'.toSound }, hfull⟩

/-- Closing what a predictor has come to gives the same configurations again, in the same order and over
the same stacks, in any linked network in which no state mixes free transitions with others, and so in
every network that a grammar is laid out as. -/
theorem closure_idempotent
    (hn : (∃ m : Network, m.link = .ok n) ∧ n.Unmixed ∨ ∃ g : Grammar, g.layout = .ok n)
    (h : ComesTo n fullContext p t) (hdepth : 1 ≤ p.settings.maxDepth) :
    ∃ t' p', closure t fullContext p = (.ok t', p') ∧ t'.configs = t.configs := by
  have hnet : n.Unmixed ∧ ∀ q, (n.state q).freeOnly = (n.state q).hasOnlyFree := by
    rcases hn with ⟨⟨m, hm⟩, hun⟩ | ⟨g, hg⟩
    · exact ⟨hun, Network.freeOnly_of_link hm⟩
    · have hlaid : ∃ plan, g.LaidOut plan True n :=
        Grammar.exists_laidOut hg fun hf => absurd trivial hf
      obtain ⟨plan, hl⟩ := hlaid
      exact ⟨hl.unmixed, hl.freeOnly_eq⟩
  obtain ⟨rfl, hg, hrest, hfull⟩ := h.resting
  have hend : (p.surroundings fullContext none : Surroundings Unit).endIsFree = false := rfl
  obtain ⟨out, w, hrun, hconfigs⟩ :=
    Closure.closeAll_again hend hdepth hnet.1 hnet.2 hrest hfull ⟨p.cache.graph, (), 0⟩
  refine ⟨out, p.afterWork w, ?_, hconfigs⟩
  rw [closure_apply, hrun]

/-- The nesting rule was entered once more than it was asked for, over a caller that is not known. -/
theorem closure_idempotent_nest :
    ∃ S p T p', startConfigs 0 [] false (ofNetwork nestNetwork {}) = (.ok S, p) ∧
      reach S 1 false p = (.ok (some T), p') ∧ nestGrammar.layout = .ok nestNetwork ∧
      ComesTo nestNetwork false p' T ∧ 1 ≤ p'.settings.maxDepth ∧
      ∃ t' p'', closure T false p' = (.ok t', p'') ∧ t'.configs = T.configs := by
  have hlayout : nestGrammar.layout = .ok nestNetwork := by cbv
  obtain ⟨S, p, T, p', hstart, hreach, hdepth⟩ : ∃ S p T p',
      startConfigs 0 [] false (ofNetwork nestNetwork {}) = (.ok S, p) ∧
        reach S 1 false p = (.ok (some T), p') ∧ decide (1 ≤ p'.settings.maxDepth) = true :=
    ⟨_, _, _, _, by cbv, by cbv, by cbv⟩
  have hcomes : ComesTo nestNetwork false p' T := .reach (.start rfl .fresh hstart) hreach
  have hdepth : 1 ≤ p'.settings.maxDepth := of_decide_eq_true hdepth
  exact ⟨S, p, T, p', hstart, hreach, hlayout, hcomes, hdepth,
    closure_idempotent (.inr ⟨nestGrammar, hlayout⟩) hcomes hdepth⟩

end Predictor
end AdaptiveLL

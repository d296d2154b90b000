import Mathlib
import AdaptiveLL.Proofs.Grammar.Reading
import AdaptiveLL.Proofs.Prediction.ReachSpots
import AdaptiveLL.Proofs.Prediction.Steps

/-! # Looking ahead without the caller

What is reached without the caller's stack covers what is reached with it: for every configuration over
the caller's stack that can go on there is one without it, at the same state and for the same
alternative, and every stack of the former begins with a stack of the latter
(`Predictor.simulate_covers`).

The two simulations treat the end of a rule differently.  With the caller's stack its top is popped;
without it, where the own stack ends, every return transition of the rule is followed.  In the network of
a grammar these lead to whatever may be on top of a stack that calls have left behind, so the simulation
relation `Shadowed` is kept by every symbol as long as the stacks are chained.
-/
namespace AdaptiveLL
open StackGraph (Extends)

/-- Invocations under which a decision is made: none, or a chain of calls to the rule that the decision
belongs to.  The decision of a mode belongs to no rule. -/
def Network.CallerStack (n : Network) (outer : List Invocation) (s : State) : Prop :=
  outer = [] ∨ s.kind ≠ .tokensStart ∧ ∃ top, n.Calls top outer s.rule

theorem Grammar.LaidOut.id_state {g : Grammar} {p : Plan} {lazy : Prop} {n : Network}
    (h : g.LaidOut p lazy n) (q : Nat) : (n.state q).id = q := by
  rw [Network.state]
  cases hs : n.states[q]? with
  | none => rfl
  | some s =>
    rw [Option.getD_some]
    exact (h.stateAt hs).id_eq

/-! ## The simulation relation -/

/-- Configurations over a known caller's stack, and what was reached for them without it. -/
structure Shadowed (n : Network) (g : StackGraph) (full : ConfigSet) (h : StackGraph)
    (shadow : Option ConfigSet) : Prop where
  fullContext : full.fullContext = true
  known : ∀ c ∈ full.toList, g.knows c.stack
  shadowKnown : ∀ t ∈ shadow, t.fullContext = false ∧ ∀ c ∈ t.toList, h.knows c.stack
  chained : ∀ alt s, full.Covers g alt s → ∃ top, n.Chained top s.state s.stack
  covered : ∀ alt s, full.Covers g alt s → ¬ n.isStop s.state →
    ∃ t, shadow = some t ∧ t.Covers h alt s

/-- Two closures of one network, with the caller's stack and without it. -/
structure Surroundings.Beside {σ τ : Type} (n : Network) (env : Surroundings σ)
    (env' : Surroundings τ) : Prop where
  network : env.network = n
  network' : env'.network = n
  fullContext : env.fullContext = true
  noContext : env'.fullContext = false
  endIsFree : env.endIsFree = env'.endIsFree

namespace Surroundings.Beside
variable {σ τ : Type} {n : Network} {env : Surroundings σ} {env' : Surroundings τ}
  (h : env.Beside n env')
include h

theorem drifts_eq : env.Drifts = env'.Drifts := by
  rw [Drifts, Drifts, h.network, h.network', h.endIsFree]

theorem unguarded : env'.Unguarded := fun hf => by
  rw [h.noContext] at hf
  cases hf

/-- What a closure over the caller's stack collects before the end of a rule, one without it collects
as well. -/
theorem collects {s : Spot} (hc : env.Collects s) (hs : ¬ n.isStop s.state) : env'.Collects s := by
  refine ⟨fun hstop => absurd (h.network' ▸ hstop) hs, fun _ => ?_⟩
  rw [h.network', ← h.network]
  exact hc.consuming fun hstop => hs (h.network ▸ hstop.2)

theorem behind (x : Symbol) : (env.behind x).Beside n (env'.behind x) := { h with endIsFree := rfl }

end Surroundings.Beside

namespace Shadowed
variable {gr : Grammar} {plan : Plan} {lazy : Prop} {n : Network} {σ τ : Type}
  {env : Surroundings σ} {env' : Surroundings τ} {w w' : Workspace σ} {v v' : Workspace τ}

theorem returning (hl : gr.LaidOut plan lazy n) (hb : env.Beside n env') {top : Option Nat}
    {s u : Spot} (hc : n.Chained top s.state s.stack) (hd : Relation.ReflTransGen env'.Drifts s u) :
    env'.network.Returning u := by
  rw [Surroundings.Drifts] at hd
  rw [hb.network'] at hd ⊢
  intro f below hstop hstack
  have := hl.chained_of_drifts hd hc
  rw [hstack] at this
  exact hl.returns_of_chained hstop this

/-- The two simulations of a decision begin in the relation. -/
theorem start (hl : gr.LaidOut plan lazy n) (hlay : gr.layout = .ok n) (hb : env.Beside n env')
    (hw : w.graph.Truthful) (hv : v.graph.Truthful) {q : Nat} (hq : q ∈ n.decisions.toList)
    {outer : List Invocation} (houter : n.CallerStack outer (n.state q)) {full shadow : ConfigSet}
    (hfull : env.startConfigs q outer w = (.ok full, w'))
    (hshadow : env'.startConfigs q [] v = (.ok shadow, v')) :
    w'.graph.Truthful ∧ v'.graph.Truthful ∧ Shadowed n w'.graph full v'.graph (some shadow) := by
  obtain ⟨r, g, hpush, hg, -, hclosed⟩ := Surroundings.startConfigs_spots hw hfull
  obtain ⟨r', g', hbottom, hg', -, hclosed'⟩ := Surroundings.startConfigs_spots hv hshadow
  rw [if_pos hb.fullContext, hb.network] at hpush
  rw [hb.noContext, if_neg Bool.false_ne_true] at hbottom
  obtain ⟨rfl, rfl⟩ := hbottom
  obtain ⟨hstop, hepsilon⟩ := hl.epsilon_of_decision hlay hq
  obtain ⟨s₀, top, hset, hchained⟩ : ∃ s₀ top, g.stackSet r = {s₀} ∧ n.Chained top q s₀ := by
    rcases houter with rfl | ⟨hkind, top, hcalls⟩
    · cases hpush
      exact ⟨[], none, hw.toSound.stackSet_bottom, fun _ ht => nomatch ht⟩
    · obtain ⟨s₀, hset, hchained⟩ := hl.chained_of_calls hcalls hw hpush
      exact ⟨s₀, some top, hset, hchained q ⟨rfl, hkind⟩⟩
  -- The first configurations stand on the caller's stack, and those of the shadow on the wildcard.
  have hfirst : ∀ alt s, Config.AnyCovers (!env.fullContext) g (env.firstConfigs q r) alt s →
      n.Chained top s.state s.stack ∧
        Config.AnyCovers (!env'.fullContext) v.graph (env'.firstConfigs q StackRef.bottom) alt s := by
    intro alt s hs
    obtain ⟨i, t, ht, rfl, hstate, hcover⟩ := Surroundings.anyCovers_firstConfigs.mp hs
    rw [hb.fullContext, Bool.not_true, StackGraph.covers_false, hset] at hcover
    rw [hb.network] at ht
    obtain ⟨z, rfl⟩ := hepsilon t (List.mem_of_getElem? ht)
    obtain rfl : s.stack = s₀ := hcover
    refine ⟨?_, Surroundings.anyCovers_firstConfigs.mpr
      ⟨i, .epsilon z, by rw [hb.network']; exact ht, rfl, hstate, ?_⟩⟩
    · rw [hstate]
      exact hl.chained_along hchained hstop (List.mem_of_getElem? ht)
    · rw [hb.noContext]
      exact ⟨[], by rw [hv.toSound.stackSet_bottom]; rfl, .nil _⟩
  refine ⟨hclosed.truthful, hclosed'.truthful, hclosed.fullContext.trans hb.fullContext,
    hclosed.sits.known, fun t ht => ?_, fun alt s hs => ?_, fun alt s hs hne => ?_⟩
  · cases ht
    exact ⟨hclosed'.fullContext.trans hb.noContext, hclosed'.sits.known⟩
  · obtain ⟨-, u, hu, hd⟩ := hclosed.sound hb.fullContext alt s hs
    rw [Surroundings.Drifts, hb.network] at hd
    exact ⟨top, hl.chained_of_drifts hd (hfirst alt u hu).1⟩
  · obtain ⟨hcollects, u, hu, hd⟩ := hclosed.sound hb.fullContext alt s hs
    obtain ⟨hchain, hu'⟩ := hfirst alt u hu
    exact ⟨shadow, rfl, hclosed'.complete_of_unguarded hb.unguarded hu'
      (fun x hx => returning hl hb hchain hx) (hb.drifts_eq ▸ hd) (hb.collects hcollects hne)⟩

/-- Consuming a symbol other than the end of the input keeps the relation. -/
theorem step (hl : gr.LaidOut plan lazy n) (hb : env.Beside n env') (hw : w.graph.Truthful)
    (hv : v.graph.Truthful) {x : Symbol} (hx : x ≠ endOfInput) {full full' : ConfigSet}
    {shadow : ConfigSet} {shadow' : Option ConfigSet}
    (h : Shadowed n w.graph full v.graph (some shadow))
    (hfull : env.reach false x full w = (.ok (some full'), w'))
    (hshadow : env'.reach false x shadow v = (.ok shadow', v')) :
    w'.graph.Truthful ∧ v'.graph.Truthful ∧ Shadowed n w'.graph full' v'.graph shadow' := by
  obtain ⟨hnone, hknown⟩ := h.shadowKnown shadow rfl
  have hr := Surroundings.reach_spots hw h.known (h.fullContext.trans hb.fullContext.symm) hfull
  have hr' := Surroundings.reach_spots hv hknown (hnone.trans hb.noContext.symm) hshadow
  obtain ⟨hsits, hcontext⟩ := hr.sits full' rfl
  have hbehind := hb.behind x
  -- A spot stays chained while it consumes a symbol and drifts on.
  have hchain : ∀ {alt s t u}, full.Covers w.graph alt s →
      env.network.Eats env.network.minSymbol env.network.maxSymbol x s t →
      Relation.ReflTransGen (env.behind x).Drifts t u →
      ∃ top, n.Chained top t.state t.stack ∧ n.Chained top u.state u.stack := by
    intro alt s t u hs heat hd
    obtain ⟨top, hc⟩ := h.chained alt s hs
    rw [hb.network] at heat
    rw [Surroundings.Drifts, hbehind.network] at hd
    have ht := hl.chained_of_eats heat hc
    exact ⟨top, ht, hl.chained_of_drifts hd ht⟩
  refine ⟨hr.truthful, hr'.truthful, hcontext.trans hb.fullContext, hsits.known, fun t ht => ?_,
    fun alt u hu => ?_, fun alt u hu hne => ?_⟩
  · obtain ⟨hs, hf⟩ := hr'.sits t ht
    exact ⟨hf.trans hb.noContext, hs.known⟩
  · rcases hr.sound hb.fullContext full' rfl alt u hu with ⟨-, -, s, t, hs, heat, hd⟩ | ⟨-, hu⟩
    · obtain ⟨top, -, hc⟩ := hchain hs heat hd
      exact ⟨top, hc⟩
    · exact h.chained alt u hu
  · rcases hr.sound hb.fullContext full' rfl alt u hu with
      ⟨hcollects, -, s, t, hs, heat, hd⟩ | ⟨hstop, -⟩
    · obtain ⟨top, hc, -⟩ := hchain hs heat hd
      have hstop : ¬ n.isStop s.state := by
        rw [hb.network] at heat
        cases heat with
        | along hq _ _ => exact hq
      obtain ⟨_, heq, hs'⟩ := h.covered alt s hs hstop
      cases heq
      rw [hb.network, ← hb.network'] at heat
      exact hr'.complete hb.unguarded alt s t u hs' heat
        (fun z hz => returning hl hbehind hc hz) (hbehind.drifts_eq ▸ hd) (hb.collects hcollects hne)
        fun he => absurd he hx
    · exact absurd (hb.network ▸ hstop) hne

/-- Where nothing was reached without the caller's stack, nothing that can go on is reached with it. -/
theorem step_none (hb : env.Beside n env') (hw : w.graph.Truthful)
    {x : Symbol} {full full' : ConfigSet} {h : StackGraph}
    (hs : Shadowed n w.graph full h none)
    (hfull : env.reach false x full w = (.ok (some full'), w')) :
    w'.graph.Truthful ∧ Shadowed n w'.graph full' h none := by
  have hr := Surroundings.reach_spots hw hs.known (hs.fullContext.trans hb.fullContext.symm) hfull
  obtain ⟨hsits, hcontext⟩ := hr.sits full' rfl
  have hkept : ∀ alt u, full'.Covers w'.graph alt u →
      n.isStop u.state ∧ full.Covers w.graph alt u := by
    intro alt u hu
    rcases hr.sound hb.fullContext full' rfl alt u hu with ⟨-, -, s, t, hs', heat, -⟩ | ⟨hstop, hu⟩
    · rw [hb.network] at heat
      cases heat with
      | along hq _ _ =>
        obtain ⟨_, heq, -⟩ := hs.covered alt _ hs' hq
        cases heq
    · exact ⟨hb.network ▸ hstop, hu⟩
  refine ⟨hr.truthful, hcontext.trans hb.fullContext, hsits.known, fun t ht => (nomatch ht),
    fun alt u hu => hs.chained alt u (hkept alt u hu).2, fun alt u hu hne => ?_⟩
  exact absurd (hkept alt u hu).1 hne

end Shadowed

/-! ## Simulations on demand -/

namespace Predictor

/-- Consumes symbols one after another, as long as something is reached. -/
def advance (fullContext : Bool) (configs : ConfigSet) :
    List Symbol → Run Predictor (Option ConfigSet)
  | [] => pure (some configs)
  | x :: xs => do
    match ← reach configs x fullContext with
    | none => pure none
    | some reached => advance fullContext reached xs

/-- What is reached from the alternatives of a decision by consuming symbols. -/
def simulate (decision : Nat) (outer : List Invocation) (fullContext : Bool) (xs : List Symbol) :
    Run Predictor (Option ConfigSet) := do
  let start ← startConfigs decision outer fullContext
  advance fullContext start xs

theorem reach_apply (configs : ConfigSet) (x : Symbol) (fullContext : Bool) (p : Predictor) :
    reach configs x fullContext p =
      let r := (p.surroundings fullContext none).reach false x configs ⟨p.cache.graph, (), 0⟩
      (r.1, p.afterWork r.2) := rfl

theorem closure_apply (configs : ConfigSet) (fullContext : Bool) (p : Predictor) :
    closure configs fullContext p =
      let r := Closure.closeAll (p.surroundings fullContext none) false configs.toList
        ⟨p.cache.graph, (), 0⟩
      (r.1, p.afterWork r.2) := rfl

theorem startConfigs_apply (decision : Nat) (outer : List Invocation) (fullContext : Bool)
    (p : Predictor) :
    startConfigs decision outer fullContext p =
      let r := (p.surroundings fullContext none).startConfigs
        (p.network.decisionState decision).id outer ⟨p.cache.graph, (), 0⟩
      (r.1, p.afterWork r.2) := rfl

theorem beside {n : Network} {p q : Predictor} (hp : p.network = n) (hq : q.network = n) :
    (p.surroundings true none : Surroundings Unit).Beside n
      (q.surroundings false none : Surroundings Unit) :=
  ⟨hp, hq, rfl, rfl, rfl⟩

variable {gr : Grammar} {plan : Plan} {lazy : Prop} {n : Network} {p p' q q' : Predictor}
  {full F : ConfigSet} {xs : List Symbol}

theorem shadowed_advance_none (hp : p.network = n) (hpg : p.cache.graph.Truthful)
    {h : StackGraph} (hs : Shadowed n p.cache.graph full h none)
    (hF : advance true full xs p = (.ok (some F), p')) : Shadowed n p'.cache.graph F h none := by
  induction xs generalizing full p with
  | nil =>
    cases hF
    exact hs
  | cons x xs ih =>
    rw [advance] at hF
    obtain ⟨o, p₁, hreach, hF⟩ := Run.exists_of_bind hF
    rw [reach_apply] at hreach
    rcases hr : (p.surroundings true none).reach false x full ⟨p.cache.graph, (), 0⟩ with ⟨r, w⟩
    rw [hr] at hreach
    cases hreach
    cases o with
    | none => cases hF
    | some full' =>
      obtain ⟨ht, hs⟩ := Shadowed.step_none (beside hp hp) hpg hs hr
      exact ih (p := p.afterWork w) hp ht hs hF

/-- The relation is kept by every symbol, and so it holds at the end. -/
theorem shadowed_advance (hl : gr.LaidOut plan lazy n) (hp : p.network = n) (hq : q.network = n)
    (hpg : p.cache.graph.Truthful) (hqg : q.cache.graph.Truthful) {shadow : ConfigSet}
    {L : Option ConfigSet} (hxs : endOfInput ∉ xs)
    (hs : Shadowed n p.cache.graph full q.cache.graph (some shadow))
    (hF : advance true full xs p = (.ok (some F), p'))
    (hL : advance false shadow xs q = (.ok L, q')) :
    Shadowed n p'.cache.graph F q'.cache.graph L := by
  induction xs generalizing full shadow p q with
  | nil =>
    cases hF
    cases hL
    exact hs
  | cons x xs ih =>
    obtain ⟨hx, hxs⟩ := not_or.mp fun hmem => hxs (List.mem_cons.mpr hmem)
    rw [advance] at hF hL
    obtain ⟨o, p₁, hreach, hF⟩ := Run.exists_of_bind hF
    obtain ⟨o', q₁, hreach', hL⟩ := Run.exists_of_bind hL
    rw [reach_apply] at hreach hreach'
    rcases hr : (p.surroundings true none).reach false x full ⟨p.cache.graph, (), 0⟩ with ⟨r, w⟩
    rcases hr' : (q.surroundings false none).reach false x shadow ⟨q.cache.graph, (), 0⟩
      with ⟨r', v⟩
    rw [hr] at hreach
    rw [hr'] at hreach'
    cases hreach
    cases hreach'
    cases o with
    | none => cases hF
    | some full' =>
      obtain ⟨ht, ht', hs⟩ := hs.step hl (beside hp hq) hpg hqg (Ne.symm hx) hr hr'
      cases o' with
      | none =>
        cases hL
        exact shadowed_advance_none (p := p.afterWork w) hp ht hs hF
      | some shadow' => exact ih (p := p.afterWork w) (q := q.afterWork v) hp hq ht ht' hxs hs hF hL

/-- **Looking ahead without the caller over-approximates.**  Where a configuration that is not at the
end of a rule is reached over a known caller's stack, a configuration at the same state and for the same
alternative is reached without it, and every stack of the first begins with a stack of the second. -/
theorem simulate_covers {g : Grammar} (hn : g.layout = .ok n) (hp : p.network = n)
    (hq : q.network = n) (hpg : p.cache.graph.Truthful) (hqg : q.cache.graph.Truthful)
    {decision : Nat} (hd : decision < n.decisions.size) {outer : List Invocation}
    (houter : n.CallerStack outer (n.decisionState decision)) (hxs : endOfInput ∉ xs)
    {L : Option ConfigSet} (hF : simulate decision outer true xs p = (.ok (some F), p'))
    (hL : simulate decision [] false xs q = (.ok L, q')) :
    ∀ c ∈ F.toList, ¬ n.isStop c.state → ∀ s ∈ p'.cache.graph.stackSet c.stack,
      ∃ l, L = some l ∧ ∃ e ∈ l.toList, e.state = c.state ∧ e.alt = c.alt ∧
        ∃ r ∈ q'.cache.graph.stackSet e.stack, r <+: s := by
  have hlaid : ∃ plan, g.LaidOut plan True n := Grammar.exists_laidOut hn fun hf => absurd trivial hf
  obtain ⟨plan, hl⟩ := hlaid
  have hmem : n.decisions[decision]?.getD n.states.size ∈ n.decisions.toList := by
    rw [Array.getElem?_eq_getElem hd, Option.getD_some]
    exact Array.mem_toList_iff.mpr (Array.getElem_mem hd)
  unfold simulate at hF hL
  obtain ⟨full, p₁, hstart, hF⟩ := Run.exists_of_bind hF
  obtain ⟨shadow, q₁, hstart', hL⟩ := Run.exists_of_bind hL
  rw [startConfigs_apply, hp, Network.decisionState, hl.id_state] at hstart
  rw [startConfigs_apply, hq, Network.decisionState, hl.id_state] at hstart'
  rcases hr : (p.surroundings true none).startConfigs (n.decisions[decision]?.getD n.states.size) outer
    ⟨p.cache.graph, (), 0⟩ with ⟨r, w⟩
  rcases hr' : (q.surroundings false none).startConfigs (n.decisions[decision]?.getD n.states.size) []
    ⟨q.cache.graph, (), 0⟩ with ⟨r', v⟩
  rw [hr] at hstart
  rw [hr'] at hstart'
  cases hstart
  cases hstart'
  obtain ⟨ht, ht', hs⟩ := Shadowed.start hl hn (beside hp hq) hpg hqg hmem houter hr hr'
  have hs : Shadowed n p'.cache.graph F q'.cache.graph L :=
    shadowed_advance (p := p.afterWork w) (q := q.afterWork v) hl hp hq ht ht' hxs hs hF hL
  intro c hc hstop s hmem
  have hcover : F.Covers p'.cache.graph c.alt ⟨c.state, s⟩ :=
    ⟨c, hc, rfl, rfl, by rw [hs.fullContext]; exact ⟨s, hmem, rfl⟩⟩
  obtain ⟨l, rfl, e, he, halt, hstate, r, hr, hprefix⟩ := hs.covered c.alt ⟨c.state, s⟩ hcover hstop
  rw [(hs.shadowKnown l rfl).1] at hprefix
  exact ⟨l, rfl, e, he, hstate, halt, r, hr, hprefix⟩

/-- The nesting rule was called from itself, and the first symbol follows. -/
theorem simulate_covers_nest :
    let calls := [Invocation.root 0, Invocation.called 0 6 0]
    let p := ofNetwork nestNetwork {}
    nestGrammar.layout = .ok nestNetwork ∧ p.cache.graph.Truthful ∧ 0 < nestNetwork.decisions.size ∧
      nestNetwork.CallerStack calls (nestNetwork.decisionState 0) ∧ endOfInput ∉ [(1 : Symbol)] ∧
      ∃ F p' L q', simulate 0 calls true [1] p = (.ok (some F), p') ∧
        simulate 0 [] false [1] p = (.ok L, q') ∧
        (∃ c ∈ F.toList, ¬ nestNetwork.isStop c.state) ∧
        ∀ c ∈ F.toList, ¬ nestNetwork.isStop c.state → ∀ s ∈ p'.cache.graph.stackSet c.stack,
          ∃ l, L = some l ∧ ∃ e ∈ l.toList, e.state = c.state ∧ e.alt = c.alt ∧
            ∃ r ∈ q'.cache.graph.stackSet e.stack, r <+: s := by
  obtain ⟨hlayout, hd, hkind, hrule, hcaller, hways⟩ : nestGrammar.layout = .ok nestNetwork ∧
      0 < nestNetwork.decisions.size ∧ (nestNetwork.decisionState 0).kind = .blockStart ∧
      (nestNetwork.decisionState 0).rule = 0 ∧ (nestNetwork.state 6).rule = 0 ∧
      nestNetwork.ways 6 = [.call 0 0 0 7] := by
    cbv
  have hg : (ofNetwork nestNetwork {}).cache.graph.Truthful := StackGraph.truthful_empty
  have hcalls : nestNetwork.CallerStack [Invocation.root 0, Invocation.called 0 6 0]
      (nestNetwork.decisionState 0) := by
    refine .inr ⟨by rw [hkind]; decide, 0, ?_⟩
    rw [hrule]
    exact .call 0 .root hcaller (hways ▸ List.mem_singleton_self _)
  have hxs : endOfInput ∉ [(1 : Symbol)] := by decide
  obtain ⟨F, p', hF, hgoesOn⟩ : ∃ F p', simulate 0 [Invocation.root 0, Invocation.called 0 6 0] true
      [1] (ofNetwork nestNetwork {}) = (.ok (some F), p') ∧
        F.toList.any fun c => !nestNetwork.isStop c.state := ⟨_, _, by cbv, by cbv⟩
  obtain ⟨L, q', hL⟩ : ∃ L q', simulate 0 [] false [1] (ofNetwork nestNetwork {}) = (.ok L, q') :=
    ⟨_, _, by cbv⟩
  refine ⟨hlayout, hg, hd, hcalls, hxs, F, p', L, q', hF, hL, by simpa using hgoesOn,
    simulate_covers hlayout rfl rfl hg hg hd hcalls hxs hF hL⟩

end Predictor
end AdaptiveLL

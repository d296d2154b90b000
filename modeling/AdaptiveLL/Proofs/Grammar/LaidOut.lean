import Mathlib
import AdaptiveLL.Proofs.Grammar.Rules
import AdaptiveLL.Proofs.Network.Link

/-! # The network of a grammar

`Grammar.LaidOut` describes the linked network of a grammar state by state: the modes lead to the
rules that make tokens in them, the start of a rule to its body, the body to the stop, and the stop
back to where the calls of the rule continue.  `Grammar.exists_laidOut` says that every network that
comes from a grammar is like this.

`lazy` holds if some element of the grammar may prefer to leave.
-/
namespace AdaptiveLL

/-- A linked network is the layout of a grammar. -/
structure Grammar.LaidOut (g : Grammar) (p : Plan) (lazy : Prop) (n : Network) : Prop
    extends Tables g p.modes g.rules.length n where
  modes : p.modes = if g.kind = .lexer then g.modes.length else 0
  base : p.bound 0 = p.modes + 2 * g.rules.length
  size : n.states.size = p.bound g.rules.length
  decisions : List.range p.modes <+: n.decisions.toList
  mode : ∀ m < p.modes, ∃ s, n.states[m]? = some s ∧ s.id = m ∧ s.rule = 0 ∧
    s.kind = .tokensStart ∧ s.decision = some m
  modeWays : ∀ m < p.modes, n.ways m = g.modeWays p g.rules.length m
  start : ∀ i < g.rules.length, ∃ s, n.states[p.start i]? = some s ∧ s.id = p.start i ∧
    s.rule = i ∧ s.kind = .ruleStart ∧ s.decision = none
  stop : ∀ i < g.rules.length, ∃ s, n.states[p.stop i]? = some s ∧ s.id = p.stop i ∧
    s.rule = i ∧ s.kind = .ruleStop ∧ s.decision = none
  inner : ∀ i < g.rules.length, ∀ q s, p.bound i ≤ q → q < p.bound (i + 1) →
    n.states[q]? = some s → s.id = q ∧ s.rule = i ∧ s.kind.isInner ∧ (s.nonGreedy → lazy)
  laid : ∀ i r, g.rules[i]? = some r →
    Laid n.ways n.callees i r.body (p.bound i) (p.bound (i + 1)) (p.part i)
  enter : ∀ i < g.rules.length, n.ways (p.start i) = [.epsilon (p.part i).entry]
  leave : ∀ i < g.rules.length, n.ways (p.part i).exit = [.epsilon (p.stop i)]
  returns : ∀ i < g.rules.length, ∀ t, t ∈ n.ways (p.stop i) ↔
    ∃ q target level follow, t = .ret follow ∧ .call target i level follow ∈ n.ways q
  freeOnly : ∀ (q : Nat) (s : State), n.states[q]? = some s → s.freeOnly = s.hasOnlyFree
  choices : ∀ i < g.rules.length, ∀ q, p.bound i ≤ q → q < p.bound (i + 1) →
    1 < (n.ways q).length → n.Decided q

namespace Layout.Bodies
variable {g : Grammar} {p : Plan} {lazy : Prop} {n n' : Network} {k j : Nat}

/-- What is where in the network. -/
theorem stateAt (h : Bodies g p lazy k j n) {q : Nat} {s : State} (hs : n.states[q]? = some s) :
    p.StateAt g.rules.length lazy q s := by
  rcases p.state_cases h.base (h.size ▸ (Array.getElem?_eq_some_iff.mp hs).1) with
    hq | ⟨i, hi, rfl | rfl⟩ | ⟨i, hi, hlo, hhi⟩
  · obtain ⟨u, hu, hid, -, hk, -⟩ := h.mode q hq
    obtain rfl := Option.some.inj (hs.symm.trans hu)
    exact .mode hq hid hk
  · obtain ⟨u, hu, hid, -, hk, -⟩ := h.start i hi
    obtain rfl := Option.some.inj (hs.symm.trans hu)
    exact .start hi rfl hid hk
  · obtain rfl := Option.some.inj (hs.symm.trans (h.stop i hi))
    exact .stop hi rfl rfl rfl
  · obtain ⟨hid, -, hk, hlazy⟩ := h.inner i hi q s hlo hhi hs
    exact .inner hid hk hlazy

/-- The stop states have nothing of their own to lose. -/
theorem withoutReturns_eq (h : Bodies g p lazy k j n) : n.withoutReturns = n :=
  Network.withoutReturns_eq fun q s hs hstop => by
    obtain ⟨i, hi, rfl⟩ := (h.stateAt hs).exists_stop hstop
    obtain rfl := Option.some.inj (hs.symm.trans (h.stop i hi))
    rfl

theorem state_withReturns {q : Nat} {s : State} (hs : n.states[q]? = some s) :
    n.withReturns.states[q]? = some (Network.linkedState n.calls s) := by
  rw [Network.states_withReturns, hs, Option.map_some]

/-- Calls return from the stops of rules. -/
theorem exists_stop_of_mem_calls (h : Bodies g p lazy k j n) {stop follow : Nat} (hcall : (stop, follow) ∈ n.calls) :
    ∃ i < g.rules.length, stop = p.stop i := by
  obtain ⟨q, s, target, rule, level, -, -, hstop⟩ := Network.mem_calls.mp hcall
  have hlt : rule < g.rules.length := by
    have := (Array.getElem?_eq_some_iff.mp hstop).1
    rwa [← Array.length_toList, h.ruleStops, List.length_map, List.length_range] at this
  rw [h.toTables.ruleStop hlt] at hstop
  exact ⟨rule, hlt, (Option.some.inj hstop).symm⟩

/-- A state that is no stop keeps its ways. -/
theorem ways_withReturns (h : Bodies g p lazy k j n) {q : Nat} (hq : ∀ i < g.rules.length, q ≠ p.stop i) :
    n.withReturns.ways q = n.ways q := by
  cases hs : n.states[q]? with
  | none =>
    have hs' : n.withReturns.states[q]? = none := by rw [Network.states_withReturns, hs, Option.map_none]
    rw [Network.ways, Network.ways, Network.state, Network.state, hs, hs']
  | some s =>
    rw [ways_of_eq (state_withReturns hs), ways_of_eq hs]
    have hnone : Network.returnsOf n.calls s.id = [] := by
      rw [List.eq_nil_iff_forall_not_mem]
      intro t ht
      obtain ⟨follow, -, hmem⟩ := Network.mem_returnsOf.mp ht
      obtain ⟨i, hi, hid⟩ := h.exists_stop_of_mem_calls hmem
      exact hq i hi ((h.stateAt hs).id_eq.symm.trans hid)
    change s.transitions ++ _ = _
    rw [hnone, List.append_nil]

theorem ways_withReturns_stop (h : Bodies g p lazy k j n) {i : Nat} (hi : i < g.rules.length) :
    n.withReturns.ways (p.stop i) = Network.returnsOf n.calls (p.stop i) := by
  rw [ways_of_eq (state_withReturns (h.stop i hi))]
  rfl

/-- No call is added. -/
theorem call_mem_withReturns (h : Bodies g p lazy k j n) {q target rule follow : Nat} {level : Int} :
    .call target rule level follow ∈ n.withReturns.ways q ↔ .call target rule level follow ∈ n.ways q := by
  by_cases hq : ∃ i < g.rules.length, q = p.stop i
  · obtain ⟨i, hi, rfl⟩ := hq
    rw [h.ways_withReturns_stop hi, ways_of_eq (h.stop i hi)]
    simp [Network.mem_returnsOf]
  · push Not at hq
    rw [h.ways_withReturns hq]

/-- The returns from a rule lead to where its calls continue. -/
theorem mem_ways_withReturns_stop (h : Bodies g p lazy k j n) {i : Nat} (hi : i < g.rules.length) {t : Transition} :
    t ∈ n.withReturns.ways (p.stop i) ↔
      ∃ q target level follow, t = .ret follow ∧ .call target i level follow ∈ n.withReturns.ways q := by
  rw [h.ways_withReturns_stop hi, Network.mem_returnsOf]
  constructor
  · rintro ⟨follow, rfl, hmem⟩
    obtain ⟨q, s, target, rule, level, hs, ht, hr⟩ := Network.mem_calls.mp hmem
    obtain rfl := h.toTables.eq_of_ruleStop hr
    exact ⟨q, target, level, follow, rfl, h.call_mem_withReturns.mpr (by rwa [ways_of_eq hs])⟩
  · rintro ⟨q, target, level, follow, rfl, ht⟩
    obtain ⟨s, hs, ht⟩ := mem_ways.mp (h.call_mem_withReturns.mp ht)
    exact ⟨follow, rfl, Network.mem_calls.mpr ⟨q, s, target, i, level, hs, ht, h.toTables.ruleStop hi⟩⟩

/-- The returns are added to the stop states, and nothing else is. -/
theorem withReturns (h : Bodies g p lazy g.rules.length g.rules.length n)
    (hm : p.modes = if g.kind = .lexer then g.modes.length else 0) : g.LaidOut p lazy n.withReturns := by
  -- What follows is said of any network that is the linked one, so that the latter is not unfolded.
  obtain ⟨n', hn'⟩ : ∃ n', n' = n.withReturns := ⟨_, rfl⟩
  have hstates : ∀ q : Nat, n'.states[q]? = n.states[q]?.map (Network.linkedState n.calls) := fun q =>
    hn' ▸ Network.states_withReturns n q
  have hstate : ∀ {q : Nat} {s : State}, n.states[q]? = some s →
      n'.states[q]? = some (Network.linkedState n.calls s) := fun hs => hn' ▸ state_withReturns hs
  have hways : ∀ q, (∀ i < g.rules.length, q ≠ p.stop i) → n'.ways q = n.ways q := fun q hq =>
    hn' ▸ h.ways_withReturns hq
  have hcallees : n'.callees = n.callees := by
    rw [hn']
    rfl
  rw [← hn']
  have hfar : ∀ q, q < p.modes ∨ p.bound 0 ≤ q → ∀ i < g.rules.length, q ≠ p.stop i := by
    intro q hq i hi
    have := h.base
    rw [Plan.stop]
    omega
  have hfirst : ∀ i ≤ g.rules.length, p.bound 0 ≤ p.bound i := fun i hi =>
    bound_le (h.bound_le_succ le_rfl) (Nat.zero_le i) hi
  exact {
    toTables := by
      rw [hn']
      exact { h.toTables with }
    modes := hm
    base := h.base
    size := by
      rw [hn', Network.withReturns]
      dsimp only
      rw [Array.size_map]
      exact h.size
    decisions := by
      rw [hn']
      exact h.decisions
    mode := fun m hm => by
      obtain ⟨s, hs, h1, h2, h3, h4⟩ := h.mode m hm
      exact ⟨_, hstate hs, h1, h2, h3, h4⟩
    modeWays := fun m hm => (hways m (hfar m (.inl hm))).trans (h.modeWays m hm)
    start := fun i hi => by
      obtain ⟨s, hs, h1, h2, h3, h4⟩ := h.start i hi
      exact ⟨_, hstate hs, h1, h2, h3, h4⟩
    stop := fun i hi => ⟨_, hstate (h.stop i hi), rfl, rfl, rfl, rfl⟩
    inner := fun i hi q s hlo hhi hget => by
      rw [hstates] at hget
      obtain ⟨u, hu, rfl⟩ := Option.map_eq_some_iff.mp hget
      exact h.inner i hi q u hlo hhi hu
    laid := fun i r hr => by
      have hi := (List.getElem?_eq_some_iff.mp hr).1
      have := hfirst i hi.le
      rw [hcallees]
      exact (h.laid i r hi hr).mono fun q hlo _ _ => hways q (hfar q (.inr (by omega)))
    enter := fun i hi => by
      refine (hways _ fun j _ => ?_).trans (h.enter i hi)
      rw [Plan.start, Plan.stop]
      omega
    leave := fun i hi => by
      have := (h.laid i _ hi (List.getElem?_eq_getElem hi)).bounds
      have := hfirst i hi.le
      exact (hways _ (hfar _ (.inr (by omega)))).trans (h.leave i hi)
    returns := fun i hi t => hn' ▸ h.mem_ways_withReturns_stop hi
    freeOnly := fun q s hget => by
      rw [hstates] at hget
      obtain ⟨u, -, rfl⟩ := Option.map_eq_some_iff.mp hget
      rfl
    choices := fun i hi q hlo hhi hmany => by
      have := hfirst i hi.le
      rw [hways q (hfar q (.inr (by omega)))] at hmany
      have hdecided := h.choices i hi q hlo hhi hmany
      have hq := Array.getElem?_eq_getElem hdecided.lt
      unfold Network.Decided Network.state at hdecided ⊢
      rw [hq] at hdecided
      rw [hstate hq]
      exact hdecided }

/-- Linking adds the returns. -/
theorem linked (h : Bodies g p lazy g.rules.length g.rules.length n)
    (hm : p.modes = if g.kind = .lexer then g.modes.length else 0) (hl : n.link = .ok n') :
    g.LaidOut p lazy n' := by
  have hn' : n' = n.withReturns := by rw [(Network.link_cases hl).2, h.withoutReturns_eq]
  exact hn' ▸ h.withReturns hm

end Layout.Bodies

/-- Every network that comes from a grammar is laid out as described. -/
theorem Grammar.exists_laidOut {g : Grammar} {n : Network} {lazy : Prop} (h : g.layout = .ok n)
    (hlazy : ¬lazy → ∀ r ∈ g.rules, r.body.everywhere fun e => !e.isLazy) :
    ∃ p, g.LaidOut p lazy n := by
  obtain ⟨n₀, hrun, hl⟩ := layout_eq_ok_iff.mp h
  obtain ⟨p, hb, hp⟩ := Layout.grammar_bodies hlazy hrun
  exact ⟨p, hb.linked hp hl⟩

end AdaptiveLL

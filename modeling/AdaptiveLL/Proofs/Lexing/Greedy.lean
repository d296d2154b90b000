import Mathlib
import AdaptiveLL.Proofs.Lexing.Termination
import AdaptiveLL.Proofs.Network.Chained

/-! # Lexers in which only characters decide

Where a lexer's grammar has no predicates and no elements that match the end of the input (`Grammar.Textual`),
only the text decides what can be read (`Network.Textual`).  If no element prefers to leave either
(`Grammar.Greedy`), every way through its network is open whenever the characters are there
(`Network.Greedy`).

The state in which a mode begins leads to the token rules of the mode, in the order in which they are
declared (`Grammar.LaidOut.alternative_mono`).
-/
namespace AdaptiveLL

/-- Only the text decides where something is read: there are no predicates, the end of the input is not
consumed, and nothing is consumed at the end of a rule. -/
structure Network.Textual (n : Network) : Prop where
  free : ∀ {q t}, t ∈ n.ways q → t.isFree →
    t.isPlain ∨ ∃ target rule level follow, t = .call target rule level follow
  sparesEnd : n.SparesEnd
  stops : ∀ {q t}, n.isStop q → t ∈ n.ways q → t.isFree

/-- Nothing is decided but by the characters: there are no predicates and no decisions that prefer to
leave, the end of the input is not consumed, and where something is consumed there is no other way on. -/
structure Network.Greedy (n : Network) : Prop where
  free : ∀ {q t}, t ∈ n.ways q → t.isFree →
    t.isPlain ∨ ∃ target rule level follow, t = .call target rule level follow
  eager : ∀ {q t}, ¬ n.isStop q → t ∈ n.ways q →
    ((n.state t.target).nonGreedy && (n.state t.target).kind.isDecision) = false
  sparesEnd : n.SparesEnd
  alone : ∀ {q t}, t ∈ n.ways q → t.isFree = false → n.ways q = [t]
  freeOnly : ∀ q, (n.state q).freeOnly = true → ∀ t ∈ n.ways q, t.isFree
  stops : ∀ {q t}, n.isStop q → t ∈ n.ways q → t.isFree

theorem Network.Greedy.textual {n : Network} (h : n.Greedy) : n.Textual := ⟨h.free, h.sparesEnd, h.stops⟩

/-- A lexer's grammar without predicates and without elements that match the end of the input. -/
structure Grammar.Textual (g : Grammar) : Prop where
  lexer : g.kind = .lexer
  unconditional : ∀ r ∈ g.rules, r.body.everywhere fun e => !e.isConditional
  sparesEnd : ∀ r ∈ g.rules, r.body.everywhere fun e => !e.accepts minCodePoint maxCodePoint endOfInput

/-- A lexer's grammar without predicates, without elements that prefer to leave, and without any that match
the end of the input. -/
structure Grammar.Greedy (g : Grammar) : Prop where
  lexer : g.kind = .lexer
  unconditional : ∀ r ∈ g.rules, r.body.everywhere fun e => !e.isConditional
  eager : ∀ r ∈ g.rules, r.body.everywhere fun e => !e.isLazy
  sparesEnd : ∀ r ∈ g.rules, r.body.everywhere fun e => !e.accepts minCodePoint maxCodePoint endOfInput

theorem Grammar.Greedy.textual {g : Grammar} (h : g.Greedy) : g.Textual := ⟨h.lexer, h.unconditional, h.sparesEnd⟩

/-- A transition for an element consumes what the element accepts. -/
theorem Direct.consumes_eq {callees : Callees} {rule : Nat} {e : Element} {t : Nat → Transition}
    (h : Direct callees rule e t) (q : Nat) (lo hi x : Int) :
    (t q).consumes lo hi x = e.accepts lo hi x := by
  cases h <;> rfl

theorem Transition.exists_of_isReturn {t : Transition} (h : t.isReturn) : ∃ z, t = .ret z := by
  cases t <;> first | exact ⟨_, rfl⟩ | cases h

/-- A way on has its number. -/
theorem State.exists_alternative {s : State} {t : Transition} (h : t ∈ s.transitions) :
    ∃ alt, s.alternative? alt = some t := by
  obtain ⟨k, hk, hget⟩ := List.mem_iff_getElem.mp h
  refine ⟨k + 1, ?_⟩
  rw [State.alternative?, if_neg k.succ_ne_zero, Nat.add_sub_cancel]
  exact List.getElem?_eq_some_iff.mpr ⟨hk, hget⟩

namespace Grammar.LaidOut
variable {g : Grammar} {p : Plan} {lazy : Prop} {n : Network} {q : Nat} {t : Transition}

/-- A transition that neither is an epsilon nor returns belongs to an element, and stands alone. -/
theorem direct_of_ways (h : g.LaidOut p lazy n) {test : Element → Bool}
    (htest : ∀ r ∈ g.rules, r.body.everywhere test) (ht : t ∈ n.ways q) :
    (∃ z, t = .epsilon z) ∨ t.isReturn ∨ ∃ i e f, test e ∧ Direct n.callees i e f ∧
      n.ways q = [t] ∧ t = f (q + 1) := by
  rcases h.ways_cases ht with ⟨-, i, -, rfl⟩ | ⟨i, hi, ⟨-, rfl⟩ | ⟨-, hreturn⟩ | ⟨hlo, hhi, ⟨-, rfl⟩ | -⟩⟩
  · exact .inl ⟨_, rfl⟩
  · exact .inl ⟨_, rfl⟩
  · exact .inr (.inl hreturn)
  · exact .inl ⟨_, rfl⟩
  · by_cases hexit : q = (p.part i).exit
    · rw [hexit, h.leave i hi, List.mem_singleton] at ht
      exact .inl ⟨_, ht⟩
    · have hr : g.rules[i]? = some g.rules[i] := List.getElem?_eq_getElem hi
      rcases (h.laid i _ hr).shaped (htest _ (List.getElem_mem hi)) hlo hhi hexit with
        hs | ⟨e, f, he, hd, hways, -⟩
      · obtain ⟨z, rfl, -⟩ := hs t ht
        exact .inl ⟨z, rfl⟩
      · have hf := ht
        rw [hways, List.mem_singleton] at hf
        exact .inr (.inr ⟨i, e, f, he, hd, hf ▸ hways, hf⟩)

/-- Only a mode begins in a state of its kind, and no transition leads there. -/
theorem kind_target (h : g.LaidOut p lazy n) (hq : ¬ n.isStop q) (ht : t ∈ n.ways q) :
    (n.state t.target).kind ≠ .tokensStart := by
  rcases h.rule_cases hq ht with ⟨-, z, rfl⟩ | ⟨i, -, ⟨rule, level, follow, rfl, -, hin⟩ | ⟨hin, -⟩⟩
  · rcases h.ways_cases ht with ⟨-, i, hi, he⟩ | ⟨i, hi, ⟨-, he⟩ | ⟨rfl, -⟩ | ⟨-, hhi, hbody⟩⟩
    · cases he
      exact (h.inRule_start hi).2
    · cases he
      have hb := (h.laid i _ (List.getElem?_eq_getElem hi)).bounds
      exact (h.inRule_body hi hb.1 hb.2.1).2
    · exact absurd (h.isStop_stop hi) hq
    · rcases hbody with ⟨-, he⟩ | hs | ⟨e, f, -, hd, hT, -⟩
      · cases he
        exact (h.inRule_stop hi).2
      · obtain ⟨z', he, hz⟩ := hs _ ht
        cases he
        exact (h.inRule_body hi hz.1 hz.2).2
      · rw [hT, List.mem_singleton] at ht
        cases hd <;> cases ht
  · exact hin.2
  · exact hin.2

/-- Decisions do not prefer to leave where no element does. -/
theorem nonGreedy_eq (h : g.LaidOut p False n) (hq : (n.state q).kind ≠ .tokensStart) :
    ((n.state q).nonGreedy && (n.state q).kind.isDecision) = false := by
  rw [Network.state] at hq ⊢
  cases hs : n.states[q]? with
  | none => rfl
  | some s =>
    rw [hs, Option.getD_some] at hq
    exact (h.stateAt hs).eager hq

/-- Whether or not elements prefer to leave. -/
theorem textual (h : g.LaidOut p lazy n) (hg : g.Textual) : n.Textual := by
  refine ⟨fun ht hf => ?_, fun q t ht => ?_, fun {q t} hq ht => ?_⟩
  · rcases h.direct_of_ways hg.unconditional ht with ⟨z, rfl⟩ | hreturn | ⟨i, e, f, he, hd, -, rfl⟩
    · exact .inl rfl
    · obtain ⟨z, rfl⟩ := Transition.exists_of_isReturn hreturn
      exact .inl rfl
    · cases hd with
      | call => exact .inr ⟨_, _, _, _, rfl⟩
      | action | command => exact .inl rfl
      | predicate | precedence => cases he
      | symbol | range | set | notSet | wildcard => cases hf
  · rcases h.direct_of_ways hg.sparesEnd ht with ⟨z, rfl⟩ | hreturn | ⟨i, e, f, he, hd, -, rfl⟩
    · rfl
    · obtain ⟨z, rfl⟩ := Transition.exists_of_isReturn hreturn
      rfl
    · rw [hd.consumes_eq]
      simpa using he
  · obtain ⟨i, hi, rfl⟩ := h.isStop_iff.mp hq
    obtain ⟨-, -, -, follow, rfl, -⟩ := (h.returns i hi t).mp ht
    rfl

theorem greedy (h : g.LaidOut p False n) (hg : g.Greedy) : n.Greedy := by
  have htextual := h.textual hg.textual
  refine ⟨htextual.free, fun hq ht => h.nonGreedy_eq (h.kind_target hq ht), htextual.sparesEnd,
    fun ht hf => ?_, fun q hq t ht => ?_, htextual.stops⟩
  · rcases h.direct_of_ways hg.unconditional ht with ⟨z, rfl⟩ | hreturn | ⟨i, e, f, -, -, hways, -⟩
    · cases hf
    · obtain ⟨z, rfl⟩ := Transition.exists_of_isReturn hreturn
      cases hf
    · exact hways
  · by_cases hlt : q < n.states.size
    · obtain ⟨s, hs⟩ : ∃ s, n.states[q]? = some s := ⟨_, Array.getElem?_eq_getElem hlt⟩
      have hstate : n.state q = s := by rw [Network.state, hs, Option.getD_some]
      rw [Network.ways, hstate] at ht
      rw [hstate, h.freeOnly q s hs, State.hasOnlyFree, Bool.and_eq_true] at hq
      exact List.all_eq_true.mp hq.2 t ht
    · rw [Layout.ways_of_size_le (Nat.le_of_not_lt hlt)] at ht
      cases ht

/-! ## The alternatives of a mode -/

/-- An alternative of a mode leads to a token rule of the mode. -/
theorem rule_of_alternative (h : g.LaidOut p lazy n) {m alt : Nat} (hm : m < p.modes)
    (ht : (n.state m).alternative? alt = some t) :
    ∃ i r, g.rules[i]? = some r ∧ r.mode = m ∧ r.isFragment = false ∧ t = .epsilon (p.start i) := by
  have hmem : t ∈ n.ways m := List.mem_of_getElem? (State.alternative?_eq_some ht).2.2
  rw [h.modeWays m hm, Grammar.modeWays] at hmem
  obtain ⟨i, hi, rfl⟩ := List.mem_map.mp hmem
  obtain ⟨-, hany⟩ := List.mem_filter.mp hi
  cases hr : g.rules[i]? with
  | none =>
    rw [hr] at hany
    cases hany
  | some r =>
    rw [hr] at hany
    simp only [Option.any_some, Bool.and_eq_true, Bool.not_eq_true', beq_iff_eq] at hany
    exact ⟨i, r, hr, hany.2, hany.1, rfl⟩

/-- Each token rule of a mode is led to by an alternative. -/
theorem exists_alternative (h : g.LaidOut p lazy n) {m i : Nat} (hm : m < p.modes) {r : Rule}
    (hr : g.rules[i]? = some r) (hmode : r.mode = m) (hfragment : r.isFragment = false) :
    ∃ alt, (n.state m).alternative? alt = some (.epsilon (p.start i)) := by
  have hmem : .epsilon (p.start i) ∈ n.ways m := by
    rw [h.modeWays m hm, Grammar.modeWays]
    refine List.mem_map.mpr ⟨i, List.mem_filter.mpr ⟨?_, ?_⟩, rfl⟩
    · exact List.mem_range.mpr (List.getElem?_eq_some_iff.mp hr).1
    · simp [hr, hmode, hfragment]
  exact State.exists_alternative hmem

/-- The alternatives of a mode are in the order of the rules that they lead to. -/
theorem alternative_mono (h : g.LaidOut p lazy n) {m a b i j : Nat} (hm : m < p.modes)
    (ha : (n.state m).alternative? a = some (.epsilon (p.start i)))
    (hb : (n.state m).alternative? b = some (.epsilon (p.start j))) (hab : a ≤ b) : i ≤ j := by
  have hindex : ∀ {c k : Nat}, (n.state m).alternative? c = some (.epsilon (p.start k)) →
      1 ≤ c ∧ ((List.range g.rules.length).filter fun i =>
        g.rules[i]?.any fun r => !r.isFragment && r.mode == m)[c - 1]? = some k := by
    intro c k hc
    obtain ⟨hpos, -, hget⟩ := State.alternative?_eq_some hc
    have hways : (n.state m).transitions = g.modeWays p g.rules.length m := h.modeWays m hm
    rw [hways, Grammar.modeWays, List.getElem?_map, Option.map_eq_some_iff] at hget
    obtain ⟨k', hk', he⟩ := hget
    have hstart : p.start k' = p.start k := Transition.epsilon.inj he
    have hsame : k' = k := by
      rw [Plan.start, Plan.start] at hstart
      omega
    exact ⟨hpos, hsame ▸ hk'⟩
  obtain ⟨hpa, hi⟩ := hindex ha
  obtain ⟨hpb, hj⟩ := hindex hb
  obtain ⟨hi₁, hi₂⟩ := List.getElem?_eq_some_iff.mp hi
  obtain ⟨hj₁, hj₂⟩ := List.getElem?_eq_some_iff.mp hj
  rcases Nat.lt_or_ge (a - 1) (b - 1) with hlt | hge
  · have hsorted := (List.pairwise_lt_range (n := g.rules.length)).filter fun i =>
      g.rules[i]?.any fun r => !r.isFragment && r.mode == m
    have hlt' := List.pairwise_iff_getElem.mp hsorted _ _ hi₁ hj₁ hlt
    rw [hi₂, hj₂] at hlt'
    exact hlt'.le
  · have hsame : a - 1 = b - 1 := by omega
    rw [hsame, hj] at hi
    exact (Option.some.inj hi).ge

end Grammar.LaidOut
end AdaptiveLL

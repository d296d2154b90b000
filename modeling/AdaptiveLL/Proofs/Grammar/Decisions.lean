import AdaptiveLL.Proofs.Grammar.Outcome
import AdaptiveLL.Proofs.Grammar.Reading

/-! # The ways on from a decision

A decision of a grammar's network is about free transitions only: none of its alternatives is a symbol
or a call itself (`Grammar.epsilon_of_decision`).  The states that an element makes for itself alone are
basic, and a basic state is never made a decision; every operation of a layout keeps this
(`Network.Tidy.stable`).
-/
namespace AdaptiveLL

namespace Network

/-- The decisions are in roles that may be decisions, what is in such a role leads on freely, and a state
that carries the number of a decision is that decision. -/
structure Tidy (n : Network) : Prop where
  decisions : ∀ q ∈ n.decisions.toList, ∃ s, n.states[q]? = some s ∧ s.kind.parts
  epsilons : ∀ (q : Nat) (s : State), n.states[q]? = some s → s.kind.parts →
    ∀ t ∈ s.transitions, ∃ z, t = .epsilon z
  named : ∀ (q : Nat) (s : State) (d : Nat), n.states[q]? = some s → s.decision = some d →
    n.decisions[d]? = some q

namespace Tidy
variable {n : Network}

/-- Changing a state in a way that keeps its kind and number and adds free transitions at most. -/
theorem modify (h : n.Tidy) (id : Nat) {f : State → State} (hk : ∀ s, (f s).kind = s.kind)
    (hd : ∀ s, (f s).decision = s.decision)
    (ht : ∀ s, n.states[id]? = some s → s.kind.parts → ∀ t ∈ (f s).transitions,
      t ∈ s.transitions ∨ ∃ z, t = .epsilon z) :
    Tidy { n with states := n.states.modify id f } where
  decisions q hq := by
    obtain ⟨s, hs, hkind⟩ := h.decisions q hq
    dsimp only
    rw [Array.getElem?_modify, hs]
    split
    · exact ⟨f s, rfl, (hk s).symm ▸ hkind⟩
    · exact ⟨s, rfl, hkind⟩
  epsilons q s hs hkind t hmem := by
    dsimp only at hs
    rw [Array.getElem?_modify] at hs
    split at hs
    · next hid =>
      subst hid
      obtain ⟨u, hu, rfl⟩ := Option.map_eq_some_iff.mp hs
      rw [hk] at hkind
      rcases ht u hu hkind t hmem with hmem | hz
      · exact h.epsilons id u hu hkind t hmem
      · exact hz
    · exact h.epsilons q s hs hkind t hmem
  named q s d hs hnumber := by
    dsimp only at hs
    rw [Array.getElem?_modify] at hs
    split at hs
    · next hid =>
      subst hid
      obtain ⟨u, hu, rfl⟩ := Option.map_eq_some_iff.mp hs
      rw [hd] at hnumber
      exact h.named id u d hu hnumber
    · exact h.named q s d hs hnumber

/-- Making a state. -/
theorem push (h : n.Tidy) (s : State) (hs : s.transitions = []) (hnone : s.decision = none) :
    Tidy { n with states := n.states.push s } where
  decisions q hq := by
    obtain ⟨u, hu, hkind⟩ := h.decisions q hq
    have hlt := (Array.getElem?_eq_some_iff.mp hu).1
    refine ⟨u, ?_, hkind⟩
    dsimp only
    rw [Array.getElem?_push, if_neg (by omega), hu]
  epsilons q u hu hkind t hmem := by
    dsimp only at hu
    rw [Array.getElem?_push] at hu
    split at hu
    · cases hu
      rw [hs] at hmem
      cases hmem
    · exact h.epsilons q u hu hkind t hmem
  named q u d hu hnumber := by
    dsimp only at hu
    rw [Array.getElem?_push] at hu
    split at hu
    · cases hu
      rw [hnone] at hnumber
      cases hnumber
    · exact h.named q u d hu hnumber

/-- Making a state the next decision. -/
theorem decide (h : n.Tidy) {q : Nat} {s : State} (hs : n.states[q]? = some s) (hk : s.kind.parts) :
    Tidy { n with
      decisions := n.decisions.push q
      states := n.states.modify q fun s => { s with decision := some n.decisions.size } } where
  decisions q' hq := by
    dsimp only at hq ⊢
    rw [Array.toList_push] at hq
    rw [Array.getElem?_modify]
    have hfound : ∃ s, n.states[q']? = some s ∧ s.kind.parts := by
      rcases List.mem_append.mp hq with hq | hq
      · exact h.decisions q' hq
      · obtain rfl := List.mem_singleton.mp hq
        exact ⟨s, hs, hk⟩
    obtain ⟨u, hu, hkind⟩ := hfound
    rw [hu]
    split
    · exact ⟨_, rfl, hkind⟩
    · exact ⟨u, rfl, hkind⟩
  epsilons q' u hu hkind t hmem := by
    dsimp only at hu
    rw [Array.getElem?_modify] at hu
    -- Becoming a decision leaves the transitions of a state alone.
    split at hu
    · next hid =>
      subst hid
      obtain ⟨v, hv, rfl⟩ := Option.map_eq_some_iff.mp hu
      exact h.epsilons q v hv hkind t hmem
    · exact h.epsilons q' u hu hkind t hmem
  named q' u d hu hnumber := by
    dsimp only at hu ⊢
    rw [Array.getElem?_modify] at hu
    split at hu
    · next hid =>
      subst hid
      obtain ⟨v, -, rfl⟩ := Option.map_eq_some_iff.mp hu
      cases hnumber
      exact Array.getElem?_push_size
    · have hold := h.named q' u d hu hnumber
      have hlt := (Array.getElem?_eq_some_iff.mp hold).1
      rw [Array.getElem?_push, if_neg (Nat.ne_of_lt hlt), hold]

/-- Every change that a layout makes keeps a network tidy. -/
theorem stable : Layout.Stable Tidy where
  push rule kind h := h.push _ rfl rfl
  decide rule _ hk h := (h.push { rule, .. } rfl rfl).decide Array.getElem?_push_size hk
  join source target h := by
    refine h.modify source (f := (·.addTransition (.epsilon target))) (fun _ => rfl) (fun _ => rfl) ?_
    intro s _ _ t ht
    rcases List.mem_append.mp ht with ht | ht
    · exact .inl ht
    · exact .inr ⟨target, List.mem_singleton.mp ht⟩
  prefer id h := h.modify id (f := fun s => { s with nonGreedy := true }) (fun _ => rfl) (fun _ => rfl)
    fun _ _ _ t ht => .inl ht
  single {n} rule t _ h := by
    -- the state of a transition that stands for itself is basic
    have hpush := (h.push { id := n.states.size, rule, kind := .basic } rfl rfl).push
      { id := n.states.size + 1, rule, kind := .basic } rfl rfl
    refine hpush.modify n.states.size (f := (·.addTransition t)) (fun _ => rfl) (fun _ => rfl) ?_
    intro s hs hkind
    rw [Array.getElem?_push, if_neg (by simp), Array.getElem?_push_size] at hs
    cases hs
    cases hkind
  command c h := { h with }

theorem untabled : Layout.Untabled Tidy where
  modes _ _ h := { h with }
  rules _ _ _ _ h := { h with }

end Tidy

end Network

/-- The network of a grammar comes from a tidy one by linking. -/
theorem Grammar.exists_tidy {g : Grammar} {n : Network} (hl : g.layout = .ok n) :
    ∃ n₀ : Network, n₀.Tidy ∧ n₀.link = .ok n := by
  obtain ⟨n₀, hrun, hlink⟩ := layout_eq_ok_iff.mp hl
  have hgrammar := Layout.grammar_succeeds Network.Tidy.stable Network.Tidy.untabled (g := g)
    ⟨by simp, by simp, by simp⟩ rfl
  exact ⟨n₀, (hgrammar.2 hrun).2, hlink⟩

/-- Linking leaves the decisions alone, and adds returns to their ways on at most. -/
theorem Network.Tidy.linked {n n' : Network} (h : n.Tidy) (hl : n.link = .ok n') {q : Nat}
    (hq : q ∈ n'.decisions.toList) : ∃ s, n'.states[q]? = some s ∧ s.kind.parts ∧
      ∀ t ∈ s.transitions, (∃ z, t = .epsilon z) ∨ t.isReturn := by
  rw [(Network.link_cases hl).2] at hq ⊢
  obtain ⟨s, hs, hkind⟩ := h.decisions q hq
  have hs' : s.withoutReturns = s := by
    rw [State.withoutReturns, if_neg]
    intro hstop
    rw [of_decide_eq_true hstop] at hkind
    cases hkind
  refine ⟨Network.linkedState n.withoutReturns.calls s, ?_, hkind, ?_⟩
  · rw [Network.states_withReturns, Network.withoutReturns, Array.getElem?_map, hs, Option.map_some,
      hs', Option.map_some]
  · intro t ht
    rcases List.mem_append.mp ht with ht | ht
    · exact .inl (h.epsilons q s hs hkind t ht)
    · obtain ⟨follow, rfl, -⟩ := Network.mem_returnsOf.mp ht
      exact .inr rfl

/-- Linking leaves the numbers of the decisions alone. -/
theorem Network.Tidy.named_linked {n n' : Network} (h : n.Tidy) (hl : n.link = .ok n') {q d : Nat}
    (hd : (n'.state q).decision = some d) : n'.decisions[d]? = some q := by
  rw [(Network.link_cases hl).2, Network.state, Network.states_withReturns, Network.withoutReturns,
    Array.getElem?_map] at hd
  rw [(Network.link_cases hl).2]
  cases hs : n.states[q]? with
  | none =>
    rw [hs] at hd
    cases hd
  | some s =>
    rw [hs] at hd
    have hsame : s.withoutReturns.decision = s.decision := by
      unfold State.withoutReturns
      split <;> rfl
    exact h.named q s d hs (hsame.symm.trans hd)

namespace Grammar.LaidOut
variable {g : Grammar} {p : Plan} {lazy : Prop} {n : Network}

/-- Only the stops of rules lead on by returns. -/
theorem isStop_of_isReturn (h : g.LaidOut p lazy n) {q : Nat} {t : Transition} (ht : t ∈ n.ways q)
    (hr : t.isReturn) : n.isStop q := by
  rcases h.ways_cases ht with ⟨-, i, -, rfl⟩ |
    ⟨i, hi, ⟨-, rfl⟩ | ⟨rfl, -⟩ | ⟨-, -, ⟨-, rfl⟩ | hs | ⟨e, t', -, hd, hT, -⟩⟩⟩
  · cases hr
  · cases hr
  · exact h.isStop_stop hi
  · cases hr
  · obtain ⟨z, rfl, -⟩ := hs _ ht
    cases hr
  · rw [hT, List.mem_singleton] at ht
    subst ht
    cases hd <;> cases hr

/-- A decision is not the stop of a rule, and its alternatives begin with free transitions that call
nothing. -/
theorem epsilon_of_decision (h : g.LaidOut p lazy n) (hl : g.layout = .ok n) {q : Nat}
    (hq : q ∈ n.decisions.toList) : ¬ n.isStop q ∧ ∀ t ∈ n.ways q, ∃ z, t = .epsilon z := by
  obtain ⟨n₀, htidy, hlink⟩ := exists_tidy hl
  obtain ⟨s, hs, hkind, hways⟩ := htidy.linked hlink hq
  have hstop : ¬ n.isStop q := by
    rw [Network.isStop, Network.state, hs, Option.getD_some, State.isStop, decide_eq_true_iff]
    intro hk
    rw [hk] at hkind
    cases hkind
  refine ⟨hstop, fun t ht => ?_⟩
  rcases hways t (by rwa [← Layout.ways_of_eq hs]) with hz | hr
  · exact hz
  · exact absurd (h.isStop_of_isReturn ht hr) hstop

/-- Where there are several ways on there is a decision, unless a rule ends there. -/
theorem exists_decision (h : g.LaidOut p lazy n) (hl : g.layout = .ok n) {q : Nat}
    (hstop : ¬ n.isStop q) (hmany : 1 < (n.ways q).length) :
    ∃ d, (n.state q).decision = some d ∧ n.decisions[d]? = some q := by
  obtain ⟨n₀, htidy, hlink⟩ := exists_tidy hl
  suffices hdecided : n.Decided q by
    obtain ⟨d, hd⟩ := Option.isSome_iff_exists.mp hdecided
    exact ⟨d, hd, htidy.named_linked hlink hd⟩
  have hlt : q < n.states.size := by
    by_contra hout
    rw [Network.ways, Network.state, Array.getElem?_eq_none (Nat.le_of_not_lt hout)] at hmany
    exact absurd hmany (Nat.not_lt_zero 1)
  rcases p.state_cases h.base (h.size ▸ hlt) with hm | ⟨i, hi, rfl | rfl⟩ | ⟨i, hi, hlo, hhi⟩
  · obtain ⟨s, hs, -, -, -, hd⟩ := h.mode q hm
    rw [Network.Decided, Network.state, hs, Option.getD_some, hd]
    rfl
  · rw [h.enter i hi] at hmany
    exact absurd hmany (Nat.lt_irrefl 1)
  · exact absurd (h.isStop_stop hi) hstop
  · exact h.choices i hi q hlo hhi hmany

end Grammar.LaidOut
end AdaptiveLL

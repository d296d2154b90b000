import AdaptiveLL.Proofs.Network.Relinking

/-!
# Where rules return to

A rule returns to wherever it was called from.  Those places are read off a network by going over its states
and their transitions in order (`Network.followsOf`).  Linking gives each rule stop state a return to each of
them, behind the transitions that it has and in place of the returns that it had, and does not touch any
other transition (`Network.link_rebuilds`).

A stop state ends one rule only, since it carries the number of that rule (`Network.ruleStops_inj`).  So the
calls that lead to it are those of that rule (`Network.returnsOf_eq_followsOf`), and returns that were left
over, such as those of a description from outside, are gone.
-/

namespace AdaptiveLL

/-- Where a call of a rule returns to. -/
def Transition.followOf? (rule : Nat) : Transition → Option Nat
  | .call _ callee _ follow => if callee = rule then some follow else none
  | _ => none

theorem State.hasOnlyFree_iff (s : State) :
    s.hasOnlyFree ↔ s.transitions ≠ [] ∧ ∀ t ∈ s.transitions, t.isFree := by
  simp [State.hasOnlyFree]

namespace Network

variable {n m : Network}

/-- Where the calls of a rule return to, in the order of the states and of their transitions. -/
def followsOf (n : Network) (rule : Nat) : List Nat :=
  n.states.toList.flatMap fun s => s.transitions.filterMap (Transition.followOf? rule)

/-! ## The returns of a stop state -/

/-- A stop state ends one rule. -/
theorem ruleStops_inj (hfault : n.fault? = none) {rule rule' stop : Nat}
    (h : n.ruleStops[rule]? = some stop) (h' : n.ruleStops[rule']? = some stop) : rule = rule' :=
  (ruleStop_of_fault? hfault h).2.symm.trans (ruleStop_of_fault? hfault h').2

/-- The calls that lead to the stop state of a rule are those of the rule. -/
theorem returnsOf_eq_followsOf (hfault : n.fault? = none) {rule stop : Nat}
    (hstop : n.ruleStops[rule]? = some stop) :
    returnsOf n.calls stop = (n.followsOf rule).map .ret := by
  have hcalls : (n.calls.filter (·.1 = stop)).map (·.2) = n.followsOf rule := by
    rw [calls, List.filter_flatMap, List.map_flatMap, followsOf]
    refine congrArg (List.flatMap · n.states.toList) (funext fun s => ?_)
    rw [List.filter_filterMap, List.map_filterMap]
    refine congrArg (List.filterMap · s.transitions) (funext fun t => ?_)
    cases t with
    | call target callee level follow =>
      rw [Transition.followOf?]
      by_cases hcallee : callee = rule
      · simp [hcallee, hstop]
      · -- another rule ends at another state
        have hother : ∀ stop', n.ruleStops[callee]? = some stop' → stop' ≠ stop :=
          fun _ hc heq => hcallee (ruleStops_inj hfault (heq ▸ hc) hstop)
        simpa [hcallee] using hother
    | _ => rfl
  rw [returnsOf, ← hcalls, List.map_map]
  rfl

/-- Nothing returns from a state that ends no rule. -/
theorem returnsOf_eq_nil {q : Nat} (hnone : ∀ rule : Nat, n.ruleStops[rule]? ≠ some q) :
    returnsOf n.calls q = [] := by
  rw [List.eq_nil_iff_forall_not_mem]
  intro t ht
  obtain ⟨follow, -, hcall⟩ := mem_returnsOf.mp ht
  obtain ⟨-, -, -, rule, -, -, -, hstop⟩ := mem_calls.mp hcall
  exact hnone rule hstop

/-- Which returns the stop states had does not matter. -/
theorem followsOf_withoutReturns (rule : Nat) : n.withoutReturns.followsOf rule = n.followsOf rule := by
  rw [followsOf, withoutReturns, Array.toList_map, List.flatMap_map, followsOf]
  refine congrArg (List.flatMap · n.states.toList) (funext fun s => ?_)
  unfold State.withoutReturns
  split
  · dsimp only
    rw [List.filterMap_filter]
    refine congrArg (List.filterMap · s.transitions) (funext fun t => ?_)
    cases t <;> rfl
  · rfl

/-! ## What linking makes of a state -/

/-- What linking makes of the state `s` with the number `q`. -/
structure Relinked (n : Network) (q : Nat) (s s' : State) : Prop where
  rest : s' = { s with transitions := s'.transitions, freeOnly := s'.freeOnly }
  kept : ¬s.isStop → s'.transitions = s.transitions
  returns : s.isStop → ∀ rule : Nat, n.ruleStops[rule]? = some q →
    s'.transitions = s.transitions.filter (fun t => !t.isReturn) ++ (n.followsOf rule).map .ret
  stripped : s.isStop → (∀ rule : Nat, n.ruleStops[rule]? ≠ some q) →
    s'.transitions = s.transitions.filter fun t => !t.isReturn
  freeOnly : s'.freeOnly ↔ s'.transitions ≠ [] ∧ ∀ t ∈ s'.transitions, t.isFree

theorem states_withoutReturns (q : Nat) :
    n.withoutReturns.states[q]? = n.states[q]?.map State.withoutReturns := Array.getElem?_map

theorem relinked_linkedState (hfault : n.withoutReturns.fault? = none) {q : Nat} {s : State}
    (hs : n.states[q]? = some s) :
    n.Relinked q s (linkedState n.withoutReturns.calls s.withoutReturns) := by
  have hs' : n.withoutReturns.states[q]? = some s.withoutReturns := by
    rw [states_withoutReturns, hs, Option.map_some]
  have hid : s.withoutReturns.id = q := id_of_fault? hfault hs'
  have htransitions : (linkedState n.withoutReturns.calls s.withoutReturns).transitions =
      s.withoutReturns.transitions ++ returnsOf n.withoutReturns.calls q := hid ▸ rfl
  refine ⟨?_, fun hstop => ?_, fun hstop rule hrule => ?_, fun hstop hnone => ?_, ?_⟩
  · unfold State.withoutReturns
    split <;> rfl
  · -- calls lead to stop states only
    have hnone : returnsOf n.withoutReturns.calls q = [] :=
      returnsOf_of_not_isStop hfault hs' (s.isStop_withoutReturns ▸ hstop)
    rw [htransitions, hnone, List.append_nil, State.withoutReturns, if_neg hstop]
  · rw [htransitions, returnsOf_eq_followsOf (n := n.withoutReturns) hfault hrule,
      followsOf_withoutReturns, State.withoutReturns, if_pos hstop]
  · rw [htransitions, returnsOf_eq_nil (n := n.withoutReturns) hnone, List.append_nil,
      State.withoutReturns, if_pos hstop]
  · exact State.hasOnlyFree_iff _

/-- **Linking rebuilds the returns.**  In a linked network all transitions and all calls lead to states.  It
is the network that was given, but for its states: stop states return to where their rule was called from, in
the order of the calls, and nowhere else; states are marked that have free transitions only; nothing else is
changed, and linking once more changes nothing. -/
theorem link_rebuilds (h : n.link = .ok m) :
    (∀ (q : Nat) (s : State), m.states[q]? = some s → ∀ t ∈ s.transitions, t.Within m.states.size) ∧
      (∃ states, m = { n with states } ∧ states.size = n.states.size ∧
        ∀ (q : Nat) (s s' : State), n.states[q]? = some s → states[q]? = some s' → n.Relinked q s s') ∧
      m.link = .ok m := by
  refine ⟨fun q s hs t ht => within_of_link h hs ht, ?_, link_of_link h⟩
  obtain ⟨hfault, rfl⟩ := link_cases h
  refine ⟨n.withoutReturns.withReturns.states, rfl, ?_, fun q s s' hs hs' => ?_⟩
  · exact Array.size_map.trans Array.size_map
  · rw [states_withReturns, states_withoutReturns, hs, Option.map_some, Option.map_some] at hs'
    exact Option.some.inj hs' ▸ relinked_linkedState hfault hs

/-- Two rules that call each other, one of them from its stop state, with returns left over at states that end
a rule, at one that ends none, and at one that is no stop state. -/
def leftovers : Network where
  kind := .parser
  maxSymbol := 2
  states := #[{ id := 0, rule := 0, kind := .ruleStart, transitions := [.call 3 1 0 2] },
    { id := 1, rule := 0, kind := .ruleStop,
      transitions := [.ret 9, .call 3 1 0 1, .ret 0, .epsilon 2] },
    { id := 2, rule := 0, kind := .basic, transitions := [.ret 5, .symbol 1 1], freeOnly := true },
    { id := 3, rule := 1, kind := .ruleStart, transitions := [.call 0 0 0 4, .call 3 1 0 4] },
    { id := 4, rule := 1, kind := .ruleStop, transitions := [.ret 4, .ret 4] },
    { id := 5, rule := 1, kind := .ruleStop, transitions := [.ret 0] }]
  ruleStarts := #[0, 3]
  ruleStops := #[1, 4]

theorem link_rebuilds_leftovers :
    let m := leftovers.withoutReturns.withReturns
    leftovers.link = .ok m ∧
      (∀ (q : Nat) (s : State), m.states[q]? = some s → ∀ t ∈ s.transitions, t.Within m.states.size) ∧
      (∃ states, m = { leftovers with states } ∧ states.size = leftovers.states.size ∧
        ∀ (q : Nat) (s s' : State), leftovers.states[q]? = some s → states[q]? = some s' →
          leftovers.Relinked q s s') ∧
      m.link = .ok m :=
  have hlink : leftovers.link = .ok leftovers.withoutReturns.withReturns := by cbv
  ⟨hlink, link_rebuilds hlink⟩

/-- Returns in the order of the calls, behind what a stop state has of its own. -/
example : leftovers.withoutReturns.withReturns.states.toList.map State.transitions =
    [[.call 3 1 0 2], [.call 3 1 0 1, .epsilon 2, .ret 4], [.ret 5, .symbol 1 1],
      [.call 0 0 0 4, .call 3 1 0 4], [.ret 2, .ret 1, .ret 4], []] := by cbv

end Network
end AdaptiveLL

import AdaptiveLL.Proofs.Network.Link

/-!
# Linking once more

Linking derives the return transitions and the marks of a network from the rest of it, and checks that
rest only.  So a linked network, linked once more, is the same network (`Network.link_of_link`).
-/

namespace AdaptiveLL

theorem State.isStop_withoutReturns (s : State) : s.withoutReturns.isStop = s.isStop := by
  unfold State.withoutReturns
  split <;> rfl

/-- A state with another mark. -/
def State.marked (mark : State → Bool) (s : State) : State := { s with freeOnly := mark s }

namespace Network

variable {n m : Network}

/-- A network whose states are marked otherwise. -/
def marked (mark : State → Bool) (n : Network) : Network :=
  { n with states := n.states.map (State.marked mark) }

variable (mark : State → Bool)

theorem state_marked (id : Nat) : ∃ b, (n.marked mark).state id = { n.state id with freeOnly := b } := by
  rw [state, state, marked, Array.getElem?_map]
  cases n.states[id]? with
  | none => exact ⟨false, rfl⟩
  | some s => exact ⟨mark s, rfl⟩

/-! ## What a mark does not change -/

theorem placementFault?_marked : (n.marked mark).placementFault? = n.placementFault? := by
  have hid : ∀ i, ((n.marked mark).state i).id = (n.state i).id := fun i => by
    obtain ⟨b, hb⟩ := n.state_marked mark i
    rw [hb]
  unfold placementFault?
  simp only [hid]
  simp [marked]

theorem kindFault?_marked (id : Nat) (kind : StateKind) (entry : String) :
    (n.marked mark).kindFault? id kind entry = n.kindFault? id kind entry := by
  unfold kindFault?
  rw [marked, Array.getElem?_map]
  cases n.states[id]? <;> rfl

theorem rulesFault?_marked : (n.marked mark).rulesFault? = n.rulesFault? := by
  have hrule : ∀ i, ((n.marked mark).state i).rule = (n.state i).rule := fun i => by
    obtain ⟨b, hb⟩ := n.state_marked mark i
    rw [hb]
  unfold rulesFault? ruleFault?
  simp only [kindFault?_marked, hrule]
  rfl

theorem transitionsFault?_marked : (n.marked mark).transitionsFault? = n.transitionsFault? := by
  have hsize : (n.marked mark).states.size = n.states.size := Array.size_map
  have hfault : ∀ s t, (n.marked mark).transitionFault? (s.marked mark) t = n.transitionFault? s t := by
    intro s t
    unfold transitionFault?
    rw [hsize]
    rfl
  unfold transitionsFault?
  rw [marked, Array.toList_map, List.findSome?_map]
  refine congrArg (List.findSome? · n.states.toList) (funext fun s => ?_)
  exact congrArg (List.findSome? · s.transitions) (funext fun t => hfault s t)

theorem decisionsFault?_marked : (n.marked mark).decisionsFault? = n.decisionsFault? := by
  unfold decisionsFault?
  refine congrArg (List.findSome? · (List.range n.decisions.size)) (funext fun d => ?_)
  have hdecision : (n.marked mark).decisions[d]? = n.decisions[d]? := rfl
  rw [hdecision]
  cases n.decisions[d]? with
  | none => rfl
  | some i =>
    rw [Option.bind_some, Option.bind_some, marked, Array.getElem?_map]
    cases n.states[i]? <;> rfl

theorem lexerFault?_marked : (n.marked mark).lexerFault? = n.lexerFault? := by
  unfold lexerFault?
  simp only [kindFault?_marked]
  rfl

theorem fault?_marked : (n.marked mark).fault? = n.fault? := by
  unfold fault?
  rw [placementFault?_marked, rulesFault?_marked, transitionsFault?_marked, decisionsFault?_marked,
    lexerFault?_marked]
  rfl

theorem calls_marked : (n.marked mark).calls = n.calls := by
  unfold calls
  rw [marked, Array.toList_map, List.flatMap_map]
  rfl

theorem withReturns_marked : (n.marked mark).withReturns = n.withReturns := by
  have hstates : (n.marked mark).withReturns.states = n.withReturns.states := by
    refine Array.ext_getElem? fun q => ?_
    rw [states_withReturns, states_withReturns, calls_marked, marked, Array.getElem?_map]
    cases n.states[q]? <;> rfl
  exact congrArg (fun states => { n with states }) hstates

/-! ## Stripping what was derived -/

theorem filter_returnsOf (calls : List (Nat × Nat)) (id : Nat) :
    (returnsOf calls id).filter (fun t => !t.isReturn) = [] := by
  rw [List.filter_eq_nil_iff]
  intro t ht
  obtain ⟨follow, rfl, -⟩ := mem_returnsOf.mp ht
  exact fun h => nomatch h

theorem id_of_fault? (hfault : n.fault? = none) {q : Nat} {s : State} (hs : n.states[q]? = some s) :
    s.id = q := by
  have hq := List.findSome?_eq_none_iff.mp (fault?_eq_none_iff.mp hfault).2.1 q
    (List.mem_range.mpr (Array.getElem?_eq_some_iff.mp hs).1)
  simpa [state, hs] using hq

/-- The stop state of a rule is one by its kind, and carries the number of the rule. -/
theorem ruleStop_of_fault? (hfault : n.fault? = none) {rule stop : Nat}
    (hstop : n.ruleStops[rule]? = some stop) :
    n.kindFault? stop .ruleStop "rule stop" = none ∧ (n.state stop).rule = rule := by
  obtain ⟨hsize, -, hrules, -⟩ := fault?_eq_none_iff.mp hfault
  have hlt : rule < n.ruleStarts.size := hsize ▸ (Array.getElem?_eq_some_iff.mp hstop).1
  have hrule := List.findSome?_eq_none_iff.mp hrules rule (List.mem_range.mpr hlt)
  rw [Array.getElem?_eq_getElem hlt, hstop] at hrule
  simp [ruleFault?] at hrule
  exact ⟨hrule.2.1, hrule.2.2.2⟩

/-- Calls lead to rules that end in a stop state. -/
theorem isStop_of_mem_calls (hfault : n.fault? = none) {q follow : Nat} {s : State}
    (hs : n.states[q]? = some s) (hcall : (q, follow) ∈ n.calls) : s.isStop := by
  obtain ⟨_, _, _, rule, _, _, _, hstop⟩ := mem_calls.mp hcall
  have hkind := (ruleStop_of_fault? hfault hstop).1
  rw [kindFault?, hs] at hkind
  by_cases hk : s.kind = .ruleStop
  · exact decide_eq_true hk
  · simp [hk] at hkind

/-- What is no stop state gets no returns. -/
theorem returnsOf_of_not_isStop (hfault : n.fault? = none) {q : Nat} {s : State}
    (hs : n.states[q]? = some s) (hstop : ¬s.isStop) : returnsOf n.calls q = [] := by
  rw [List.eq_nil_iff_forall_not_mem]
  intro t ht
  obtain ⟨follow, -, hcall⟩ := mem_returnsOf.mp ht
  exact hstop (isStop_of_mem_calls hfault hs hcall)

/-- A stop state that was stripped has no return transitions. -/
theorem filter_of_withoutReturns {q : Nat} {s : State} (hs : n.withoutReturns.states[q]? = some s)
    (hstop : s.isStop) : s.transitions.filter (fun t => !t.isReturn) = s.transitions := by
  rw [withoutReturns, Array.getElem?_map, Option.map_eq_some_iff] at hs
  obtain ⟨u, -, rfl⟩ := hs
  have hu : u.isStop := u.isStop_withoutReturns ▸ hstop
  rw [State.withoutReturns, if_pos hu, List.filter_filter]
  simp

/-- Stripping a state of what linking has added. -/
theorem withoutReturns_linkedState (hfault : n.withoutReturns.fault? = none) {q : Nat} {s : State}
    (hs : n.withoutReturns.states[q]? = some s) :
    (linkedState n.withoutReturns.calls s).withoutReturns =
      s.marked fun s => (linkedState n.withoutReturns.calls s).freeOnly := by
  have hid : s.id = q := id_of_fault? hfault hs
  unfold State.withoutReturns
  by_cases hstop : s.isStop
  · rw [if_pos (by exact hstop)]
    have htransitions : (s.transitions ++ returnsOf n.withoutReturns.calls s.id).filter
        (fun t => !t.isReturn) = s.transitions := by
      rw [List.filter_append, filter_returnsOf, List.append_nil, filter_of_withoutReturns hs hstop]
    exact congrArg (fun transitions => { linkedState n.withoutReturns.calls s with transitions })
      htransitions
  · rw [if_neg (by exact hstop)]
    have hnone : returnsOf n.withoutReturns.calls s.id = [] :=
      hid ▸ returnsOf_of_not_isStop hfault hs hstop
    have htransitions : s.transitions ++ returnsOf n.withoutReturns.calls s.id = s.transitions := by
      rw [hnone, List.append_nil]
    exact congrArg (fun transitions => { linkedState n.withoutReturns.calls s with transitions })
      htransitions

/-- What linking has added is stripped again, but for the marks. -/
theorem withoutReturns_withReturns (hfault : n.withoutReturns.fault? = none) :
    n.withoutReturns.withReturns.withoutReturns =
      n.withoutReturns.marked fun s => (linkedState n.withoutReturns.calls s).freeOnly := by
  have hstates : n.withoutReturns.withReturns.withoutReturns.states =
      (n.withoutReturns.marked fun s => (linkedState n.withoutReturns.calls s).freeOnly).states := by
    refine Array.ext_getElem? fun q => ?_
    change (n.withoutReturns.withReturns.states.map State.withoutReturns)[q]? =
      (n.withoutReturns.states.map _)[q]?
    rw [Array.getElem?_map, states_withReturns, Array.getElem?_map]
    cases hs : n.withoutReturns.states[q]? with
    | none => rfl
    | some s => exact congrArg some (withoutReturns_linkedState hfault hs)
  exact congrArg (fun states => { n with states }) hstates

/-- **Linking is done once.**  A linked network is linked to itself. -/
theorem link_of_link (h : n.link = .ok m) : m.link = .ok m := by
  obtain ⟨hfault, rfl⟩ := link_cases h
  rw [link, withoutReturns_withReturns hfault, fault?_marked, hfault, withReturns_marked]

end Network
end AdaptiveLL

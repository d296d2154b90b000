import Mathlib
import AdaptiveLL.Network.Link

/-! # What linking does

Linking changes the states of a network one by one: a rule stop state gets the returns that follow
from the calls of its rule in place of those that it had, and every state is marked that has free
transitions only.  A network whose rule stop states lead nowhere has nothing to be replaced
(`Network.states_link`).
-/
namespace AdaptiveLL

/-- A transition leads to one of the first states, and so does the return from its call. -/
def Transition.Within (bound : Nat) (t : Transition) : Prop :=
  t.target < bound ∧
    ∀ target rule level follow, t = .call target rule level follow → follow < bound

namespace Network
variable {n n' : Network}

/-- A state with the returns that follow from the calls. -/
def linkedState (calls : List (Nat × Nat)) (s : State) : State :=
  let s := { s with transitions := s.transitions ++ returnsOf calls s.id }
  { s with freeOnly := s.hasOnlyFree }

/-- What linking looks at. -/
theorem fault?_eq_none_iff : n.fault? = none ↔ n.ruleStarts.size = n.ruleStops.size ∧
    n.placementFault? = none ∧ n.rulesFault? = none ∧ n.transitionsFault? = none ∧
      n.decisionsFault? = none ∧ n.lexerFault? = none := by
  simp [fault?]

theorem link_cases (h : n.link = .ok n') :
    n.withoutReturns.fault? = none ∧ n' = n.withoutReturns.withReturns := by
  rw [link] at h
  split at h
  · cases h
  · next hf => exact ⟨hf, (Except.ok.inj h).symm⟩

/-- Rule stop states that lead nowhere have no returns to lose. -/
theorem withoutReturns_eq (h : ∀ (q : Nat) (s : State), n.states[q]? = some s → s.isStop → s.transitions = []) :
    n.withoutReturns = n := by
  have hstates : n.states.map State.withoutReturns = n.states := by
    refine Array.ext_getElem? fun q => ?_
    rw [Array.getElem?_map]
    cases hq : n.states[q]? with
    | none => rfl
    | some s =>
      rw [Option.map_some, State.withoutReturns]
      split
      · next hs =>
        have hs' := h q s hq hs
        cases s
        dsimp only at hs'
        rw [hs', List.filter_nil]
      · rfl
  rw [withoutReturns, hstates]

theorem states_withReturns (n : Network) (q : Nat) :
    n.withReturns.states[q]? = n.states[q]?.map (linkedState n.calls) := by
  rw [withReturns]
  exact Array.getElem?_map

theorem mem_calls {stop follow : Nat} : (stop, follow) ∈ n.calls ↔
    ∃ (q : Nat) (s : State) (target rule : Nat) (level : Int), n.states[q]? = some s ∧
      .call target rule level follow ∈ s.transitions ∧ n.ruleStops[rule]? = some stop := by
  rw [calls, List.mem_flatMap]
  constructor
  · rintro ⟨s, hs, hmem⟩
    obtain ⟨t, ht, heq⟩ := List.mem_filterMap.mp hmem
    obtain ⟨q, hq⟩ := List.mem_iff_getElem?.mp hs
    rw [Array.getElem?_toList] at hq
    cases t with
    | call target rule level follow' =>
      obtain ⟨stop', hstop, he⟩ := Option.map_eq_some_iff.mp heq
      cases he
      exact ⟨q, s, target, rule, level, hq, ht, hstop⟩
    | _ => cases heq
  · rintro ⟨q, s, target, rule, level, hq, ht, hstop⟩
    rw [← Array.getElem?_toList] at hq
    refine ⟨s, List.mem_of_getElem? hq, List.mem_filterMap.mpr ⟨_, ht, ?_⟩⟩
    dsimp only
    rw [hstop, Option.map_some]

theorem mem_returnsOf {calls : List (Nat × Nat)} {id : Nat} {t : Transition} :
    t ∈ returnsOf calls id ↔ ∃ follow, t = .ret follow ∧ (id, follow) ∈ calls := by
  rw [returnsOf, List.mem_map]
  constructor
  · rintro ⟨⟨stop, follow⟩, hmem, rfl⟩
    obtain ⟨hcall, hid⟩ := List.mem_filter.mp hmem
    obtain rfl : stop = id := of_decide_eq_true hid
    exact ⟨follow, rfl, hcall⟩
  · rintro ⟨follow, rfl, hmem⟩
    exact ⟨(id, follow), List.mem_filter.mpr ⟨hmem, by simp⟩, rfl⟩

/-- Every transition was looked at. -/
theorem transitionFault?_of_fault? (h : n.fault? = none) {q : Nat} {s : State} {t : Transition}
    (hs : n.states[q]? = some s) (ht : t ∈ s.transitions) : n.transitionFault? s t = none := by
  rw [← Array.getElem?_toList] at hs
  have hstate := List.findSome?_eq_none_iff.mp (fault?_eq_none_iff.mp h).2.2.2.1 s (List.mem_of_getElem? hs)
  exact List.findSome?_eq_none_iff.mp hstate t ht

theorem within_of_transitionFault?_eq_none {s : State} {t : Transition}
    (h : n.transitionFault? s t = none) : t.Within n.states.size := by
  unfold transitionFault? at h
  by_cases htarget : n.states.size ≤ t.target
  · simp [htarget] at h
  · refine ⟨Nat.lt_of_not_le htarget, ?_⟩
    rintro target rule level follow rfl
    by_cases hcall : n.ruleStarts[rule]? = some target
    · by_cases hfollow : n.states.size ≤ follow
      · simp [htarget, hcall, hfollow] at h
      · exact Nat.lt_of_not_le hfollow
    · simp [htarget, hcall] at h

/-- In a linked network every transition and every call leads to a state. -/
theorem within_of_link (h : n.link = .ok n') {q : Nat} {s : State} {t : Transition}
    (hs : n'.states[q]? = some s) (ht : t ∈ s.transitions) : t.Within n'.states.size := by
  obtain ⟨hfault, rfl⟩ := link_cases h
  generalize n.withoutReturns = m at *
  have hsize : m.withReturns.states.size = m.states.size := by
    rw [withReturns]
    exact Array.size_map
  have hwithin : ∀ ⦃q : Nat⦄ ⦃s : State⦄, m.states[q]? = some s →
      ∀ t ∈ s.transitions, t.Within m.states.size := fun q s hs t ht =>
    within_of_transitionFault?_eq_none (transitionFault?_of_fault? hfault hs ht)
  rw [hsize]
  rw [states_withReturns, Option.map_eq_some_iff] at hs
  obtain ⟨s, hs, rfl⟩ := hs
  rcases List.mem_append.mp ht with ht | ht
  · exact hwithin hs t ht
  · obtain ⟨follow, rfl, hcall⟩ := mem_returnsOf.mp ht
    obtain ⟨p, u, target, rule, level, hu, hmem, -⟩ := mem_calls.mp hcall
    have hfollow : follow < m.states.size := (hwithin hu _ hmem).2 target rule level follow rfl
    exact ⟨hfollow, fun _ _ _ _ he => by cases he⟩

end Network
end AdaptiveLL

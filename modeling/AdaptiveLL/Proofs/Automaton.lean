import Mathlib
import AdaptiveLL.Automaton.Cache

/-! # Automata while they are filled

An automaton is filled by adding states, storing edges and saying where to begin.  States are never
changed but for their edges, so a state is looked at without them (`AutomatonState.bare`).

`Automaton.Filled` is an invariant with three parts that the user chooses: what holds of every
state, what holds of the state to begin in, and what holds between a state, a symbol and the state
that the stored edge leads to.  Each way of filling an automaton keeps it, if what is added
satisfies it.
-/
namespace AdaptiveLL

namespace AutomatonState

/-- A state without its edges. -/
def bare (s : AutomatonState) : AutomatonState := { s with edges := [] }

theorem bare_setEdge (s : AutomatonState) (x : Symbol) (t : Target) :
    (s.setEdge x t).bare = s.bare := by
  unfold setEdge
  split <;> rfl

theorem configs_bare (s : AutomatonState) : s.bare.configs = s.configs := rfl

theorem find?_putEdge (x y : Symbol) (t : Target) (es : List (Symbol × Target)) :
    (putEdge x t es).find? (fun e => e.1 = y) =
      if x = y then some (x, t) else es.find? fun e => e.1 = y := by
  induction es with
  | nil =>
    rw [putEdge, List.find?_cons]
    by_cases h : x = y <;> simp [h]
  | cons e es ih =>
    obtain ⟨z, u⟩ := e
    rw [putEdge]
    split
    · rw [List.find?_cons]
      by_cases h : x = y <;> simp [h]
    · split
      · next hxz =>
        subst hxz
        rw [List.find?_cons, List.find?_cons]
        by_cases h : x = y <;> simp [h]
      · next hxz =>
        rw [List.find?_cons, List.find?_cons, ih]
        by_cases hz : z = y
        · subst hz
          simp [hxz]
        · simp [hz]

/-- The edges of a state after one was stored. -/
theorem edge?_setEdge (s : AutomatonState) (x y : Symbol) (t : Target) :
    (s.setEdge x t).edge? y = if hasEdgeFor x ∧ x = y then some t else s.edge? y := by
  unfold setEdge edge?
  by_cases hx : hasEdgeFor x
  · rw [if_pos hx]
    simp only [find?_putEdge, hx, true_and]
    by_cases hxy : x = y <;> simp [hxy]
  · rw [if_neg hx]
    simp [hx]

end AutomatonState

namespace Automaton

/-- `b` has the states of `a`, perhaps with more edges, and perhaps more states. -/
def Extends (a b : Automaton) : Prop :=
  ∀ ⦃i : Nat⦄ ⦃s : AutomatonState⦄, a.states[i]? = some s →
    ∃ s', b.states[i]? = some s' ∧ s'.bare = s.bare

theorem Extends.refl (a : Automaton) : Extends a a := fun _ s h => ⟨s, h, rfl⟩

theorem Extends.trans {a b c : Automaton} (hab : Extends a b) (hbc : Extends b c) : Extends a c := by
  intro i s hs
  obtain ⟨s', hs', hb⟩ := hab hs
  obtain ⟨s'', hs'', hb'⟩ := hbc hs'
  exact ⟨s'', hs'', hb'.trans hb⟩

/-- The state that a target names, or none for nowhere, without its edges. -/
inductive Names (a : Automaton) : Target → Option AutomatonState → Prop
  | state {i : Nat} {s : AutomatonState} : a.states[i]? = some s → Names a (.state i) (some s.bare)
  | error : Names a .error none

theorem Names.mono {a b : Automaton} (h : Extends a b) {t : Target} {o : Option AutomatonState}
    (hn : Names a t o) : Names b t o := by
  cases hn with
  | error => exact .error
  | state hs =>
    obtain ⟨s', hs', hb⟩ := h hs
    rw [← hb]
    exact .state hs'

/-- What holds of the states, of the start and of the edges of an automaton. -/
structure Filled (every : AutomatonState → Prop) (first : AutomatonState → Prop)
    (edge : AutomatonState → Symbol → Option AutomatonState → Prop) (a : Automaton) : Prop where
  states : ∀ ⦃i : Nat⦄ ⦃s : AutomatonState⦄, a.states[i]? = some s → every s.bare
  start : ∀ ⦃t⦄, a.start = some t → ∃ s, Names a t (some s) ∧ first s
  edges : ∀ ⦃i : Nat⦄ ⦃s : AutomatonState⦄ ⦃x : Symbol⦄ ⦃t : Target⦄, a.states[i]? = some s →
    s.edge? x = some t → ∃ o, Names a t o ∧ edge s.bare x o

namespace Filled
variable {every every' first first' : AutomatonState → Prop}
  {edge edge' : AutomatonState → Symbol → Option AutomatonState → Prop} {a : Automaton}

theorem imp (h : Filled every first edge a) (he : ∀ s, every s → every' s)
    (hf : ∀ s, first s → first' s)
    (hd : ∀ s x o, every s → (∀ s', o = some s' → every s') → edge s x o → edge' s x o) :
    Filled every' first' edge' a where
  states _ _ hs := he _ (h.states hs)
  start _ ht := by
    obtain ⟨s, hn, hs⟩ := h.start ht
    exact ⟨s, hn, hf s hs⟩
  edges i s x t hs ht := by
    obtain ⟨o, hn, hed⟩ := h.edges hs ht
    refine ⟨o, hn, hd _ _ _ (h.states hs) (fun s' ho => ?_) hed⟩
    subst ho
    cases hn with
    | state hs' => exact h.states hs'

theorem every_of_names (h : Filled every first edge a) {t : Target} {s : AutomatonState}
    (ht : Names a t (some s)) : every s := by
  cases ht with
  | state hs => exact h.states hs

/-- What a stored edge leads to. -/
theorem edge_of_names (h : Filled every first edge a) {source t : Target} {s : AutomatonState}
    {x : Symbol} (hs : Names a source (some s)) (ht : a.edge? source x = some t) :
    ∃ o, Names a t o ∧ edge s x o := by
  cases hs with
  | @state i u hu =>
    have he : a.edge? (.state i) x = u.edge? x := by
      rw [edge?, state?, hu, Option.bind_some]
    exact h.edges hu (he.symm.trans ht)

/-- An automaton without states. -/
theorem clear (a : Automaton) : Filled every first edge a.clear where
  states i s hs := by simp [Automaton.clear] at hs
  start t ht := by simp [Automaton.clear] at ht
  edges i s x t hs := by simp [Automaton.clear] at hs

end Filled

theorem extends_setStart (a : Automaton) (t : Target) : Extends a (a.setStart t) :=
  fun _ s h => ⟨s, h, rfl⟩

/-- Saying where to begin. -/
theorem Filled.setStart {every first : AutomatonState → Prop}
    {edge : AutomatonState → Symbol → Option AutomatonState → Prop} {a : Automaton}
    (h : Filled every first edge a) {t : Target} {s : AutomatonState}
    (ht : Names a t (some s)) (hs : first s) : Filled every first edge (a.setStart t) where
  states := h.states
  start t' ht' := by
    cases ht'
    exact ⟨s, ht.mono (extends_setStart a t), hs⟩
  edges i s x t' hs ht' := by
    obtain ⟨o, hn, hed⟩ := h.edges hs ht'
    exact ⟨o, hn.mono (extends_setStart a t), hed⟩

theorem states_setEdge (a : Automaton) (i j : Nat) (x : Symbol) (t : Target) :
    (a.setEdge (.state i) x t).states[j]? =
      if i = j then (a.states[j]?).map (·.setEdge x t) else a.states[j]? := by
  change (a.states.modify i (·.setEdge x t))[j]? = _
  rw [Array.getElem?_modify]

theorem extends_setEdge (a : Automaton) (source : Target) (x : Symbol) (t : Target) :
    Extends a (a.setEdge source x t) := by
  cases source with
  | error => exact Extends.refl a
  | state i =>
    intro j s hs
    rw [states_setEdge, hs]
    by_cases h : i = j
    · rw [if_pos h]
      exact ⟨_, rfl, AutomatonState.bare_setEdge s x t⟩
    · rw [if_neg h]
      exact ⟨s, rfl, rfl⟩

/-- Storing an edge. -/
theorem Filled.setEdge {every first : AutomatonState → Prop}
    {edge : AutomatonState → Symbol → Option AutomatonState → Prop} {a : Automaton}
    (h : Filled every first edge a) {i : Nat} {s : AutomatonState} (hs : a.states[i]? = some s)
    {x : Symbol} {t : Target} {o : Option AutomatonState} (ht : Names a t o)
    (he : edge s.bare x o) : Filled every first edge (a.setEdge (.state i) x t) := by
  have hext := extends_setEdge a (.state i) x t
  -- A state after the edge was stored is a state from before, perhaps with that edge.
  have hback : ∀ {j : Nat} {u : AutomatonState}, (a.setEdge (.state i) x t).states[j]? = some u →
      ∃ v, a.states[j]? = some v ∧ (u = v ∨ i = j ∧ u = v.setEdge x t) := by
    intro j u hu
    rw [states_setEdge] at hu
    by_cases hij : i = j
    · rw [if_pos hij, Option.map_eq_some_iff] at hu
      obtain ⟨v, hv, rfl⟩ := hu
      exact ⟨v, hv, .inr ⟨hij, rfl⟩⟩
    · rw [if_neg hij] at hu
      exact ⟨u, hu, .inl rfl⟩
  refine ⟨fun j u hu => ?_, fun t' ht' => ?_, fun j u y t' hu ht' => ?_⟩
  · obtain ⟨v, hv, rfl | ⟨-, rfl⟩⟩ := hback hu
    · exact h.states hv
    · rw [AutomatonState.bare_setEdge]
      exact h.states hv
  · obtain ⟨v, hn, hf⟩ := h.start ht'
    exact ⟨v, hn.mono hext, hf⟩
  · obtain ⟨v, hv, rfl | ⟨rfl, rfl⟩⟩ := hback hu
    · obtain ⟨o', hn, hed⟩ := h.edges hv ht'
      exact ⟨o', hn.mono hext, hed⟩
    · rw [AutomatonState.edge?_setEdge] at ht'
      rw [AutomatonState.bare_setEdge]
      obtain rfl : s = v := Option.some.inj (hs.symm.trans hv)
      split at ht'
      · next hxy =>
        obtain ⟨-, rfl⟩ := hxy
        cases ht'
        exact ⟨o, ht.mono hext, he⟩
      · obtain ⟨o', hn, hed⟩ := h.edges hv ht'
        exact ⟨o', hn.mono hext, hed⟩

/-! ## Adding states -/

/-- Adding a state finds one with the same configurations, or puts it last. -/
theorem add_cases (a : Automaton) (s : AutomatonState) :
    (∃ i e, a.states[i]? = some e ∧ e.configs.same s.configs ∧ a.add s = (.state i, a)) ∨
      a.add s = (.state a.states.size,
        { a with states := a.states.push { s with configs := s.configs.publish } }) := by
  unfold add
  cases hf : a.states.findIdx? fun t => t.configs.same s.configs with
  | none => exact .inr rfl
  | some i =>
    obtain ⟨hlt, hsame, -⟩ := Array.findIdx?_eq_some_iff_getElem.mp hf
    exact .inl ⟨i, a.states[i], Array.getElem?_eq_getElem hlt, hsame, rfl⟩

theorem netState_add (a : Automaton) (s : AutomatonState) : (a.add s).2.netState = a.netState := by
  rcases a.add_cases s with ⟨i, e, -, -, heq⟩ | heq
  · rw [heq]
  · rw [heq]

theorem extends_add (a : Automaton) (s : AutomatonState) : Extends a (a.add s).2 := by
  rcases a.add_cases s with ⟨i, e, -, -, heq⟩ | heq
  · rw [heq]
    exact Extends.refl a
  · rw [heq]
    intro i u hu
    obtain ⟨hlt, -⟩ := Array.getElem?_eq_some_iff.mp hu
    refine ⟨u, ?_, rfl⟩
    change (a.states.push _)[i]? = some u
    rw [Array.getElem?_push_lt hlt, ← Array.getElem?_eq_getElem hlt]
    exact hu

/-- Adding a state without edges gives a state of the automaton that has the same configurations. -/
theorem Filled.add {every first : AutomatonState → Prop}
    {edge : AutomatonState → Symbol → Option AutomatonState → Prop} {a : Automaton}
    (h : Filled every first edge a) {s : AutomatonState} (hs : s.edges = [])
    (he : every { s with configs := s.configs.publish }) :
    Filled every first edge (a.add s).2 ∧ ∃ e, Names (a.add s).2 (a.add s).1 (some e) ∧ every e ∧
      (e.configs.same s.configs ∨ e = { s with configs := s.configs.publish }) := by
  have hext := a.extends_add s
  rcases a.add_cases s with ⟨i, e, hi, hsame, heq⟩ | heq
  · rw [heq]
    exact ⟨h, e.bare, .state hi, h.states hi, .inl hsame⟩
  · have hbare : ({ s with configs := s.configs.publish } : AutomatonState).bare =
        { s with configs := s.configs.publish } := by
      rw [AutomatonState.bare]
      simp only [hs]
    rw [heq] at hext ⊢
    have hback : ∀ {j : Nat} {u : AutomatonState}, (a.states.push { s with configs := s.configs.publish })[j]? = some u →
        a.states[j]? = some u ∨ u = { s with configs := s.configs.publish } := by
      intro j u hu
      rw [Array.getElem?_push] at hu
      split at hu
      · exact .inr (Option.some.inj hu).symm
      · exact .inl hu
    refine ⟨⟨fun j u hu => ?_, fun t ht => ?_, fun j u x t hu ht => ?_⟩, _, ?_, he, .inr rfl⟩
    · rcases hback hu with hu | rfl
      · exact h.states hu
      · rw [hbare]
        exact he
    · obtain ⟨v, hn, hf⟩ := h.start ht
      exact ⟨v, hn.mono hext, hf⟩
    · rcases hback hu with hu | rfl
      · obtain ⟨o, hn, hed⟩ := h.edges hu ht
        exact ⟨o, hn.mono hext, hed⟩
      · simp [AutomatonState.edge?, hs] at ht
    · have hn : Names { a with states := a.states.push { s with configs := s.configs.publish } }
          (.state a.states.size) (some (AutomatonState.bare _)) :=
        .state Array.getElem?_push_size
      rwa [hbare] at hn

end Automaton
end AdaptiveLL

import Mathlib
import AdaptiveLL.Proofs.Lexing.Thread
import AdaptiveLL.Proofs.Network.Machine

/-! # What closures collect

Closing a thread collects threads that are at rest: at the end of a token rule, or before something is consumed
(`Network.Rests`).  On the way it pops stacks and follows transitions.  What these keep of a thread
(`Thread.Kept`) holds of all that is collected, if it holds of the thread that is closed (`Thread.trace_keeps`).
And whatever a match begins with or goes on with is collected by such a closure (`Thread.mem_starts`,
`Thread.mem_reachFrom`).
-/
namespace AdaptiveLL

/-- A spot where a closure stops: the end of a token rule, or before something is consumed. -/
def Network.Rests (n : Network) (z : Spot) : Prop :=
  (n.isStop z.state ∧ z.stack = []) ∨ (¬ n.isStop z.state ∧ (n.state z.state).freeOnly = false)

namespace Thread
variable {n : Network} {env : Outlook Unit} {P : Thread → Prop} {t : Thread}

/-- Where a thread stands. -/
def spot (t : Thread) : Spot := ⟨t.state, t.stack⟩

/-- A property of threads that popping the stack and following a transition keep. -/
structure Kept (env : Outlook Unit) (P : Thread → Prop) : Prop where
  pop : ∀ {t : Thread} {x : Nat} {below : List Nat}, P t → env.network.isStop t.state → t.stack = x :: below →
    P { t with state := x, stack := below }
  along : ∀ {t : Thread} {tr : Transition} {s : State}, P t → ¬ env.network.isStop t.state →
    tr ∈ (env.network.state t.state).transitions → isFree env tr → P (along env.network t tr s)

/-- An item of a closure whose thread has a property, and whose transition is one of the ways on. -/
def Item.Has (n : Network) (P : Thread → Prop) : Item → Prop
  | .arrive t => P t
  | .follow t tr => P t ∧ ¬ n.isStop t.state ∧ tr ∈ (n.state t.state).transitions

/-- Threads at rest that have a property. -/
def RestWith (n : Network) (P : Thread → Prop) (ts : List Thread) : Prop := ∀ t ∈ ts, P t ∧ n.Rests t.spot

theorem RestWith.concat {ts : List Thread} (h : RestWith n P ts) (ht : P t) (hrests : n.Rests t.spot) :
    RestWith n P (ts ++ [t]) := by
  intro u hu
  rcases List.mem_append.mp hu with hu | hu
  · exact h u hu
  · obtain rfl := List.mem_singleton.mp hu
    exact ⟨ht, hrests⟩

/-- Reaching a thread collects it only where it is at rest. -/
theorem arrive_keeps (hP : Kept env P) (ht : P t) :
    Run.Meets (fun p => RestWith env.network P p.collected) (arrive env t)
      (fun o p => RestWith env.network P p.collected ∧ ∀ i ∈ o.getD [], i.Has env.network P) fun _ _ => True := by
  intro p hp
  rw [arrive_apply]
  cases hs : env.network.state? t.state with
  | error e => trivial
  | ok s =>
    have hstate := Network.state_of_state? hs
    dsimp only
    -- At a stop a thread is collected if no frames are left, elsewhere if it can consume.
    by_cases hstop : s.isStop
    · have hisStop : env.network.isStop t.state := by
        rw [Network.isStop, hstate]
        exact hstop
      rw [if_pos hstop]
      cases hstack : t.stack with
      | nil => exact ⟨hp.concat ht (.inl ⟨hisStop, hstack⟩), fun i hi => absurd hi List.not_mem_nil⟩
      | cons x below =>
        refine ⟨hp, fun i hi => ?_⟩
        obtain rfl := List.mem_singleton.mp hi
        exact hP.pop ht hisStop hstack
    · have hisStop : ¬ env.network.isStop t.state := by
        rw [Network.isStop, hstate]
        exact hstop
      rw [if_neg hstop]
      by_cases hseen : t ∈ p.visited
      · rw [if_pos hseen]
        exact ⟨hp, fun i hi => absurd hi List.not_mem_nil⟩
      · rw [if_neg hseen]
        refine ⟨?_, fun i hi => ?_⟩
        · show RestWith env.network P (if _ then _ else _)
          split
          · next hwanted =>
            have hfree : s.freeOnly = false := by
              rw [Bool.and_eq_true, Bool.not_eq_true'] at hwanted
              exact hwanted.1
            exact hp.concat ht (.inr ⟨hisStop, by rwa [spot, hstate]⟩)
          · exact hp
        · obtain ⟨tr, htr, rfl⟩ := List.mem_map.mp hi
          exact ⟨ht, hisStop, by rwa [hstate]⟩

theorem visit_keeps (hP : Kept env P) {i : Item} (hi : i.Has env.network P) :
    Run.Meets (fun p => RestWith env.network P p.collected) (visit env i)
      (fun o p => RestWith env.network P p.collected ∧ ∀ j ∈ o.getD [], j.Has env.network P) fun _ _ => True := by
  cases i with
  | arrive t => exact arrive_keeps hP hi
  | follow t tr =>
    intro p hp
    obtain ⟨ht, hstop, htr⟩ := hi
    rw [visit_follow, next?]
    by_cases hfree : isFree env tr
    · rw [if_pos hfree]
      cases env.network.state? tr.target with
      | error e => trivial
      | ok s => exact arrive_keeps hP (hP.along ht hstop htr hfree) _ hp
    · rw [if_neg hfree]
      exact ⟨hp, fun j hj => absurd hj List.not_mem_nil⟩

/-- **What popping and following keep holds of whatever a closure collects.** -/
theorem trace_keeps (hP : Kept env P) (ht : P t) {finished : Bool} {p : Progress}
    (h : trace env finished t = .ok p) : RestWith env.network P p.collected := by
  have hmeets : Run.Meets (fun p => RestWith env.network P p.collected) (DepthFirst.walk (visit env)
      (.closureDepthExceeded (env.maxDepth + 1) env.maxDepth) env.maxDepth (.arrive t))
      (fun _ p => RestWith env.network P p.collected) fun _ _ => True :=
    DepthFirst.walk_meets (fun i hi => visit_keeps hP hi) (fun _ _ => trivial) env.maxDepth ht
  have hend := hmeets { finished } fun u hu => absurd hu List.not_mem_nil
  unfold trace at h
  split at h
  · next hrun =>
    cases h
    rw [hrun] at hend
    exact hend
  · cases h

/-! ## What is gathered -/

/-- What succeeds in two steps succeeds in the first. -/
theorem ok_of_bind {α β : Type} {a : Except RecognitionError α} {k : α → Except RecognitionError β} {b : β}
    (h : (a >>= k) = .ok b) : ∃ x, a = .ok x ∧ k x = .ok b := by
  cases a with
  | error e => cases h
  | ok x => exact ⟨x, rfl, h⟩

/-- A thread is moved over a character with its stack, and stays with its alternative. -/
theorem eq_of_cross {offset : Nat} {tr : Transition} {d : Thread} (h : cross n offset t tr = .ok d) :
    d.spot = ⟨tr.target, t.stack⟩ ∧ d.alt = t.alt := by
  obtain ⟨q, -, hd⟩ := ok_of_bind h
  cases hd
  exact ⟨rfl, rfl⟩

/-- Threads with which alternatives begin are collected at the targets of transitions. -/
theorem mem_startFrom {alt : Nat} {s s' : Sweep} {trs : List Transition} (h : startFrom env alt s trs = .ok s')
    {u : Thread} (hu : u ∈ s'.threads) : u ∈ s.threads ∨
      ∃ tr ∈ trs, ∃ i p, trace env false { state := tr.target, alt := i } = .ok p ∧ u ∈ p.collected := by
  induction trs generalizing alt s with
  | nil =>
    cases h
    exact .inl hu
  | cons tr rest ih =>
    obtain ⟨p, hp, h⟩ := ok_of_bind h
    rcases ih h with hu | ⟨tr', htr', hfrom⟩
    · rcases List.mem_append.mp hu with hu | hu
      · exact .inl hu
      · exact .inr ⟨tr, List.mem_cons_self, alt, p, hp, hu⟩
    · exact .inr ⟨tr', List.mem_cons_of_mem tr htr', hfrom⟩

theorem mem_starts {state : Nat} {s : Sweep} (h : starts env state = .ok s) {u : Thread} (hu : u ∈ s.threads) :
    ∃ tr ∈ (env.network.state state).transitions, ∃ i p,
      trace env false { state := tr.target, alt := i } = .ok p ∧ u ∈ p.collected := by
  obtain ⟨q, hq, h⟩ := ok_of_bind h
  rw [Network.state_of_state? hq]
  exact (mem_startFrom h hu).resolve_left List.not_mem_nil

/-- Threads that another comes to over a character are collected behind transitions. -/
theorem mem_reachFrom {offset : Nat} {finished : Bool} {s : Sweep} {trs : List Transition} {r : Bool × Sweep}
    (h : reachFrom env offset finished t s trs = .ok r) {u : Thread} (hu : u ∈ r.2.threads) : u ∈ s.threads ∨
      ∃ tr ∈ trs, ∃ d p, cross env.network offset t tr = .ok d ∧ trace env finished d = .ok p ∧ u ∈ p.collected := by
  induction trs generalizing s with
  | nil =>
    cases h
    exact .inl hu
  | cons tr rest ih =>
    obtain ⟨d, hd, h⟩ := ok_of_bind h
    obtain ⟨p, hp, h⟩ := ok_of_bind h
    have hadd : u ∈ (s.add p).threads → u ∈ s.threads ∨ ∃ tr' ∈ tr :: rest, ∃ d p,
        cross env.network offset t tr' = .ok d ∧ trace env finished d = .ok p ∧ u ∈ p.collected := by
      intro hu
      rcases List.mem_append.mp hu with hu | hu
      · exact .inl hu
      · exact .inr ⟨tr, List.mem_cons_self, d, p, hd, hp, hu⟩
    split at h
    · cases h
      exact hadd hu
    · rcases ih h with hu | ⟨tr', htr', hfrom⟩
      · exact hadd hu
      · exact .inr ⟨tr', List.mem_cons_of_mem tr htr', hfrom⟩

end Thread
end AdaptiveLL

import Mathlib
import AdaptiveLL.Proofs.Lexing.Faithful
import AdaptiveLL.Proofs.Lexing.Spots
import AdaptiveLL.Proofs.Lexing.Within

/-! # Threads inside a closed network

In a closed network every transition leads to a state of the network.  Threads whose states are states of
the network (`Thread.Inside`) stay so, and closing them fails only where it is too deep
(`Thread.failsWith_reach`).
-/
namespace AdaptiveLL

namespace Thread
variable {n : Network} {env : Outlook Unit} {t : Thread} {tr : Transition}

/-- The states of a thread are states of the network. -/
def Inside (n : Network) (t : Thread) : Prop := t.state < n.states.size ∧ ∀ q ∈ t.stack, q < n.states.size

/-- The states that an item names are states of the network. -/
def Item.Inside (n : Network) : Item → Prop
  | .arrive t => Thread.Inside n t
  | .follow t tr => Thread.Inside n t ∧ tr.Within n.states.size

theorem exists_state {q : Nat} (hq : q < n.states.size) :
    ∃ s, n.states[q]? = some s ∧ n.state? q = .ok s := by
  have hs := Array.getElem?_eq_getElem hq
  exact ⟨_, hs, by rw [Network.state?, hs]⟩

theorem Inside.along (ht : t.Inside n) (htr : tr.Within n.states.size) (s : State) :
    (along n t tr s).Inside n := by
  refine ⟨htr.1, ?_⟩
  cases tr with
  | call target rule level follow =>
    intro q hq
    rcases List.mem_cons.mp hq with rfl | hq
    · exact htr.2 _ _ _ _ rfl
    · exact ht.2 q hq
  | _ => exact ht.2

/-- The error of a closure that is too deep. -/
def TooDeep (maxDepth : Nat) (e : RecognitionError) : Prop := e = .closureDepthExceeded (maxDepth + 1) maxDepth

/-- Within a closed network a visit does not fail. -/
theorem visit_meets (hn : env.network.Closed) {i : Item} (hi : i.Inside env.network) :
    Run.Meets (fun _ => True) (visit env i) (fun o _ => True ∧ ∀ j ∈ o.getD [], j.Inside env.network)
      fun e _ => TooDeep env.maxDepth e := by
  have harrive : ∀ u : Thread, u.Inside env.network → Run.Meets (fun _ => True) (arrive env u)
      (fun o _ => True ∧ ∀ j ∈ o.getD [], j.Inside env.network) fun e _ => TooDeep env.maxDepth e := by
    intro u hu p _
    obtain ⟨s, hs, hstate⟩ := exists_state hu.1
    rw [arrive_apply, hstate]
    dsimp only
    by_cases hstop : s.isStop
    · rw [if_pos hstop]
      cases hstack : u.stack with
      | nil => exact ⟨trivial, fun j hj => absurd hj List.not_mem_nil⟩
      | cons x rest =>
        refine ⟨trivial, fun j hj => ?_⟩
        obtain rfl := List.mem_singleton.mp hj
        rw [Inside, hstack] at hu
        exact ⟨hu.2 x List.mem_cons_self, fun q hq => hu.2 q (List.mem_cons_of_mem x hq)⟩
    · rw [if_neg hstop]
      by_cases hseen : u ∈ p.visited
      · rw [if_pos hseen]
        exact ⟨trivial, fun j hj => absurd hj List.not_mem_nil⟩
      · rw [if_neg hseen]
        refine ⟨trivial, fun j hj => ?_⟩
        obtain ⟨tr, htr, rfl⟩ := List.mem_map.mp hj
        exact ⟨hu, hn.transitions hs tr htr⟩
  -- Following a transition is reaching its target, which is in the network.
  cases i with
  | arrive u => exact harrive u hi
  | follow u tr =>
    intro p _
    rw [visit_follow, next?]
    obtain ⟨hu, htr⟩ := hi
    obtain ⟨s, -, hstate⟩ := exists_state htr.1
    by_cases hfree : isFree env tr
    · rw [if_pos hfree, hstate]
      exact harrive _ (hu.along htr s) _ trivial
    · rw [if_neg hfree]
      exact ⟨trivial, fun j hj => absurd hj List.not_mem_nil⟩

/-- Whatever error something ends with has a property. -/
def FailsWith {α : Type} (bad : RecognitionError → Prop) (a : Except RecognitionError α) : Prop :=
  ∀ e, a = .error e → bad e

theorem FailsWith.ok {α : Type} {bad : RecognitionError → Prop} (a : α) : FailsWith bad (.ok a) := nofun

theorem FailsWith.bind {α β : Type} {bad : RecognitionError → Prop} {a : Except RecognitionError α}
    {k : α → Except RecognitionError β} (ha : FailsWith bad a)
    (hk : ∀ x, a = .ok x → FailsWith bad (k x)) : FailsWith bad (a >>= k) := by
  cases a with
  | error e =>
    intro e' he
    cases he
    exact ha e rfl
  | ok x => exact hk x rfl

theorem failsWith_state? {bad : RecognitionError → Prop} {q : Nat} (hq : q < n.states.size) :
    FailsWith bad (n.state? q) := by
  obtain ⟨s, -, hs⟩ := exists_state hq
  rw [hs]
  exact .ok s

/-- Within a closed network closing a thread fails only where it is too deep. -/
theorem failsWith_trace (hn : env.network.Closed) (ht : t.Inside env.network) (finished : Bool) :
    FailsWith (TooDeep env.maxDepth) (trace env finished t) := by
  have hmeets : Run.Meets (fun _ => True) (DepthFirst.walk (visit env)
      (.closureDepthExceeded (env.maxDepth + 1) env.maxDepth) env.maxDepth (.arrive t))
      (fun _ _ => True) fun e _ => TooDeep env.maxDepth e :=
    DepthFirst.walk_meets (fun i hi => visit_meets hn hi) (fun _ _ => rfl) env.maxDepth ht
  intro e h
  unfold trace at h
  have hend := hmeets { finished } trivial
  split at h
  · cases h
  · next hrun =>
    cases h
    rw [hrun] at hend
    exact hend

theorem failsWith_reach (hn : env.network.Closed) (offset : Nat) (x : Symbol) {ts : List Thread}
    (hts : ∀ t ∈ ts, t.Inside env.network) :
    FailsWith (TooDeep env.maxDepth) (reach env offset x ts) := by
  -- First the transitions of one thread, then the threads one by one.
  have hfrom : ∀ (finished : Bool) (t : Thread) (s : Sweep) (trs : List Transition), t.Inside env.network →
      (∀ tr ∈ trs, tr.Within env.network.states.size) →
      FailsWith (TooDeep env.maxDepth) (reachFrom env offset finished t s trs) := by
    intro finished t s trs ht
    induction trs generalizing s with
    | nil => exact fun _ => .ok _
    | cons tr rest ih =>
      intro htrs
      have htr := htrs tr List.mem_cons_self
      refine ((failsWith_state? htr.1).bind fun q _ => .ok _).bind fun d hd => ?_
      have hinside : d.Inside env.network := by
        obtain ⟨q, -, hd⟩ := ok_of_bind hd
        cases hd
        exact ⟨htr.1, ht.2⟩
      refine (failsWith_trace hn hinside finished).bind fun p _ => ?_
      split
      · exact .ok _
      · exact ih _ fun tr' htr' => htrs tr' (List.mem_cons_of_mem tr htr')
  have hall : ∀ (ts : List Thread) (done : Option Nat) (s : Sweep), (∀ t ∈ ts, t.Inside env.network) →
      FailsWith (TooDeep env.maxDepth) (reachAll env offset x done s ts) := by
    intro ts
    induction ts with
    | nil => exact fun _ _ _ => .ok _
    | cons t rest ih =>
      intro done s hts
      have hrest : ∀ u ∈ rest, u.Inside env.network := fun u hu => hts u (List.mem_cons_of_mem t hu)
      have ht := hts t List.mem_cons_self
      unfold reachAll
      split
      · exact ih _ _ hrest
      · refine (failsWith_state? ht.1).bind fun q hq => (hfrom _ _ _ _ ht fun tr htr => ?_).bind
          fun r _ => ih _ _ hrest
        obtain ⟨q', hq', hstate⟩ := exists_state ht.1
        rw [hstate] at hq
        cases hq
        exact hn.transitions hq' tr (List.mem_of_mem_filter htr)
  exact hall ts none {} hts

theorem failsWith_starts (hn : env.network.Closed) {start : Nat} (hstart : start < env.network.states.size) :
    FailsWith (TooDeep env.maxDepth) (starts env start) := by
  have hfrom : ∀ (trs : List Transition) (alt : Nat) (s : Sweep),
      (∀ tr ∈ trs, tr.Within env.network.states.size) →
      FailsWith (TooDeep env.maxDepth) (startFrom env alt s trs) := by
    intro trs
    induction trs with
    | nil => exact fun _ _ _ => .ok _
    | cons tr rest ih =>
      intro alt s htrs
      refine (failsWith_trace hn ⟨(htrs tr List.mem_cons_self).1, fun q hq => absurd hq List.not_mem_nil⟩
        false).bind fun p _ => ?_
      exact ih _ _ fun tr' htr' => htrs tr' (List.mem_cons_of_mem tr htr')
  refine (failsWith_state? hstart).bind fun s hs => hfrom _ _ _ fun tr htr => ?_
  obtain ⟨s', hs', hstate⟩ := exists_state hstart
  rw [hstate] at hs
  cases hs
  exact hn.transitions hs' tr htr

/-- Recognising fails only at the end of a rule without a token type. -/
theorem failsWith_recognised? {bad : RecognitionError → Prop} {ts : List Thread}
    (hts : ∀ t ∈ ts, t.Inside n)
    (htypes : ∀ t ∈ ts, n.isStop t.state → (n.state t.state).rule < n.tokenTypes.size) :
    FailsWith bad (recognised? n ts) := by
  induction ts with
  | nil => exact .ok _
  | cons t rest ih =>
    obtain ⟨s, -, hs⟩ := exists_state (hts t List.mem_cons_self).1
    intro e he
    unfold recognised? at he
    rw [hs] at he
    dsimp only at he
    by_cases hstop : s.isStop
    · have hlt := htypes t List.mem_cons_self (by rw [Network.isStop, Network.state_of_state? hs]; exact hstop)
      rw [Network.state_of_state? hs] at hlt
      rw [if_pos hstop, Array.getElem?_eq_getElem hlt] at he
      cases he
    · rw [if_neg hstop] at he
      exact ih (fun u hu => hts u (List.mem_cons_of_mem t hu))
        (fun u hu => htypes u (List.mem_cons_of_mem t hu)) e he

end Thread

/-- Reading stays among the states of a closed network. -/
theorem Network.Reads.inside {n : Network} (hn : n.Closed) {lo hi : Int} {w : List Symbol} {s t : Spot}
    (h : n.Reads lo hi s w t) (hs : s.state < n.states.size ∧ ∀ q ∈ s.stack, q < n.states.size) :
    t.state < n.states.size ∧ ∀ q ∈ t.stack, q < n.states.size := by
  have hways : ∀ {q tr}, q < n.states.size → tr ∈ n.ways q → tr.Within n.states.size := by
    intro q tr hq htr
    obtain ⟨u, hu, hstate⟩ := Thread.exists_state hq
    rw [Network.ways, Network.state_of_state? hstate] at htr
    exact hn.transitions hu tr htr
  induction h with
  | refl => exact hs
  | free hf _ ih =>
    apply ih
    cases hf with
    | pass _ htr _ => exact ⟨(hways hs.1 htr).1, hs.2⟩
    | call _ htr =>
      refine ⟨(hways hs.1 htr).1, fun q hq => ?_⟩
      rcases List.mem_cons.mp hq with rfl | hq
      · exact (hways hs.1 htr).2 _ _ _ _ rfl
      · exact hs.2 q hq
    | pop _ => exact ⟨hs.2 _ List.mem_cons_self, fun q hq => hs.2 q (List.mem_cons_of_mem _ hq)⟩
  | eat he _ ih =>
    apply ih
    cases he with
    | along _ htr _ => exact ⟨(hways hs.1 htr).1, hs.2⟩

end AdaptiveLL

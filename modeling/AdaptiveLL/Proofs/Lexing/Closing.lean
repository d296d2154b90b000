import Mathlib
import AdaptiveLL.Proofs.DepthFirst.Recursion
import AdaptiveLL.Proofs.Grammar.Rules
import AdaptiveLL.Proofs.Lexing.Offsets
import AdaptiveLL.Proofs.Network.Machine

/-! # Closing a thread along one way after another

A closure that is not cut short is a plain recursion (`DepthFirst.Explores`), which a network that is known
state by state lets one follow by hand.  `Thread.Closes` is such a closure between what was come to before and
after it.  There is one lemma for each kind of state it meets: with one free way on (`Thread.closes_one`), with
two (`Thread.closes_two`), with a way that consumes a character (`Thread.closes_rest`), and the end of a rule
(`Thread.closes_end`).  A state that was visited would be passed over, so each asks that it was not.

Consuming a character then goes from thread to thread, and each of them gives way to the closure of what it
reaches, or to nothing (`Thread.reachAll_across`, `Thread.reachAll_beside`, `Thread.reachAll_spent`).
-/
namespace AdaptiveLL

namespace Thread
variable {env : Outlook Unit} {t : Thread} {tr : Transition} {p q : Progress} {y z : Nat}

theorem lt_size_of_ways {n : Network} {q : Nat} (h : n.ways q ≠ []) : q < n.states.size := by
  obtain ⟨_, ht⟩ := List.exists_mem_of_ne_nil _ h
  exact Layout.lt_of_mem_ways ht

/-- Closing a thread leads from what was come to to this. -/
def Closes (env : Outlook Unit) (t : Thread) (p q : Progress) : Prop :=
  ∃ nesting, DepthFirst.Explores (visit env) nesting (.arrive t) p q

theorem closes_of_trace {finished : Bool} (h : trace env finished t = .ok p) : Closes env t { finished } p := by
  unfold trace at h
  rw [DepthFirst.walk_eq_descend] at h
  rcases hd : DepthFirst.descend (visit env) (.closureDepthExceeded (env.maxDepth + 1) env.maxDepth)
      env.maxDepth (.arrive t) { finished } with ⟨e | u, p'⟩ <;> rw [hd] at h
  · cases h
  · cases h
    exact ⟨_, (DepthFirst.descend_eq_ok_iff _ _ _ _).mp hd⟩

/-- A thread moved along a free transition to a state. -/
def past (n : Network) (t : Thread) (z : Nat) : Thread :=
  { t with state := z, passedLazy := t.passedLazy || ((n.state z).nonGreedy && (n.state z).kind.isDecision) }

/-- No thread was visited at a state. -/
def Progress.Spares (p : Progress) (z : Nat) : Prop := ∀ t ∈ p.visited, t.state ≠ z

/-- A thread is noted as visited. -/
def Progress.mark (p : Progress) (t : Thread) : Progress := { p with visited := t :: p.visited }

@[simp] theorem Progress.spares_mark : (p.mark t).Spares z ↔ t.state ≠ z ∧ p.Spares z := List.forall_mem_cons

@[simp] theorem Progress.spares_collected {ts : List Thread} :
    ({ p with collected := ts } : Progress).Spares z ↔ p.Spares z := Iff.rfl

theorem Progress.spares_start (finished : Bool) : ({ finished } : Progress).Spares z :=
  fun _ ht => absurd ht List.not_mem_nil

/-- What a thread opens that has not finished a rule. -/
theorem visit_arrive (hways : env.network.ways t.state ≠ []) (hstop : ¬ env.network.isStop t.state)
    (hnew : p.Spares t.state) : visit env (.arrive t) p = opened (env.network.state t.state) t p := by
  change arrive env t p = _
  rw [arrive_apply, Network.state?_eq (lt_size_of_ways hways)]
  dsimp only
  rw [if_neg (show ¬ (env.network.state t.state).isStop = true from hstop), if_neg fun hmem => hnew t hmem rfl]

theorem explores_congr {i j : Item} {nesting : Nat} {p' : Progress} (h : visit env i p = visit env j p')
    (hi : DepthFirst.Explores (visit env) nesting i p q) : DepthFirst.Explores (visit env) nesting j p' q := by
  cases hi with
  | leaf hv => exact .leaf (h.symm.trans hv)
  | node hv hall => exact .node (h.symm.trans hv) hall

/-- Following a free transition. -/
theorem closes_of_follow {nesting : Nat}
    (h : DepthFirst.Explores (visit env) nesting (.follow t (.epsilon z)) p q) :
    Closes env (past env.network t z) p q := by
  have hvisit := visit_follow env t (.epsilon z) p
  unfold next? at hvisit
  rw [if_pos (show isFree env (.epsilon z) = true from rfl)] at hvisit
  cases hs : env.network.state? z with
  | error e =>
    have herror : visit env (.follow t (.epsilon z)) p = (.error e, { p with asked := p.asked || false }) := by
      rw [hvisit, show Transition.target (.epsilon z) = z from rfl, hs]
      rfl
    cases h with
    | leaf hv => rw [herror] at hv; cases hv
    | node hv => rw [herror] at hv; cases hv
  | ok s =>
    refine ⟨nesting, explores_congr ?_ h⟩
    rw [hvisit, show Transition.target (.epsilon z) = z from rfl, hs]
    change arrive env _ { p with asked := p.asked || false } = arrive env _ p
    rw [Bool.or_false, past, Network.state_of_state? hs]
    rfl

section
variable (hfree : ∀ q, (env.network.state q).freeOnly = (env.network.state q).hasOnlyFree)
  (hstop : ¬ env.network.isStop t.state) (hnew : p.Spares t.state)
include hfree hstop hnew

/-- From a state with free transitions only the closure goes on along them. -/
theorem exploresAll_of_free (hways : ∀ tr ∈ env.network.ways t.state, tr.isFree)
    (hsome : env.network.ways t.state ≠ []) (h : Closes env t p q) :
    ∃ nesting, DepthFirst.ExploresAll (visit env) nesting ((env.network.ways t.state).map (Item.follow t))
      (p.mark t) q := by
  have hopened := visit_arrive hsome hstop hnew
  have honly : (env.network.state t.state).freeOnly = true := by
    rw [hfree, State.hasOnlyFree, Bool.and_eq_true, Bool.not_eq_true', List.isEmpty_eq_false_iff, List.all_eq_true]
    exact ⟨hsome, hways⟩
  rw [opened, honly] at hopened
  obtain ⟨nesting, h⟩ := h
  cases h with
  | leaf hv =>
    rw [hopened] at hv
    cases hv
  | node hv hall =>
    rw [hopened] at hv
    cases hv
    exact ⟨_, hall⟩

/-- One free transition. -/
theorem closes_one (hways : env.network.ways t.state = [.epsilon z]) (h : Closes env t p q) :
    Closes env (past env.network t z) (p.mark t) q := by
  obtain ⟨nesting, h⟩ := exploresAll_of_free hfree hstop hnew (by simp [hways, Transition.isFree]) (by simp [hways]) h
  rw [hways] at h
  cases h with
  | cons hfirst hrest =>
    cases hrest
    exact closes_of_follow hfirst

/-- Two free transitions, one after the other. -/
theorem closes_two (hways : env.network.ways t.state = [.epsilon y, .epsilon z]) (h : Closes env t p q) :
    ∃ r, Closes env (past env.network t y) (p.mark t) r ∧ Closes env (past env.network t z) r q := by
  obtain ⟨nesting, h⟩ := exploresAll_of_free hfree hstop hnew (by simp [hways, Transition.isFree]) (by simp [hways]) h
  rw [hways] at h
  cases h with
  | cons hfirst hrest =>
    cases hrest with
    | cons hsecond hnil =>
      cases hnil
      exact ⟨_, closes_of_follow hfirst, closes_of_follow hsecond⟩

/-- A transition that consumes a character is not followed, but the thread is collected. -/
theorem closes_rest (hways : env.network.ways t.state = [tr]) (hconsumes : tr.isFree = false)
    (hend : env.endIsFree = true → tr.consumes minCodePoint maxCodePoint endOfInput = false)
    (hfinished : p.finished = false) (h : Closes env t p q) :
    q = { p.mark t with collected := p.collected ++ [t] } := by
  have hopened : visit env (.arrive t) p = opened (env.network.state t.state) t p :=
    visit_arrive (by simp [hways]) hstop hnew
  have honly : (env.network.state t.state).freeOnly = false := by
    have hway : (env.network.state t.state).transitions = [tr] := hways
    rw [hfree, State.hasOnlyFree, hway]
    simp [hconsumes]
  have hway : (env.network.state t.state).transitions = [tr] := hways
  rw [opened, honly, hfinished, hway] at hopened
  have hblocked : isFree env tr = false ∧ asks tr = false := by
    refine ⟨?_, ?_⟩
    · cases tr with
      | symbol | range | set =>
        rw [isFree, Bool.and_eq_false_imp]
        exact hend
      | notSet | wildcard => rfl
      | _ => cases hconsumes
    · cases tr <;> first | rfl | cases hconsumes
  -- The transition consumes, so following it leads nowhere.
  have hfollow : ∀ p', visit env (.follow t tr) p' = (.ok none, p') := by
    intro p'
    rw [visit_follow, next?, hblocked.1, hblocked.2]
    simp
  obtain ⟨nesting, h⟩ := h
  cases h with
  | leaf hv =>
    rw [hopened] at hv
    cases hv
  | node hv hall =>
    rw [hopened] at hv
    cases hv
    cases hall with
    | cons hfirst hnil =>
      cases hnil
      cases hfirst with
      | leaf hv =>
        rw [hfollow] at hv
        cases hv
        simp [Progress.mark, hfinished]
      | node hv =>
        rw [hfollow] at hv
        cases hv

end

/-- A thread at the end of a token rule. -/
theorem closes_end (hstop : env.network.isStop t.state) (hstack : t.stack = []) (h : Closes env t p q) :
    q = { p with collected := p.collected ++ [t], finished := true } := by
  have hvisit : visit env (.arrive t) p =
      (.ok none, { p with collected := p.collected ++ [t], finished := true }) := by
    change arrive env t p = _
    rw [arrive_apply, Network.state?_eq (Network.lt_of_isStop hstop)]
    dsimp only
    rw [if_pos (show (env.network.state t.state).isStop = true from hstop), hstack]
  obtain ⟨nesting, h⟩ := h
  cases h with
  | leaf hv =>
    rw [hvisit] at hv
    cases hv
    rfl
  | node hv =>
    rw [hvisit] at hv
    cases hv

/-! ## Consuming a character -/

section
variable {offset : Nat} {x : Symbol} {done : Option Nat} {s s' : Sweep} {rest : List Thread}

/-- A thread without commands is moved along a transition that consumes a character. -/
theorem eq_past_of_cross {d : Thread} (ht : t.commands = none) (h : cross env.network offset t tr = .ok d) :
    d = past env.network t tr.target := by
  obtain ⟨u, hs, h⟩ := ok_of_bind h
  cases h
  rw [past, Network.state_of_state? hs, ht]
  rfl

/-- A thread gives way to the closure of what its only transition reaches. -/
theorem reachAll_across (ht : t.commands = none) (hways : env.network.ways t.state = [tr])
    (hx : tr.consumes minCodePoint maxCodePoint x = true) (hdone : done ≠ some t.alt)
    (h : reachAll env offset x done s (t :: rest) = .ok s') :
    ∃ p, trace env false (past env.network t tr.target) = .ok p ∧
      reachAll env offset x (if p.finished then some t.alt else done) (s.add p) rest = .ok s' := by
  rw [reachAll, if_neg (by simp [hdone]), Network.state?_eq (lt_size_of_ways (by simp [hways]))] at h
  have hway : (env.network.state t.state).transitions = [tr] := hways
  change (reachFrom env offset _ t s _ >>= _) = Except.ok s' at h
  rw [hway, List.filter_cons_of_pos hx, List.filter_nil, reachFrom, decide_eq_false hdone] at h
  obtain ⟨r, hr, h⟩ := ok_of_bind h
  obtain ⟨d, hd, hr⟩ := ok_of_bind hr
  obtain rfl := eq_past_of_cross ht hd
  obtain ⟨p, hp, hr⟩ := ok_of_bind hr
  refine ⟨p, hp, ?_⟩
  split at hr
  · next hf =>
    cases hr
    rw [if_pos hf]
    exact h
  · next hf =>
    cases hr
    rw [if_neg hf]
    exact h

/-- A thread from which the character leads nowhere gives way to nothing. -/
theorem reachAll_beside (hways : ∀ tr ∈ env.network.ways t.state, tr.consumes minCodePoint maxCodePoint x = false)
    (h : reachAll env offset x done s (t :: rest) = .ok s') : reachAll env offset x done s rest = .ok s' := by
  rw [reachAll] at h
  split at h
  · exact h
  · obtain ⟨q, hq, h⟩ := ok_of_bind h
    have hnone : q.transitions.filter (Transition.consumes minCodePoint maxCodePoint x) = [] := by
      rw [List.filter_eq_nil_iff, ← Network.state_of_state? hq]
      intro tr htr
      rw [hways tr htr]
      exact Bool.false_ne_true
    rw [hnone] at h
    exact h

/-- Where the character leads nowhere from any thread, no thread is left. -/
theorem threads_of_reach_beside {ts : List Thread}
    (hways : ∀ t ∈ ts, ∀ tr ∈ env.network.ways t.state, tr.consumes minCodePoint maxCodePoint x = false)
    (h : reach env offset x ts = .ok s') : s'.threads = [] := by
  have hall : ∀ s : Sweep, reachAll env offset x none s ts = .ok s' → s' = s := by
    clear h
    intro s h
    induction ts with
    | nil => exact (Except.ok.inj h).symm
    | cons t ts ih =>
      obtain ⟨ht, hts⟩ := List.forall_mem_cons.mp hways
      exact ih hts (reachAll_beside ht h)
  rw [hall _ h]

/-- Behind a thread that has finished a token rule those of its alternative that passed a decision that
prefers to leave are dropped. -/
theorem reachAll_spent {a : Nat} (hrest : ∀ t ∈ rest, t.alt = a ∧ t.passedLazy)
    (h : reachAll env offset x (some a) s rest = .ok s') : s' = s := by
  induction rest with
  | nil => exact (Except.ok.inj h).symm
  | cons t rest ih =>
    obtain ⟨⟨halt, hlazy⟩, hrest⟩ := List.forall_mem_cons.mp hrest
    rw [reachAll, if_pos (by simp [halt, hlazy])] at h
    exact ih hrest h

end

end Thread
end AdaptiveLL

import Mathlib
import AdaptiveLL.Network.Basic

/-! # The machine of a network

A network with a stack of states to return to is a pushdown machine.  It stands at a spot: a state
with the states at which the callers continue, innermost first.  It moves freely along a transition
that has no condition, by calling a rule, or by returning from one at its end (`Network.Free`); and
it consumes a symbol (`Network.Eats`).  What it can read on the way from one spot to another is
`Network.Reads`.

Predicates are no part of the machine.  The networks that it is used for have none.
-/
namespace AdaptiveLL

/-- A way on by its number is one of the ways on. -/
theorem State.alternative?_eq_some {s : State} {alt : Nat} {t : Transition}
    (h : s.alternative? alt = some t) :
    1 ≤ alt ∧ alt ≤ s.transitions.length ∧ s.transitions[alt - 1]? = some t := by
  unfold State.alternative? at h
  split at h
  · cases h
  · next hpos =>
    have hlt := (List.getElem?_eq_some_iff.mp h).1
    exact ⟨by omega, by omega, h⟩

theorem Network.state_of_state? {n : Network} {q : Nat} {s : State} (h : n.state? q = .ok s) :
    n.state q = s := by
  unfold Network.state? at h
  split at h
  · next hs =>
    rw [Network.state, hs, Option.getD_some]
    exact Except.ok.inj h
  · cases h

/-- A state that is there can be looked up. -/
theorem Network.state?_eq {n : Network} {q : Nat} (h : q < n.states.size) :
    n.state? q = .ok (n.state q) := by
  rw [state?, state, Array.getElem?_eq_getElem h]
  rfl

/-- The end of a rule is there. -/
theorem Network.lt_of_isStop {n : Network} {q : Nat} (h : n.isStop q) : q < n.states.size := by
  by_contra hout
  rw [isStop, state, Array.getElem?_eq_none (Nat.le_of_not_lt hout)] at h
  cases h

/-- Where a machine stands. -/
structure Spot where
  /-- The state. -/
  state : Nat
  /-- The states to return to, innermost first. -/
  stack : List Nat

namespace Transition

/-- Whether a transition is free on no condition, and no call. -/
def isPlain : Transition → Bool
  | epsilon _ | ret _ | action .. => true
  | _ => false

end Transition

namespace Network
variable (n : Network)

/-- A move that consumes nothing.  From the end of a rule there is only the return. -/
inductive Free : Spot → Spot → Prop
  | pass {q : Nat} {stack : List Nat} {t : Transition} : ¬ n.isStop q →
      t ∈ (n.state q).transitions → t.isPlain → Free ⟨q, stack⟩ ⟨t.target, stack⟩
  | call {q : Nat} {stack : List Nat} {target rule : Nat} {precedence : Int} {follow : Nat} :
      ¬ n.isStop q → .call target rule precedence follow ∈ (n.state q).transitions →
      Free ⟨q, stack⟩ ⟨target, follow :: stack⟩
  | pop {q f : Nat} {stack : List Nat} : n.isStop q → Free ⟨q, f :: stack⟩ ⟨f, stack⟩

/-- A move that consumes a symbol of the vocabulary from `lo` to `hi`. -/
inductive Eats (lo hi : Int) (x : Symbol) : Spot → Spot → Prop
  | along {q : Nat} {stack : List Nat} {t : Transition} : ¬ n.isStop q →
      t ∈ (n.state q).transitions → t.consumes lo hi x → Eats lo hi x ⟨q, stack⟩ ⟨t.target, stack⟩

/-- What the machine reads on the way from one spot to another. -/
inductive Reads (lo hi : Int) : Spot → List Symbol → Spot → Prop
  | refl (s : Spot) : Reads lo hi s [] s
  | free {s t u : Spot} {w : List Symbol} : n.Free s t → Reads lo hi t w u → Reads lo hi s w u
  | eat {s t u : Spot} {x : Symbol} {w : List Symbol} : n.Eats lo hi x s t → Reads lo hi t w u →
      Reads lo hi s (x :: w) u

variable {n} {lo hi : Int} {s t u : Spot} {x : Symbol} {v w : List Symbol}

namespace Reads

theorem append (h : n.Reads lo hi s v t) (h' : n.Reads lo hi t w u) :
    n.Reads lo hi s (v ++ w) u := by
  induction h with
  | refl s => exact h'
  | free hf _ ih => exact .free hf (ih h')
  | eat he _ ih => exact .eat he (ih h')

theorem of_free (h : Relation.ReflTransGen n.Free s t) : n.Reads lo hi s [] t := by
  induction h using Relation.ReflTransGen.head_induction_on with
  | refl => exact .refl t
  | head hf _ ih => exact .free hf ih

/-- Reading nothing is moving freely. -/
theorem free_of_nil (h : n.Reads lo hi s [] t) : Relation.ReflTransGen n.Free s t := by
  generalize hw : ([] : List Symbol) = w at h
  induction h with
  | refl s => exact .refl
  | free hf _ ih => exact .head hf (ih hw)
  | eat _ _ _ => contradiction

/-- The machine moves freely until it consumes the first symbol. -/
theorem exists_of_cons (h : n.Reads lo hi s (x :: w) u) :
    ∃ s' t, Relation.ReflTransGen n.Free s s' ∧ n.Eats lo hi x s' t ∧ n.Reads lo hi t w u := by
  generalize hw : x :: w = y at h
  induction h with
  | refl s => contradiction
  | free hf _ ih =>
    obtain ⟨s', t, hfree, heat, hrest⟩ := ih hw
    exact ⟨s', t, .head hf hfree, heat, hrest⟩
  | eat he hrest _ =>
    cases hw
    exact ⟨_, _, .refl, he, hrest⟩

/-- What is read in two parts is read up to a spot and from there. -/
theorem exists_of_append (h : n.Reads lo hi s (v ++ w) u) :
    ∃ t, n.Reads lo hi s v t ∧ n.Reads lo hi t w u := by
  induction v generalizing s with
  | nil => exact ⟨s, .refl s, h⟩
  | cons x v ih =>
    obtain ⟨s', t, hfree, heat, hrest⟩ := h.exists_of_cons
    obtain ⟨r, hv, hw⟩ := ih hrest
    exact ⟨r, (of_free hfree).append (.eat heat hv), hw⟩

end Reads
end Network
end AdaptiveLL

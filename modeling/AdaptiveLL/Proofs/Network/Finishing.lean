import Mathlib
import AdaptiveLL.Proofs.Grammar.Sentence
import AdaptiveLL.Proofs.Prediction.Plain

/-! # Reading to the end of the input

A machine finishes on a word if it can read the word and stop with an empty stack
(`Network.Finishes`).  It is poised if the next symbol of the word can be consumed at once
(`Network.Poised`), and it drifts to where it is poised before consuming anything
(`Finishes.exists_poised`).

In a network that closes, a machine keeps clear of the place where the input ends until it consumes that
end (`Spot.Clear`), and then only the stop is left (`Closing.eq_of_eats_end`).
-/
namespace AdaptiveLL

/-- Whether neither a state nor anything on its stack is where the input ends. -/
def Spot.Clear (last stop : Nat) (s : Spot) : Prop :=
  ∀ q ∈ s.state :: s.stack, q ≠ last ∧ q ≠ stop

namespace Network
variable (n : Network)

/-- Whether the machine can read a word and stop with an empty stack. -/
def Finishes (stop : Nat) (s : Spot) (w : List Symbol) : Prop :=
  n.Reads n.minSymbol n.maxSymbol s w ⟨stop, []⟩

/-- Whether the machine has stopped or can consume the next symbol at once, and then finish. -/
def Poised (stop : Nat) (s : Spot) : List Symbol → Prop
  | [] => s = ⟨stop, []⟩
  | x :: w => ∃ t, n.Eats n.minSymbol n.maxSymbol x s t ∧ n.Finishes stop t w

variable {n} {stop last top : Nat} {s t u : Spot} {x : Symbol} {w : List Symbol}

theorem Poised.finishes (h : n.Poised stop s w) : n.Finishes stop s w := by
  cases w with
  | nil =>
    have hs : s = ⟨stop, []⟩ := h
    rw [hs]
    exact .refl _
  | cons x w =>
    obtain ⟨t, he, hf⟩ := h
    exact .eat he hf

/-- Moving freely is drifting. -/
theorem Free.drifts (h : n.Free s t) (endIsFree : Bool) : n.Drifts endIsFree s t := by
  cases h with
  | @pass q stack t hq ht hplain =>
    have hdrifts : t.drifts endIsFree := by
      cases t with
      | epsilon | ret | action => rfl
      | _ => cases hplain
    have : n.Drifts endIsFree ⟨q, stack⟩ ⟨t.target, t.onto stack⟩ := .along hq ht hdrifts
    have honto : t.onto stack = stack := by
      cases t with
      | call => cases hplain
      | _ => rfl
    rwa [honto] at this
  | call hq ht => exact .along hq ht rfl
  | pop hq => exact .pop hq

/-- Without guards, drifting is moving freely. -/
theorem Drifts.free (hn : n.Unguarded) (h : n.Drifts false s t) : n.Free s t := by
  cases h with
  | @along q stack t hq ht hd =>
    have hguard := hn q t ht
    cases t with
    | epsilon | ret | action => exact .pass hq ht rfl
    | call => exact .call hq ht
    | predicate | precedence => cases hguard
    | _ => cases hd
  | pop hq => exact .pop hq

theorem finishes_of_drifts (hn : n.Unguarded) (hd : Relation.ReflTransGen (n.Drifts false) s t)
    (h : n.Finishes stop t w) : n.Finishes stop s w := by
  have hfree : Relation.ReflTransGen n.Free s t :=
    Relation.ReflTransGen.mono (fun _ _ h => Drifts.free hn h) _ _ hd
  exact (Reads.of_free hfree).append h

/-- A machine that finishes drifts to where it is poised. -/
theorem Finishes.exists_poised (h : n.Finishes stop s w) (endIsFree : Bool) :
    ∃ t, Relation.ReflTransGen (n.Drifts endIsFree) s t ∧ n.Poised stop t w := by
  have hdrifts : ∀ {t}, Relation.ReflTransGen n.Free s t →
      Relation.ReflTransGen (n.Drifts endIsFree) s t := fun hfree =>
    Relation.ReflTransGen.mono (fun _ _ h => Free.drifts h endIsFree) _ _ hfree
  cases w with
  | nil => exact ⟨_, hdrifts h.free_of_nil, rfl⟩
  | cons x w =>
    obtain ⟨t, u, hfree, heat, hrest⟩ := h.exists_of_cons
    exact ⟨t, hdrifts hfree, u, heat, hrest⟩

/-! ## Keeping clear of the end -/

namespace Closing
variable (h : n.Closing top last stop)
include h

theorem unguarded' : n.Unguarded := fun _ _ ht => h.unguarded ht

/-- A transition that is not the one for the end of the input keeps clear. -/
theorem clear_target {q : Nat} {stack : List Nat} {t : Transition} (hc : Spot.Clear last stop ⟨q, stack⟩)
    (ht : t ∈ n.ways q) (hx : t ≠ .symbol last endOfInput) :
    Spot.Clear last stop ⟨t.target, t.onto stack⟩ := by
  have htarget : t.target ≠ last ∧ t.target ≠ stop :=
    ⟨fun he => hx (h.enters_last ht he), fun he => (hc q List.mem_cons_self).1 (h.enters_stop ht he)⟩
  have hstack : ∀ r ∈ stack, r ≠ last ∧ r ≠ stop := fun r hr => hc r (List.mem_cons_of_mem _ hr)
  intro r hr
  rcases List.mem_cons.mp hr with rfl | hr
  · exact htarget
  · cases t with
    | call target rule level follow =>
      rcases List.mem_cons.mp hr with rfl | hr
      · exact (h.calls ht).2
      · exact hstack r hr
    | _ => exact hstack r hr

theorem clear_of_drifts (hd : Relation.ReflTransGen (n.Drifts false) s t)
    (hc : s.Clear last stop) : t.Clear last stop := by
  induction hd with
  | refl => exact hc
  | tail _ hd ih =>
    cases hd with
    | along hq ht hdrifts =>
      refine h.clear_target ih ht ?_
      rintro rfl
      cases hdrifts
    | pop hq => exact fun r hr => ih r (List.mem_cons_of_mem _ hr)

theorem clear_of_eats (he : n.Eats n.minSymbol n.maxSymbol x s t) (hx : x ≠ endOfInput)
    (hc : s.Clear last stop) : t.Clear last stop := by
  cases he with
  | @along q stack t hq ht hconsumes =>
    have honto : t.onto stack = stack := by
      cases t with
      | call => cases hconsumes
      | _ => rfl
    have := h.clear_target hc ht ?_
    · rwa [honto] at this
    · rintro rfl
      exact hx (of_decide_eq_true hconsumes).symm

/-- Where the outermost rule ends with an empty stack, nothing else is clear. -/
theorem not_isStop_of_clear (hc : s.Clear last stop) (hchain : n.Chained (some top) s.state s.stack)
    (hempty : n.isStop s.state → s.stack = []) : ¬ n.isStop s.state := by
  intro hstop
  rw [hempty hstop] at hchain
  exact (hc _ List.mem_cons_self).2 (h.eq_stop hstop (hchain top rfl).1)

/-- The end of the input is consumed in the rule that nobody called. -/
theorem eq_of_eats_end (he : n.Eats n.minSymbol n.maxSymbol endOfInput s t)
    (hchain : n.Chained (some top) t.state t.stack) : t = ⟨last, []⟩ := by
  cases he with
  | @along q stack t hq ht hconsumes =>
    have hlo : 0 ≤ n.minSymbol := by
      rw [h.minSymbol]
      decide
    rw [h.ends ht hlo hconsumes] at hchain ⊢
    cases stack with
    | nil => rfl
    | cons f stack =>
      obtain ⟨-, ⟨caller, target, level, hcall⟩, -⟩ := hchain
      rw [h.inRule.1] at hcall
      exact absurd rfl (h.calls hcall).1

/-- From where the input has ended the machine drifts to the stop, and no further. -/
theorem drifts_of_last {endIsFree : Bool}
    (hd : Relation.ReflTransGen (n.Drifts endIsFree) ⟨last, []⟩ t) :
    t = ⟨last, []⟩ ∨ t = ⟨stop, []⟩ := by
  induction hd with
  | refl => exact .inl rfl
  | tail _ hd ih =>
    rcases ih with rfl | rfl
    · cases hd with
      | along _ ht _ =>
        rw [h.ways_last, List.mem_singleton] at ht
        subst ht
        exact .inr rfl
    · cases hd with
      | along hq _ _ => exact absurd h.isStop hq

theorem eq_of_isStop {endIsFree : Bool}
    (hd : Relation.ReflTransGen (n.Drifts endIsFree) ⟨last, []⟩ t) (ht : n.isStop t.state) :
    t = ⟨stop, []⟩ := by
  rcases h.drifts_of_last hd with rfl | rfl
  · exact absurd ht h.not_isStop
  · rfl

end Closing
end Network

namespace Grammar.LaidOut
variable {g : Grammar} {p : Plan} {lazy : Prop} {n : Network} (h : g.LaidOut p lazy n)
include h

theorem freeOnly_eq (q : Nat) : (n.state q).freeOnly = (n.state q).hasOnlyFree := by
  rw [Network.state]
  cases hs : n.states[q]? with
  | none => rfl
  | some s => exact h.freeOnly q s hs

/-- Where a machine is poised, a closure collects. -/
theorem collects_of_poised {top last stop : Nat} (hc : n.Closing top last stop) {σ : Type}
    {env : Surroundings σ} (hn : env.network = n) {s : Spot} {w : List Symbol}
    (hp : n.Poised stop s w) : env.Collects s := by
  subst hn
  cases w with
  | nil =>
    have hs : s = ⟨stop, []⟩ := hp
    subst hs
    refine ⟨fun _ => rfl, fun _ => ?_⟩
    rw [h.freeOnly_eq, State.hasOnlyFree, show (env.network.state stop).transitions = [] from hc.ways_stop]
    rfl
  | cons x w =>
    obtain ⟨t, he, -⟩ := hp
    cases he with
    | @along q stack t hq ht hx =>
      refine ⟨fun hstop => absurd hstop hq, fun _ => ?_⟩
      have hfree : t.isFree = false := by
        cases t with
        | symbol | range | set | notSet | wildcard => rfl
        | _ => cases hx
      rw [h.freeOnly_eq, State.hasOnlyFree, Bool.and_eq_false_iff]
      refine .inr (List.all_eq_false.mpr ⟨t, ht, ?_⟩)
      rw [hfree]
      exact Bool.false_ne_true

end Grammar.LaidOut
end AdaptiveLL

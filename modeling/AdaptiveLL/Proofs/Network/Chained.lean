import Mathlib
import AdaptiveLL.Proofs.Grammar.Decisions
import AdaptiveLL.Proofs.Network.Machine
import AdaptiveLL.Proofs.StackGraph.History

/-! # Stacks that calls leave behind

Between two symbols a machine drifts: it follows whatever consumes nothing, no matter what guards say
(`Network.Drifts`).  `Network.Chained` says of a state and a stack that every return state is where a
call of the rule above it continues.  In the network of a grammar a machine that starts on such a stack
keeps to such stacks (`Drifts.chained`, `Eats.chained`), a chain of calls gives one
(`Network.Calls.chained`), and at the end of a rule the return transitions lead to whatever may be on
top (`Chained.returns`).
-/
namespace AdaptiveLL

namespace Transition

/-- Whether a transition is followed without anything being consumed, if its guard allows it.  At the
end of the input that end may be consumed for free. -/
def drifts (endIsFree : Bool) (t : Transition) : Bool :=
  t.isFree || endIsFree && t.consumes 0 1 endOfInput

/-- The stack behind a transition. -/
def onto : Transition → List Nat → List Nat
  | call _ _ _ follow, s => follow :: s
  | _, s => s

end Transition

namespace Network
variable (n : Network)

/-- A move that consumes nothing, whatever guards say.  From the end of a rule there is only the
return. -/
inductive Drifts (endIsFree : Bool) : Spot → Spot → Prop
  | along {q : Nat} {stack : List Nat} {t : Transition} : ¬ n.isStop q → t ∈ n.ways q →
      t.drifts endIsFree → Drifts endIsFree ⟨q, stack⟩ ⟨t.target, t.onto stack⟩
  | pop {q f : Nat} {stack : List Nat} : n.isStop q → Drifts endIsFree ⟨q, f :: stack⟩ ⟨f, stack⟩

/-- Whether a state belongs to a rule. -/
def InRule (rule q : Nat) : Prop := (n.state q).rule = rule ∧ (n.state q).kind ≠ .tokensStart

/-- Whether a stack can lie below a state: its top is where a call of the state's rule continues, and
so on downwards, to the end of the stack in the rule `top` if that is given. -/
def Chained (top : Option Nat) : Nat → List Nat → Prop
  | q, [] => ∀ rule ∈ top, n.InRule rule q
  | q, f :: s => n.InRule (n.state q).rule q ∧ (∃ caller target level,
      .call target (n.state q).rule level f ∈ n.ways caller) ∧ Chained top f s

/-- A chain of calls, from a rule that nobody called to the rule that is running: each rule was called
from a state of the one before. -/
inductive Calls (top : Nat) : List Invocation → Nat → Prop
  | root : Calls top [Invocation.root top] top
  | call {outer : List Invocation} {r caller target rule follow : Nat} {level : Int}
      (precedence : Int) : Calls top outer r → (n.state caller).rule = r →
      .call target rule level follow ∈ n.ways caller →
      Calls top (outer ++ [Invocation.called rule caller precedence]) rule

/-- The states at which the callers of the running rules continue, innermost first. -/
def returnStates (running : List Invocation) : List Nat :=
  (running.filterMap fun f => f.caller.bind fun q => (n.follow q).toOption).reverse

theorem returnStates_concat (running : List Invocation) {f : Invocation}
    {caller follow : Nat} (hcaller : f.caller = some caller) (hfollow : n.follow caller = .ok follow) :
    n.returnStates (running ++ [f]) = follow :: n.returnStates running := by
  have hone : [f].filterMap (fun f => f.caller.bind fun q => (n.follow q).toOption) = [follow] := by
    simp [hcaller, hfollow, Except.toOption]
  rw [returnStates, List.filterMap_append, hone, List.reverse_append]
  rfl

variable {n} {top : Option Nat} {q q' rule : Nat} {stack : List Nat}

/-- Only the rule of a state counts. -/
theorem Chained.of_inRule (h : n.Chained top q stack) (hq : n.InRule rule q) (hq' : n.InRule rule q') :
    n.Chained top q' stack := by
  cases stack with
  | nil =>
    intro r hr
    obtain ⟨hrule, -⟩ := h r hr
    rw [← hrule, hq.1]
    exact hq'
  | cons f stack =>
    obtain ⟨-, hcall, hrest⟩ := h
    rw [hq.1, ← hq'.1] at hcall
    exact ⟨⟨rfl, hq'.2⟩, hcall, hrest⟩

end Network

/-- Invocations are pushed one after another. -/
theorem StackGraph.pushInvocations_append (n : Network) (below : StackRef) (g : StackGraph)
    (xs ys : List Invocation) :
    pushInvocations.go n below g (xs ++ ys) =
      match pushInvocations.go n below g xs with
      | (.ok r, g) => pushInvocations.go n r g ys
      | (.error e, g) => (.error e, g) := by
  induction xs generalizing below g with
  | nil => rfl
  | cons frame xs ih =>
    rw [List.cons_append, pushInvocations.go, pushInvocations.go]
    split
    · exact ih _ _
    · split
      · rfl
      · exact ih _ _

namespace Grammar.LaidOut
variable {g : Grammar} {p : Plan} {lazy : Prop} {n : Network} (h : g.LaidOut p lazy n)
include h

/-! ## The rules of states -/

theorem inRule_start {i : Nat} (hi : i < g.rules.length) : n.InRule i (p.start i) := by
  obtain ⟨s, hs, -, hr, hk, -⟩ := h.start i hi
  rw [Network.InRule, Network.state, hs, Option.getD_some, hr, hk]
  exact ⟨rfl, by decide⟩

theorem inRule_stop {i : Nat} (hi : i < g.rules.length) : n.InRule i (p.stop i) := by
  obtain ⟨s, hs, -, hr, hk, -⟩ := h.stop i hi
  rw [Network.InRule, Network.state, hs, Option.getD_some, hr, hk]
  exact ⟨rfl, by decide⟩

theorem inRule_body {i q : Nat} (hi : i < g.rules.length) (hlo : p.bound i ≤ q)
    (hhi : q < p.bound (i + 1)) : n.InRule i q := by
  have hlt : q < n.states.size := hhi.trans_le (h.bound_succ_le_size hi)
  obtain ⟨-, hr, hk, -⟩ := h.inner i hi q _ hlo hhi (Array.getElem?_eq_getElem hlt)
  rw [Network.InRule, Network.state, Array.getElem?_eq_getElem hlt, Option.getD_some]
  refine ⟨hr, fun he => ?_⟩
  rw [he] at hk
  cases hk

theorem kind_mode {m : Nat} (hm : m < p.modes) : (n.state m).kind = .tokensStart := by
  obtain ⟨s, hs, -, -, hk, -⟩ := h.mode m hm
  rw [Network.state, hs, Option.getD_some, hk]

/-- A parser has no modes. -/
theorem kind_ne_tokensStart (hkind : g.kind = .parser) (q : Nat) : (n.state q).kind ≠ .tokensStart := by
  have hmodes : p.modes = 0 := by
    rw [h.modes, hkind]
    rfl
  rw [Network.state]
  cases hs : n.states[q]? with
  | none =>
    rw [Option.getD_none]
    simp
  | some s =>
    rw [Option.getD_some]
    intro hk
    have hm := (h.stateAt hs).lt_modes hk
    omega

/-- Before the end of a rule, a transition leads from a mode to a rule, or it calls a rule from within
another one, or it stays in its rule. -/
theorem rule_cases {q : Nat} {t : Transition} (hq : ¬ n.isStop q) (ht : t ∈ n.ways q) :
    ((n.state q).kind = .tokensStart ∧ ∃ z, t = .epsilon z) ∨
      ∃ i, n.InRule i q ∧
        ((∃ rule level follow, t = .call (p.start rule) rule level follow ∧ n.InRule i follow ∧
            n.InRule rule (p.start rule)) ∨
          n.InRule i t.target ∧ ∀ s, t.onto s = s) := by
  rcases h.ways_cases ht with ⟨hm, i, -, rfl⟩ |
    ⟨i, hi, ⟨rfl, rfl⟩ | ⟨rfl, -⟩ | ⟨hlo, hhi, hbody⟩⟩
  · exact .inl ⟨h.kind_mode hm, _, rfl⟩
  · have hb := (h.laid i _ (List.getElem?_eq_getElem hi)).bounds
    exact .inr ⟨i, h.inRule_start hi, .inr ⟨h.inRule_body hi hb.1 hb.2.1, fun _ => rfl⟩⟩
  · exact absurd (h.isStop_stop hi) hq
  · refine .inr ⟨i, h.inRule_body hi hlo hhi, ?_⟩
    rcases hbody with ⟨-, rfl⟩ | hs | ⟨e, t', -, hd, hT, hlt⟩
    · exact .inr ⟨h.inRule_stop hi, fun _ => rfl⟩
    · obtain ⟨z, rfl, hz⟩ := hs _ ht
      exact .inr ⟨h.inRule_body hi hz.1 hz.2, fun _ => rfl⟩
    · have hnext : n.InRule i (q + 1) := h.inRule_body hi (hlo.trans (Nat.le_succ q)) hlt
      have hcall := fun target rule level follow (he : t = .call target rule level follow) =>
        h.call_cases (he ▸ ht)
      rw [hT, List.mem_singleton] at ht
      cases hd with
      | call level _ =>
        obtain ⟨hstart, hrule, -, -, hfollow, -⟩ := hcall _ _ _ _ ht
        rw [hstart] at ht
        exact .inl ⟨_, _, _, ht, hnext, h.inRule_start hrule⟩
      | _ =>
        subst ht
        exact .inr ⟨hnext, fun _ => rfl⟩

/-! ## Chained stacks -/

/-- A transition keeps to chained stacks. -/
theorem chained_along {top : Option Nat} {q : Nat} {stack : List Nat} {t : Transition}
    (hc : n.Chained top q stack) (hq : ¬ n.isStop q) (ht : t ∈ n.ways q) :
    n.Chained top t.target (t.onto stack) := by
  rcases h.rule_cases hq ht with ⟨hk, z, rfl⟩ | ⟨i, hi, ⟨rule, level, follow, rfl, hf, hs⟩ | ⟨hi', ho⟩⟩
  · cases stack with
    | nil => exact fun r hr => absurd hk (hc r hr).2
    | cons f stack => exact absurd hk hc.1.2
  · refine ⟨⟨rfl, hs.2⟩, ⟨q, p.start rule, level, ?_⟩, hc.of_inRule hi hf⟩
    change .call (p.start rule) (n.state (p.start rule)).rule level follow ∈ n.ways q
    rwa [hs.1]
  · rw [ho]
    exact hc.of_inRule hi hi'

/-- Drifting keeps to chained stacks. -/
theorem chained_of_drifts {top : Option Nat} {endIsFree : Bool} {s t : Spot}
    (hd : Relation.ReflTransGen (n.Drifts endIsFree) s t) (hc : n.Chained top s.state s.stack) :
    n.Chained top t.state t.stack := by
  induction hd with
  | refl => exact hc
  | tail _ hd ih =>
    cases hd with
    | along hq ht _ => exact h.chained_along ih hq ht
    | pop _ => exact ih.2.2

/-- A call pushes something, so what consumes a symbol is none. -/
theorem chained_of_eats {top : Option Nat} {lo hi : Int} {x : Symbol} {s t : Spot}
    (he : n.Eats lo hi x s t) (hc : n.Chained top s.state s.stack) : n.Chained top t.state t.stack := by
  cases he with
  | @along q stack t hq ht hx =>
    have honto : t.onto stack = stack := by
      cases t with
      | call => cases hx
      | _ => rfl
    have := h.chained_along hc hq ht
    rwa [honto] at this

/-- The returns from the end of a rule lead to whatever may be on top of the stack. -/
theorem returns_of_chained {top : Option Nat} {q f : Nat} {stack : List Nat} (hq : n.isStop q)
    (hc : n.Chained top q (f :: stack)) : .ret f ∈ n.ways q := by
  obtain ⟨i, hi, rfl⟩ := h.isStop_iff.mp hq
  obtain ⟨-, ⟨caller, target, level, hcall⟩, -⟩ := hc
  rw [(h.inRule_stop hi).1] at hcall
  exact (h.returns i hi _).mpr ⟨caller, target, level, f, rfl, hcall⟩

/-! ## Chains of calls -/

/-- A state that calls a rule does nothing else. -/
theorem follow_of_call {caller target rule follow : Nat} {level : Int}
    (ht : .call target rule level follow ∈ n.ways caller) : n.follow caller = .ok follow := by
  have hways : n.ways caller = [.call target rule level follow] := by
    rcases h.ways_cases ht with ⟨-, i, -, he⟩ | ⟨i, hi, ⟨-, he⟩ | ⟨-, he⟩ | ⟨-, -, ⟨-, he⟩ | hs | hd⟩⟩
    · cases he
    · cases he
    · cases he
    · cases he
    · obtain ⟨z, he, -⟩ := hs _ ht
      cases he
    · obtain ⟨e, t, -, -, hT, -⟩ := hd
      rw [hT, List.mem_singleton] at ht
      rw [hT, ← ht]
  obtain ⟨s, hs, -⟩ := Layout.mem_ways.mp ht
  rw [Layout.ways_of_eq hs] at hways
  rw [Network.follow, hs, Option.bind_some, hways]
  rfl

/-- A chain of calls leaves one stack behind, which can lie below any state of the last rule. -/
theorem chained_of_calls {top rule : Nat} {outer : List Invocation} (hc : n.Calls top outer rule)
    {gr g' : StackGraph} (hg : gr.Truthful) {r : StackRef}
    (hrun : gr.pushInvocations n outer = (.ok r, g')) :
    ∃ s, g'.stackSet r = {s} ∧ ∀ q, n.InRule rule q → n.Chained (some top) q s := by
  change StackGraph.pushInvocations.go n StackRef.bottom gr outer = _ at hrun
  induction hc generalizing r g' with
  | root =>
    cases hrun
    refine ⟨[], hg.toSound.stackSet_bottom, fun q hq rule hr => ?_⟩
    cases hr
    exact hq
  | @call outer r₀ caller target rule follow level precedence _ hrule ht ih =>
    rw [StackGraph.pushInvocations_append] at hrun
    have hinv := hg.invocations hg.toSound.knows_bottom (n := n) outer
    rcases hgo : StackGraph.pushInvocations.go n StackRef.bottom gr outer with ⟨e | below, g₁⟩
    · rw [hgo] at hrun
      cases hrun
    · rw [hgo] at hrun hinv
      obtain ⟨s, hs, hchained⟩ := ih hgo
      obtain ⟨htruthful, -, hknown⟩ := hinv
      simp only [StackGraph.pushInvocations.go, Invocation.called, h.follow_of_call ht] at hrun
      cases hrun
      refine ⟨follow :: s, ?_, fun q hq => ⟨⟨rfl, hq.2⟩, ⟨caller, target, level, ?_⟩, hchained _ ?_⟩⟩
      · rw [htruthful.toSound.stackSet_push (hknown _ rfl), hs, Set.image_singleton]
      · rwa [hq.1]
      · obtain ⟨-, -, i, hi, rfl, hlo, hhi⟩ := h.call_cases ht
        have hcaller := (h.inRule_body hi hlo (Nat.lt_of_succ_lt hhi)).1
        rw [← hrule, hcaller]
        exact h.inRule_body hi (hlo.trans (Nat.le_succ _)) hhi

/-- Below any state of the last rule of a chain of calls lies what the calls return to. -/
theorem chained_returnStates {top rule : Nat} {outer : List Invocation} (hc : n.Calls top outer rule)
    {q : Nat} (hq : n.InRule rule q) : n.Chained (some top) q (n.returnStates outer) := by
  induction hc generalizing q with
  | root =>
    intro r hr
    cases hr
    exact hq
  | @call outer r caller target rule follow level precedence _ hrule ht ih =>
    rw [n.returnStates_concat outer (f := .called rule caller precedence) rfl (h.follow_of_call ht)]
    refine ⟨⟨rfl, hq.2⟩, ⟨caller, target, level, by rwa [hq.1]⟩, ih ?_⟩
    obtain ⟨-, -, i, hi, rfl, hlo, hhi⟩ := h.call_cases ht
    have hcaller := (h.inRule_body hi hlo (Nat.lt_of_succ_lt hhi)).1
    rw [← hrule, hcaller]
    exact h.inRule_body hi (hlo.trans (Nat.le_succ _)) hhi

/-- A chain of calls can be pushed, and leaves one stack behind: what the calls return to. -/
theorem push_of_calls {top rule : Nat} {outer : List Invocation} (hc : n.Calls top outer rule)
    {gr : StackGraph} (hg : gr.Truthful) : ∃ r g', gr.pushInvocations n outer = (.ok r, g') ∧
      g'.stackSet r = {n.returnStates outer} := by
  induction hc with
  | root => exact ⟨_, _, rfl, hg.toSound.stackSet_bottom⟩
  | @call outer r₀ caller target rule follow level precedence _ hrule ht ih =>
    obtain ⟨below, g₁, hbelow, hset⟩ := ih
    obtain ⟨htruthful, -, hknown⟩ := hg.invocations hg.toSound.knows_bottom (n := n) outer
    change StackGraph.pushInvocations.go n StackRef.bottom gr outer = _ at hbelow
    rw [hbelow] at htruthful hknown
    refine ⟨(g₁.push below (some follow)).1, (g₁.push below (some follow)).2, ?_, ?_⟩
    · change StackGraph.pushInvocations.go n StackRef.bottom gr _ = _
      rw [StackGraph.pushInvocations_append, hbelow]
      simp only [StackGraph.pushInvocations.go, Invocation.called, h.follow_of_call ht]
    · rw [htruthful.toSound.stackSet_push (hknown _ rfl), hset, Set.image_singleton,
        n.returnStates_concat outer (f := .called rule caller precedence) rfl (h.follow_of_call ht)]

end Grammar.LaidOut
end AdaptiveLL

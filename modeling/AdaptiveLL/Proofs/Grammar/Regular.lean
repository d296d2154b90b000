import AdaptiveLL.Proofs.Grammar.WellFormed
import AdaptiveLL.Proofs.Network.Chained

/-! # The form of a grammar's network

The networks of grammars have a form that their users rely on without looking (`Network.Regular`).  Whoever
follows a call looks at the first transition only, whoever walks a rule takes the first way on where there is
no decision, and whoever reads a character stops at the first transition that fits.

A state is a mode, an end of a rule, or it belongs to an element.  An element that is no composition makes a
state with its one transition, and all other transitions are free (`Grammar.LaidOut.ways_cases`).
-/
namespace AdaptiveLL

/-- A network in which consuming and calling is done by states of their own, choices are made by decisions,
and rules are entered by calls and left by returns. -/
structure Network.Regular (n : Network) : Prop where
  consuming : ∀ (q : Nat) (s : State), n.states[q]? = some s →
    (∀ t ∈ s.transitions, t.isFree) ∨ ∃ t, s.transitions = [t] ∧ ¬t.isFree
  calling : ∀ (q : Nat) (s : State), n.states[q]? = some s → ∀ target rule level follow,
    .call target rule level follow ∈ s.transitions → s.transitions = [.call target rule level follow]
  decided : ∀ (q : Nat) (s : State), n.states[q]? = some s → ¬s.isStop → 1 < s.transitions.length →
    s.decision.isSome
  numbered : ∀ d q : Nat, n.decisions[d]? = some q ↔ ∃ s, n.states[q]? = some s ∧ s.decision = some d
  within : ∀ (q : Nat) (s : State), n.states[q]? = some s → s.kind ≠ .tokensStart → ∀ t ∈ s.transitions,
    ¬t.isReturn → (∀ target rule level follow, t ≠ .call target rule level follow) →
      ∃ s', n.states[t.target]? = some s' ∧ s'.rule = s.rule

/-- In a linked network the decisions carry their numbers. -/
theorem Network.decision_of_link {n n' : Network} (h : n.link = .ok n') {d q : Nat}
    (hq : n'.decisions[d]? = some q) : ∃ s, n'.states[q]? = some s ∧ s.decision = some d := by
  obtain ⟨hfault, rfl⟩ := link_cases h
  generalize n.withoutReturns = m at *
  have hd : d < m.decisions.size := (Array.getElem?_eq_some_iff.mp hq).1
  have hnone := List.findSome?_eq_none_iff.mp (fault?_eq_none_iff.mp hfault).2.2.2.2.1 d (List.mem_range.mpr hd)
  rw [show m.decisions[d]? = some q from hq, Option.bind_some] at hnone
  rw [states_withReturns]
  cases hs : m.states[q]? with
  | none => simp [hs] at hnone
  | some s => exact ⟨linkedState m.calls s, rfl, show s.decision = some d by simpa [hs] using hnone⟩

namespace Grammar.LaidOut
variable {g : Grammar} {p : Plan} {lazy : Prop} {n : Network} (h : g.LaidOut p lazy n)
include h

/-- What is not free, or calls a rule, is the only way on. -/
theorem ways_eq_of_mem {q : Nat} {t : Transition} (ht : t ∈ n.ways q) (hfree : ∀ z, t ≠ .epsilon z)
    (hret : ¬t.isReturn) : n.ways q = [t] := by
  rcases h.ways_cases ht with ⟨-, i, -, rfl⟩ |
    ⟨i, -, ⟨-, rfl⟩ | ⟨-, hr⟩ | ⟨-, -, ⟨-, rfl⟩ | hs | ⟨e, t', -, -, hT, -⟩⟩⟩
  · exact absurd rfl (hfree _)
  · exact absurd rfl (hfree _)
  · exact absurd hr hret
  · exact absurd rfl (hfree _)
  · obtain ⟨z, rfl, -⟩ := hs t ht
    exact absurd rfl (hfree z)
  · rw [hT] at ht ⊢
    rw [List.mem_singleton.mp ht]

/-- Short of calls and returns, a transition stays in its rule unless it leaves a mode. -/
theorem rule_eq_of_mem {q : Nat} {s : State} {t : Transition} (hs : n.states[q]? = some s)
    (hkind : s.kind ≠ .tokensStart) (ht : t ∈ s.transitions) (hret : ¬t.isReturn)
    (hcall : ∀ target rule level follow, t ≠ .call target rule level follow) :
    ∃ s', n.states[t.target]? = some s' ∧ s'.rule = s.rule := by
  have hmem : t ∈ n.ways q := Layout.mem_ways.mpr ⟨s, hs, ht⟩
  have hstate : n.state q = s := by rw [Network.state, hs, Option.getD_some]
  have hstop : ¬n.isStop q := fun hstop => by
    obtain ⟨i, hi, rfl⟩ := h.isStop_iff.mp hstop
    obtain ⟨_, _, _, follow, rfl, -⟩ := (h.returns i hi t).mp hmem
    exact hret rfl
  have htarget := Array.getElem?_eq_getElem (h.within hmem).1
  refine ⟨_, htarget, ?_⟩
  rcases h.rule_cases hstop hmem with ⟨hk, -⟩ | ⟨i, hq, ⟨rule, level, follow, he, -⟩ | ⟨hi, -⟩⟩
  · exact absurd (hstate ▸ hk) hkind
  · exact absurd he (hcall _ _ _ _)
  · have hrule := hi.1.trans hq.1.symm
    rwa [hstate, Network.state, htarget, Option.getD_some] at hrule

/-- The network of a grammar has the form. -/
theorem regular (hl : g.layout = .ok n) : n.Regular where
  consuming q s hs := by
    by_cases hall : ∀ t ∈ s.transitions, t.isFree
    · exact .inl hall
    push Not at hall
    obtain ⟨t, ht, hfree⟩ := hall
    have hways := h.ways_eq_of_mem (Layout.mem_ways.mpr ⟨s, hs, ht⟩)
      (fun z he => hfree (he ▸ rfl)) (fun hr => hfree (by cases t <;> first | rfl | cases hr))
    rw [Layout.ways_of_eq hs] at hways
    exact .inr ⟨t, hways, hfree⟩
  calling q s hs target rule level follow ht := by
    rw [← Layout.ways_of_eq hs]
    exact h.ways_eq_of_mem (Layout.mem_ways.mpr ⟨s, hs, ht⟩) (fun _ => nofun) nofun
  decided q s hs hstop hmany := by
    have hstate : n.state q = s := by rw [Network.state, hs, Option.getD_some]
    obtain ⟨d, hd, -⟩ := h.exists_decision hl (q := q) (by rwa [Network.isStop, hstate])
      (by rwa [Layout.ways_of_eq hs])
    rw [← hstate, hd]
    rfl
  numbered d q := by
    obtain ⟨n₀, htidy, hlink⟩ := exists_tidy hl
    refine ⟨Network.decision_of_link hlink, ?_⟩
    rintro ⟨s, hs, hd⟩
    refine htidy.named_linked hlink ?_
    rw [Network.state, hs, Option.getD_some, hd]
  within q s hs hkind t ht := h.rule_eq_of_mem hs hkind ht

end Grammar.LaidOut

/-- **Layouts succeed on well-formed grammars, with regular networks.**  A grammar is laid out exactly if its
rules have names of their own, calls name rules, commands stand in lexers and levels in parsers; every
network that comes of it is regular. -/
theorem Grammar.layout_regular (g : Grammar) :
    ((∃ n, g.layout = .ok n) ↔ g.WellFormed) ∧ ∀ n, g.layout = .ok n → n.Regular := by
  refine ⟨g.exists_layout_iff, fun n hl => ?_⟩
  have hlaid : ∃ p, g.LaidOut p True n := exists_laidOut hl fun hf => absurd trivial hf
  obtain ⟨p, h⟩ := hlaid
  exact h.regular hl

/-- A lexer with two modes, with loops in one another, with choices of none and of one, and with rules that
call each other. -/
def nestedGrammar : Grammar where
  kind := .lexer
  maxSymbol := maxCodePoint
  modes := ["OUTER", "INNER"]
  rules := [
    ⟨"word", .plus (.alt [.star (.range 97 122) false, .call "sign" 0]) true, 1, 0, false⟩,
    ⟨"open", .seq [.symbol 60, .optional (.call "word" 0) false, .command (.pushMode 1)], 2, 0, false⟩,
    ⟨"close", .alt [.seq [.symbol 62, .action 3, .command .popMode]], 3, 1, false⟩,
    ⟨"sign", .alt [.seq [], .alt [], .optional (.alt []) true, .star (.alt []) true, .call "open" 0],
      0, 1, true⟩]

theorem Grammar.layout_regular_nested :
    nestedGrammar.WellFormed ∧ ∃ n, nestedGrammar.layout = .ok n ∧ n.Regular :=
  have hwell : nestedGrammar.WellFormed := by decide
  have ⟨n, hn⟩ := (Grammar.layout_regular nestedGrammar).1.mpr hwell
  ⟨hwell, n, hn, (Grammar.layout_regular nestedGrammar).2 n hn⟩

/-- Its commands have no place in a parser. -/
example : ¬{ nestedGrammar with kind := .parser }.WellFormed := by decide

end AdaptiveLL

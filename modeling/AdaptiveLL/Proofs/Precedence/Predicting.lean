import Mathlib
import AdaptiveLL.Proofs.Precedence.Edges
import AdaptiveLL.Proofs.Precedence.Rest
import AdaptiveLL.Proofs.Prediction.FirstSymbol

/-! # Predicting in the loop of an expression

Before an operator the loop goes on if the level of the operator is not below the precedence of the running rule, and
else it is left; before the end of the input it is left (`OperatorTable.predict_loop`, `OperatorTable.predict_end`).
Among the operators the one is chosen that comes next (`OperatorTable.predict_choice`).  All of that is so in every
mode and whatever was predicted before: the first symbol leaves one alternative, or the guard does, or both
alternatives are allowed and a further turn of this loop is preferred to one of a caller's loop.
-/
namespace AdaptiveLL
open Relation (ReflTransGen)
open Predictor Run

theorem Network.alternatives_eq {n : Network} {decision q : Nat} (h : n.decisions[decision]? = some q) :
    n.alternatives decision = (n.ways q).length := by
  rw [alternatives, decisionState, h]
  rfl

variable {gr : Grammar} {plan : Plan} {lazy : Prop} {n : Network} {T : OperatorTable} {allowed : Settings → Prop}
  {s : Session Unit} {outer : List Invocation} {decision : Nat} {o : Fin T.count}

namespace OperatorTable
section
variable (hl : gr.LaidOut plan lazy n) (hcl : n.Climbing T)
include hl hcl

/-! ## What the first symbol says -/

/-- An operator leaves it to its level whether the loop goes on. -/
theorem says_operator (o : Fin T.count) :
    n.SaysAtOnce 2 10 (T.type o) true [⟨.precedence (T.level o), 1⟩, ⟨.always, 2⟩] := by
  refine ⟨T.LoopKeys, {[]}, fun settings g out w hg h => ?_, fun settings g configs r g' hg hs h => ?_⟩
  · have hcl' : (Surroundings.alone n settings).network.Climbing T := hcl
    exact (Surroundings.startConfigs_loop hl hcl' rfl rfl hg h).1
  · exact edgeResult_operator hl hcl hg hs h

/-- At the end of the input the loop is left. -/
theorem says_end : n.SaysAtOnce 2 10 endOfInput false [⟨.always, 2⟩] := by
  refine ⟨T.LoopKeys, {[]}, fun settings g out w hg h => ?_, fun settings g configs r g' hg hs h => ?_⟩
  · have hcl' : (Surroundings.alone n settings).network.Climbing T := hcl
    exact (Surroundings.startConfigs_loop hl hcl' rfl rfl hg h).1
  · exact edgeResult_end hl hcl hg hs h

/-- Among the operators there is one that can come next. -/
theorem says_choice (o : Fin T.count) :
    n.SaysAtOnce T.count 11 (T.type o) false [⟨.precedence (T.level o), o + 1⟩] := by
  refine ⟨T.ChoiceKeys, {[]}, fun settings g out w hg h => ?_, fun settings g configs r g' hg hs h => ?_⟩
  · have hcl' : (Surroundings.alone n settings).network.Climbing T := hcl
    exact (Surroundings.startConfigs_choice hl hcl' rfl rfl hg h).1
  · exact edgeResult_choice hl hcl hg hs h

end

/-! ## Which guards hold -/

/-- Which of the loop's alternatives an operator admits. -/
theorem admits_loop {q : Question Unit} (hhooks : q.hooks = ParserHooks.none) {author : Unit} {alt : Nat} :
    Admits q author [⟨.precedence (T.level o), 1⟩, ⟨.always, 2⟩] alt ↔
      alt = 1 ∧ allowsLevel q.outer (T.level o) ∨ alt = 2 := by
  simp only [Admits, List.mem_cons, List.not_mem_nil, or_false, hhooks]
  constructor
  · rintro ⟨pair, rfl | rfl, rfl, hholds⟩
    · exact .inl ⟨rfl, hholds⟩
    · exact .inr rfl
  · rintro (⟨rfl, hlevel⟩ | rfl)
    · exact ⟨_, .inl rfl, rfl, hlevel⟩
    · exact ⟨_, .inr rfl, rfl, rfl⟩

/-! ## The predictions -/

section
variable (hl : gr.LaidOut plan lazy n) (hlay : gr.layout = .ok n) (hkind : gr.kind = .parser) (hcl : n.Climbing T)
include hl hlay hkind hcl

/-- Asking the caller's stack leads into the loop again if the operator is allowed. -/
theorem overCaller_loop {ops : List (Fin T.count)} (hcalls : n.Calls 0 outer 1) {index : Nat}
    (hd : n.decisions[decision]? = some 10) (h : s.predictor.Sane n allowed) (hplaced : (s.stream.seek index).Placed)
    (hrest : (s.stream.seek index).remaining = T.rest (o :: ops)) (hlevel : allowsLevel outer (T.level o))
    (steps : Nat) :
    Limited (fun alt _ => alt = 1) (overCaller ⟨ParserHooks.none, outer, decision, index⟩ steps s) := by
  obtain ⟨os, hos⟩ := hcl.returnStates_eq hl hcalls
  have hten : (n.state 10).rule = 1 := (hcl.expression 10 (by omega) (by omega)).1
  have hfirst : (n.state 10).alternative? 1 = some (.epsilon 11) := by
    change (n.ways 10)[0]? = _
    rw [hcl.loops]
    rfl
  refine overCaller_first hl hlay hkind hcl.closing ⟨ParserHooks.none, outer, decision, index⟩ hd (by omega)
    (hten ▸ hcalls) h hplaced hfirst (u := ⟨15 + 6 * o, T.waiting os⟩) (fun env hn _ hask => ?_) ?_ steps
  · subst hn
    rw [hos]
    refine hcl.glides_operator o fun _ ask hmem g hg author => ?_
    rw [hask] at hmem
    cases hmem
    cases hg
    exact hlevel
  · rw [hrest]
    exact hcl.poised_operator (hcl.finishes_loop (o :: os) ops)

/-- Before an operator the loop goes on if the operator's level is allowed, and else is left. -/
theorem predict_loop {ops : List (Fin T.count)} (hcalls : n.Calls 0 outer 1) (hd : n.decisions[decision]? = some 10)
    (h : s.predictor.Sane n allowed) (hplaced : s.stream.Placed) (hrest : s.stream.remaining = T.rest (o :: ops)) :
    Limited (fun alt _ => alt = if allowsLevel outer (T.level o) then 1 else 2)
      (predict ParserHooks.none outer decision s) := by
  have hpeek : s.stream.peek = T.type o := by
    obtain ⟨w, hw, -⟩ := hplaced.remaining_cases
    rw [hrest] at hw
    exact (List.cons.inj hw).1.symm
  have hcount : n.alternatives decision = 2 := by
    rw [Network.alternatives_eq hd, hcl.loops]
    rfl
  by_cases hlevel : allowsLevel outer (T.level o)
  · rw [if_pos hlevel]
    refine predict_says ParserHooks.steady_none hd h hplaced (by rw [hcount, hpeek]; exact says_operator hl hcl o) ?_
      fun _ => .inr fun steps t ht hstream _ => ?_
    · simp only [admits_loop (q := ⟨ParserHooks.none, outer, decision, s.stream.index⟩) rfl]
      exact ⟨.inl ⟨rfl, hlevel⟩, fun alt halt => by rcases halt with ⟨rfl, -⟩ | rfl <;> decide⟩
    · rw [← hstream] at hplaced hrest
      exact overCaller_loop hl hlay hkind hcl hcalls hd ht hplaced hrest hlevel steps
  · rw [if_neg hlevel]
    have honly : ∀ alt, Admits ⟨ParserHooks.none, outer, decision, s.stream.index⟩ s.author
        [⟨.precedence (T.level o), 1⟩, ⟨.always, 2⟩] alt ↔ alt = 2 := fun alt => by
      rw [admits_loop rfl]
      exact or_iff_right fun hone => hlevel hone.2
    refine predict_says ParserHooks.steady_none hd h hplaced (by rw [hcount, hpeek]; exact says_operator hl hcl o) ?_
      fun _ => .inl fun alt halt => (honly alt).mp halt
    simp only [honly]
    exact isLeast_singleton

omit hlay hkind in
/-- Before the end of the input the loop is left. -/
theorem predict_end (hd : n.decisions[decision]? = some 10) (h : s.predictor.Sane n allowed)
    (hplaced : s.stream.Placed) (hpeek : s.stream.peek = endOfInput) :
    Limited (fun alt _ => alt = 2) (predict ParserHooks.none outer decision s) := by
  have hcount : n.alternatives decision = 2 := by
    rw [Network.alternatives_eq hd, hcl.loops]
    rfl
  have hguard : Guard.always.Holds ParserHooks.none outer s.author := rfl
  exact predict_one ParserHooks.steady_none hd h hplaced (by rw [hcount, hpeek]; exact says_end hl hcl) hguard

omit hlay hkind in
/-- Among the operators the one is chosen that comes next, if its level is allowed. -/
theorem predict_choice (hd : n.decisions[decision]? = some 11) (h : s.predictor.Sane n allowed)
    (hplaced : s.stream.Placed) (hpeek : s.stream.peek = T.type o) (hlevel : allowsLevel outer (T.level o)) :
    Limited (fun alt _ => alt = o.val + 1) (predict ParserHooks.none outer decision s) := by
  have hcount : n.alternatives decision = T.count := by
    rw [Network.alternatives_eq hd, hcl.chooses, List.length_map, List.length_range]
  have hguard : (Guard.precedence (T.level o)).Holds ParserHooks.none outer s.author := hlevel
  exact predict_one ParserHooks.steady_none hd h hplaced (by rw [hcount, hpeek]; exact says_choice hl hcl o) hguard

end
end OperatorTable
end AdaptiveLL

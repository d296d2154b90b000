import Mathlib
import AdaptiveLL.Proofs.Precedence.LookingAhead
import AdaptiveLL.Proofs.Prediction.GuardedCaller

/-! # The rest of a sentence

While an expression is recognised, its callers wait behind the right operands of operators, and the outermost one at
the end of the sentence (`Network.Climbing.returnStates_eq`).  Guards aside, a machine in the loop with such callers
can read whatever operators and operands follow (`Network.Climbing.finishes_loop`).
-/
namespace AdaptiveLL
open Relation (ReflTransGen)

variable {T : OperatorTable} {n : Network}

namespace OperatorTable

/-- What is read behind an operand: operators with further operands, and the end of the input. -/
def rest (T : OperatorTable) (ops : List (Fin T.count)) : List Symbol :=
  (ops.flatMap fun o => [T.type o, T.operand]) ++ [endOfInput]

@[simp] theorem rest_cons (o : Fin T.count) (ops : List (Fin T.count)) :
    T.rest (o :: ops) = T.type o :: T.operand :: T.rest ops := rfl

theorem length_rest (ops : List (Fin T.count)) : (T.rest ops).length = 2 * ops.length + 1 := by
  induction ops with
  | nil => rfl
  | cons o ops ih =>
    simp only [rest_cons, List.length_cons, ih]
    omega

theorem sentence_append (ops : List (Fin T.count)) : T.sentence ops ++ [endOfInput] = T.operand :: T.rest ops := rfl

/-- The end of the input is no type. -/
theorem type_ne_end (o : Fin T.count) : T.type o ≠ endOfInput := fun h => by
  have := T.type_pos o
  rw [h] at this
  cases this

theorem operand_ne_end : T.operand ≠ endOfInput := fun h => by
  have := T.operand_pos
  rw [h] at this
  cases this

theorem end_notMem_sentence (ops : List (Fin T.count)) : endOfInput ∉ T.sentence ops := by
  intro h
  rcases List.mem_cons.mp h with h | h
  · exact T.operand_ne_end h.symm
  · obtain ⟨o, -, h⟩ := List.mem_flatMap.mp h
    rcases List.mem_pair.mp h with h | h
    · exact T.type_ne_end o h.symm
    · exact T.operand_ne_end h.symm

/-- Where the callers wait of an expression that is the right operand of operators, innermost first. -/
def waiting (T : OperatorTable) (os : List (Fin T.count)) : List Nat := os.map (fun o => 18 + 6 * o.val) ++ [5]

end OperatorTable

namespace Network.Climbing
variable (hcl : n.Climbing T)
include hcl

/-- Without its guards the network is left at its end only. -/
theorem closing : n.unguarded.Closing 0 7 1 where
  minSymbol := hcl.minSymbol
  unguarded := fun ht => by
    rw [ways_unguarded] at ht
    obtain ⟨u, -, rfl⟩ := List.mem_map.mp ht
    cases u <;> rfl
  isStop := by
    rw [isStop_unguarded, hcl.stop_iff]
    exact .inl rfl
  eq_stop := fun {q} hq hr => by
    rw [isStop_unguarded, hcl.stop_iff] at hq
    refine hq.resolve_right ?_
    rintro rfl
    rw [state_unguarded] at hr
    exact absurd (hcl.expression_stop.1.symm.trans hr) (by decide)
  ways_stop := by rw [ways_unguarded, hcl.ways_stop, List.map_nil]
  not_isStop := by
    rw [isStop_unguarded, hcl.stop_iff]
    omega
  inRule := by
    have := hcl.sentence 7 (by omega) (by omega)
    rwa [InRule, state_unguarded]
  ways_last := by
    rw [ways_unguarded, hcl.closes]
    rfl
  enters_last := fun ht he => by
    rw [ways_unguarded] at ht
    obtain ⟨u, hu, rfl⟩ := List.mem_map.mp ht
    rw [Transition.target_unguarded] at he
    cases hcl.way hu <;> first | rfl | (simp only [Transition.target] at he; omega)
  enters_stop := fun ht he => by
    rw [ways_unguarded] at ht
    obtain ⟨u, hu, rfl⟩ := List.mem_map.mp ht
    rw [Transition.target_unguarded] at he
    cases hcl.way hu <;> first | rfl | (simp only [Transition.target] at he; omega)
  ends := fun ht hlo hx => by
    rw [ways_unguarded] at ht
    obtain ⟨u, hu, rfl⟩ := List.mem_map.mp ht
    rw [Transition.target_unguarded]
    rw [Transition.consumes_unguarded] at hx
    cases hcl.way hu with
    | finishes => rfl
    | operand => exact absurd (of_decide_eq_true hx) T.operand_ne_end
    | operator o => exact absurd (of_decide_eq_true hx) (T.type_ne_end o)
    | _ => cases hx
  calls := fun ht => by
    rw [call_mem_ways_unguarded] at ht
    cases hcl.way ht <;> omega

/-! ## The callers of an expression -/

/-- The sentence is recognised in the rule that nobody called. -/
theorem eq_of_calls_sentence {outer : List Invocation} (h : n.Calls 0 outer 0) : outer = [.root 0] := by
  cases h with
  | root => rfl
  | call _ _ _ hcall => cases hcl.way hcall

/-- The callers of an expression wait behind the right operands of operators, the outermost one at the end of the
sentence. -/
theorem returnStates_eq {gr : Grammar} {plan : Plan} {lazy : Prop} (hl : gr.LaidOut plan lazy n)
    {outer : List Invocation} (h : n.Calls 0 outer 1) : ∃ os, n.returnStates outer = T.waiting os := by
  generalize hrule : 1 = rule at h
  induction h with
  | root => cases hrule
  | @call outer r caller target rule follow level precedence hcalls hr hcall ih =>
    rw [n.returnStates_concat outer rfl (hl.follow_of_call hcall)]
    cases hcl.way hcall with
    | starts =>
      obtain rfl : 0 = r := (hcl.sentence 4 (by omega) (by omega)).1.symm.trans hr
      obtain rfl := hcl.eq_of_calls_sentence hcalls
      exact ⟨[], rfl⟩
    | calls o =>
      obtain rfl : 1 = r := (hcl.expression _ (by omega) (by omega)).1.symm.trans hr
      obtain ⟨os, hos⟩ := ih rfl
      exact ⟨o :: os, by rw [hos]; rfl⟩

/-! ## Reading on -/

/-- Where one symbol is accepted, the machine without guards consumes it. -/
theorem eats {q z : Nat} {x : Symbol} {lo hi : Int} {s : List Nat} (hq : q ≠ 1 ∧ q ≠ 3)
    (hways : n.ways q = [.symbol z x]) : n.unguarded.Eats lo hi x ⟨q, s⟩ ⟨z, s⟩ := by
  refine .along (t := .symbol z x) ?_ ?_ (decide_eq_true rfl)
  · rw [isStop_unguarded, hcl.stop_iff]
    tauto
  · change _ ∈ n.unguarded.ways q
    rw [ways_unguarded, hways]
    exact List.mem_singleton_self _

omit hcl in
/-- What a machine glides to without the caller's stack, the machine without guards drifts to. -/
theorem drifts_of_glides {s t : Spot} (h : ReflTransGen (Surroundings.alone n {}).Glides s t) :
    ReflTransGen (n.unguarded.Drifts false) s t :=
  rtc_drifts_unguarded_iff.mpr
    (ReflTransGen.mono (fun _ _ (hg : (Surroundings.alone n {}).Glides _ _) => hg.drifts) _ _ h)

/-- From the end of an expression the machine gets to the end of the sentence. -/
theorem drifts_out (os : List (Fin T.count)) :
    ReflTransGen (n.unguarded.Drifts false) ⟨10, T.waiting os⟩ ⟨6, []⟩ := by
  have hcl' : (Surroundings.alone n {}).network.Climbing T := hcl
  induction os with
  | nil => exact drifts_of_glides (.head hcl'.glides_stop ((hcl'.glides_leave 5).tail hcl'.glides_finish))
  | cons o os ih =>
    have hleave : ReflTransGen (Surroundings.alone n {}).Glides ⟨10, T.waiting (o :: os)⟩ ⟨10, T.waiting os⟩ :=
      .head hcl'.glides_stop ((hcl'.glides_leave _).trans (hcl'.glides_turn o))
    exact (drifts_of_glides hleave).trans ih

/-- In front of an operator's token the machine can read what follows if it can do so behind the right operand. -/
theorem poised_operator {o : Fin T.count} {os ops : List (Fin T.count)}
    (h : n.unguarded.Finishes 1 ⟨10, T.waiting (o :: os)⟩ (T.rest ops)) :
    n.unguarded.Poised 1 ⟨15 + 6 * o, T.waiting os⟩ (T.rest (o :: ops)) := by
  have hcl' : (Surroundings.alone n {}).network.Climbing T := hcl
  have hn : n.unguarded.Unguarded := hcl.closing.unguarded'
  have hturn : (Surroundings.alone n {}).Glides ⟨9, T.waiting (o :: os)⟩ ⟨10, T.waiting (o :: os)⟩ :=
    hcl'.glides (by omega) (by rw [hcl'.arrives]; exact List.mem_singleton_self _)
  have hbehind : n.unguarded.Finishes 1 ⟨9, T.waiting (o :: os)⟩ (T.rest ops) :=
    finishes_of_drifts hn (drifts_of_glides (.single hturn)) h
  have hoperand : n.unguarded.Finishes 1 ⟨8, T.waiting (o :: os)⟩ (T.operand :: T.rest ops) :=
    .eat (hcl.eats (by omega) hcl.operand) hbehind
  exact ⟨_, hcl.eats (by omega) (hcl.operator o), finishes_of_drifts hn (drifts_of_glides (hcl'.glides_operand o))
    hoperand⟩

/-- In the loop the machine can read whatever follows. -/
theorem finishes_loop (os ops : List (Fin T.count)) : n.unguarded.Finishes 1 ⟨10, T.waiting os⟩ (T.rest ops) := by
  have hn : n.unguarded.Unguarded := hcl.closing.unguarded'
  induction ops generalizing os with
  | nil =>
    have hend : n.unguarded.Eats n.unguarded.minSymbol n.unguarded.maxSymbol endOfInput ⟨6, []⟩ ⟨7, []⟩ :=
      hcl.eats (by omega) hcl.finishes
    have hclose : n.unguarded.Finishes 1 ⟨7, []⟩ [] := by
      refine finishes_of_drifts hn (.single (.along (t := .epsilon 1) ?_ ?_ rfl)) (.refl _)
      · exact hcl.closing.not_isStop
      · rw [hcl.closing.ways_last]
        exact List.mem_singleton_self _
    exact finishes_of_drifts hn (hcl.drifts_out os) (.eat hend hclose)
  | cons o ops ih =>
    have hcl' : (Surroundings.alone n {}).network.Climbing T := hcl
    have hglides : ReflTransGen (Surroundings.alone n {}).Glides ⟨10, T.waiting os⟩ ⟨15 + 6 * o, T.waiting os⟩ :=
      .head hcl'.glides_loop (hcl'.glides_operator o (Surroundings.lets_of_noContext rfl _))
    exact finishes_of_drifts hn (drifts_of_glides hglides) (hcl.poised_operator (ih (o :: os))).finishes

end Network.Climbing
end AdaptiveLL

import Mathlib
import AdaptiveLL.Proofs.Precedence.Climbing
import AdaptiveLL.Proofs.Prediction.Comprising
import AdaptiveLL.Proofs.Prediction.Idempotent

/-! # Looking ahead in the loop of an expression

Two decisions are made in the loop: whether it goes on, at its start, and which operator comes next.  What the
machine can do from there on is said step by step (`Network.Climbing.glides_operator` and those after it).  A closure
may collect more than that, because it does not know the callers, so its course is followed: on the way to an
operator's token a guard is collected, and on the way out none is, because it is met past the end of the rule
(`Standing.AtLoop`, `Standing.AtChoice`).  Both together give the configurations with which the decisions begin
(`Surroundings.startConfigs_loop`, `Surroundings.startConfigs_choice`).
-/
namespace AdaptiveLL
open Relation (ReflTransGen)

variable {σ : Type} {env : Surroundings σ} {T : OperatorTable} {s : List Nat}

/-! ## Ways through the network -/

namespace Network.Climbing
variable (hcl : env.network.Climbing T)
include hcl

theorem glides {q z : Nat} (hq : q ≠ 1 ∧ q ≠ 3) (hz : .epsilon z ∈ env.network.ways q) :
    env.Glides ⟨q, s⟩ ⟨z, s⟩ :=
  .along (t := .epsilon z) (by rw [hcl.stop_iff]; tauto) hz rfl (env.lets_of_guard? rfl)

/-- From the guard of an operator to its token, if the guard lets that be. -/
theorem glides_token (o : Fin T.count) (hlets : env.Lets (.precedence (14 + 6 * o) (T.level o))) :
    ReflTransGen env.Glides ⟨13 + 6 * o, s⟩ ⟨15 + 6 * o, s⟩ := by
  have hrequires : env.Glides ⟨13 + 6 * o, s⟩ ⟨14 + 6 * o, s⟩ :=
    .along (t := .precedence (14 + 6 * o) (T.level o)) (by rw [hcl.stop_iff]; omega)
      (by rw [hcl.requires]; exact List.mem_singleton_self _) rfl hlets
  have hgoesOn : env.Glides ⟨14 + 6 * o, s⟩ ⟨15 + 6 * o, s⟩ :=
    hcl.glides (by omega) (by rw [hcl.goesOn]; exact List.mem_singleton_self _)
  exact .head hrequires (.single hgoesOn)

/-- From the choice among the operators to the token of one. -/
theorem glides_operator (o : Fin T.count) (hlets : env.Lets (.precedence (14 + 6 * o) (T.level o))) :
    ReflTransGen env.Glides ⟨11, s⟩ ⟨15 + 6 * o, s⟩ := by
  refine .head (hcl.glides (by omega) ?_) (hcl.glides_token o hlets)
  rw [hcl.chooses]
  exact List.mem_map.mpr ⟨o, List.mem_range.mpr o.isLt, rfl⟩

/-- From the end of the loop to where the caller goes on. -/
theorem glides_leave (f : Nat) : ReflTransGen env.Glides ⟨14 + 6 * T.count, f :: s⟩ ⟨f, s⟩ :=
  .head (hcl.glides (by omega) (by rw [hcl.leaves]; exact List.mem_singleton_self _))
    (.single (.pop (by rw [hcl.stop_iff]; exact .inr rfl)))

/-- From behind a right operand to the next turn of the loop. -/
theorem glides_turn (o : Fin T.count) : ReflTransGen env.Glides ⟨18 + 6 * o, s⟩ ⟨10, s⟩ :=
  .head (hcl.glides (by omega) (by rw [hcl.meets]; exact List.mem_singleton_self _))
    (.head (hcl.glides (by omega) (by rw [hcl.turns]; exact List.mem_singleton_self _))
      (.single (hcl.glides (by omega) (by rw [hcl.back]; exact List.mem_singleton_self _))))

theorem glides_loop : env.Glides ⟨10, s⟩ ⟨11, s⟩ := hcl.glides (by omega) (by simp [hcl.loops])

theorem glides_finish : env.Glides ⟨5, s⟩ ⟨6, s⟩ := hcl.glides (by omega) (by simp [hcl.follows])

theorem glides_stop : env.Glides ⟨10, s⟩ ⟨14 + 6 * T.count, s⟩ := hcl.glides (by omega) (by simp [hcl.loops])

/-- From behind an operator to the first token of its right operand. -/
theorem glides_operand (o : Fin T.count) : ReflTransGen env.Glides ⟨16 + 6 * o, s⟩ ⟨8, (18 + 6 * o) :: s⟩ := by
  have hcalls : env.Glides ⟨17 + 6 * o, s⟩ ⟨2, (18 + 6 * o) :: s⟩ :=
    .along (t := .call 2 1 (T.level o + 1) (18 + 6 * o)) (by rw [hcl.stop_iff]; omega)
      (by rw [hcl.calls]; exact List.mem_singleton_self _) rfl (env.lets_of_guard? rfl)
  exact .head (hcl.glides (by omega) (by rw [hcl.behind]; exact List.mem_singleton_self _))
    (.head hcalls (.single (hcl.glides (by omega) (by rw [hcl.enters]; exact List.mem_singleton_self _))))

end Network.Climbing

/-! ## What a closure collects -/

namespace Standing
variable (T)

/-- On the way to the token of an operator, for an alternative, under the operator's guard once it was met. -/
structure Ahead (o : Fin T.count) (alt : Nat) (x : Standing) : Prop where
  alt : x.alt = alt
  depth : x.depth = 0
  place : x.state = 13 + 6 * o ∧ x.guard = .always ∨
    (x.state = 14 + 6 * o ∨ x.state = 15 + 6 * o) ∧ x.guard = .precedence (T.level o)

/-- Without stacks, while guards are collected. -/
structure Begun (x : Standing) : Prop where
  stack : x.stack = {[]}
  collecting : x.collecting = true

/-- The states on the way out of the rule that the closure began in, and behind it, where it goes on to the
end of the sentence or to a further turn of some loop. -/
def Outwards (q : Nat) (depth : Int) : Prop :=
  q = 14 + 6 * T.count ∧ depth = 0 ∨ q = 3 ∧ depth ≤ 0 ∨
    depth < 0 ∧ (q = 5 ∨ q = 6 ∨ q = 10 ∨ q = 11 ∨ 12 ≤ q ∧ q < 15 + 6 * T.count ∧ q % 6 < 4)

/-- On the way out.  Behind the rule no guard is collected. -/
structure Leaving (x : Standing) : Prop where
  alt : x.alt = 2
  guard : x.guard = .always
  place : Outwards T x.state x.depth

/-- In the closure with which the loop's decision begins. -/
structure AtLoop (x : Standing) : Prop extends x.Begun where
  course : x.state = 11 ∧ x.alt = 1 ∧ x.depth = 0 ∧ x.guard = .always ∨ (∃ o, x.Ahead T o 1) ∨ x.Leaving T

/-- In the closure with which the choice among the operators begins. -/
structure AtChoice (x : Standing) : Prop extends x.Begun where
  course : ∃ o : Fin T.count, x.Ahead T o (o + 1)

end Standing

namespace Standing
variable {x : Standing} {t : Transition} {n : Network}

theorem Begun.behind (h : x.Begun) (hstack : ∀ r, t.onto r = r) (haction : Closure.isAction t = false) :
    (x.behind n t).Begun where
  stack := by simp [Standing.behind, h.stack, hstack]
  collecting := by simp [Standing.behind, h.collecting, haction]

variable (hcl : n.Climbing T)
include hcl

theorem depthBehind_of_inner (hq : x.state ≠ 1 ∧ x.state ≠ 3) (hcall : Closure.isCall t = false) :
    x.depthBehind n t = x.depth := by
  have hstop : ¬ n.isStop x.state := by rw [hcl.stop_iff]; tauto
  rw [depthBehind, if_neg hstop, hcall]
  rfl

/-- Going on towards the token of an operator. -/
theorem Ahead.behind {o : Fin T.count} {alt : Nat} (hb : x.Begun) (h : x.Ahead T o alt) (ht : t ∈ n.ways x.state)
    (hfree : t.isFree) : (x.behind n t).Begun ∧ (x.behind n t).Ahead T o alt := by
  obtain ⟨q, alt', guard, stack, depth, collecting⟩ := x
  obtain ⟨rfl, rfl, hplace⟩ := h
  obtain ⟨rfl, rfl⟩ := hb
  dsimp only at hplace ht
  obtain ⟨rfl, rfl⟩ | ⟨rfl | rfl, rfl⟩ := hplace
  · rw [hcl.requires, List.mem_singleton] at ht
    subst ht
    refine ⟨⟨by simp [Standing.behind, Transition.onto], rfl⟩, rfl, ?_, .inr ⟨.inl rfl, rfl⟩⟩
    exact depthBehind_of_inner hcl (by dsimp only; omega) rfl
  · rw [hcl.goesOn, List.mem_singleton] at ht
    subst ht
    refine ⟨⟨by simp [Standing.behind, Transition.onto], rfl⟩, rfl, ?_, .inr ⟨.inr rfl, rfl⟩⟩
    exact depthBehind_of_inner hcl (by dsimp only; omega) rfl
  · rw [hcl.operator, List.mem_singleton] at ht
    subst ht
    cases hfree

/-- Going on around the loop. -/
theorem Leaving.behind (hb : x.Begun) (h : x.Leaving T) (ht : t ∈ n.ways x.state) (hfree : t.isFree) :
    (x.behind n t).Begun ∧ (x.behind n t).Leaving T := by
  have hway := hcl.way ht
  have hstop := hcl.stop_iff x.state
  obtain ⟨q, alt, guard, stack, depth, collecting⟩ := x
  obtain ⟨rfl, rfl, hplace⟩ := h
  dsimp only [Outwards] at hplace hway hstop
  -- no call is met on the way, and no operand, so that the stacks stay as they are
  have hstay : (∀ r, t.onto r = r) ∧ Closure.isAction t = false ∧ Closure.isCall t = false := by
    cases hway <;> first | exact ⟨fun _ => rfl, rfl, rfl⟩ | (exfalso; omega)
  refine ⟨hb.behind hstay.1 hstay.2.1, rfl, ?_, ?_⟩
  · change Standing.guardBehind ⟨q, 2, .always, stack, depth, collecting⟩ t = .always
    cases hway <;> first | rfl | skip
    -- a guard is met only past the rule, where it is not collected
    next o =>
    have hdepth : depth ≠ 0 := by omega
    simp [guardBehind, hdepth]
  · have hdepth : q = 3 ∧ Standing.depthBehind n ⟨q, 2, .always, stack, depth, collecting⟩ t = depth - 1 ∨
        q ≠ 3 ∧ Standing.depthBehind n ⟨q, 2, .always, stack, depth, collecting⟩ t = depth := by
      rw [depthBehind, hstay.2.2]
      by_cases hq : q = 3
      · exact .inl ⟨hq, if_pos (hstop.mpr (.inr hq))⟩
      · exact .inr ⟨hq, if_neg fun hs => by rcases hstop.mp hs with rfl | rfl <;> omega⟩
    change Outwards T t.target (Standing.depthBehind n ⟨q, 2, .always, stack, depth, collecting⟩ t)
    generalize Standing.depthBehind n ⟨q, 2, .always, stack, depth, collecting⟩ t = d at hdepth ⊢
    generalize htarget : t.target = q'
    rw [Outwards]
    cases hway <;> first | (simp only [Transition.target] at htarget; omega) | cases hfree

end Standing

section Tracks
open Standing
variable (hcl : env.network.Climbing T) (hfull : env.fullContext = false) (hend : env.endIsFree = false)
include hcl hfull hend

theorem Closure.tracks_atLoop : Tracks env (AtLoop T) := by
  refine .of_bottom hfull (fun hx => hx.stack) fun {x} hx t ht hdrifts => ?_
  have hfree : t.isFree := by simpa [Transition.drifts, hend] using hdrifts
  rcases hx.course with ⟨hstate, halt, hdepth, hguard⟩ | ⟨o, ho⟩ | hleaving
  · rw [hstate, hcl.chooses] at ht
    obtain ⟨i, hi, rfl⟩ := List.mem_map.mp ht
    refine ⟨hx.toBegun.behind (fun _ => rfl) rfl,
      .inr (.inl ⟨⟨i, List.mem_range.mp hi⟩, halt, ?_, .inl ⟨rfl, hguard⟩⟩)⟩
    exact (depthBehind_of_inner hcl (by omega) rfl).trans hdepth
  · obtain ⟨hb, ho⟩ := ho.behind hcl hx.toBegun ht hfree
    exact ⟨hb, .inr (.inl ⟨o, ho⟩)⟩
  · obtain ⟨hb, hl⟩ := hleaving.behind hcl hx.toBegun ht hfree
    exact ⟨hb, .inr (.inr hl)⟩

theorem Closure.tracks_atChoice : Tracks env (AtChoice T) := by
  refine .of_bottom hfull (fun hx => hx.stack) fun {x} hx t ht hdrifts => ?_
  have hfree : t.isFree := by simpa [Transition.drifts, hend] using hdrifts
  obtain ⟨o, ho⟩ := hx.course
  obtain ⟨hb, ho⟩ := ho.behind hcl hx.toBegun ht hfree
  exact ⟨hb, o, ho⟩

end Tracks

/-! ## Where the decisions begin -/

/-- What the loop's decision begins with: the tokens of the operators, guarded for the first alternative, and
what may follow an expression for the second one. -/
def OperatorTable.LoopKeys (T : OperatorTable) (k : Nat × Nat × Guard) : Prop :=
  k = (6, 2, .always) ∨ ∃ o : Fin T.count, k = (15 + 6 * o.val, 1, .precedence (T.level o)) ∨
    k = (15 + 6 * o.val, 2, .always)

/-- What the choice among the operators begins with: their tokens, guarded. -/
def OperatorTable.ChoiceKeys (T : OperatorTable) (k : Nat × Nat × Guard) : Prop :=
  ∃ o : Fin T.count, k = (15 + 6 * o.val, o.val + 1, .precedence (T.level o))

namespace OperatorTable
variable {q alt : Nat} {guard guard' : Guard}

/-- The configurations of the loop are where a token is read. -/
theorem LoopKeys.place {k : Nat × Guard} (h : T.LoopKeys (q, k)) : q = 6 ∨ ∃ o : Fin T.count, q = 15 + 6 * o := by
  rcases h with hk | ⟨o, hk | hk⟩ <;> cases hk
  · exact .inl rfl
  · exact .inr ⟨o, rfl⟩
  · exact .inr ⟨o, rfl⟩

/-- Those of the choice are in front of the operators. -/
theorem ChoiceKeys.place {k : Nat × Guard} (h : T.ChoiceKeys (q, k)) : ∃ o : Fin T.count, q = 15 + 6 * o := by
  obtain ⟨o, hk⟩ := h
  cases hk
  exact ⟨o, rfl⟩

/-- Among the configurations of the loop, state and alternative determine the guard. -/
theorem LoopKeys.guard_eq (h : T.LoopKeys (q, alt, guard)) (h' : T.LoopKeys (q, alt, guard')) : guard' = guard := by
  rcases h with h | ⟨o, h | h⟩ <;> rcases h' with h' | ⟨o', h' | h'⟩ <;>
    simp only [Prod.mk.injEq] at h h' <;> obtain ⟨hq, halt, rfl⟩ := h <;> obtain ⟨hq', halt', rfl⟩ := h' <;>
    first | rfl | omega | (obtain rfl : o = o' := Fin.ext (by omega); rfl)

/-- So they do among those of the choice. -/
theorem ChoiceKeys.guard_eq (h : T.ChoiceKeys (q, alt, guard)) (h' : T.ChoiceKeys (q, alt, guard')) :
    guard' = guard := by
  obtain ⟨o, h⟩ := h
  obtain ⟨o', h'⟩ := h'
  simp only [Prod.mk.injEq] at h h'
  obtain ⟨hq, -, rfl⟩ := h
  obtain ⟨hq', -, rfl⟩ := h'
  obtain rfl : o = o' := Fin.ext (by omega)
  rfl

end OperatorTable

/-- A call of the expression's rule lies on a chain of calls. -/
theorem Network.Climbing.chained_cons {n : Network} (hcl : n.Climbing T) {top : Option Nat} {q f : Nat}
    (hq : 8 ≤ q ∧ q < 15 + 6 * T.count) (hf : f = 5 ∨ ∃ o : Fin T.count, f = 18 + 6 * o)
    (hs : n.Chained top f s) : n.Chained top q (f :: s) := by
  have hrule := hcl.expression q hq.1 hq.2
  refine ⟨⟨rfl, hrule.2⟩, ?_, hs⟩
  rw [hrule.1]
  obtain rfl | ⟨o, rfl⟩ := hf
  · exact ⟨4, 2, 0, hcl.starts ▸ List.mem_singleton_self _⟩
  · exact ⟨17 + 6 * o, 2, _, hcl.calls o ▸ List.mem_singleton_self _⟩

section Starting
variable {gr : Grammar} {plan : Plan} {lazy : Prop} (hl : gr.LaidOut plan lazy env.network)
  (hcl : env.network.Climbing T) (hfull : env.fullContext = false) (hend : env.endIsFree = false)
  {w w' : Workspace σ}

include hfull in
theorem Surroundings.lets_of_noContext (t : Transition) : env.Lets t := fun hf => by
  rw [hfull] at hf
  cases hf

include hcl in
theorem Surroundings.collects_of_consuming {q : Nat} (hq : q ≠ 1 ∧ q ≠ 3)
    (hno : ∀ t ∈ env.network.ways q, t.isFree = false) (s : List Nat) : env.Collects ⟨q, s⟩ :=
  ⟨fun hstop => absurd ((hcl.stop_iff q).mp hstop) (by tauto), fun _ => hcl.freeOnly_eq_false hno⟩

include hcl in
theorem Surroundings.collects_operator (o : Fin T.count) (s : List Nat) : env.Collects ⟨15 + 6 * o, s⟩ :=
  collects_of_consuming hcl (by omega) (by simp [hcl.operator, Transition.isFree]) s

include hcl in
theorem Surroundings.collects_finish (s : List Nat) : env.Collects ⟨6, s⟩ :=
  collects_of_consuming hcl (by omega) (by simp [hcl.finishes, Transition.isFree]) s

include hl in
/-- Where the machine gets to without guards from a place on a chain of calls, it knows where to return to. -/
theorem Surroundings.returning_of_chained {top : Option Nat} {s : Spot}
    (hs : env.network.Chained top s.state s.stack) :
    ∀ u, ReflTransGen env.Drifts s u → env.network.Returning u := fun _ hu _ _ hstop hstack =>
  hl.returns_of_chained hstop (hstack ▸ hl.chained_of_drifts hu hs)

include hl hfull in
/-- What a decision begins with that is asked without the caller's stack. -/
theorem Surroundings.startConfigs_comprises {good : Standing → Prop} (ht : Closure.Tracks env good)
    (hw : w.graph.Truthful) {q : Nat} {out : ConfigSet} (h : env.startConfigs q [] w = (.ok out, w'))
    (hfirst : ∀ i t, (env.network.ways q)[i]? = some t → good ⟨t.target, i + 1, .always, {[]}, 0, true⟩)
    {keys : Nat × Nat × Guard → Prop}
    (honly : ∀ x, good x → (env.network.state x.state).freeOnly = false →
      keys (x.state, x.alt, x.guard) ∧ x.stack = {[]})
    (hall : ∀ q' alt guard, keys (q', alt, guard) → (∀ guard', keys (q', alt, guard') → guard' = guard) ∧
      ∃ i t s s', (env.network.ways q)[i]? = some t ∧ alt = i + 1 ∧ env.network.Chained none t.target s ∧
        ReflTransGen env.Glides ⟨t.target, s⟩ ⟨q', s'⟩ ∧ env.Collects ⟨q', s'⟩) :
    out.Comprises w'.graph keys {[]} ∧ out.Open ∧ w'.graph.Truthful := by
  obtain ⟨r, w₁, hr, hw₁, -, hknown, hclose⟩ := startConfigs_cases hw h
  rw [hfull, if_neg Bool.false_ne_true] at hr
  obtain ⟨rfl, -⟩ := hr
  have hbottom : w₁.graph.stackSet StackRef.bottom = {[]} := hw₁.toSound.stackSet_bottom
  refine Closure.closeAll_comprises ht hw₁ (fun c hc => ?_) hclose honly fun q' alt guard hk => ?_
  · rw [firstConfigs, List.mem_mapIdx] at hc
    obtain ⟨i, hi, rfl⟩ := hc
    refine ⟨hknown, ?_⟩
    rw [Config.standing]
    dsimp only
    rw [hbottom]
    exact hfirst i _ (List.getElem?_eq_getElem hi)
  · obtain ⟨hunique, i, t, s, s', ht, halt, hchain, hglides, hcollects⟩ := hall q' alt guard hk
    have hcovers : StackGraph.Covers true (w₁.graph.stackSet StackRef.bottom) s := ⟨[], hbottom ▸ rfl, .nil _⟩
    exact ⟨hunique, ⟨t.target, s⟩, s', anyCovers_firstConfigs.mpr ⟨i, t, ht, halt, rfl, hcovers⟩,
      returning_of_chained hl hchain, ReflTransGen.mono (fun _ _ (hg : env.Glides _ _) => hg.drifts) _ _ hglides,
      hcollects⟩

include hl hcl hfull hend

/-- The configurations of the loop's decision. -/
theorem Surroundings.startConfigs_loop (hw : w.graph.Truthful) {out : ConfigSet}
    (h : env.startConfigs 10 [] w = (.ok out, w')) :
    out.Comprises w'.graph T.LoopKeys {[]} ∧ out.Open ∧ w'.graph.Truthful := by
  refine startConfigs_comprises hl hfull (Closure.tracks_atLoop hcl hfull hend) hw h (fun i t ht => ?_)
    (fun x hx hfree => ?_) ?_
  · rw [hcl.loops] at ht
    rcases i with _ | _ | i
    · obtain rfl : _ = t := Option.some.inj ht
      exact ⟨⟨rfl, rfl⟩, .inl ⟨rfl, rfl, rfl, rfl⟩⟩
    · obtain rfl : _ = t := Option.some.inj ht
      exact ⟨⟨rfl, rfl⟩, .inr (.inr ⟨rfl, rfl, .inl ⟨rfl, rfl⟩⟩)⟩
    · cases ht
  · refine ⟨?_, hx.stack⟩
    have hplace : x.state < 15 + 6 * T.count := by
      rcases hx.course with h | ⟨o, h⟩ | h
      · omega
      · have := h.place
        omega
      · have := h.place
        unfold Standing.Outwards at this
        omega
    have hno := hcl.place_of_consuming hplace (hl.unmixed.consuming (hcl.freeOnly _) hfree)
    obtain ⟨q, alt, guard, stack, depth, collecting⟩ := x
    dsimp only at hno ⊢
    rcases hx.course with ⟨rfl, -⟩ | ⟨o, ⟨rfl, -, hstate⟩⟩ | ⟨rfl, rfl, hstate⟩
    · omega
    · dsimp only at hstate
      obtain ⟨rfl, -⟩ | ⟨rfl | rfl, rfl⟩ := hstate
      · omega
      · omega
      · exact .inr ⟨o, .inl rfl⟩
    · dsimp only [Standing.Outwards] at hstate
      obtain rfl | rfl | rfl | ⟨o, rfl⟩ := hno
      · omega
      · exact .inl rfl
      · omega
      · exact .inr ⟨o, .inr rfl⟩
  · intro q alt guard hk
    refine ⟨fun _ hk' => hk.guard_eq hk', ?_⟩
    have hbegin : 8 ≤ 14 + 6 * T.count ∧ 14 + 6 * T.count < 15 + 6 * T.count := by omega
    have hempty : ∀ q, env.network.Chained none q [] := fun _ _ h => nomatch h
    have hfirst : (env.network.ways 10)[0]? = some (.epsilon 11) := by rw [hcl.loops]; rfl
    have hsecond : (env.network.ways 10)[1]? = some (.epsilon (14 + 6 * T.count)) := by rw [hcl.loops]; rfl
    have hlets := lets_of_noContext hfull
    rcases hk with hk | ⟨o, hk | hk⟩ <;> cases hk
    · exact ⟨1, _, [5], [], hsecond, rfl, hcl.chained_cons hbegin (.inl rfl) (hempty 5),
        (hcl.glides_leave 5).tail hcl.glides_finish, collects_finish hcl _⟩
    · exact ⟨0, _, [], [], hfirst, rfl, hempty 11, hcl.glides_operator o (hlets _), collects_operator hcl o _⟩
    · -- the expression is the right operand of an operator, and behind it the loop goes on
      refine ⟨1, _, [18 + 6 * o.val], [], hsecond, rfl, hcl.chained_cons hbegin (.inr ⟨o, rfl⟩) (hempty _), ?_,
        collects_operator hcl o _⟩
      exact (hcl.glides_leave _).trans ((hcl.glides_turn o).trans
        (.head hcl.glides_loop (hcl.glides_operator o (hlets _))))

/-- The configurations of the choice among the operators. -/
theorem Surroundings.startConfigs_choice (hw : w.graph.Truthful) {out : ConfigSet}
    (h : env.startConfigs 11 [] w = (.ok out, w')) :
    out.Comprises w'.graph T.ChoiceKeys {[]} ∧ out.Open ∧ w'.graph.Truthful := by
  refine startConfigs_comprises hl hfull (Closure.tracks_atChoice hcl hfull hend) hw h (fun i t ht => ?_)
    (fun x hx hfree => ?_) ?_
  · rw [hcl.chooses, List.getElem?_map, Option.map_eq_some_iff] at ht
    obtain ⟨j, hj, rfl⟩ := ht
    obtain ⟨hi, rfl⟩ := List.getElem?_eq_some_iff.mp hj
    rw [List.length_range] at hi
    rw [List.getElem_range]
    exact ⟨⟨rfl, rfl⟩, ⟨i, hi⟩, rfl, rfl, .inl ⟨rfl, rfl⟩⟩
  · refine ⟨?_, hx.stack⟩
    obtain ⟨o, halt, -, hstate⟩ := hx.course
    have hno := hcl.place_of_consuming (by omega) (hl.unmixed.consuming (hcl.freeOnly _) hfree)
    obtain ⟨q, alt, guard, stack, depth, collecting⟩ := x
    dsimp only at hno halt hstate ⊢
    obtain ⟨rfl, -⟩ | ⟨rfl | rfl, rfl⟩ := hstate
    · omega
    · omega
    · exact ⟨o, by rw [halt]⟩
  · intro q alt guard hk
    refine ⟨fun _ hk' => hk.guard_eq hk', ?_⟩
    obtain ⟨o, hk⟩ := hk
    cases hk
    have hfirst : (env.network.ways 11)[o.val]? = some (.epsilon (13 + 6 * o)) := by
      rw [hcl.chooses, List.getElem?_map, List.getElem?_range o.isLt]
      rfl
    exact ⟨o, _, [], [], hfirst, rfl, (fun _ h => nomatch h), hcl.glides_token o (lets_of_noContext hfull _),
      collects_operator hcl o _⟩

end Starting
end AdaptiveLL

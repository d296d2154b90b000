import Mathlib
import AdaptiveLL.Proofs.Precedence.LookingAhead
import AdaptiveLL.Proofs.Prediction.AtEnd
import AdaptiveLL.Proofs.Prediction.Recomputing

/-! # One token ahead

From the configurations with which the loop's decision begins an operator leads to one state for both alternatives, in
which they are in conflict, and the end of the input to one for leaving the loop.  From those of the choice among the
operators an operator leads to one for its alternative.  So the first token decides, but for the guard
(`OperatorTable.edgeResult_operator`, `OperatorTable.edgeResult_end`, `OperatorTable.edgeResult_choice`).
-/
namespace AdaptiveLL
open Relation (ReflTransGen)

namespace Standing

/-- Behind the token of an operator, up to the first token of its right operand. -/
structure Behind {T : OperatorTable} (o : Fin T.count) (P : Nat × Guard → Prop) (x : Standing) : Prop where
  kept : P (x.alt, x.guard)
  place : (x.state = 16 + 6 * o ∨ x.state = 17 + 6 * o) ∧ x.stack = {[]} ∨
    (x.state = 2 ∨ x.state = 8) ∧ x.stack = {[18 + 6 * o.val]}

/-- Behind the end of the input. -/
structure AtEnd (x : Standing) : Prop where
  alt : x.alt = 2
  guard : x.guard = .always
  stack : x.stack = {[]}
  place : x.state = 7 ∨ x.state = 1

end Standing

variable {σ : Type} {env : Surroundings σ} {T : OperatorTable} {o : Fin T.count} {P : Nat × Guard → Prop}

section Tracks
variable (hcl : env.network.Climbing T) (hfull : env.fullContext = false)
include hcl hfull

theorem Closure.tracks_behind (hend : env.endIsFree = false) : Tracks env (Standing.Behind o P) where
  noContext := hfull
  alone x y hx hy hstate _ _ := by
    rcases hx.place with ⟨hq, hs⟩ | ⟨hq, hs⟩ <;> rcases hy.place with ⟨hq', hs'⟩ | ⟨hq', hs'⟩
    · exact hs.trans hs'.symm
    · omega
    · omega
    · exact hs.trans hs'.symm
  pop {x} hx hstop q s hm := by
    have := (hcl.stop_iff x.state).mp hstop
    have := hx.place
    omega
  follow {x} hx _ t ht hdrifts := by
    have hfree : t.isFree := by simpa [Transition.drifts, hend] using hdrifts
    obtain ⟨q, alt, guard, stack, depth, collecting⟩ := x
    obtain ⟨hkept, ⟨hq, hs⟩ | ⟨hq, hs⟩⟩ := hx <;> dsimp only at hq hs ht hkept <;> subst hs <;>
      obtain rfl | rfl := hq
    · rw [hcl.behind, List.mem_singleton] at ht
      subst ht
      exact ⟨hkept, .inl ⟨.inr rfl, by simp [Standing.behind, Transition.onto]⟩⟩
    · rw [hcl.calls, List.mem_singleton] at ht
      subst ht
      exact ⟨hkept, .inr ⟨.inl rfl, by simp [Standing.behind, Transition.onto]⟩⟩
    · rw [hcl.enters, List.mem_singleton] at ht
      subst ht
      exact ⟨hkept, .inr ⟨.inr rfl, by simp [Standing.behind, Transition.onto]⟩⟩
    · rw [hcl.operand, List.mem_singleton] at ht
      subst ht
      cases hfree

theorem Closure.tracks_atEnd : Tracks env Standing.AtEnd := by
  refine .of_bottom hfull (fun hx => hx.stack) fun {x} hx t ht _ => ?_
  obtain ⟨q, alt, guard, stack, depth, collecting⟩ := x
  obtain ⟨rfl, rfl, rfl, hq⟩ := hx
  dsimp only at hq ht
  obtain rfl | rfl := hq
  · rw [hcl.closes, List.mem_singleton] at ht
    subst ht
    exact ⟨rfl, rfl, by simp [Standing.behind, Transition.onto], .inr rfl⟩
  · rw [hcl.ways_stop] at ht
    cases ht

end Tracks

section Reaching
variable {gr : Grammar} {plan : Plan} {lazy : Prop} (hl : gr.LaidOut plan lazy env.network)
  (hcl : env.network.Climbing T) (hfull : env.fullContext = false) (hend : env.endIsFree = false)
  {w w' : Workspace σ} {configs : ConfigSet} {keys : Nat × Nat × Guard → Prop}

include hcl in
/-- What may be consumed in front of an operator and behind the expression. -/
theorem Surroundings.movedKeys_iff {x : Symbol} {k : Nat × Nat × Guard}
    (hplace : ∀ q k, keys (q, k) → q = 6 ∨ ∃ o : Fin T.count, q = 15 + 6 * o) :
    env.MovedKeys x keys k ↔ x = endOfInput ∧ k.1 = 7 ∧ keys (6, k.2) ∨
      ∃ o : Fin T.count, x = T.type o ∧ k.1 = 16 + 6 * o ∧ keys (15 + 6 * o, k.2) := by
  constructor
  · rintro ⟨q, t, -, ht, hx, hk, hkeys⟩
    obtain rfl | ⟨o, rfl⟩ := hplace q k.2 hkeys
    · rw [hcl.finishes, List.mem_singleton] at ht
      subst ht
      exact .inl ⟨(of_decide_eq_true hx).symm, hk, hkeys⟩
    · rw [hcl.operator, List.mem_singleton] at ht
      subst ht
      exact .inr ⟨o, (of_decide_eq_true hx).symm, hk, hkeys⟩
  · rintro (⟨rfl, hk, hkeys⟩ | ⟨o, rfl, hk, hkeys⟩)
    · exact ⟨6, .symbol 7 endOfInput, by rw [hcl.stop_iff]; omega, hcl.finishes ▸ List.mem_singleton_self _, rfl,
        hk, hkeys⟩
    · exact ⟨15 + 6 * o, .symbol (16 + 6 * o) (T.type o), by rw [hcl.stop_iff]; omega,
        hcl.operator o ▸ List.mem_singleton_self _, decide_eq_true rfl, hk, hkeys⟩

include hcl in
/-- Only the configurations in front of an operator's token are moved over it. -/
theorem Surroundings.movedKeys_operator {k : Nat × Nat × Guard}
    (hplace : ∀ q k, keys (q, k) → q = 6 ∨ ∃ o : Fin T.count, q = 15 + 6 * o) :
    env.MovedKeys (T.type o) keys k ↔ k.1 = 16 + 6 * o ∧ keys (15 + 6 * o, k.2) := by
  rw [movedKeys_iff hcl hplace]
  constructor
  · rintro (⟨hx, -⟩ | ⟨o', ho, h⟩)
    · have := T.type_pos o
      rw [hx] at this
      exact absurd this (by decide)
    · obtain rfl := T.type_injective ho
      exact h
  · exact fun h => .inr ⟨o, rfl, h⟩

include hcl in
/-- Only the configuration behind the expression is moved over the end of the input. -/
theorem Surroundings.movedKeys_end {k : Nat × Nat × Guard}
    (hplace : ∀ q k, keys (q, k) → q = 6 ∨ ∃ o : Fin T.count, q = 15 + 6 * o) :
    env.MovedKeys endOfInput keys k ↔ k.1 = 7 ∧ keys (6, k.2) := by
  rw [movedKeys_iff hcl hplace]
  constructor
  · rintro (⟨-, h⟩ | ⟨o, ho, -⟩)
    · exact h
    · have := T.type_pos o
      rw [← ho] at this
      exact absurd this (by decide)
  · exact fun h => .inl ⟨rfl, h⟩

include hl hcl hfull

/-- Closing what was moved over an operator's token. -/
theorem Surroundings.closeMoved_operator (hw : w.graph.Truthful) {x : Symbol} (hx : x ≠ endOfInput)
    (hP : ∀ alt guard guard', P (alt, guard) → P (alt, guard') → guard' = guard)
    (hs : configs.Comprises w.graph (fun k => k.1 = 16 + 6 * o.val ∧ P k.2) {[]}) {closed : ConfigSet}
    (h : env.closeMoved x configs w = (.ok closed, w')) :
    closed.Comprises w'.graph (fun k => k.1 = 8 ∧ P k.2) {[18 + 6 * o.val]} ∧ closed.Open ∧ w'.graph.Truthful := by
  unfold closeMoved at h
  rw [decide_eq_false hx] at h
  -- the end of the input was not read, so that it may not be consumed for free
  let env' : Surroundings σ := { env with endIsFree := false }
  have hcl' : env'.network.Climbing T := hcl
  have hl' : gr.LaidOut plan lazy env'.network := hl
  have htracks : Closure.Tracks env' (Standing.Behind o P) := Closure.tracks_behind hcl' hfull rfl
  refine Closure.closeAll_comprises htracks hw
    (fun c hc => ⟨hs.known c hc, (hs.mem hc).2, .inl ⟨.inl (hs.mem hc).1, hs.stack_eq c hc⟩⟩) h
    (fun y hy hfree => ?_) fun q alt guard hk => ?_
  · have hno := hcl'.place_of_consuming (by have := hy.place; omega) (hl'.unmixed.consuming (hcl'.freeOnly _) hfree)
    rcases hy.place with ⟨hq, -⟩ | ⟨hq, hstack⟩
    · obtain h | h | h | ⟨o', h⟩ := hno <;> omega
    · refine ⟨⟨?_, hy.kept⟩, hstack⟩
      obtain h | h | h | ⟨o', h⟩ := hno <;> omega
  · obtain ⟨rfl, hk⟩ := hk
    obtain ⟨c, hc, hkey⟩ := hs.exists_mem (k := (16 + 6 * o.val, alt, guard)) ⟨rfl, hk⟩
    obtain ⟨hstate, halt, -⟩ : c.state = 16 + 6 * o ∧ c.alt = alt ∧ c.guard = guard := by
      simpa [Config.key] using hkey
    have hempty : env'.network.Chained none (16 + 6 * o) [] := fun rule h => absurd h (Option.not_mem_none rule)
    have hcovers : StackGraph.Covers true (w.graph.stackSet c.stack) [] := ⟨[], by rw [hs.stack_eq c hc]; rfl, .nil _⟩
    refine ⟨fun guard' hk' => hP _ _ _ hk hk'.2, ⟨16 + 6 * o, []⟩, [18 + 6 * o.val], ⟨c, hc, halt, hstate, hcovers⟩,
      returning_of_chained hl' hempty, ?_, collects_of_consuming hcl' (by omega)
        (by simp [hcl'.operand, Transition.isFree]) _⟩
    exact ReflTransGen.mono (fun _ _ (hg : env'.Glides _ _) => hg.drifts) _ _ (hcl'.glides_operand o)

/-- Closing what was moved over the end of the input. -/
theorem Surroundings.closeMoved_end (hw : w.graph.Truthful)
    (hs : configs.Comprises w.graph (· = (7, 2, .always)) {[]}) {closed : ConfigSet}
    (h : env.closeMoved endOfInput configs w = (.ok closed, w')) :
    closed.Comprises w'.graph (· = (1, 2, .always)) {[]} ∧ closed.Open ∧ w'.graph.Truthful := by
  unfold closeMoved at h
  let env' : Surroundings σ := { env with endIsFree := decide (endOfInput = endOfInput) }
  have hcl' : env'.network.Climbing T := hcl
  have hl' : gr.LaidOut plan lazy env'.network := hl
  have hentry : ∀ c ∈ configs.toList, c.state = 7 ∧ c.alt = 2 ∧ c.guard = .always := fun c hc => by
    simpa [Config.key] using hs.mem hc
  have htracks : Closure.Tracks env' Standing.AtEnd := Closure.tracks_atEnd hcl' hfull
  refine Closure.closeAll_comprises htracks hw
    (fun c hc => ⟨hs.known c hc, (hentry c hc).2.1, (hentry c hc).2.2, hs.stack_eq c hc, .inl (hentry c hc).1⟩) h
    (fun y hy hfree => ?_) fun q alt guard hk => ?_
  · have hno := hcl'.place_of_consuming (by have := hy.place; omega) (hl'.unmixed.consuming (hcl'.freeOnly _) hfree)
    have hone : y.state = 1 := by
      have := hy.place
      obtain h | h | h | ⟨o', h⟩ := hno <;> omega
    exact ⟨by rw [hy.alt, hy.guard, hone], hy.stack⟩
  · cases hk
    obtain ⟨c, hc, hkey⟩ := hs.exists_mem rfl
    have hempty : env'.network.Chained none 7 [] := fun rule h => absurd h (Option.not_mem_none rule)
    have hcovers : StackGraph.Covers true (w.graph.stackSet c.stack) [] := ⟨[], by rw [hs.stack_eq c hc]; rfl, .nil _⟩
    refine ⟨fun guard' hk' => by cases hk'; rfl, ⟨7, []⟩, [], ⟨c, hc, (hentry c hc).2.1, (hentry c hc).1, hcovers⟩,
      returning_of_chained hl' hempty, ?_, fun _ => rfl, fun _ => hcl'.freeOnly_eq_false (by simp [hcl'.ways_stop])⟩
    exact .single (Surroundings.Glides.drifts
      (hcl'.glides (by omega) (by rw [hcl'.closes]; exact List.mem_singleton_self _)))

/-- Reading an operator, whose alternatives keep their guards. -/
theorem Surroundings.reach_operator (hw : w.graph.Truthful) (hs : configs.Comprises w.graph keys {[]})
    (hplace : ∀ q k, keys (q, k) → q = 6 ∨ ∃ o : Fin T.count, q = 15 + 6 * o)
    (hunique : ∀ q alt guard guard', keys (q, alt, guard) → keys (q, alt, guard') → guard' = guard)
    (hsome : ∃ k, keys (15 + 6 * o, k)) {r : Option ConfigSet}
    (h : env.reach true (T.type o) configs w = (.ok r, w')) :
    ∃ t q S, r = some t ∧ t.Comprises w'.graph (fun k => k.1 = q ∧ keys (15 + 6 * o, k.2)) S ∧ t.Open ∧
      w'.graph.Truthful := by
  have hx : T.type o ≠ endOfInput := fun he => by
    have := T.type_pos o
    rw [he] at this
    exact absurd this (by decide)
  obtain ⟨moved, w₁, closed, w₂, hmoved, hclosed, hfinish⟩ := reach_cases h
  have hstay : env.staying (T.type o) configs = [] := by simp [staying, hfull, hx]
  obtain ⟨hmoved, hopen, hw₁⟩ := moved_comprises hfull hw hs hmoved
  replace hmoved := hmoved.congr fun _ => movedKeys_operator hcl hplace
  have hresult : ∃ q S, closed.Comprises w₂.graph (fun k => k.1 = q ∧ keys (15 + 6 * o, k.2)) S ∧ closed.Open ∧
      w₂.graph.Truthful := by
    rcases hclosed with ⟨-, -, rfl, rfl⟩ | hclosed
    · exact ⟨_, _, hmoved, hopen, hw₁⟩
    · exact ⟨_, _, closeMoved_operator (P := fun k => keys (15 + 6 * o, k)) hl hcl hfull hw₁ hx (hunique _)
        hmoved hclosed⟩
  obtain ⟨q, S, hcomprises, hopen, hw₂⟩ := hresult
  rw [hstay, finish_nil fun he => absurd he hx] at hfinish
  obtain ⟨k, hk⟩ := hsome
  rw [hcomprises.isEmpty_eq (k := (q, k)) ⟨rfl, hk⟩] at hfinish
  cases hfinish
  exact ⟨closed, q, S, rfl, hcomprises, hopen, hw₂⟩

/-- Reading the end of the input. -/
theorem Surroundings.reach_end (hw : w.graph.Truthful) (hs : configs.Comprises w.graph T.LoopKeys {[]})
    {r : Option ConfigSet} (h : env.reach true endOfInput configs w = (.ok r, w')) :
    ∃ t, r = some t ∧ t.Comprises w'.graph (· = (1, 2, .always)) {[]} ∧ t.Open := by
  have hplace : ∀ q k, T.LoopKeys (q, k) → q = 6 ∨ ∃ o : Fin T.count, q = 15 + 6 * o := fun _ _ hk => hk.place
  obtain ⟨moved, w₁, closed, w₂, hmoved, hclosed, hfinish⟩ := reach_cases h
  have hstay : env.staying endOfInput configs = [] := by
    rw [staying, if_pos (by simp), List.filter_eq_nil_iff]
    intro c hc hstop
    have hstate := hplace _ _ (hs.mem hc)
    rcases (hcl.stop_iff _).mp hstop with he | he <;> rw [he] at hstate <;> omega
  obtain ⟨hmoved, -, hw₁⟩ := moved_comprises hfull hw hs hmoved
  replace hmoved : moved.Comprises w₁.graph (· = (7, 2, .always)) {[]} := hmoved.congr fun k => by
    obtain ⟨q, alt, guard⟩ := k
    rw [movedKeys_end hcl hplace]
    constructor
    · rintro ⟨rfl, hk | ⟨o, hk | hk⟩⟩ <;> simp only [Prod.mk.injEq] at hk
      · obtain ⟨-, rfl, rfl⟩ := hk
        rfl
      · omega
      · omega
    · intro hk
      cases hk
      exact ⟨rfl, .inl rfl⟩
  replace hclosed : env.closeMoved endOfInput moved w₁ = (.ok closed, w₂) := by
    refine hclosed.resolve_left ?_
    rintro ⟨-, hsettled, -⟩
    simp [isSettled] at hsettled
  obtain ⟨hcomprises, hopen, -⟩ := closeMoved_end hl hcl hfull hw₁ hmoved hclosed
  have hstops : closed.allStop env.network := ConfigSet.allStop_iff.mpr fun c hc => by
    have hone : c.state = 1 := congrArg Prod.fst (hcomprises.mem hc)
    rw [hone]
    exact (hcl.stop_iff 1).mpr (.inl rfl)
  rw [hstay, finish_nil fun _ => hstops, hcomprises.isEmpty_eq rfl] at hfinish
  cases hfinish
  exact ⟨closed, rfl, hcomprises, hopen⟩

end Reaching

/-! ## What a symbol leads to -/

section Edges
variable {gr : Grammar} {plan : Plan} {lazy : Prop} {n : Network} (hl : gr.LaidOut plan lazy n) (hcl : n.Climbing T)
  {g g' : StackGraph} {configs : ConfigSet} {settings : Settings} {r : Option AutomatonState}
include hl hcl

/-- In the loop an operator leaves both alternatives: to go on if its level allows that, or to leave. -/
theorem OperatorTable.edgeResult_operator (hg : g.Truthful) (hs : configs.Comprises g T.LoopKeys {[]})
    (h : edgeResult n settings 2 (T.type o) configs g = (.ok r, g')) :
    ∃ u, r = some u ∧ u.Says true [⟨.precedence (T.level o), 1⟩, ⟨.always, 2⟩] := by
  have hat : ∀ k, T.LoopKeys (15 + 6 * o.val, k) ↔ k = (1, .precedence (T.level o)) ∨ k = (2, .always) := by
    rintro ⟨alt, guard⟩
    constructor
    · rintro (hk | ⟨o', hk | hk⟩) <;> simp only [Prod.mk.injEq] at hk <;> obtain ⟨hq, rfl, rfl⟩ := hk
      · omega
      · obtain rfl : o = o' := Fin.ext (by omega)
        exact .inl rfl
      · exact .inr rfl
    · rintro (hk | hk) <;> cases hk
      · exact .inr ⟨o, .inl rfl⟩
      · exact .inr ⟨o, .inr rfl⟩
  have hreach : ∀ {reached w},
      (Surroundings.alone n settings).reach true (T.type o) configs ⟨g, (), 0⟩ = (.ok reached, w) →
      ∃ t q S, reached = some t ∧ t.Comprises w.graph (fun k => k.1 = q ∧ T.LoopKeys (15 + 6 * o, k.2)) S ∧ t.Open ∧
        w.graph.Truthful := fun hr =>
    Surroundings.reach_operator hl hcl rfl hg hs (fun _ _ hk => hk.place) (fun _ _ _ _ hk hk' => hk.guard_eq hk')
      ⟨_, (hat _).mpr (.inr rfl)⟩ hr
  obtain ⟨rfl, w, hr⟩ | ⟨reached, w, hr, rfl⟩ := edgeResult_cases h
  · obtain ⟨_, _, _, hnone, -⟩ := hreach hr
    cases hnone
  · obtain ⟨t, q, S, hsome, hcomprises, -, hw⟩ := hreach hr
    cases hsome
    refine ⟨_, rfl, AutomatonState.classify_two (q := q) hw Guard.noConfusion (hcomprises.congr fun k => ?_)⟩
    obtain ⟨q', k⟩ := k
    rw [hat]
    simp only [Prod.mk.injEq]
    tauto

/-- The end of the input leaves the alternative to leave. -/
theorem OperatorTable.edgeResult_end (hg : g.Truthful) (hs : configs.Comprises g T.LoopKeys {[]})
    (h : edgeResult n settings 2 endOfInput configs g = (.ok r, g')) :
    ∃ u, r = some u ∧ u.Says false [⟨.always, 2⟩] := by
  obtain ⟨rfl, w, hr⟩ | ⟨reached, w, hr, rfl⟩ := edgeResult_cases h
  · obtain ⟨_, hnone, -⟩ := Surroundings.reach_end hl hcl rfl hg hs hr
    cases hnone
  · obtain ⟨t, hsome, hcomprises, hopen⟩ := Surroundings.reach_end hl hcl rfl hg hs hr
    cases hsome
    exact ⟨_, rfl, AutomatonState.classify_one hcomprises hopen.noConflict (by decide)⟩

/-- Among the operators there is one for a token. -/
theorem OperatorTable.edgeResult_choice (hg : g.Truthful) (hs : configs.Comprises g T.ChoiceKeys {[]})
    (h : edgeResult n settings T.count (T.type o) configs g = (.ok r, g')) :
    ∃ u, r = some u ∧ u.Says false [⟨.precedence (T.level o), o + 1⟩] := by
  have hat : ∀ k, T.ChoiceKeys (15 + 6 * o.val, k) ↔ k = (o.val + 1, .precedence (T.level o)) := by
    rintro ⟨alt, guard⟩
    constructor
    · rintro ⟨o', hk⟩
      simp only [Prod.mk.injEq] at hk
      obtain ⟨hq, rfl, rfl⟩ := hk
      obtain rfl : o = o' := Fin.ext (by omega)
      rfl
    · intro hk
      cases hk
      exact ⟨o, rfl⟩
  have hreach : ∀ {reached w},
      (Surroundings.alone n settings).reach true (T.type o) configs ⟨g, (), 0⟩ = (.ok reached, w) →
      ∃ t q S, reached = some t ∧ t.Comprises w.graph (fun k => k.1 = q ∧ T.ChoiceKeys (15 + 6 * o, k.2)) S ∧ t.Open ∧
        w.graph.Truthful := fun hr =>
    Surroundings.reach_operator hl hcl rfl hg hs (fun _ _ hk => .inr hk.place) (fun _ _ _ _ hk hk' => hk.guard_eq hk')
      ⟨_, (hat _).mpr rfl⟩ hr
  obtain ⟨rfl, w, hr⟩ | ⟨reached, w, hr, rfl⟩ := edgeResult_cases h
  · obtain ⟨_, _, _, hnone, -⟩ := hreach hr
    cases hnone
  · obtain ⟨t, q, S, hsome, hcomprises, hopen, -⟩ := hreach hr
    cases hsome
    refine ⟨_, rfl, AutomatonState.classify_one (q := q) (hcomprises.congr fun k => ?_) hopen.noConflict
      ⟨Nat.le_add_left _ _, o.isLt⟩⟩
    obtain ⟨q', k⟩ := k
    rw [hat]
    simp only [Prod.mk.injEq]

end Edges
end AdaptiveLL

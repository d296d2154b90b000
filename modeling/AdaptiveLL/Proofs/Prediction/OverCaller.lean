import Mathlib
import AdaptiveLL.Proofs.Prediction.Entries
import AdaptiveLL.Proofs.Prediction.Plain

/-! # Sets over a known caller's stack

With the caller's stack a guard is decided where it is met, and every path ends at the bottom of the
stack.  So no configuration of such a set carries a guard, none has returned past the rule it began in,
and the set has nothing else recorded either (`ConfigSet.OverCaller`).  Its configurations are told apart
by state and alternative: adding them to an empty set gives them back (`ConfigSet.OverCaller.insertAll_self`).
-/
namespace AdaptiveLL

/-- A configuration without a guard that never returned past the rule it began in. -/
structure Config.Inside (c : Config) : Prop where
  guard : c.guard = .always
  reach : c.outerReach = 0

namespace ConfigSet

/-- A set over a known caller's stack, while configurations are added to it. -/
structure OverCaller (s : ConfigSet) : Prop extends s.Open where
  known : s.fullContext = true
  unguarded : s.hasGuards = false
  within : s.dipsOutside = false
  inside : ∀ c ∈ s.toList, c.Inside
  apart : s.keys.Nodup

namespace OverCaller
variable {s : ConfigSet}

theorem empty : (ConfigSet.empty true).OverCaller :=
  ⟨open_empty true, rfl, rfl, rfl, fun _ hc => absurd hc List.not_mem_nil, List.nodup_nil⟩

theorem noting (hs : s.OverCaller) {c : Config} (hc : c.Inside) : s.noting c = s := by
  have hguard : c.isGuarded = false := by
    rw [Config.isGuarded, hc.guard]
    rfl
  unfold ConfigSet.noting
  rw [hguard, hc.reach, hs.unguarded, hs.within]
  obtain ⟨configs, sealed, ordered, fullContext, hasGuards, dips, unique, conflict⟩ := s
  have h₁ : hasGuards = false := hs.unguarded
  have h₂ : dips = false := hs.within
  subst h₁ h₂
  rfl

/-- Adding a configuration whose key is new puts it last. -/
theorem insert_new (hs : s.OverCaller) {c : Config} (hc : c.Inside) (hnew : c.key ∉ s.keys)
    (g : StackGraph) : s.insert c g = ({ s with configs := s.configs.push c }, g) := by
  rw [insert_of_new hs.toOpen hnew, hs.noting hc]

theorem insert (hs : s.OverCaller) {c : Config} (hc : c.Inside) (g : StackGraph) :
    (s.insert c g).1.OverCaller := by
  have hopen := hs.toOpen.insert c g
  have hnodup := nodup_keys_insert hs.toOpen hs.apart c g
  have hinside : ∀ d ∈ (s.insert c g).1.toList, d.Inside := by
    intro d hd
    rcases mem_insert hs.toOpen hd with hd | ⟨rfl, -⟩ | ⟨old, hold, -, rfl, -⟩
    · exact hs.inside d hd
    · exact hc
    · refine ⟨(hs.inside old hold).guard, ?_⟩
      show max old.outerReach c.outerReach = 0
      rw [(hs.inside old hold).reach, hc.reach]
      rfl
  have hrest : (s.insert c g).1.fullContext = true ∧ (s.insert c g).1.hasGuards = false ∧
      (s.insert c g).1.dipsOutside = false := by
    rw [insert_of_open hs.toOpen, hs.noting hc]
    split
    · exact ⟨hs.known, hs.unguarded, hs.within⟩
    · split
      · exact ⟨hs.known, hs.unguarded, hs.within⟩
      · exact ⟨hs.known, hs.unguarded, hs.within⟩
  exact ⟨hopen, hrest.1, hrest.2.1, hrest.2.2, hinside, hnodup⟩

theorem insertAll (hs : s.OverCaller) {cs : List Config} (hcs : ∀ c ∈ cs, c.Inside) (g : StackGraph) :
    (s.insertAll cs g).1.OverCaller := by
  induction cs generalizing s g with
  | nil => exact hs
  | cons c cs ih =>
    rw [List.forall_mem_cons] at hcs
    exact ih (hs.insert hcs.1 g) hcs.2 _

/-- Adding configurations whose keys are new and differ from each other puts them last. -/
theorem insertAll_new (hs : s.OverCaller) {cs : List Config} (hcs : ∀ c ∈ cs, c.Inside)
    (hnew : (s.keys ++ cs.map Config.key).Nodup) (g : StackGraph) :
    s.insertAll cs g = ({ s with configs := s.configs ++ cs.toArray }, g) := by
  induction cs generalizing s with
  | nil =>
    rw [ConfigSet.insertAll, List.foldl_nil, Array.append_empty]
  | cons c cs ih =>
    rw [List.forall_mem_cons] at hcs
    have hc : c.key ∉ s.keys := fun hm =>
      (List.nodup_append.mp hnew).2.2 _ hm _ (List.mem_cons_self) rfl
    have hinsert := hs.insert_new hcs.1 hc g
    have hnext : (s.insert c g).1.OverCaller := hs.insert hcs.1 g
    show (s.insert c g).1.insertAll cs (s.insert c g).2 = _
    rw [hinsert] at hnext ⊢
    rw [ih hnext hcs.2]
    · simp
    · rw [keys, toList, Array.toList_push, List.map_append, List.append_assoc]
      exact hnew

/-- The configurations of a set, added to an empty set, give the set back. -/
theorem insertAll_self (hs : s.OverCaller) (g : StackGraph) :
    (ConfigSet.empty true).insertAll s.toList g = (s, g) := by
  rw [empty.insertAll_new hs.inside hs.apart]
  obtain ⟨configs, sealed, ordered, fullContext, hasGuards, dips, unique, conflict⟩ := s
  have h₁ : sealed = 0 := hs.unsealed
  have h₂ : ordered = false := hs.unordered
  have h₃ : fullContext = true := hs.known
  have h₄ : hasGuards = false := hs.unguarded
  have h₅ : dips = false := hs.within
  have h₆ : unique = none := hs.noUnique
  have h₇ : conflict = none := hs.noConflict
  subst h₁ h₂ h₃ h₄ h₅ h₆ h₇
  simp [ConfigSet.empty, toList]

end OverCaller

theorem Gathers.overCaller : Gathers Config.Inside OverCaller :=
  ⟨fun hs => hs.known ▸ .empty, fun hs hcs g => hs.insertAll hcs g, fun hs => hs.inside⟩
end ConfigSet

/-! ## Closures over a known caller's stack -/

namespace Closure
open Run
variable {σ : Type} {env : Surroundings σ}

/-- Whether what was collected is a set over the caller's stack. -/
def Progress.IsOverCaller (p : Progress σ) : Prop := p.out.OverCaller

/-- Whether an item stays inside; transitions are followed from within a rule only. -/
def Item.IsInside (n : Network) : Item → Prop
  | .arrive c _ _ => c.Inside
  | .pop c _ _ _ => c.Inside
  | .follow c _ _ _ => c.Inside ∧ ¬ n.isStop c.state

/-- Whether all items that were opened stay inside. -/
def InsideItems (n : Network) (o : Option (List Item)) : Prop := ∀ i ∈ o.getD [], i.IsInside n

theorem InsideItems.none {n : Network} : InsideItems n Option.none :=
  fun _ hi => absurd hi List.not_mem_nil

/-- A visit stays inside. -/
abbrev KeepsInside (env : Surroundings σ) (m : Run (Progress σ) (Option (List Item))) : Prop :=
  Keeps Progress.IsOverCaller (InsideItems env.network) m

variable (hf : env.fullContext = true) {c : Config} (hc : c.Inside)

include hc in
theorem inside_collect :
    Keeps Progress.IsOverCaller (fun _ => True) (collect c : Run (Progress σ) Unit) :=
  .modify fun p hp => ⟨ConfigSet.OverCaller.insert hp hc p.work.graph, trivial⟩

include hc in
theorem inside_enter (hstop : ¬ env.network.isStop c.state) (depth : Int) (collecting : Bool) :
    KeepsInside env (enter env c depth collecting) := by
  have hitems : InsideItems env.network (some ((env.network.state c.state).transitions.map
      (Item.follow c depth collecting))) := by
    intro i hi
    obtain ⟨t, -, rfl⟩ := List.mem_map.mp hi
    exact ⟨hc, hstop⟩
  refine Keeps.andThen ?_ fun b => .ite ?_ (.pure .none)
  · refine .modifyGet fun p hp => ?_
    dsimp only
    split
    · exact ⟨hp, trivial⟩
    · exact ⟨hp, trivial⟩
  · exact .ite ((inside_collect hc).bind fun _ _ => .pure hitems) (.pure hitems)

include hf hc

theorem inside_arrive (depth : Int) (collecting : Bool) :
    KeepsInside env (arrive env c depth collecting) := by
  unfold arrive
  by_cases hstop : env.network.isStop c.state
  · refine .ite ?_ ?_
    · refine Keeps.andThen (.get fun _ _ => trivial) fun p => .pure ?_
      intro i hi
      obtain ⟨f, -, rfl⟩ := List.mem_map.mp hi
      exact hc
    · rw [hstop, hf]
      exact (inside_collect hc).bind fun _ _ => .pure .none
  · rw [Bool.not_eq_true] at hstop
    rw [hstop]
    exact inside_enter hc (by simp [hstop]) depth collecting

theorem inside_pop (depth : Int) (collecting : Bool) (f : Frame) :
    KeepsInside env (pop env c depth collecting f) := by
  unfold pop
  split
  · exact inside_arrive (c := c.returnTo _ f.parent) hf ⟨hc.guard, hc.reach⟩ _ _
  · rw [if_pos hf]
    exact (inside_collect (c := c.returnTo c.state StackRef.bottom) ⟨hc.guard, hc.reach⟩).bind
      fun _ _ => .pure .none

omit hc in
/-- A guard that is met is decided, or nobody is asked. -/
theorem inside_passGuard {d : Config} (hd : d.Inside) (target : Nat) (g : Guard) (collecting : Bool) :
    Keeps Progress.IsOverCaller (fun o : Option Config => ∀ e ∈ o, e.Inside)
      (passGuard env d target g collecting) := by
  have hsome : ∀ e ∈ some (d.moveTo target), e.Inside := by
    rintro e he
    cases he
    exact ⟨hd.guard, hd.reach⟩
  unfold passGuard
  refine .ite (.pure hsome) ?_
  rw [hf, if_neg (by decide)]
  split
  · exact .pure hsome
  · refine Keeps.andThen (.modifyGet fun p hp => ⟨hp, trivial⟩) fun b => ?_
    exact .ite (.pure hsome) (.pure fun _ h => nomatch h)

theorem inside_target? (inRule collecting : Bool) (t : Transition) :
    Keeps Progress.IsOverCaller (fun o : Option Config => ∀ d ∈ o, d.Inside)
      (target? env c inRule collecting t) := by
  have hsome : ∀ {d : Config}, d.Inside → ∀ e ∈ some d, e.Inside := by
    rintro d hd e he
    cases he
    exact hd
  cases t with
  | predicate | precedence => exact inside_passGuard hf hc _ _ _
  | call target rule level follow =>
    refine Keeps.andThen (.modifyGet fun p hp => ⟨hp, trivial⟩) fun r => ?_
    exact .pure (hsome ⟨hc.guard, hc.reach⟩)
  | action | epsilon | ret => exact .pure (hsome ⟨hc.guard, hc.reach⟩)
  | symbol | range | set =>
    exact .ite (.pure (hsome ⟨hc.guard, hc.reach⟩)) (.pure fun _ h => nomatch h)
  | notSet | wildcard => exact .pure fun _ h => nomatch h

theorem inside_follow (hstop : ¬ env.network.isStop c.state) (depth : Int) (collecting : Bool)
    (t : Transition) : KeepsInside env (follow env c depth collecting t) := by
  refine (inside_target? hf hc _ _ t).bind fun o ho => ?_
  cases o with
  | none => exact .pure .none
  | some d =>
    rw [Bool.not_eq_true] at hstop
    dsimp only
    rw [hstop, if_neg Bool.false_ne_true]
    exact .ite (inside_arrive hf (ho d rfl) _ _) (inside_arrive hf (ho d rfl) _ _)

omit hc in
theorem inside_visit {item : Item} (hi : item.IsInside env.network) : KeepsInside env (visit env item) := by
  cases item with
  | arrive c depth collecting => exact inside_arrive hf hi depth collecting
  | pop c depth collecting f => exact inside_pop hf hi depth collecting f
  | follow c depth collecting t => exact inside_follow hf hi.1 hi.2 depth collecting t

theorem inside_close (collecting : Bool) :
    Keeps Progress.IsOverCaller (fun _ => True) (close env collecting c) := by
  refine Keeps.andThen (.modify fun p hp => ⟨hp, trivial⟩) fun _ => ?_
  exact DepthFirst.walk_keeps (Item.IsInside env.network) (fun _ hi => inside_visit hf hi) hc

omit hc in
theorem overCaller_closeAll {cs : List Config} (hcs : ∀ c ∈ cs, c.Inside) {collecting : Bool}
    {w w' : Workspace σ} {out : ConfigSet} (h : closeAll env collecting cs w = (.ok out, w')) :
    out.OverCaller := by
  obtain ⟨u, p, hrun, rfl, rfl⟩ := exists_of_closeAll h
  have hbegin : (ConfigSet.empty env.fullContext).OverCaller := hf ▸ .empty
  exact (Keeps.forM (fun c hc => inside_close hf (hcs c hc) collecting) hrun hbegin).1

end Closure

namespace Surroundings
variable {σ : Type} {env : Surroundings σ} (hf : env.fullContext = true) {w w' : Workspace σ}
include hf

theorem overCaller_startConfigs {state : Nat} {outer : List Invocation} {out : ConfigSet}
    (h : env.startConfigs state outer w = (.ok out, w')) : out.OverCaller := by
  unfold startConfigs at h
  rw [hf] at h
  obtain ⟨made, u, -, h⟩ := Run.exists_of_bind h
  obtain ⟨r, u', -, h⟩ := Run.exists_of_bind h
  refine Closure.overCaller_closeAll hf (fun c hc => ?_) h
  rw [firstConfigs, List.mem_mapIdx] at hc
  obtain ⟨i, hi, rfl⟩ := hc
  exact ⟨rfl, rfl⟩

/-- Consuming a symbol leads to a set over the caller's stack again. -/
theorem overCaller_reach {settle : Bool} {x : Symbol} {configs r : ConfigSet}
    (hs : ∀ c ∈ configs.toList, c.Inside) (h : env.reach settle x configs w = (.ok (some r), w')) :
    r.OverCaller := by
  have hbehind : (env.behind x).fullContext = true := hf
  exact gathers_reach .overCaller (hf ▸ .empty) (fun _ hc => ⟨hc.guard, hc.reach⟩)
    (fun hm hclosed => Closure.overCaller_closeAll hbehind hm.inside hclosed) hs h

end Surroundings
end AdaptiveLL

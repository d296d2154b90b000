import Mathlib
import AdaptiveLL.Proofs.Prediction.ReachSpots

/-! # What configurations carry along

A closure fails only when it is nested too deeply (`Surroundings.fails_reach`,
`Surroundings.fails_startConfigs`).  A configuration keeps its alternative for good, and its guard changes
only where a guarded transition adds its own to it.  So whatever is said of alternatives and guards, and
stands when a guard of the network is added, holds of all that is collected if it holds of what
was begun with (`ConfigSet.Carries`).  In a network without guards no configuration ever gets one
(`ConfigSet.Plain`), and so a state recognises what its configurations say, whatever may be asked.
-/
namespace AdaptiveLL

/-- The errors for what took too long or was nested too deeply. -/
def RecognitionError.IsLimit (e : RecognitionError) : Prop :=
  (∃ depth limit, e = .closureDepthExceeded depth limit) ∨
    ∃ decision limit, e = .stepLimitExceeded decision limit

/-- A run ends well, or it has hit a limit. -/
inductive Run.Limited {σ α : Type} (good : α → σ → Prop) : Ending σ α → Prop
  | ok {a : α} {s : σ} : good a s → Limited good (.ok a, s)
  | limit {e : RecognitionError} {s : σ} : e.IsLimit → Limited good (.error e, s)

namespace Run.Limited
variable {σ α β : Type} {good good' : α → σ → Prop} {after : β → σ → Prop} {m : Run σ α} {s : σ}

theorem imp {r : Ending σ α} (h : Limited good r) (himp : ∀ a s, good a s → good' a s) :
    Limited good' r := by
  cases h with
  | ok h => exact .ok (himp _ _ h)
  | limit h => exact .limit h

theorem bind {k : α → Run σ β} (hm : Limited good (m s))
    (hk : ∀ a t, good a t → Limited after (k a t)) : Limited after ((m >>= k) s) := by
  rw [bind_apply]
  rcases hr : m s with ⟨e | a, t⟩
  · rw [hr] at hm
    cases hm with
    | limit h => exact .limit h
  · rw [hr] at hm
    cases hm with
    | ok h => exact hk a t h

/-- What a run leaves alone is the same where it ends well. -/
theorem leaving {γ : Type} {f : σ → γ} (h : Limited good (m s)) (hm : Leaves f m) :
    Limited (fun a t => good a t ∧ f t = f s) (m s) := by
  have hleaves := hm s
  generalize m s = r at h hleaves ⊢
  cases h with
  | ok h => exact .ok ⟨h, hleaves⟩
  | limit h => exact .limit h

theorem good_of_ok {a : α} {t : σ} (h : Limited good (.ok a, t)) : good a t := by
  cases h with
  | ok h => exact h

end Run.Limited

/-! ## What closures fail with -/

namespace Closure
open Run
variable {σ : Type} {bad : RecognitionError → Prop} (env : Surroundings σ)

theorem fails_enter (c : Config) (depth : Int) (collecting : Bool) :
    Fails bad (enter env c depth collecting) := by
  unfold enter
  refine (Fails.modifyGet _).bind fun b => .ite ?_ (.pure _)
  exact .ite ((Fails.modify _).bind fun _ => .pure _) (.pure _)

theorem fails_arrive (c : Config) (depth : Int) (collecting : Bool) :
    Fails bad (arrive env c depth collecting) := by
  unfold arrive
  split
  · exact Fails.get.bind fun _ => .pure _
  · split
    · exact (Fails.modify _).bind fun _ => .pure _
    · exact fails_enter env c depth collecting

theorem fails_pop (c : Config) (depth : Int) (collecting : Bool) (f : Frame) :
    Fails bad (pop env c depth collecting f) := by
  unfold pop
  split
  · exact fails_arrive env _ _ _
  · split
    · exact (Fails.modify _).bind fun _ => .pure _
    · exact fails_enter env c depth collecting

theorem fails_passGuard (c : Config) (target : Nat) (g : Guard) (collecting : Bool) :
    Fails bad (passGuard env c target g collecting) := by
  unfold passGuard
  split
  · exact .pure _
  · split
    · exact .pure _
    · split
      · exact .pure _
      · refine (Fails.modifyGet _).bind fun b => ?_
        split
        · exact .pure _
        · exact .pure _

theorem fails_target? (c : Config) (inRule collecting : Bool) (t : Transition) :
    Fails bad (target? env c inRule collecting t) := by
  unfold target?
  split
  · exact (Fails.modifyGet _).bind fun _ => .pure _
  all_goals first
    | exact fails_passGuard env _ _ _ _
    | exact .pure _
    | exact .ite (.pure _) (.pure _)

theorem fails_follow (c : Config) (depth : Int) (collecting : Bool) (t : Transition) :
    Fails bad (follow env c depth collecting t) := by
  unfold follow
  refine (fails_target? env c _ _ t).bind fun o => ?_
  split
  · exact .pure _
  · split
    · exact (Fails.modify _).bind fun _ => fails_arrive env _ _ _
    · split
      · exact fails_arrive env _ _ _
      · exact fails_arrive env _ _ _

theorem fails_visit (item : Item) : Fails bad (visit env item) := by
  cases item with
  | arrive c depth collecting => exact fails_arrive env c depth collecting
  | pop c depth collecting f => exact fails_pop env c depth collecting f
  | follow c depth collecting t => exact fails_follow env c depth collecting t

variable {env}

/-- A closure fails because it is too deep. -/
theorem fails_closeAll (collecting : Bool) (cs : List Config) :
    Fails RecognitionError.IsLimit (closeAll env collecting cs) := by
  have hclose : ∀ c, Fails RecognitionError.IsLimit (close env collecting c) := fun c =>
    (Fails.modify _).bind fun _ _ _ _ h =>
      DepthFirst.run_fails (fails_visit env) (.inl ⟨_, _, rfl⟩) h
  intro w e w' h
  unfold closeAll at h
  rcases hr : cs.forM (close env collecting) ⟨w, ConfigSet.empty env.fullContext, ∅⟩ with ⟨e' | u, p⟩
  · simp only [hr] at h
    cases h
    exact Fails.forM hclose cs hr
  · simp only [hr] at h
    cases h

end Closure

namespace Surroundings
open Run
variable {σ : Type} (env : Surroundings σ)

theorem fails_insertAll {bad : RecognitionError → Prop} (s : ConfigSet) (cs : List Config) :
    Fails bad (insertAll s cs : Run (Workspace σ) ConfigSet) := .modifyGet _

theorem fails_finish {bad : RecognitionError → Prop} (x : Symbol) (stay : List Config)
    (closed : ConfigSet) : Fails bad (env.finish x stay closed) := by
  refine Fails.bind ?_ fun ended => Fails.bind ?_ fun _ => .pure _
  · unfold afterEnd onlyStops
    exact .ite (.ite (.pure _) (fails_insertAll _ _)) (.pure _)
  · exact .ite (fails_insertAll _ _) (.pure _)

/-- Consuming a symbol fails because a closure is too deep. -/
theorem fails_reach (settle : Bool) (x : Symbol) (configs : ConfigSet) :
    Fails RecognitionError.IsLimit (env.reach settle x configs) := by
  refine (fails_insertAll _ _).bind fun moved => ?_
  dsimp only
  split
  · exact (Fails.pure _).bind fun _ => fails_finish env x _ _
  · exact (Closure.fails_closeAll _ _).bind fun _ => fails_finish env x _ _

/-- Starting without the caller's stack fails because a closure is too deep. -/
theorem fails_startConfigs (hf : env.fullContext = false) (state : Nat) (outer : List Invocation) :
    Fails RecognitionError.IsLimit (env.startConfigs state outer) := by
  unfold startConfigs
  rw [hf]
  exact (Fails.pure _).bind fun _ => Closure.fails_closeAll _ _

end Surroundings

/-! ## What is in a set to which configurations were added -/

namespace ConfigSet

/-- Adding a configuration keeps the state, the alternative and the guard of what is there. -/
theorem exists_of_mem_insert {s : ConfigSet} {c d : Config} {g : StackGraph}
    (h : d ∈ (s.insert c g).1.toList) :
    ∃ e, (e ∈ s.toList ∨ e = c) ∧ e.state = d.state ∧ e.alt = d.alt ∧ e.guard = d.guard := by
  unfold insert add at h
  dsimp only at h
  split at h
  · rw [toList, Array.toList_push, List.mem_append, List.mem_singleton] at h
    exact ⟨d, h, rfl, rfl, rfl⟩
  · split at h
    · exact ⟨d, .inl h, rfl, rfl, rfl⟩
    · split at h
      · exact ⟨d, .inl h, rfl, rfl, rfl⟩
      · next old hold =>
        rw [toList, Array.set!_eq_setIfInBounds, Array.toList_setIfInBounds] at h
        rcases List.mem_or_eq_of_mem_set h with h | rfl
        · exact ⟨d, .inl h, rfl, rfl, rfl⟩
        · exact ⟨old, .inl (mem_of_getElem? hold), rfl, rfl, rfl⟩

theorem exists_of_mem_insertAll {s : ConfigSet} {cs : List Config} {d : Config} {g : StackGraph}
    (h : d ∈ (s.insertAll cs g).1.toList) :
    ∃ e, (e ∈ s.toList ∨ e ∈ cs) ∧ e.state = d.state ∧ e.alt = d.alt ∧ e.guard = d.guard := by
  induction cs generalizing s g with
  | nil => exact ⟨d, .inl h, rfl, rfl, rfl⟩
  | cons c cs ih =>
    obtain ⟨e, he, h1, h2, h3⟩ := ih (s := (s.insert c g).1) h
    rcases he with he | he
    · obtain ⟨e', he', k1, k2, k3⟩ := exists_of_mem_insert he
      refine ⟨e', ?_, k1.trans h1, k2.trans h2, k3.trans h3⟩
      rcases he' with he' | rfl
      · exact .inl he'
      · exact .inr List.mem_cons_self
    · exact ⟨e, .inr (List.mem_cons_of_mem _ he), h1, h2, h3⟩

/-- Something is said of the alternative and the guard of every configuration of an open set, and of some
guard that is a condition if the set records that it was given one. -/
structure Carries (good : Nat → Guard → Prop) (s : ConfigSet) : Prop where
  isOpen : s.Open
  configs : ∀ c ∈ s.toList, good c.alt c.guard
  guarded : s.hasGuards → ∃ alt guard, good alt guard ∧ guard.isAlways = false

namespace Carries
variable {good : Nat → Guard → Prop} {s : ConfigSet}

theorem empty (fullContext : Bool) : (ConfigSet.empty fullContext).Carries good :=
  ⟨open_empty fullContext, fun _ hc => absurd hc List.not_mem_nil, fun h => nomatch h⟩

theorem insert (hs : s.Carries good) {c : Config} (hc : good c.alt c.guard) (g : StackGraph) :
    (s.insert c g).1.Carries good where
  isOpen := hs.isOpen.insert c g
  configs d hd := by
    obtain ⟨e, he, -, halt, hguard⟩ := exists_of_mem_insert hd
    rw [← halt, ← hguard]
    rcases he with he | rfl
    · exact hs.configs e he
    · exact hc
  guarded h := by
    rw [hasGuards_insert, Bool.or_eq_true] at h
    rcases h with h | h
    · exact hs.guarded h
    · exact ⟨c.alt, c.guard, hc, by simpa [Config.isGuarded] using h⟩

theorem insertAll (hs : s.Carries good) {cs : List Config} (hcs : ∀ c ∈ cs, good c.alt c.guard)
    (g : StackGraph) : (s.insertAll cs g).1.Carries good := by
  induction cs generalizing s g with
  | nil => exact hs
  | cons c cs ih =>
    rw [List.forall_mem_cons] at hcs
    exact ih (hs.insert hcs.1 g) hcs.2 _

end Carries

/-- What is said of sets lasts while fine configurations are added, to an empty set or to any other, and it
says that the configurations in a set are fine. -/
structure Gathers (fine : Config → Prop) (kept : ConfigSet → Prop) : Prop where
  empty : ∀ {s : ConfigSet}, kept s → kept (ConfigSet.empty s.fullContext)
  insertAll : ∀ {s : ConfigSet} {cs : List Config}, kept s → (∀ c ∈ cs, fine c) →
    ∀ g : StackGraph, kept (s.insertAll cs g).1
  fine : ∀ {s : ConfigSet}, kept s → ∀ c ∈ s.toList, fine c

theorem Gathers.carries (good : Nat → Guard → Prop) :
    Gathers (fun c => good c.alt c.guard) (Carries good) :=
  ⟨fun _ => .empty _, fun hs hcs g => hs.insertAll hcs g, fun hs => hs.configs⟩

/-! ## Sets without guards -/

/-- A set in which no configuration has a guard, and none ever had. -/
structure Plain (s : ConfigSet) : Prop where
  hasGuards : s.hasGuards = false
  guards : ∀ c ∈ s.toList, c.guard = .always

namespace Plain
variable {s t : ConfigSet} {g h : StackGraph}

theorem of_carries (hs : s.Carries fun _ guard => guard = .always) : s.Plain where
  hasGuards := by
    rw [Bool.eq_false_iff]
    intro h
    obtain ⟨-, guard, rfl, hguard⟩ := hs.guarded h
    cases hguard
  guards := hs.configs

theorem alike {strict : Bool} (hs : s.Plain) (a : Alike strict g h s t) : t.Plain where
  hasGuards := a.hasGuards.symm.trans hs.hasGuards
  guards d hd := by
    obtain ⟨i, hi, rfl⟩ := List.mem_iff_getElem.mp hd
    have hi' := a.configs.length_eq.symm ▸ hi
    have hcd := (List.forall₂_iff_get.mp a.configs).2 i hi' hi
    exact hcd.guard.symm.trans (hs.guards _ (List.get_mem ..))

end Plain
end ConfigSet

/-! ## What closures carry along -/

namespace Network

/-- What is said of an alternative and a guard still holds when a guard of the network was added. -/
def Passes (n : Network) (good : Nat → Guard → Prop) : Prop :=
  ∀ q, ∀ t ∈ n.ways q, ∀ g, t.guard? = some g → ∀ alt h, good alt h → good alt (h.both g)

/-- A network in which no transition has a guard. -/
def Unguarded (n : Network) : Prop := ∀ q, ∀ t ∈ n.ways q, t.isGuarded = false

/-- Where there are no guards, none is added. -/
theorem Unguarded.passes {n : Network} (hn : n.Unguarded) (good : Nat → Guard → Prop) :
    n.Passes good := by
  intro q t ht g hg
  rw [Transition.guard?_eq_none (hn q t ht)] at hg
  cases hg

end Network

namespace Closure
open Run
variable {σ : Type} {env : Surroundings σ} {good : Nat → Guard → Prop}

/-- Whether something holds of what was collected. -/
def Progress.Carries (good : Nat → Guard → Prop) (p : Progress σ) : Prop := p.out.Carries good

/-- Whether something holds of the configuration of an item, and the transition to be followed is one of
the network. -/
def Item.Carries (n : Network) (good : Nat → Guard → Prop) : Item → Prop
  | .arrive c _ _ | .pop c _ _ _ => good c.alt c.guard
  | .follow c _ _ t => good c.alt c.guard ∧ t ∈ n.ways c.state

/-- Whether this is so of all items that were opened. -/
def CarryItems (n : Network) (good : Nat → Guard → Prop) (o : Option (List Item)) : Prop :=
  ∀ i ∈ o.getD [], i.Carries n good

theorem CarryItems.none {n : Network} : CarryItems n good Option.none :=
  fun _ hi => absurd hi List.not_mem_nil

/-- A visit keeps what is said. -/
abbrev KeepsCarrying (env : Surroundings σ) (good : Nat → Guard → Prop)
    (m : Run (Progress σ) (Option (List Item))) : Prop :=
  Keeps (Progress.Carries good) (CarryItems env.network good) m

/-- Whether a configuration that a transition may lead to is one of which something holds. -/
abbrev LeadsOn (good : Nat → Guard → Prop) (o : Option Config) : Prop := ∀ d ∈ o, good d.alt d.guard

theorem leadsOn_some {d : Config} (hd : good d.alt d.guard) : LeadsOn good (some d) := by
  rintro e he
  cases he
  exact hd

theorem leadsOn_none : LeadsOn good none := fun _ h => nomatch h

variable {c : Config} (hc : good c.alt c.guard)
include hc

theorem carries_collect :
    Keeps (Progress.Carries good) (fun _ => True) (collect c : Run (Progress σ) Unit) :=
  .modify fun p hp => ⟨ConfigSet.Carries.insert hp hc p.work.graph, trivial⟩

theorem carries_enter (depth : Int) (collecting : Bool) :
    KeepsCarrying env good (enter env c depth collecting) := by
  have hitems : CarryItems env.network good (some ((env.network.state c.state).transitions.map
      (Item.follow c depth collecting))) := by
    intro i hi
    obtain ⟨t, ht, rfl⟩ := List.mem_map.mp hi
    exact ⟨hc, ht⟩
  refine Keeps.andThen ?_ fun b => .ite ?_ (.pure .none)
  · refine .modifyGet fun p hp => ?_
    dsimp only
    split
    · exact ⟨hp, trivial⟩
    · exact ⟨hp, trivial⟩
  · exact .ite ((carries_collect hc).bind fun _ _ => .pure hitems) (.pure hitems)

theorem carries_arrive (depth : Int) (collecting : Bool) :
    KeepsCarrying env good (arrive env c depth collecting) := by
  unfold arrive
  refine .ite ?_ (.ite ?_ (carries_enter hc depth collecting))
  · refine Keeps.andThen (.get fun _ _ => trivial) fun p => .pure ?_
    intro i hi
    obtain ⟨f, -, rfl⟩ := List.mem_map.mp hi
    exact hc
  · exact (carries_collect hc).bind fun _ _ => .pure .none

theorem carries_pop (depth : Int) (collecting : Bool) (f : Frame) :
    KeepsCarrying env good (pop env c depth collecting f) := by
  unfold pop
  split
  · next q _ => exact carries_arrive (c := c.returnTo q f.parent) hc _ _
  · have hend : Keeps (Progress.Carries good) (fun _ => True) (collect _ : Run (Progress σ) Unit) :=
      carries_collect (c := c.returnTo c.state StackRef.bottom) hc
    exact .ite (hend.bind fun _ _ => .pure .none) (carries_enter hc depth collecting)

theorem carries_passGuard {g : Guard} (hboth : good c.alt (c.guard.both g)) (target : Nat)
    (collecting : Bool) :
    Keeps (Progress.Carries good) (LeadsOn good) (passGuard env c target g collecting) := by
  unfold passGuard
  refine .ite (.pure (leadsOn_some hc)) (.ite (.pure (leadsOn_some hboth)) ?_)
  split
  · exact .pure (leadsOn_some hc)
  · refine Keeps.andThen (.modifyGet fun p hp => ⟨hp, trivial⟩) fun holds => ?_
    exact .ite (.pure (leadsOn_some hc)) (.pure leadsOn_none)

theorem carries_target? (hn : env.network.Passes good) {q : Nat} {t : Transition}
    (ht : t ∈ env.network.ways q) (inRule collecting : Bool) :
    Keeps (Progress.Carries good) (LeadsOn good) (target? env c inRule collecting t) := by
  have hboth : ∀ g, t.guard? = some g → good c.alt (c.guard.both g) := fun g hg => hn q t ht g hg _ _ hc
  cases t with
  | predicate | precedence => exact carries_passGuard hc (hboth _ rfl) _ _
  | call target rule level follow =>
    refine Keeps.andThen (.modifyGet fun p hp => ⟨hp, trivial⟩) fun r => ?_
    exact .pure (leadsOn_some hc)
  | action | epsilon | ret => exact .pure (leadsOn_some hc)
  | symbol | range | set => exact .ite (.pure (leadsOn_some hc)) (.pure leadsOn_none)
  | notSet | wildcard => exact .pure leadsOn_none

theorem carries_follow (hn : env.network.Passes good) {t : Transition}
    (ht : t ∈ env.network.ways c.state) (depth : Int) (collecting : Bool) :
    KeepsCarrying env good (follow env c depth collecting t) := by
  refine (carries_target? hc hn ht _ _).bind fun o ho => ?_
  cases o with
  | none => exact .pure .none
  | some d =>
    have hd := ho d rfl
    refine .ite ?_ (.ite (carries_arrive hd _ _) (carries_arrive hd _ _))
    refine Keeps.andThen (.modify fun p hp => ⟨⟨{ hp.1 with }, hp.2, hp.3⟩, trivial⟩) fun _ => ?_
    exact carries_arrive (c := { d with outerReach := d.outerReach + 1 }) hd _ _

omit hc in
/-- One visit: whatever it collects and opens goes on from the configuration visited. -/
theorem carries_visit (hn : env.network.Passes good) {item : Item}
    (hi : item.Carries env.network good) : KeepsCarrying env good (visit env item) := by
  cases item with
  | arrive c depth collecting => exact carries_arrive hi depth collecting
  | pop c depth collecting f => exact carries_pop hi depth collecting f
  | follow c depth collecting t => exact carries_follow hi.1 hn hi.2 depth collecting

/-- A whole walk: what was collected, and all that waits. -/
theorem carries_close (hn : env.network.Passes good) (collecting : Bool) :
    Keeps (Progress.Carries good) (fun _ => True) (close env collecting c) := by
  refine Keeps.andThen (.modify fun p hp => ⟨hp, trivial⟩) fun _ => ?_
  exact DepthFirst.walk_keeps (Item.Carries env.network good) (fun _ hi => carries_visit hn hi) hc

omit hc in
theorem carries_closeAll (hn : env.network.Passes good) {cs : List Config}
    (hcs : ∀ c ∈ cs, good c.alt c.guard) {collecting : Bool} {w w' : Workspace σ} {out : ConfigSet}
    (h : closeAll env collecting cs w = (.ok out, w')) : out.Carries good := by
  obtain ⟨u, p, hrun, rfl, rfl⟩ := exists_of_closeAll h
  exact (Keeps.forM (fun c hc => carries_close (hcs c hc) hn collecting) hrun (.empty _)).1

end Closure

namespace Surroundings
variable {σ : Type} {env : Surroundings σ} {w w' : Workspace σ} {good : Nat → Guard → Prop}

/-- The alternatives of a decision are numbered from one, and begin without a guard. -/
theorem carries_startConfigs (hn : env.network.Passes good) {state : Nat} {outer : List Invocation}
    (hfirst : ∀ i < (env.network.state state).transitions.length, good (i + 1) .always)
    {out : ConfigSet} (h : env.startConfigs state outer w = (.ok out, w')) : out.Carries good := by
  have hconfigs : ∀ r, ∀ c ∈ env.firstConfigs state r, good c.alt c.guard := by
    intro r c hc
    rw [firstConfigs, List.mem_mapIdx] at hc
    obtain ⟨i, hi, rfl⟩ := hc
    exact hfirst i hi
  unfold startConfigs at h
  cases hf : env.fullContext with
  | true =>
    rw [hf] at h
    obtain ⟨made, u, -, h⟩ := Run.exists_of_bind h
    obtain ⟨r, u', -, h⟩ := Run.exists_of_bind h
    exact Closure.carries_closeAll hn (hconfigs r) h
  | false =>
    rw [hf] at h
    obtain ⟨r, u, -, h⟩ := Run.exists_of_bind h
    exact Closure.carries_closeAll hn (hconfigs r) h

/-- Consuming a symbol moves configurations over it, closes them unless one alternative is left, and
finishes with those that stay. -/
theorem reach_cases {settle : Bool} {x : Symbol} {configs : ConfigSet} {o : Option ConfigSet}
    (h : env.reach settle x configs w = (.ok o, w')) :
    ∃ moved w₁ closed w₂, insertAll (ConfigSet.empty env.fullContext) (env.moves x configs) w =
        (.ok moved, w₁) ∧
      (settle ∧ isSettled x (env.staying x configs) moved ∧ closed = moved ∧ w₂ = w₁ ∨
        env.closeMoved x moved w₁ = (.ok closed, w₂)) ∧
      env.finish x (env.staying x configs) closed w₂ = (.ok o, w') := by
  unfold reach at h
  obtain ⟨moved, w₁, hmoved, h⟩ := Run.exists_of_bind h
  dsimp only at h
  by_cases hs : settle && isSettled x (env.staying x configs) moved
  · rw [if_pos hs] at h
    rw [Bool.and_eq_true] at hs
    exact ⟨moved, w₁, moved, w₁, hmoved, .inl ⟨hs.1, hs.2, rfl, rfl⟩, h⟩
  · rw [if_neg hs] at h
    obtain ⟨closed, w₂, hclosed, h⟩ := Run.exists_of_bind h
    exact ⟨moved, w₁, closed, w₂, hmoved, .inr hclosed, h⟩

variable {fine : Config → Prop} {kept : ConfigSet → Prop}

/-- Adding fine configurations keeps what lasts while they are added. -/
theorem gathers_insertAll (hg : ConfigSet.Gathers fine kept) {s t : ConfigSet} (hs : kept s)
    {cs : List Config} (hcs : ∀ c ∈ cs, fine c) (h : insertAll s cs w = (.ok t, w')) : kept t := by
  cases h
  exact hg.insertAll hs hcs _

/-- So does finishing with fine configurations. -/
theorem gathers_finish (hg : ConfigSet.Gathers fine kept) {x : Symbol} {stay : List Config}
    {closed r : ConfigSet} (hc : kept closed) (hstay : ∀ c ∈ stay, fine c)
    (h : env.finish x stay closed w = (.ok (some r), w')) : kept r := by
  obtain ⟨ended, w₁, hended, h⟩ := Run.exists_of_bind h
  obtain ⟨reached, w₂, hkeep, h⟩ := Run.exists_of_bind h
  have he : kept ended := by
    unfold afterEnd onlyStops at hended
    split at hended
    · split at hended
      · cases hended
        exact hc
      · exact gathers_insertAll hg (hg.empty hc) (fun c hc' => hg.fine hc c (List.mem_filter.mp hc').1)
          hended
    · cases hended
      exact hc
  have hr : kept reached := by
    unfold keep at hkeep
    split at hkeep
    · exact gathers_insertAll hg he hstay hkeep
    · cases hkeep
      exact he
  cases h' : reached.isEmpty with
  | true =>
    rw [h'] at h
    cases h
  | false =>
    rw [h'] at h
    cases h
    exact hr

/-- So does consuming a symbol, if configurations are as fine elsewhere and closing them leads to such sets. -/
theorem gathers_reach (hg : ConfigSet.Gathers fine kept) {settle : Bool} {x : Symbol}
    {configs r : ConfigSet} (hempty : kept (ConfigSet.empty env.fullContext))
    (hmove : ∀ {c : Config} (q : Nat), fine c → fine (c.moveTo q))
    (hclose : ∀ {s t : ConfigSet} {u u' : Workspace σ}, kept s → env.closeMoved x s u = (.ok t, u') → kept t)
    (hs : ∀ c ∈ configs.toList, fine c) (h : env.reach settle x configs w = (.ok (some r), w')) :
    kept r := by
  obtain ⟨moved, w₁, closed, w₂, hmoved, hclosed, h⟩ := reach_cases h
  have hm : kept moved := gathers_insertAll hg hempty (fun c hc => by
    obtain ⟨d, hd, q, rfl⟩ := exists_of_mem_moves hc
    exact hmove q (hs d hd)) hmoved
  have hc : kept closed := by
    rcases hclosed with ⟨-, -, rfl, -⟩ | hclosed
    · exact hm
    · exact hclose hm hclosed
  exact gathers_finish hg hc (fun c hc => hs c (mem_of_mem_staying hc).1) h

/-- What is reached by consuming a symbol carries along what the configurations did. -/
theorem carries_reach (hn : env.network.Passes good) {settle : Bool} {x : Symbol}
    {configs r : ConfigSet} (hs : ∀ c ∈ configs.toList, good c.alt c.guard)
    (h : env.reach settle x configs w = (.ok (some r), w')) : r.Carries good := by
  have hbehind : (env.behind x).network.Passes good := hn
  exact gathers_reach (.carries good) (.empty _) (fun _ hc => hc)
    (fun hm hclosed => Closure.carries_closeAll hbehind hm.configs hclosed) hs h

/-! ## Networks without guards -/

theorem plain_startConfigs (hn : env.network.Unguarded) {state : Nat} {outer : List Invocation}
    {out : ConfigSet} (h : env.startConfigs state outer w = (.ok out, w')) : out.Plain :=
  .of_carries (carries_startConfigs (hn.passes _) (fun _ _ => rfl) h)

theorem plain_reach (hn : env.network.Unguarded) {settle : Bool} {x : Symbol}
    {configs r : ConfigSet} (hs : configs.Plain)
    (h : env.reach settle x configs w = (.ok (some r), w')) : r.Plain :=
  .of_carries (carries_reach (hn.passes _) hs.guards h)

end Surroundings
end AdaptiveLL

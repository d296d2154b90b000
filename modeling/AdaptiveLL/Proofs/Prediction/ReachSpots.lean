import Mathlib
import AdaptiveLL.Proofs.Prediction.ClosureSpots

/-! # Starting and consuming, spot by spot

`Surroundings.startConfigs_spots` says which spots the alternatives of a state begin with, and
`Surroundings.reach_spots` which spots are reached by consuming a symbol: those to which the machine
drifts behind the symbol.  Over a known caller's stack nothing else is reached, but the ends of the
outermost rule may be kept.
-/
namespace AdaptiveLL
open StackGraph (Extends)

namespace Surroundings
variable {σ : Type} {env : Surroundings σ} {w w' : Workspace σ} {g g' : StackGraph} {alt : Nat}

/-! ## Starting -/

/-- The spots that the alternatives of a state begin with. -/
theorem anyCovers_firstConfigs {wildcard : Bool} {state : Nat} {r : StackRef} {s : Spot} :
    Config.AnyCovers wildcard g (env.firstConfigs state r) alt s ↔
      ∃ i t, (env.network.ways state)[i]? = some t ∧ alt = i + 1 ∧ s.state = t.target ∧
        StackGraph.Covers wildcard (g.stackSet r) s.stack := by
  constructor
  · rintro ⟨c, hc, ha, hs, hcover⟩
    obtain ⟨i, hi⟩ := List.mem_iff_getElem?.mp hc
    rw [firstConfigs, List.getElem?_mapIdx] at hi
    obtain ⟨t, ht, rfl⟩ := Option.map_eq_some_iff.mp hi
    exact ⟨i, t, ht, ha.symm, hs.symm, hcover⟩
  · rintro ⟨i, t, ht, rfl, hs, hcover⟩
    refine ⟨{ state := t.target, alt := i + 1, stack := r }, ?_, rfl, hs.symm, hcover⟩
    refine List.mem_iff_getElem?.mpr ⟨i, ?_⟩
    rw [firstConfigs, List.getElem?_mapIdx]
    exact Option.map_eq_some_iff.mpr ⟨t, ht, rfl⟩

theorem stack_of_mem_firstConfigs {state : Nat} {r : StackRef} {c : Config}
    (hc : c ∈ env.firstConfigs state r) : c.stack = r := by
  rw [firstConfigs, List.mem_mapIdx] at hc
  obtain ⟨i, hi, rfl⟩ := hc
  rfl

/-- Starting closes the first configurations over the caller's stack, if that is known, and over the
empty stack if not. -/
theorem startConfigs_cases (hw : w.graph.Truthful) {state : Nat} {outer : List Invocation}
    {out : ConfigSet} (h : env.startConfigs state outer w = (.ok out, w')) :
    ∃ r w₁, (if env.fullContext then w.graph.pushInvocations env.network outer = (.ok r, w₁.graph)
        else r = StackRef.bottom ∧ w₁.graph = w.graph) ∧
      w₁.graph.Truthful ∧ Extends w.graph w₁.graph ∧ w₁.graph.knows r ∧
      Closure.closeAll env true (env.firstConfigs state r) w₁ = (.ok out, w') := by
  unfold startConfigs at h
  cases hf : env.fullContext with
  | true =>
    rw [hf] at h
    obtain ⟨made, u, hpush, h⟩ := Run.exists_of_bind h
    obtain ⟨r, u', hmade, h⟩ := Run.exists_of_bind h
    obtain ⟨htruthful, hgrows, hknown⟩ :=
      hw.invocations hw.toSound.knows_bottom (n := env.network) outer
    cases hpush
    rcases hp : StackGraph.pushInvocations.go env.network StackRef.bottom w.graph outer
      with ⟨made, g₁⟩
    rw [hp] at htruthful hgrows hknown hmade h
    cases hmade
    exact ⟨r, ⟨g₁, w.author, w.closures⟩, hp, htruthful, hgrows, hknown r rfl, h⟩
  | false =>
    rw [hf] at h
    obtain ⟨r, u, hpure, h⟩ := Run.exists_of_bind h
    cases hpure
    exact ⟨_, _, ⟨rfl, rfl⟩, hw, Extends.refl _, hw.toSound.knows_bottom, h⟩

theorem startConfigs_spots (hw : w.graph.Truthful) {state : Nat} {outer : List Invocation}
    {out : ConfigSet} (h : env.startConfigs state outer w = (.ok out, w')) :
    ∃ r g, (if env.fullContext then w.graph.pushInvocations env.network outer = (.ok r, g)
        else r = StackRef.bottom ∧ g = w.graph) ∧ g.Truthful ∧ g.knows r ∧
      Closure.Closed env g (env.firstConfigs state r) out w'.graph := by
  obtain ⟨r, w₁, hfrom, htruthful, -, hknown, hclose⟩ := startConfigs_cases hw h
  exact ⟨r, w₁.graph, hfrom, htruthful, hknown,
    Closure.closeAll_spots htruthful (fun c hc => stack_of_mem_firstConfigs hc ▸ hknown) hclose⟩

/-! ## Moving over a symbol -/

/-- Moving over a symbol is what the machine does when it consumes it. -/
theorem anyCovers_moves {x : Symbol} {configs : ConfigSet}
    (hfull : configs.fullContext = env.fullContext) {s : Spot} :
    Config.AnyCovers (!env.fullContext) g (env.moves x configs) alt s ↔
      ∃ u, configs.Covers g alt u ∧
        env.network.Eats env.network.minSymbol env.network.maxSymbol x u s := by
  rw [← hfull]
  constructor
  · rintro ⟨d, hd, ha, hs, hcover⟩
    rw [moves, List.mem_flatMap] at hd
    obtain ⟨c, hc, hd⟩ := hd
    dsimp only at hd
    split at hd
    · cases hd
    · next hstop =>
      obtain ⟨t, ht, rfl⟩ := List.mem_map.mp hd
      obtain ⟨ht, hx⟩ := List.mem_filter.mp ht
      obtain ⟨q, stack⟩ := s
      obtain rfl : t.target = q := hs
      exact ⟨⟨c.state, stack⟩, ⟨c, hc, ha, rfl, hcover⟩, .along hstop ht hx⟩
  · rintro ⟨u, ⟨c, hc, ha, hs, hcover⟩, heat⟩
    cases heat with
    | @along q stack t hq ht hx =>
      refine ⟨c.moveTo t.target, ?_, ha, rfl, hcover⟩
      rw [moves, List.mem_flatMap]
      refine ⟨c, hc, ?_⟩
      have hstop : ¬ (env.network.state c.state).isStop := hs ▸ hq
      dsimp only at hs ⊢
      rw [if_neg hstop, hs]
      exact List.mem_map.mpr ⟨t, List.mem_filter.mpr ⟨ht, hx⟩, rfl⟩

/-- Moving leaves a configuration as it is, but for its state. -/
theorem exists_of_mem_moves {x : Symbol} {configs : ConfigSet} {c : Config}
    (hc : c ∈ env.moves x configs) : ∃ d ∈ configs.toList, ∃ q, c = d.moveTo q := by
  rw [moves, List.mem_flatMap] at hc
  obtain ⟨d, hd, hc⟩ := hc
  dsimp only at hc
  split at hc
  · cases hc
  · obtain ⟨t, -, rfl⟩ := List.mem_map.mp hc
    exact ⟨d, hd, t.target, rfl⟩

theorem knows_of_mem_moves {x : Symbol} {configs : ConfigSet}
    (hk : ∀ c ∈ configs.toList, g.knows c.stack) {c : Config} (hc : c ∈ env.moves x configs) :
    g.knows c.stack := by
  obtain ⟨d, hd, q, rfl⟩ := exists_of_mem_moves hc
  exact hk d hd

theorem mem_of_mem_staying {x : Symbol} {configs : ConfigSet} {c : Config}
    (hc : c ∈ env.staying x configs) : c ∈ configs.toList ∧ env.network.isStop c.state := by
  rw [staying] at hc
  split at hc
  · exact List.mem_filter.mp hc
  · cases hc

/-! ## Finishing -/

/-- The result of a step over a set that was closed. -/
structure Finished (env : Surroundings σ) (x : Symbol) (stay : List Config) (g : StackGraph)
    (closed : ConfigSet) (o : Option ConfigSet) (g' : StackGraph) : Prop where
  truthful : g'.Truthful
  grows : Extends g g'
  sits : ∀ r ∈ o, r.Sits g' ∧ r.fullContext = env.fullContext
  complete : ∀ alt s, closed.Covers g alt s → (x = endOfInput → env.network.isStop s.state) →
    ∃ r, o = some r ∧ r.Covers g' alt s
  sound : env.fullContext → ∀ r ∈ o, ∀ alt s, r.Covers g' alt s →
    closed.Covers g alt s ∧ (x = endOfInput → env.network.isStop s.state) ∨
      Config.AnyCovers (!env.fullContext) g stay alt s

theorem insertAll_gains {t t' : ConfigSet} {cs : List Config} (hw : w.graph.Truthful)
    (ht : t.Sits w.graph) (hcs : ∀ c ∈ cs, w.graph.knows c.stack)
    (h : insertAll t cs w = (.ok t', w')) :
    ConfigSet.Gains w.graph t (Config.AnyCovers (!t.fullContext) w.graph cs) t' w'.graph := by
  have hg := ConfigSet.gains_insertAll hw ht hcs
  cases h
  exact hg

/-- After the end of the input the ends of rules are left. -/
theorem afterEnd_spots {x : Symbol} {closed ended : ConfigSet} (hw : w.graph.Truthful)
    (hc : closed.Sits w.graph) (h : env.afterEnd x closed w = (.ok ended, w')) :
    w'.graph.Truthful ∧ Extends w.graph w'.graph ∧ ended.Sits w'.graph ∧
      ended.fullContext = closed.fullContext ∧
      (∀ alt s, closed.Covers w.graph alt s → (x = endOfInput → env.network.isStop s.state) →
        ended.Covers w'.graph alt s) ∧
      (closed.fullContext → ∀ alt s, ended.Covers w'.graph alt s →
        closed.Covers w.graph alt s ∧ (x = endOfInput → env.network.isStop s.state)) := by
  unfold afterEnd onlyStops at h
  split at h
  · next hx =>
    split at h
    · next hall =>
      cases h
      refine ⟨hw, Extends.refl _, hc, rfl, fun _ _ hs _ => hs, fun _ alt s hs => ⟨hs, fun _ => ?_⟩⟩
      obtain ⟨c, hc, hcs⟩ := hs
      rw [ConfigSet.allStop, List.all_eq_true] at hall
      exact hcs.state ▸ hall c hc
    · have hg := insertAll_gains hw (ConfigSet.sits_empty _ _)
        (fun c hc' => hc.known c (List.mem_filter.mp hc').1) h
      have hfilter : ∀ alt s, Config.AnyCovers (!(ConfigSet.empty closed.fullContext).fullContext)
          w.graph (closed.toList.filter fun c => env.network.isStop c.state) alt s ↔
            closed.Covers w.graph alt s ∧ env.network.isStop s.state := by
        intro alt s
        constructor
        · rintro ⟨c, hc, hcs⟩
          obtain ⟨hc, hstop⟩ := List.mem_filter.mp hc
          exact ⟨⟨c, hc, hcs⟩, hcs.state ▸ hstop⟩
        · rintro ⟨⟨c, hc, hcs⟩, hstop⟩
          exact ⟨c, List.mem_filter.mpr ⟨hc, by rw [hcs.state]; exact hstop⟩, hcs⟩
      refine ⟨hg.truthful, hg.grows, hg.sits, hg.fullContext, fun alt s hs hstop => ?_,
        fun hf alt s hs => ?_⟩
      · exact hg.covers alt s (.inr ((hfilter alt s).mpr ⟨hs, hstop hx⟩))
      · rcases hg.only hf alt s hs with hs | hs
        · exact absurd hs ConfigSet.not_covers_empty
        · obtain ⟨hs, hstop⟩ := (hfilter alt s).mp hs
          exact ⟨hs, fun _ => hstop⟩
  · next hx =>
    cases h
    exact ⟨hw, Extends.refl _, hc, rfl, fun _ _ hs _ => hs, fun _ _ _ hs => ⟨hs, fun he => absurd he hx⟩⟩

theorem finish_spots {x : Symbol} {stay : List Config} {closed : ConfigSet} {o : Option ConfigSet}
    (hw : w.graph.Truthful) (hc : closed.Sits w.graph) (hf : closed.fullContext = env.fullContext)
    (hstay : ∀ c ∈ stay, w.graph.knows c.stack) (h : env.finish x stay closed w = (.ok o, w')) :
    Finished env x stay w.graph closed o w'.graph := by
  unfold finish at h
  obtain ⟨ended, w₁, hend, h⟩ := Run.exists_of_bind h
  obtain ⟨reached, w₂, hkeep, h⟩ := Run.exists_of_bind h
  obtain ⟨ht₁, he₁, hs₁, hf₁, hc₁, ho₁⟩ := afterEnd_spots hw hc hend
  have hkept : ∃ P : Nat → Spot → Prop, ConfigSet.Gains w₁.graph ended P reached w₂.graph ∧
      ∀ alt s, P alt s → Config.AnyCovers (!env.fullContext) w.graph stay alt s := by
    unfold keep at hkeep
    split at hkeep
    · have hg := insertAll_gains ht₁ hs₁ (fun c hc => he₁.knows (hstay c hc)) hkeep
      refine ⟨_, hg, fun alt s hs => ?_⟩
      rw [hf₁, hf] at hs
      exact (Config.anyCovers_iff he₁ hw ht₁ hstay).mp hs
    · cases hkeep
      exact ⟨_, .refl ht₁ hs₁, fun _ _ => False.elim⟩
  obtain ⟨P, hg, hP⟩ := hkept
  have hw₂ : w₂ = w' := by
    cases h
    rfl
  subst hw₂
  have hfull : reached.fullContext = env.fullContext := hg.fullContext.trans (hf₁.trans hf)
  have ho : o = if reached.isEmpty then none else some reached := by
    cases h
    rfl
  refine ⟨hg.truthful, he₁.trans hg.grows, fun r hr => ?_, fun alt s hs hstop => ?_,
    fun hfc r hr alt s hs => ?_⟩
  · rw [ho] at hr
    split at hr
    · cases hr
    · cases hr
      exact ⟨hg.sits, hfull⟩
  · have hcover := hg.covers alt s (.inl (hc₁ alt s hs hstop))
    refine ⟨reached, ?_, hcover⟩
    obtain ⟨c, hc, -⟩ := hcover
    rw [ho, if_neg]
    intro hempty
    rw [ConfigSet.isEmpty, Array.isEmpty_iff] at hempty
    rw [ConfigSet.toList, hempty] at hc
    cases hc
  · rw [ho] at hr
    split at hr
    · cases hr
    · cases hr
      rcases hg.only (hf₁.trans (hf.trans hfc)) alt s hs with hs | hs
      · exact .inl (ho₁ (hf.trans hfc) alt s hs)
      · exact .inr (hP alt s hs)

/-! ## Consuming -/

/-- Surroundings in which a symbol was consumed. -/
def behind (env : Surroundings σ) (x : Symbol) : Surroundings σ :=
  { env with endIsFree := x = endOfInput }

/-- What is reached by consuming a symbol: whatever the machine drifts to behind it, and with a known
caller nothing else but what stays. -/
structure Reached (env : Surroundings σ) (x : Symbol) (g : StackGraph) (configs : ConfigSet)
    (o : Option ConfigSet) (g' : StackGraph) : Prop where
  truthful : g'.Truthful
  grows : Extends g g'
  sits : ∀ r ∈ o, r.Sits g' ∧ r.fullContext = env.fullContext
  complete : env.Unguarded → ∀ alt s t u, configs.Covers g alt s →
    env.network.Eats env.network.minSymbol env.network.maxSymbol x s t →
    (∀ v, Relation.ReflTransGen (env.behind x).Drifts t v → env.network.Returning v) →
    Relation.ReflTransGen (env.behind x).Drifts t u → env.Collects u →
    (x = endOfInput → env.network.isStop u.state) → ∃ r, o = some r ∧ r.Covers g' alt u
  sound : env.fullContext → ∀ r ∈ o, ∀ alt u, r.Covers g' alt u →
    (env.Collects u ∧ (x = endOfInput → env.network.isStop u.state) ∧ ∃ s t, configs.Covers g alt s ∧
      env.network.Eats env.network.minSymbol env.network.maxSymbol x s t ∧
      Relation.ReflTransGen (env.behind x).Drifts t u) ∨
    env.network.isStop u.state ∧ configs.Covers g alt u

theorem reach_spots {x : Symbol} {configs : ConfigSet} {o : Option ConfigSet}
    (hw : w.graph.Truthful) (hk : ∀ c ∈ configs.toList, w.graph.knows c.stack)
    (hf : configs.fullContext = env.fullContext)
    (h : env.reach false x configs w = (.ok o, w')) : Reached env x w.graph configs o w'.graph := by
  unfold reach at h
  obtain ⟨moved, w₁, hmoved, h⟩ := Run.exists_of_bind h
  obtain ⟨closed, w₂, hclosed, h⟩ := Run.exists_of_bind h
  have hg := insertAll_gains hw (ConfigSet.sits_empty _ env.fullContext)
    (fun c hc => knows_of_mem_moves hk hc) hmoved
  have hcl : Closure.Closed (env.behind x) w₁.graph moved.toList closed w₂.graph :=
    Closure.closeAll_spots hg.truthful hg.sits.known hclosed
  have hstay : ∀ c ∈ env.staying x configs, w.graph.knows c.stack := fun c hc =>
    hk c (mem_of_mem_staying hc).1
  have hfin := finish_spots hcl.truthful hcl.sits hcl.fullContext
    (fun c hc => (hg.grows.trans hcl.grows).knows (hstay c hc)) h
  have hcovers : ∀ alt s, Config.AnyCovers (!env.fullContext) w₁.graph moved.toList alt s ↔
      moved.Covers w₁.graph alt s := fun alt s => by
    rw [ConfigSet.Covers, hg.fullContext]
    rfl
  refine ⟨hfin.truthful, (hg.grows.trans hcl.grows).trans hfin.grows, hfin.sits,
    fun hun alt s t u hs heat hr hd hu hend => ?_, fun hfc r hr alt u hu => ?_⟩
  · have ht : moved.Covers w₁.graph alt t :=
      hg.covers alt t (.inr ((anyCovers_moves hf).mpr ⟨s, hs, heat⟩))
    have hclosed := hcl.complete_of_unguarded hun ((hcovers alt t).mpr ht) hr hd ⟨hu.stop, hu.consuming⟩
    exact hfin.complete alt u hclosed hend
  · rcases hfin.sound hfc r hr alt u hu with ⟨hu, hend⟩ | hu
    · obtain ⟨hcollects, t, ht, hd⟩ := hcl.sound hfc alt u hu
      rcases hg.only hfc alt t ((hcovers alt t).mp ht) with ht | ht
      · exact absurd ht ConfigSet.not_covers_empty
      · obtain ⟨s, hs, heat⟩ := (anyCovers_moves hf).mp ht
        exact .inl ⟨⟨hcollects.stop, hcollects.consuming⟩, hend, s, t, hs, heat, hd⟩
    · have hu := (Config.anyCovers_iff (hg.grows.trans hcl.grows) hw hcl.truthful hstay).mp hu
      obtain ⟨c, hc, hcu⟩ := hu
      obtain ⟨hc, hstop⟩ := mem_of_mem_staying hc
      refine .inr ⟨hcu.state ▸ hstop, c, hc, ?_⟩
      rwa [hf]

end Surroundings
end AdaptiveLL

import Mathlib
import AdaptiveLL.Proofs.StackGraph.Wildcard
import AdaptiveLL.Proofs.Prediction.Plain
import AdaptiveLL.Proofs.Prediction.Entries

/-! # Where closing comes to rest

A configuration that was collected is at a place from which nothing more is free: something has to be
consumed there, or it is at the end of the outermost rule (`Config.Rests`).  That much can be seen when it
is collected.  It is still so after configurations were merged, because a configuration at the end of a
rule is collected over the empty stack only.  Over a known caller this is what closing says.  Without it,
the empty stack stands for every stack, and a stack could end beside others that go on; but no such stack is
ever made, as none of a node's stacks continues another one (`StackGraph.Fits`).

So what starting, closing and reaching give is a set at rest (`ConfigSet.Resting`): its entries rest, and
no two of them have the same key.
-/
namespace AdaptiveLL
open StackGraph (Extends PrefixFree)

namespace StackGraph

/-- A node of the graph of which, if nothing is known of the caller, no stack continues another. -/
structure Fits (fullContext : Bool) (g : StackGraph) (r : StackRef) : Prop where
  known : g.knows r
  free : fullContext = false → PrefixFree (g.stackSet r)

namespace Fits
variable {fullContext : Bool} {g h : StackGraph} {r r' : StackRef}

theorem bottom (hg : g.Sound) : Fits fullContext g StackRef.bottom :=
  ⟨hg.knows_bottom, fun _ => hg.stackSet_bottom ▸ prefixFree_bottom⟩

theorem mono (hr : Fits fullContext g r) (e : Extends g h) (hg : g.Sound) (hh : h.Sound) :
    Fits fullContext h r :=
  ⟨e.knows hr.known, fun hf => e.stackSet hg hh hr.known ▸ hr.free hf⟩

theorem push (hr : Fits fullContext g r) (hg : g.Sound) (x : Nat) :
    Fits fullContext (g.push r (some x)).2 (g.push r (some x)).1 :=
  ⟨(hg.push hr.known x).2.2.1, fun hf => hg.stackSet_push hr.known x ▸ (hr.free hf).cons x⟩

theorem parent (hr : Fits fullContext g r) (hg : g.Sound) {f : Frame} (hf : f ∈ g.frames r) {x : Nat}
    (hx : f.returnTo = some x) : Fits fullContext g f.parent :=
  ⟨hg.knows_parent hr.known hf, fun hfull => hg.prefixFree_parent hr.known (hr.free hfull) hf hx⟩

theorem merge (hr : Fits fullContext g r) (hr' : Fits fullContext g r') (hg : g.Truthful) :
    Fits fullContext (g.merge r r' (!fullContext)).2 (g.merge r r' (!fullContext)).1 := by
  have hm := hg.merge hr.known hr'.known (!fullContext)
  refine ⟨hm.known, fun hf => ?_⟩
  rw [hm.joined, hf]
  exact (hr.free hf).joined (hr'.free hf)

end Fits
end StackGraph

/-- A configuration from which nothing more is free: at the end of a rule its stack is empty, and unless
that is the end for a known caller, something has to be consumed. -/
structure Config.Rests (n : Network) (fullContext : Bool) (c : Config) : Prop where
  stop : n.isStop c.state → c.stack = StackRef.bottom
  consuming : ¬ (fullContext ∧ n.isStop c.state) → (n.state c.state).freeOnly = false

namespace ConfigSet
variable {n : Network} {g h : StackGraph} {t : ConfigSet} {c : Config}

/-- An open set of configurations of the stack graph. -/
structure Fits (g : StackGraph) (t : ConfigSet) : Prop where
  isOpen : t.Open
  fits : ∀ c ∈ t.toList, g.Fits t.fullContext c.stack

theorem fits_empty (g : StackGraph) (fullContext : Bool) : (empty fullContext).Fits g :=
  ⟨open_empty fullContext, fun _ hc => absurd hc List.not_mem_nil⟩

/-- What the graph is after a configuration was added. -/
theorem grows_insert (hg : g.Truthful) (ht : t.Fits g) (hc : g.Fits t.fullContext c.stack) :
    (t.insert c g).2.Truthful ∧ Extends g (t.insert c g).2 := by
  rcases insert_cases ht.isOpen c g with ⟨-, heq⟩ | ⟨i, old, hold, -, -, hgraph⟩
  · rw [heq]
    exact ⟨hg, Extends.refl g⟩
  · have hm := hg.merge (ht.fits old (List.mem_of_getElem? hold)).known hc.known (!t.fullContext)
    rw [hgraph]
    exact ⟨hm.truthful, hm.grows⟩

theorem Fits.insert (ht : t.Fits g) (hg : g.Truthful) (hc : g.Fits t.fullContext c.stack) :
    (t.insert c g).1.Fits (t.insert c g).2 := by
  obtain ⟨hg', e⟩ := grows_insert hg ht hc
  refine ⟨ht.isOpen.insert c g, fun d hd => ?_⟩
  rw [fullContext_insert]
  rcases mem_insert ht.isOpen hd with hd | ⟨rfl, -⟩ | ⟨old, hold, -, rfl, hgraph⟩
  · exact (ht.fits d hd).mono e hg.toSound hg'.toSound
  · exact hc.mono e hg.toSound hg'.toSound
  · rw [hgraph]
    exact (ht.fits old hold).merge hc hg

/-- A set of configurations that rest, no two of which have the same key. -/
structure Resting (n : Network) (g : StackGraph) (t : ConfigSet) : Prop extends t.Fits g where
  apart : t.keys.Nodup
  rests : ∀ c ∈ t.toList, c.Rests n t.fullContext

theorem resting_empty (n : Network) (g : StackGraph) (fullContext : Bool) :
    (empty fullContext).Resting n g :=
  ⟨fits_empty g fullContext, List.nodup_nil, fun _ hc => absurd hc List.not_mem_nil⟩

theorem Resting.insert (ht : t.Resting n g) (hg : g.Truthful) (hc : g.Fits t.fullContext c.stack)
    (hrests : c.Rests n t.fullContext) : (t.insert c g).1.Resting n (t.insert c g).2 := by
  refine ⟨ht.toFits.insert hg hc, nodup_keys_insert ht.isOpen ht.apart c g, fun d hd => ?_⟩
  rw [fullContext_insert]
  rcases mem_insert ht.isOpen hd with hd | ⟨rfl, -⟩ | ⟨old, hold, hkey, rfl, -⟩
  · exact ht.rests d hd
  · exact hrests
  · have hold := ht.rests old hold
    obtain ⟨hstate, -⟩ := Prod.mk.inj hkey
    refine ⟨fun hstop => ?_, hold.consuming⟩
    show (g.merge old.stack c.stack (!t.fullContext)).1 = StackRef.bottom
    rw [hold.stop hstop, hrests.stop (hstate ▸ hstop)]
    exact StackGraph.merge_self g StackRef.bottom (!t.fullContext)

/-- Configurations are added one after another. -/
theorem fits_insertAll (hg : g.Truthful) (ht : t.Fits g) {cs : List Config}
    (hcs : ∀ c ∈ cs, g.Fits t.fullContext c.stack) :
    (t.insertAll cs g).2.Truthful ∧ Extends g (t.insertAll cs g).2 ∧
      (t.insertAll cs g).1.Fits (t.insertAll cs g).2 ∧
      (t.insertAll cs g).1.fullContext = t.fullContext := by
  induction cs generalizing t g with
  | nil => exact ⟨hg, Extends.refl g, ht, rfl⟩
  | cons c cs ih =>
    rw [List.forall_mem_cons] at hcs
    obtain ⟨hg', e⟩ := grows_insert hg ht hcs.1
    obtain ⟨h1, h2, h3, h4⟩ := ih hg' (ht.insert hg hcs.1) fun d hd => by
      rw [fullContext_insert]
      exact (hcs.2 d hd).mono e hg.toSound hg'.toSound
    exact ⟨h1, e.trans h2, h3, h4.trans (fullContext_insert t c g)⟩

theorem resting_insertAll (hg : g.Truthful) (ht : t.Resting n g) {cs : List Config}
    (hcs : ∀ c ∈ cs, g.Fits t.fullContext c.stack) (hrests : ∀ c ∈ cs, c.Rests n t.fullContext) :
    (t.insertAll cs g).1.Resting n (t.insertAll cs g).2 := by
  induction cs generalizing t g with
  | nil => exact ht
  | cons c cs ih =>
    rw [List.forall_mem_cons] at hcs hrests
    obtain ⟨hg', e⟩ := grows_insert hg ht.toFits hcs.1
    refine ih (t := (t.insert c g).1) hg' (ht.insert hg hcs.1 hrests.1) (fun d hd => ?_)
      fun d hd => ?_
    · rw [fullContext_insert]
      exact (hcs.2 d hd).mono e hg.toSound hg'.toSound
    · rw [fullContext_insert]
      exact hrests.2 d hd

end ConfigSet

/-! ## Closing -/

namespace Closure
open Run
variable {σ : Type} {env : Surroundings σ} {g₀ : StackGraph} {c : Config}

/-- A closure that goes on from a graph and has collected nothing but what rests. -/
structure Progress.Resting (env : Surroundings σ) (g₀ : StackGraph) (p : Progress σ) : Prop where
  truthful : p.work.graph.Truthful
  grows : Extends g₀ p.work.graph
  out : p.out.Resting env.network p.work.graph
  fullContext : p.out.fullContext = env.fullContext

/-- An item of the walk over stacks that fit. -/
def Item.Fits (env : Surroundings σ) (g : StackGraph) : Item → Prop
  | .arrive c _ _ | .follow c _ _ _ => g.Fits env.fullContext c.stack
  | .pop c _ _ f =>
    g.Fits env.fullContext c.stack ∧ env.network.isStop c.state ∧ f ∈ g.frames c.stack

theorem Item.Fits.mono {g h : StackGraph} {i : Item} (hi : i.Fits env g) (e : Extends g h)
    (hg : g.Sound) (hh : h.Sound) : i.Fits env h := by
  cases i with
  | arrive c => exact StackGraph.Fits.mono hi e hg hh
  | follow c => exact StackGraph.Fits.mono hi e hg hh
  | pop c _ _ f =>
    obtain ⟨hc, hstop, hf⟩ := hi
    exact ⟨hc.mono e hg hh, hstop, (e.frames hc.known).symm ▸ hf⟩

/-- Whether all items that were opened fit. -/
def FitItems (env : Surroundings σ) (o : Option (List Item)) (p : Progress σ) : Prop :=
  ∀ i ∈ o.getD [], i.Fits env p.work.graph

theorem FitItems.none {p : Progress σ} : FitItems env none p := fun _ hi => absurd hi List.not_mem_nil

/-- The same, with a configuration whose stacks fit. -/
def RestingAt (env : Surroundings σ) (g₀ : StackGraph) (c : Config) (p : Progress σ) : Prop :=
  p.Resting env g₀ ∧ p.work.graph.Fits env.fullContext c.stack

/-- From where the stacks of a configuration fit, a visit collects what rests and opens what fits. -/
abbrev KeepsResting (env : Surroundings σ) (g₀ : StackGraph) (c : Config)
    (m : Run (Progress σ) (Option (List Item))) : Prop :=
  Meets (RestingAt env g₀ c) m (fun o p => p.Resting env g₀ ∧ FitItems env o p) fun _ _ => True

theorem resting_collect (hc : c.Rests env.network env.fullContext) :
    Meets (RestingAt env g₀ c) (collect c) (fun _ => RestingAt env g₀ c) fun _ _ => True := by
  refine .modify fun p ⟨hp, hfit⟩ => ?_
  have hfit' : p.work.graph.Fits p.out.fullContext c.stack := hp.fullContext.symm ▸ hfit
  obtain ⟨hg, e⟩ := ConfigSet.grows_insert hp.truthful hp.out.toFits hfit'
  have hout := hp.out.insert hp.truthful hfit' (hp.fullContext.symm ▸ hc)
  exact ⟨⟨hg, hp.grows.trans e, hout, (ConfigSet.fullContext_insert _ _ _).trans hp.fullContext⟩,
    hfit.mono e hp.truthful.toSound hg.toSound⟩

theorem resting_enter (hstop : env.network.isStop c.state →
      c.stack = StackRef.bottom ∧ env.fullContext = false) (depth : Int) (collecting : Bool) :
    KeepsResting env g₀ c (enter env c depth collecting) := by
  have hitems : ∀ p : Progress σ, p.work.graph.Fits env.fullContext c.stack →
      FitItems env (some ((env.network.state c.state).transitions.map
        (Item.follow c depth collecting))) p := by
    intro p hp i hi
    obtain ⟨t, -, rfl⟩ := List.mem_map.mp hi
    exact hp
  have hmark : Meets (RestingAt env g₀ c) (markVisited c) (fun _ => RestingAt env g₀ c)
      fun _ _ => True := by
    refine .modifyGet fun p hp => ?_
    dsimp only
    split
    · exact hp
    · exact ⟨{ hp.1 with }, hp.2⟩
  refine hmark.bind fun first => .ite (fun _ => ?_) fun _ => ?_
  · refine .ite (fun hconsuming => ?_) fun _ => .pure fun p hp => ⟨hp.1, hitems p hp.2⟩
    have hrests : c.Rests env.network env.fullContext :=
      ⟨fun h => (hstop h).1, fun _ => by simpa using hconsuming⟩
    exact (resting_collect hrests).bind fun _ => .pure fun p hp => ⟨hp.1, hitems p hp.2⟩
  · exact .pure fun p hp => ⟨hp.1, .none⟩

theorem resting_arrive (depth : Int) (collecting : Bool) :
    KeepsResting env g₀ c (arrive env c depth collecting) := by
  unfold arrive
  refine .ite (fun hpop => ?_) fun hpop => .ite (fun hend => ?_) fun hend => ?_
  · rw [Bool.and_eq_true, Bool.not_eq_true'] at hpop
    have hget : Meets (RestingAt env g₀ c) (get : Run (Progress σ) (Progress σ))
        (fun p q => p = q ∧ RestingAt env g₀ c q) fun _ _ => True := .get fun p hp => ⟨rfl, hp⟩
    refine hget.bind fun p => .pure fun q ⟨hq, hp⟩ => ⟨hp.1, fun i hi => ?_⟩
    subst hq
    obtain ⟨f, hf, rfl⟩ := List.mem_map.mp hi
    exact ⟨hp.2, hpop.1, hf⟩
  · rw [Bool.and_eq_true] at hend
    have hrests : c.Rests env.network env.fullContext :=
      ⟨fun h => by simpa [h, StackGraph.isBottom_iff] using hpop, fun h => absurd ⟨hend.2, hend.1⟩ h⟩
    exact (resting_collect hrests).bind fun _ => .pure fun p hp => ⟨hp.1, .none⟩
  · refine resting_enter (fun h => ⟨?_, ?_⟩) depth collecting
    · simpa [h, StackGraph.isBottom_iff] using hpop
    · simpa [h] using hend

theorem resting_pop (depth : Int) (collecting : Bool) (f : Frame) :
    Meets (fun p => p.Resting env g₀ ∧ (Item.pop c depth collecting f).Fits env p.work.graph)
      (pop env c depth collecting f) (fun o p => p.Resting env g₀ ∧ FitItems env o p)
      fun _ _ => True := by
  unfold pop
  cases hx : f.returnTo with
  | some x =>
    exact (resting_arrive (c := c.returnTo x f.parent) _ _).imp
      (fun p ⟨hp, hc, _, hf⟩ => ⟨hp, hc.parent hp.truthful.toSound hf hx⟩) (fun _ _ h => h) fun _ _ h => h
  | none =>
    refine .ite (fun hfull _ ⟨hp, _, hstop, _⟩ => ?_) fun hfull p ⟨hp, hc, _, hf⟩ => ?_
    · have hrests : (c.returnTo c.state StackRef.bottom).Rests env.network env.fullContext :=
        ⟨fun _ => rfl, fun h => absurd ⟨hfull, hstop⟩ h⟩
      have hcollect : KeepsResting env g₀ (c.returnTo c.state StackRef.bottom) _ :=
        (resting_collect hrests).bind fun _ => .pure (a := none) fun p hp => ⟨hp.1, .none⟩
      exact hcollect _ ⟨hp, .bottom hp.truthful.toSound⟩
    · -- no end of a stack lies beside other frames, so this node is the empty stack
      rw [Bool.not_eq_true] at hfull
      have hbottom := hp.truthful.eq_bottom hc.known (hc.free hfull) hf hx
      exact resting_enter (fun _ => ⟨hbottom, hfull⟩) depth collecting p ⟨hp, hc⟩

/-- A configuration elsewhere, over the same stacks. -/
theorem resting_pure {o : Option Config} (ho : ∀ d ∈ o, d.stack = c.stack) :
    Meets (RestingAt env g₀ c) (pure o : Run (Progress σ) (Option Config))
      (fun o p => p.Resting env g₀ ∧ ∀ d ∈ o, p.work.graph.Fits env.fullContext d.stack)
      fun _ _ => True :=
  .pure fun _ hp => ⟨hp.1, fun d hd => (ho d hd).symm ▸ hp.2⟩

theorem resting_passGuard (target : Nat) (g : Guard) (collecting : Bool) :
    Meets (RestingAt env g₀ c) (passGuard env c target g collecting)
      (fun o p => p.Resting env g₀ ∧ ∀ d ∈ o, p.work.graph.Fits env.fullContext d.stack)
      fun _ _ => True := by
  unfold passGuard
  refine .ite (fun _ => resting_pure fun _ h => Option.mem_some.mp h ▸ rfl) fun _ =>
    .ite (fun _ => resting_pure fun _ h => Option.mem_some.mp h ▸ rfl) fun _ => ?_
  split
  · exact resting_pure fun _ h => Option.mem_some.mp h ▸ rfl
  · have hdecide : ∀ ask : Guard → σ → Bool × σ, Meets (RestingAt env g₀ c) (decideGuard ask g)
        (fun _ => RestingAt env g₀ c) fun _ _ => True :=
      fun ask => .modifyGet fun p hp => ⟨{ hp.1 with }, hp.2⟩
    exact (hdecide _).bind fun holds => .ite (fun _ => resting_pure fun _ h => Option.mem_some.mp h ▸ rfl)
      fun _ => resting_pure fun _ h => nomatch h

theorem resting_target? (inRule collecting : Bool) (t : Transition) :
    Meets (RestingAt env g₀ c) (target? env c inRule collecting t)
      (fun o p => p.Resting env g₀ ∧ ∀ d ∈ o, p.work.graph.Fits env.fullContext d.stack)
      fun _ _ => True := by
  cases t with
  | predicate | precedence => exact resting_passGuard _ _ _
  | call target rule level follow =>
    have hpush : Meets (RestingAt env g₀ c) (push c.stack follow)
        (fun r p => p.Resting env g₀ ∧ p.work.graph.Fits env.fullContext r) fun _ _ => True := by
      refine .modifyGet fun p ⟨hp, hc⟩ => ?_
      have hkeeps := hp.truthful.push hc.known (some follow)
      refine ⟨⟨hkeeps.truthful, hp.grows.trans hkeeps.grows, ?_, hp.fullContext⟩,
        hc.push hp.truthful.toSound follow⟩
      exact { hp.out with
        fits := fun d hd =>
          (hp.out.fits d hd).mono hkeeps.grows hp.truthful.toSound hkeeps.truthful.toSound }
    refine hpush.bind fun r => .pure fun p ⟨hp, hr⟩ => ⟨hp, fun d hd => ?_⟩
    cases hd
    exact hr
  | action | epsilon | ret => exact resting_pure fun _ h => Option.mem_some.mp h ▸ rfl
  | symbol | range | set =>
    exact .ite (fun _ => resting_pure fun _ h => Option.mem_some.mp h ▸ rfl)
      fun _ => resting_pure fun _ h => nomatch h
  | notSet | wildcard => exact resting_pure fun _ h => nomatch h

theorem resting_follow (depth : Int) (collecting : Bool) (t : Transition) :
    KeepsResting env g₀ c (follow env c depth collecting t) := by
  refine (resting_target? _ _ t).bind fun o => ?_
  cases o with
  | none => exact .pure fun p hp => ⟨hp.1, .none⟩
  | some d =>
    have harrive : ∀ (e : Config) depth collecting, e.stack = d.stack →
        Meets (RestingAt env g₀ d) (arrive env e depth collecting)
          (fun o p => p.Resting env g₀ ∧ FitItems env o p) fun _ _ => True :=
      fun e depth collecting he => (resting_arrive depth collecting).imp
        (fun p hp => ⟨hp.1, he.symm ▸ hp.2⟩) (fun _ _ h => h) fun _ _ h => h
    have hdip : Meets (RestingAt env g₀ d) noteDip (fun _ => RestingAt env g₀ d) fun _ _ => True :=
      .modify fun p hp => ⟨⟨hp.1.truthful, hp.1.grows, ⟨⟨{ hp.1.out.isOpen with }, hp.1.out.fits⟩,
        hp.1.out.apart, hp.1.out.rests⟩, hp.1.fullContext⟩, hp.2⟩
    refine Meets.imp ?_ (fun p hp => (⟨hp.1, hp.2 d rfl⟩ : RestingAt env g₀ d p)) (fun _ _ h => h)
      fun _ _ h => h
    exact .ite (fun _ => hdip.bind fun _ => harrive _ _ _ rfl) fun _ =>
      .ite (fun _ => harrive d _ _ rfl) fun _ => harrive d _ _ rfl

theorem resting_visit (item : Item) :
    Meets (fun p => p.Resting env g₀ ∧ item.Fits env p.work.graph) (visit env item)
      (fun o p => p.Resting env g₀ ∧ FitItems env o p) fun _ _ => True := by
  cases item with
  | arrive c depth collecting => exact resting_arrive depth collecting
  | pop c depth collecting f => exact resting_pop depth collecting f
  | follow c depth collecting t => exact resting_follow depth collecting t

/-- Closing a configuration whose stacks fit. -/
theorem resting_close (hc : g₀.Fits env.fullContext c.stack) (hg₀ : g₀.Sound) {collecting : Bool}
    {p p' : Progress σ} (hp : p.Resting env g₀) (h : close env collecting c p = (.ok (), p')) :
    p'.Resting env g₀ := by
  have hwalk := DepthFirst.run_keeps h
    (fun items p => p.Resting env g₀ ∧ ∀ i ∈ items, i.Fits env p.work.graph)
    ⟨{ hp with }, fun i hi => ?_⟩ fun item rest p o p' hinv hv => ?_
  · exact hwalk.1
  · obtain rfl : i = .arrive c 0 collecting := by simpa using hi
    exact hc.mono hp.grows hg₀ hp.truthful.toSound
  · obtain ⟨hp, hitems⟩ := hinv
    rw [List.forall_mem_cons] at hitems
    -- what still waits fits the graph that the visit leaves
    have hbegin : p.Resting env p.work.graph := { hp with grows := Extends.refl _ }
    have hvisit := resting_visit item p ⟨hbegin, hitems.1⟩
    rw [hv] at hvisit
    obtain ⟨hp', ho⟩ := hvisit
    refine ⟨{ hp' with grows := hp.grows.trans hp'.grows }, fun i hi => ?_⟩
    rcases List.mem_append.mp hi with hi | hi
    · exact ho i hi
    · exact (hitems.2 i hi).mono hp'.grows hp.truthful.toSound hp'.truthful.toSound

theorem resting_forM_close {cs : List Config} (hcs : ∀ c ∈ cs, g₀.Fits env.fullContext c.stack)
    (hg₀ : g₀.Sound) {collecting : Bool} {p p' : Progress σ} (hp : p.Resting env g₀)
    (h : cs.forM (close env collecting) p = (.ok (), p')) : p'.Resting env g₀ := by
  induction cs generalizing p with
  | nil =>
    cases h
    exact hp
  | cons c cs ih =>
    rw [List.forall_mem_cons] at hcs
    change (close env collecting c >>= fun _ => cs.forM (close env collecting)) p = _ at h
    obtain ⟨_, q, hfirst, hrest⟩ := Run.exists_of_bind h
    exact ih hcs.2 (resting_close hcs.1 hg₀ hp hfirst) hrest

/-- What closing configurations whose stacks fit collects rests. -/
theorem closeAll_resting {w w' : Workspace σ} (hw : w.graph.Truthful) {cs : List Config}
    (hcs : ∀ c ∈ cs, w.graph.Fits env.fullContext c.stack) {collecting : Bool} {out : ConfigSet}
    (h : closeAll env collecting cs w = (.ok out, w')) :
    w'.graph.Truthful ∧ Extends w.graph w'.graph ∧ out.Resting env.network w'.graph ∧
      out.fullContext = env.fullContext := by
  have hbegin : Progress.Resting env w.graph ⟨w, ConfigSet.empty env.fullContext, ∅⟩ :=
    ⟨hw, Extends.refl _, ConfigSet.resting_empty _ _ _, rfl⟩
  obtain ⟨u, p, hrun, rfl, rfl⟩ := exists_of_closeAll h
  have hp := resting_forM_close hcs hw.toSound hbegin hrun
  exact ⟨hp.truthful, hp.grows, hp.out, hp.fullContext⟩

end Closure

/-! ## Starting and reaching -/

namespace Surroundings
variable {σ : Type} {env : Surroundings σ} {w w' : Workspace σ}

/-- What the alternatives of a state begin with is at rest. -/
theorem startConfigs_resting (hw : w.graph.Truthful) {state : Nat} {outer : List Invocation}
    {out : ConfigSet} (h : env.startConfigs state outer w = (.ok out, w')) :
    w'.graph.Truthful ∧ Extends w.graph w'.graph ∧ out.Resting env.network w'.graph ∧
      out.fullContext = env.fullContext := by
  obtain ⟨r, w₁, hfrom, hw₁, hgrows, hr, hclose⟩ := startConfigs_cases hw h
  have hfits : w₁.graph.Fits env.fullContext r := by
    cases hf : env.fullContext with
    | true => exact ⟨hr, fun h => nomatch h⟩
    | false =>
      rw [hf, if_neg Bool.false_ne_true] at hfrom
      exact hfrom.1 ▸ .bottom hw₁.toSound
  obtain ⟨h1, h2, h3, h4⟩ :=
    Closure.closeAll_resting hw₁ (fun c hc => stack_of_mem_firstConfigs hc ▸ hfits) hclose
  exact ⟨h1, hgrows.trans h2, h3, h4⟩

theorem insertAll_resting {t t' : ConfigSet} (hw : w.graph.Truthful)
    (ht : t.Resting env.network w.graph) {cs : List Config} {fullContext : Bool}
    (hf : t.fullContext = fullContext) (hcs : ∀ c ∈ cs, w.graph.Fits fullContext c.stack)
    (hrests : ∀ c ∈ cs, c.Rests env.network fullContext) (h : insertAll t cs w = (.ok t', w')) :
    w'.graph.Truthful ∧ Extends w.graph w'.graph ∧ t'.Resting env.network w'.graph ∧
      t'.fullContext = fullContext := by
  subst hf
  obtain ⟨h1, h2, -, h4⟩ := ConfigSet.fits_insertAll hw ht.toFits hcs
  have h3 := ConfigSet.resting_insertAll hw ht hcs hrests
  cases h
  exact ⟨h1, h2, h3, h4⟩

theorem afterEnd_resting {x : Symbol} {closed ended : ConfigSet} (hw : w.graph.Truthful)
    (hc : closed.Resting env.network w.graph) (h : env.afterEnd x closed w = (.ok ended, w')) :
    w'.graph.Truthful ∧ Extends w.graph w'.graph ∧ ended.Resting env.network w'.graph ∧
      ended.fullContext = closed.fullContext := by
  unfold afterEnd onlyStops at h
  split at h
  · split at h
    · cases h
      exact ⟨hw, Extends.refl _, hc, rfl⟩
    · exact insertAll_resting hw (ConfigSet.resting_empty _ _ closed.fullContext) rfl
        (fun c hc' => hc.fits c (List.mem_filter.mp hc').1)
        (fun c hc' => hc.rests c (List.mem_filter.mp hc').1) h
  · cases h
    exact ⟨hw, Extends.refl _, hc, rfl⟩

/-- What is reached from a set at rest is at rest. -/
theorem reach_resting {x : Symbol} {configs r : ConfigSet} (hw : w.graph.Truthful)
    (hs : configs.Resting env.network w.graph) (hf : configs.fullContext = env.fullContext)
    (h : env.reach false x configs w = (.ok (some r), w')) :
    w'.graph.Truthful ∧ Extends w.graph w'.graph ∧ r.Resting env.network w'.graph ∧
      r.fullContext = env.fullContext := by
  -- There are four steps: the moves, their closure, what the end leaves, and what stays.
  obtain ⟨moved, w₁, closed, w₂, hmoved, ⟨hfalse, -⟩ | hclosed, h⟩ := reach_cases h
  · cases hfalse
  obtain ⟨ended, w₃, hended, h⟩ := Run.exists_of_bind h
  obtain ⟨reached, w₄, hkeep, h⟩ := Run.exists_of_bind h
  have hmoves : ∀ c ∈ env.moves x configs, w.graph.Fits env.fullContext c.stack := by
    intro c hc
    obtain ⟨d, hd, q, rfl⟩ := exists_of_mem_moves hc
    exact hf ▸ hs.fits d hd
  obtain ⟨hw₁, e₁, hfits₁, hfull₁⟩ :=
    ConfigSet.fits_insertAll hw (ConfigSet.fits_empty _ env.fullContext) hmoves
  have hclosing : closed.Resting env.network w₂.graph ∧ w₂.graph.Truthful ∧
      Extends w.graph w₂.graph ∧ closed.fullContext = env.fullContext := by
    cases hmoved
    obtain ⟨hw₂, e₂, hset₂, hfull₂⟩ := Closure.closeAll_resting hw₁ (fun c hc => by
      have hfits := hfits₁.fits c hc
      rw [hfull₁] at hfits
      exact hfits) hclosed
    exact ⟨hset₂, hw₂, e₁.trans e₂, hfull₂⟩
  obtain ⟨hset₂, hw₂, e₂, hfull₂⟩ := hclosing
  obtain ⟨hw₃, e₃, hset₃, hfull₃⟩ := afterEnd_resting hw₂ hset₂ hended
  have hkept : w₄.graph.Truthful ∧ Extends w₃.graph w₄.graph ∧ reached.Resting env.network w₄.graph ∧
      reached.fullContext = env.fullContext := by
    unfold keep at hkeep
    split at hkeep
    · refine insertAll_resting hw₃ hset₃ (hfull₃.trans hfull₂) (fun c hc => ?_) (fun c hc => ?_) hkeep
      · exact (hf ▸ hs.fits c (mem_of_mem_staying hc).1).mono (e₂.trans e₃) hw.toSound hw₃.toSound
      · exact hf ▸ hs.rests c (mem_of_mem_staying hc).1
    · cases hkeep
      exact ⟨hw₃, Extends.refl _, hset₃, hfull₃.trans hfull₂⟩
  obtain ⟨hw₄, e₄, hset₄, hfull₄⟩ := hkept
  have hr : w₄ = w' ∧ reached = r := by
    split at h
    · cases h
    · cases h
      exact ⟨rfl, rfl⟩
  obtain ⟨rfl, rfl⟩ := hr
  exact ⟨hw₄, (e₂.trans e₃).trans e₄, hset₄, hfull₄⟩

end Surroundings
end AdaptiveLL

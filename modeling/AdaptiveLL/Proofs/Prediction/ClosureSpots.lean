import Mathlib
import AdaptiveLL.Prediction.Closure
import AdaptiveLL.Proofs.DepthFirst
import AdaptiveLL.Proofs.Network.Chained
import AdaptiveLL.Proofs.Prediction.ClosureAlike
import AdaptiveLL.Proofs.Prediction.Spots

/-! # What a closure collects

A closure collects every spot to which the machine can drift from the configurations that are closed,
and where something is to be consumed, and with a known caller it collects nothing else
(`Closure.closeAll_spots`).

While the walk is under way, whatever is owed is accounted for (`Accounted`): a spot was visited, or an
item that waits covers it, or it is the end of the outermost rule and was collected, or it is the end of
a rule and what lies below its top is accounted for.  `Advance` says what one visit does to this, and
`Account` what holds between visits.  A spot that was visited counts for every spot that its stacks
cover; without the caller's stack the end of a rule is only visited with the empty stack, and what the
machine would return to is reached along the return transitions.
-/
namespace AdaptiveLL
open StackGraph (Extends StandsFor)

/-- Whether a transition has a guard. -/
def Transition.isGuarded : Transition → Bool
  | predicate .. | precedence .. => true
  | _ => false

/-- The guard of a transition. -/
def Transition.guard? : Transition → Option Guard
  | predicate _ rule index contextual => some (.predicate rule index contextual)
  | precedence _ level => some (.precedence level)
  | _ => none

theorem Transition.guard?_eq_none {t : Transition} (h : t.isGuarded = false) : t.guard? = none := by
  cases t with
  | predicate | precedence => cases h
  | _ => rfl

namespace Network

/-- Whether the return transitions lead to what is on top of the stack at the end of a rule. -/
def Returning (n : Network) (s : Spot) : Prop :=
  ∀ f below, n.isStop s.state → s.stack = f :: below → .ret f ∈ n.ways s.state

end Network

variable {σ : Type}

namespace Surroundings
variable (env : Surroundings σ)

/-- Whether no guard can stop a closure. -/
def Unguarded : Prop :=
  env.fullContext → env.ask = none ∨ ∀ q, ∀ t ∈ env.network.ways q, t.isGuarded = false

/-- The spots that a closure collects: where something is to be consumed, or where nothing leads on,
and over a known caller's stack the end of the outermost rule. -/
structure Collects (s : Spot) : Prop where
  stop : env.network.isStop s.state → s.stack = []
  consuming : ¬ (env.fullContext ∧ env.network.isStop s.state) →
    (env.network.state s.state).freeOnly = false

/-- What the machine drifts along. -/
abbrev Drifts : Spot → Spot → Prop := env.network.Drifts env.endIsFree

/-- Whether no answer stops a closure at a transition. -/
def Lets (t : Transition) : Prop :=
  env.fullContext → ∀ ask ∈ env.ask, ∀ g ∈ t.guard?, ∀ author, (ask g author).1 = true

theorem lets_of_guard? {t : Transition} (h : t.guard? = none) : env.Lets t := by
  intro _ _ _ g hg
  rw [h] at hg
  cases hg

theorem lets_ret (f : Nat) : env.Lets (.ret f) := env.lets_of_guard? rfl

/-- The machine drifts along what no answer stops a closure at. -/
inductive Glides : Spot → Spot → Prop
  | along {q : Nat} {stack : List Nat} {t : Transition} : ¬ env.network.isStop q →
      t ∈ env.network.ways q → t.drifts env.endIsFree → env.Lets t → Glides ⟨q, stack⟩ ⟨t.target, t.onto stack⟩
  | pop {q f : Nat} {stack : List Nat} : env.network.isStop q → Glides ⟨q, f :: stack⟩ ⟨f, stack⟩

variable {env} {s t : Spot}

theorem Glides.drifts (h : env.Glides s t) : env.Drifts s t := by
  cases h with
  | along hq ht hdrifts _ => exact .along hq ht hdrifts
  | pop hq => exact .pop hq

/-- If no guard can stop a closure, the machine glides wherever it drifts. -/
theorem Unguarded.glides (hun : env.Unguarded) (h : env.Drifts s t) : env.Glides s t := by
  cases h with
  | @along q stack u hq hu hdrifts =>
    refine .along hq hu hdrifts fun hfull ask hask g hg => ?_
    rcases hun hfull with hnone | hnone
    · rw [hnone] at hask
      cases hask
    · exact env.lets_of_guard? (Transition.guard?_eq_none (hnone q u hu)) hfull ask hask g hg
  | pop hq => exact .pop hq

end Surroundings

/-- Whether a visited configuration answers for a spot.  At the end of a rule only the empty stack goes
on, and only if the caller is unknown. -/
structure Visit.Covers (env : Surroundings σ) (g : StackGraph) (v : Visit) (alt : Nat) (s : Spot) :
    Prop where
  alt : v.alt = alt
  state : v.state = s.state
  stack : StackGraph.Covers (!env.fullContext) (g.stackSet v.stack) s.stack
  stop : env.network.isStop s.state → env.fullContext = false ∧ [] ∈ g.stackSet v.stack

/-- A visited configuration does not answer for the end of a rule over a known caller. -/
theorem Visit.Covers.returning {env : Surroundings σ} {g : StackGraph} {v : Visit} {alt : Nat} {s : Spot}
    (h : v.Covers env g alt s) (hr : env.fullContext = false → env.network.Returning s) :
    env.network.Returning s :=
  fun f below hstop => hr (h.stop hstop).1 f below hstop

namespace Closure
variable {env : Surroundings σ} {p p' p₁ : Progress σ} {c : Config} {v : Visit} {alt : Nat}

/-! ## What is owed -/

/-- Whether an item that waits leads to a spot. -/
def Item.Covers (env : Surroundings σ) (g : StackGraph) (alt : Nat) (s : Spot) : Item → Prop
  | .arrive c _ _ => c.Covers (!env.fullContext) g alt s
  | .pop c _ _ f => c.alt = alt ∧ c.state = s.state ∧
    match f.returnTo with
    | none => StandsFor (!env.fullContext) [] s.stack
    | some x => ∃ r ∈ g.stackSet f.parent, StandsFor (!env.fullContext) (x :: r) s.stack
  | .follow c _ _ t => c.alt = alt ∧ t.drifts env.endIsFree ∧ t.target = s.state ∧
    ∃ r ∈ g.stackSet c.stack, StandsFor (!env.fullContext) (t.onto r) s.stack

/-- What is known of an item that waits: its stacks are there, a frame is one of its stacks at the end
of a rule, and a transition is one of its state. -/
def Item.Known (env : Surroundings σ) (g : StackGraph) : Item → Prop
  | .arrive c _ _ => g.knows c.stack
  | .pop c _ _ f => g.knows c.stack ∧ env.network.isStop c.state ∧ f ∈ g.frames c.stack
  | .follow c _ _ t => g.knows c.stack ∧ t ∈ env.network.ways c.state ∧
    (env.network.isStop c.state → env.fullContext = false ∧ [] ∈ g.stackSet c.stack)

/-- Whether no answer stops a closure at an item. -/
def Item.Passes (env : Surroundings σ) : Item → Prop
  | .follow _ _ _ t => env.Lets t
  | _ => True

/-- Whether a spot is accounted for: it was visited, or an item that waits leads to it, or it is the end
of the outermost rule and was collected, or it is the end of a rule and what lies below is accounted
for. -/
inductive Accounted (env : Surroundings σ) (p : Progress σ) (due : List Item) (alt : Nat) :
    Nat → List Nat → Prop
  | visited {v : Visit} {q : Nat} {s : List Nat} : v ∈ p.visited →
      v.Covers env p.work.graph alt ⟨q, s⟩ → Accounted env p due alt q s
  | due {i : Item} {q : Nat} {s : List Nat} : i ∈ due → i.Passes env →
      i.Covers env p.work.graph alt ⟨q, s⟩ → Accounted env p due alt q s
  | done {q : Nat} : env.fullContext → env.network.isStop q →
      p.out.Covers p.work.graph alt ⟨q, []⟩ → Accounted env p due alt q []
  | popped {q x : Nat} {s : List Nat} : env.network.isStop q → Accounted env p due alt x s →
      Accounted env p due alt q (x :: s)

/-- What a visited configuration has led to: its spots were collected if something is to be consumed
there, and wherever the machine glides from them is accounted for. -/
def Answered (env : Surroundings σ) (p : Progress σ) (due : List Item) (v : Visit) : Prop :=
  ∀ alt s, v.Covers env p.work.graph alt s →
    ((env.network.state s.state).freeOnly = false → p.out.Covers p.work.graph alt s) ∧
      ∀ t, env.network.Returning s → env.Glides s t → Accounted env p due alt t.state t.stack

/-- A closure under way whose stacks are in its graph, and that collects what it should. -/
structure Progress.Sane (env : Surroundings σ) (p : Progress σ) : Prop where
  truthful : p.work.graph.Truthful
  sits : p.out.Sits p.work.graph
  fullContext : p.out.fullContext = env.fullContext
  visited : ∀ v ∈ p.visited, p.work.graph.knows v.stack
  collects : env.fullContext → ∀ alt s, p.out.Covers p.work.graph alt s → env.Collects s

/-- What is owed was taken on, in that it is accounted for by what is done and by what was opened, unless an
answer may have stopped the closure. -/
structure Advance (env : Surroundings σ) (p : Progress σ) (passes : Prop) (owed : Nat → Spot → Prop)
    (opened : List Item) (p' : Progress σ) : Prop where
  sane : p'.Sane env
  grows : Extends p.work.graph p'.work.graph
  known : ∀ i ∈ opened, i.Known env p'.work.graph
  visited : ∀ v ∈ p.visited, v ∈ p'.visited
  out : ∀ alt s, p.out.Covers p.work.graph alt s → p'.out.Covers p'.work.graph alt s
  settled : passes → ∀ alt s, owed alt s → Accounted env p' opened alt s.state s.stack
  answered : ∀ v ∈ p'.visited, v ∉ p.visited → Answered env p' opened v
  only : env.fullContext → ∀ alt s,
    p'.out.Covers p'.work.graph alt s ∨ (∃ i ∈ opened, i.Covers env p'.work.graph alt s) →
      p.out.Covers p.work.graph alt s ∨ ∃ t, owed alt t ∧ Relation.ReflTransGen env.Drifts t s

/-- A step that visits nothing and collects nothing. -/
structure Progress.Stays (env : Surroundings σ) (p p₁ : Progress σ) : Prop where
  sane : p₁.Sane env
  grows : Extends p.work.graph p₁.work.graph
  visited : p₁.visited = p.visited
  out : p₁.out.toList = p.out.toList

namespace Progress

theorem Stays.refl (h : p.Sane env) : Stays env p p := ⟨h, Extends.refl _, rfl, rfl⟩

theorem Stays.trans {p₂ : Progress σ} (h : Stays env p p₁) (h' : Stays env p₁ p₂) : Stays env p p₂ :=
  ⟨h'.sane, h.grows.trans h'.grows, h'.visited.trans h.visited, h'.out.trans h.out⟩

theorem Sane.covers_congr {out : ConfigSet} (h : p.Sane env) (hl : out.toList = p.out.toList)
    (hf : out.fullContext = env.fullContext) {g : StackGraph} (e : Extends p.work.graph g)
    (hg : g.Truthful) {s : Spot} :
    out.Covers g alt s ↔ p.out.Covers p.work.graph alt s := by
  rw [← ConfigSet.covers_iff e h.truthful hg h.sits, ConfigSet.Covers, ConfigSet.Covers, hl, hf,
    h.fullContext]

theorem Stays.covers_iff (h : p.Sane env) (hs : Stays env p p₁) {s : Spot} :
    p₁.out.Covers p₁.work.graph alt s ↔ p.out.Covers p.work.graph alt s :=
  h.covers_congr hs.out hs.sane.fullContext hs.grows hs.sane.truthful

/-- A graph that has grown, with the same configurations. -/
theorem Sane.grown (h : p.Sane env) {work : Workspace σ} {out : ConfigSet}
    (e : Extends p.work.graph work.graph) (hg : work.graph.Truthful) (hl : out.toList = p.out.toList)
    (hf : out.fullContext = p.out.fullContext) (ho : out.Open) :
    Stays env p ⟨work, out, p.visited⟩ where
  sane :=
    { truthful := hg
      sits := ⟨ho, fun c hc => e.knows (h.sits.known c (hl ▸ hc))⟩
      fullContext := hf.trans h.fullContext
      visited := fun v hv => e.knows (h.visited v hv)
      collects := fun hfull alt s hs =>
        h.collects hfull alt s ((h.covers_congr hl (hf.trans h.fullContext) e hg).mp hs) }
  grows := e
  visited := rfl
  out := hl

end Progress

theorem visit_covers_iff {g h : StackGraph} (e : Extends g h) (hg : g.Truthful) (hh : h.Truthful)
    (hv : g.knows v.stack) {s : Spot} : v.Covers env h alt s ↔ v.Covers env g alt s := by
  have heq := e.stackSet hg.toSound hh.toSound hv
  constructor
  · exact fun ⟨h1, h2, h3, h4⟩ => ⟨h1, h2, heq ▸ h3, fun hs => ⟨(h4 hs).1, heq ▸ (h4 hs).2⟩⟩
  · exact fun ⟨h1, h2, h3, h4⟩ => ⟨h1, h2, heq ▸ h3, fun hs => ⟨(h4 hs).1, heq ▸ (h4 hs).2⟩⟩

theorem Item.Known.mono {g h : StackGraph} (e : Extends g h) (hg : g.Truthful) (hh : h.Truthful)
    {i : Item} (hi : i.Known env g) : i.Known env h := by
  cases i with
  | arrive c => exact e.knows hi
  | pop c _ _ f => exact ⟨e.knows hi.1, hi.2.1, by rw [e.frames hi.1]; exact hi.2.2⟩
  | follow c _ _ t =>
    refine ⟨e.knows hi.1, hi.2.1, fun hs => ⟨(hi.2.2 hs).1, ?_⟩⟩
    rw [e.stackSet hg.toSound hh.toSound hi.1]
    exact (hi.2.2 hs).2

theorem Item.covers_iff {g h : StackGraph} (e : Extends g h) (hg : g.Truthful) (hh : h.Truthful)
    {i : Item} (hi : i.Known env g) {s : Spot} : i.Covers env h alt s ↔ i.Covers env g alt s := by
  cases i with
  | arrive c => exact Config.Covers.iff_of_extends e hg hh hi
  | pop c _ _ f =>
    have hp := hg.toSound.knows_parent hi.1 hi.2.2
    simp only [Item.Covers, e.stackSet hg.toSound hh.toSound hp]
  | follow c _ _ t => simp only [Item.Covers, e.stackSet hg.toSound hh.toSound hi.1]

namespace Accounted

theorem mono {due due' : List Item} (hsub : ∀ i ∈ due, i ∈ due') {q : Nat} {s : List Nat}
    (h : Accounted env p due alt q s) : Accounted env p due' alt q s := by
  induction h with
  | visited hv hc => exact .visited hv hc
  | due hi hpass hc => exact .due (hsub _ hi) hpass hc
  | done hf hs ho => exact .done hf hs ho
  | popped hs _ ih => exact .popped hs ih

/-- What was accounted for still is, when an item has been visited. -/
theorem advance {item : Item} {rest opened : List Item} (hp : p.Sane env)
    (hknown : ∀ i ∈ item :: rest, i.Known env p.work.graph)
    (ha : Advance env p (item.Passes env) (fun alt s => item.Covers env p.work.graph alt s) opened p') {q : Nat}
    {s : List Nat} (h : Accounted env p (item :: rest) alt q s) :
    Accounted env p' (opened ++ rest) alt q s := by
  induction h with
  | visited hv hc =>
    exact .visited (ha.visited _ hv)
      ((visit_covers_iff ha.grows hp.truthful ha.sane.truthful (hp.visited _ hv)).mpr hc)
  | due hi hpass hc =>
    rcases List.mem_cons.mp hi with rfl | hi'
    · exact (ha.settled hpass _ _ hc).mono fun i hi => List.mem_append_left _ hi
    · exact .due (List.mem_append_right _ hi') hpass
        ((Item.covers_iff ha.grows hp.truthful ha.sane.truthful (hknown _ hi)).mpr hc)
  | done hf hs ho => exact .done hf hs (ha.out _ _ ho)
  | popped hs _ ih => exact .popped hs ih

end Accounted

/-- A step before that visits nothing and collects nothing does not matter. -/
theorem Advance.after {passes passes' : Prop} {owed owed' : Nat → Spot → Prop} {opened : List Item}
    (hp : p.Sane env) (hs : Progress.Stays env p p₁) (h : Advance env p₁ passes owed opened p')
    (hpass : passes' → passes) (hfrom : ∀ alt s, owed alt s → owed' alt s)
    (hto : ∀ alt s, owed' alt s → owed alt s) : Advance env p passes' owed' opened p' where
  sane := h.sane
  grows := hs.grows.trans h.grows
  known := h.known
  visited v hv := h.visited v (hs.visited ▸ hv)
  out alt s ho := h.out alt s ((hs.covers_iff hp).mpr ho)
  settled hfree alt s ho := h.settled (hpass hfree) alt s (hto alt s ho)
  answered v hv hn := h.answered v hv (hs.visited ▸ hn)
  only hf alt s ho := by
    rcases h.only hf alt s ho with ho | ⟨t, ht, hd⟩
    · exact .inl ((hs.covers_iff hp).mp ho)
    · exact .inr ⟨t, hfrom _ _ ht, hd⟩

/-! ## Collecting and entering -/

/-- A progress that has collected a configuration. -/
def Progress.collecting (p : Progress σ) (c : Config) : Progress σ :=
  ⟨{ p.work with graph := (p.out.insert c p.work.graph).2 }, (p.out.insert c p.work.graph).1, p.visited⟩

theorem collect_apply (c : Config) (p : Progress σ) : collect c p = (.ok (), p.collecting c) := rfl

/-- Entering a configuration that was visited before does nothing.  Otherwise it is visited, it is collected
if something can be consumed there, and its transitions are followed. -/
theorem enter_cases {depth : Int} {collecting : Bool} {opened : Option (List Item)}
    (h : enter env c depth collecting p = (.ok opened, p')) :
    p.visited.contains c.visit ∧ opened = none ∧ p' = p ∨
      opened = some ((env.network.ways c.state).map (Item.follow c depth collecting)) ∧
        ((env.network.state c.state).freeOnly ∧ p' = { p with visited := p.visited.insert c.visit } ∨
          (env.network.state c.state).freeOnly = false ∧
            p' = { p with visited := p.visited.insert c.visit }.collecting c) := by
  unfold enter at h
  rw [Run.bind_apply, markVisited_apply] at h
  cases hseen : p.visited.contains c.visit with
  | true =>
    rw [hseen] at h
    cases h
    exact .inl ⟨rfl, rfl, rfl⟩
  | false =>
    rw [hseen] at h
    refine .inr ?_
    cases hfree : (env.network.state c.state).freeOnly with
    | true =>
      simp only [Bool.false_eq_true, if_false, if_true, hfree, Bool.not_true] at h
      cases h
      exact ⟨rfl, .inl ⟨rfl, rfl⟩⟩
    | false =>
      simp only [Bool.false_eq_true, if_false, if_true, hfree, Bool.not_false] at h
      rw [Run.bind_apply, collect_apply] at h
      cases h
      exact ⟨rfl, .inr ⟨rfl, rfl⟩⟩

/-- Collecting a configuration that should be. -/
theorem gains_collecting (hp : p.Sane env) (hc : p.work.graph.knows c.stack)
    (hcollects : env.fullContext → ∀ alt s, c.Covers (!env.fullContext) p.work.graph alt s →
      env.Collects s) :
    (p.collecting c).Sane env ∧ ConfigSet.Gains p.work.graph p.out
      (c.Covers (!env.fullContext) p.work.graph) (p.collecting c).out
      (p.collecting c).work.graph := by
  have hg := ConfigSet.gains_insert hp.truthful hp.sits hc
  rw [hp.fullContext] at hg
  refine ⟨⟨hg.truthful, hg.sits, hg.fullContext.trans hp.fullContext,
    fun v hv => hg.grows.knows (hp.visited v hv), fun hf alt s hs => ?_⟩, hg⟩
  rcases hg.only (hp.fullContext.trans hf) alt s hs with hs | hs
  · exact hp.collects hf alt s hs
  · exact hcollects hf alt s hs

/-- The end of the outermost rule is collected. -/
theorem finish_advance (hp : p.Sane env) (hf : env.fullContext) (hstop : env.network.isStop c.state)
    {owed : Nat → Spot → Prop} (howed : ∀ alt s, owed alt s ↔
      c.alt = alt ∧ c.state = s.state ∧ s.stack = []) :
    Advance env p True owed [] (p.collecting (c.returnTo c.state StackRef.bottom)) := by
  have hcovers : ∀ alt s, (c.returnTo c.state StackRef.bottom).Covers (!env.fullContext)
      p.work.graph alt s ↔ owed alt s := fun alt s => by
    rw [howed]
    constructor
    · rintro ⟨ha, hs, hc⟩
      rw [hf, Bool.not_true, StackGraph.covers_false] at hc
      refine ⟨ha, hs, ?_⟩
      change s.stack ∈ p.work.graph.stackSet StackRef.bottom at hc
      rwa [hp.truthful.toSound.stackSet_bottom] at hc
    · rintro ⟨ha, hs, hnil⟩
      refine ⟨ha, hs, StackGraph.covers_of_mem ?_⟩
      change s.stack ∈ p.work.graph.stackSet StackRef.bottom
      rw [hp.truthful.toSound.stackSet_bottom, hnil]
      rfl
  obtain ⟨hsane, hg⟩ := gains_collecting hp (c := c.returnTo c.state StackRef.bottom)
    hp.truthful.toSound.knows_bottom fun _ alt s hs => by
      obtain ⟨-, hstate, hnil⟩ := (howed alt s).mp ((hcovers alt s).mp hs)
      exact ⟨fun _ => hnil, fun hn => absurd ⟨hf, hstate ▸ hstop⟩ hn⟩
  refine ⟨hsane, hg.grows, fun _ hi => absurd hi List.not_mem_nil, fun _ hv => hv,
    fun alt s ho => hg.covers alt s (.inl ho), fun _ alt s ho => ?_, fun v hv hn => absurd hv hn,
    fun _ alt s ho => ?_⟩
  · have hout := hg.covers alt s (.inr ((hcovers alt s).mpr ho))
    obtain ⟨-, hstate, hnil⟩ := (howed alt s).mp ho
    obtain ⟨q, stack⟩ := s
    obtain rfl : stack = [] := hnil
    exact .done hf (hstate ▸ hstop) hout
  · rcases ho with ho | ⟨i, hi, -⟩
    · rcases hg.only (hp.fullContext.trans hf) alt s ho with ho | ho
      · exact .inl ho
      · exact .inr ⟨s, (hcovers alt s).mp ho, .refl⟩
    · exact absurd hi List.not_mem_nil

/-- What a configuration covers is what its visit answers for, where it may be entered. -/
theorem visit_covers (hstop : env.network.isStop c.state → env.fullContext = false ∧
    [] ∈ p.work.graph.stackSet c.stack) {s : Spot} :
    c.visit.Covers env p.work.graph alt s ↔ c.Covers (!env.fullContext) p.work.graph alt s :=
  ⟨fun h => ⟨h.alt, h.state, h.stack⟩, fun h => ⟨h.alt, h.state, h.stack, fun hs => hstop (h.state ▸ hs)⟩⟩

/-- Where the machine glides from the spots of a configuration, its transitions lead. -/
theorem exists_follow (depth : Int) (collecting : Bool) {s t : Spot}
    (hstop : env.network.isStop c.state → env.fullContext = false ∧
      [] ∈ p.work.graph.stackSet c.stack)
    (hs : c.Covers (!env.fullContext) p.work.graph alt s) (hr : env.network.Returning s)
    (hd : env.Glides s t) :
    ∃ i ∈ (env.network.ways c.state).map (Item.follow c depth collecting),
      i.Passes env ∧ i.Covers env p.work.graph alt t := by
  obtain ⟨ha, hstate, r, hr', hcover⟩ := hs
  cases hd with
  | @along q stack u hq hu hdrifts hlets =>
    refine ⟨_, List.mem_map.mpr ⟨u, ?_, rfl⟩, hlets, ha, hdrifts, rfl, r, hr', ?_⟩
    · rwa [hstate]
    · cases u with
      | call => exact hcover.cons _
      | _ => exact hcover
  | @pop q f stack hq =>
    obtain ⟨hfull, hnil⟩ := hstop (hstate ▸ hq)
    refine ⟨_, List.mem_map.mpr ⟨.ret f, ?_, rfl⟩, env.lets_ret f, ha, rfl, rfl, [], hnil, ?_⟩
    · rw [hstate]
      exact hr f stack hq rfl
    · rw [hfull]
      exact .nil _

/-- With a known caller the transitions of a configuration lead where the machine drifts. -/
theorem drifts_of_follow (hf : env.fullContext) {depth : Int} {collecting : Bool} {t : Spot} {i : Item}
    (hstop : env.network.isStop c.state → env.fullContext = false ∧
      [] ∈ p.work.graph.stackSet c.stack)
    (hi : i ∈ (env.network.ways c.state).map (Item.follow c depth collecting))
    (hc : i.Covers env p.work.graph alt t) :
    ∃ s, c.Covers (!env.fullContext) p.work.graph alt s ∧ env.Drifts s t := by
  obtain ⟨u, hu, rfl⟩ := List.mem_map.mp hi
  obtain ⟨ha, hdrifts, htarget, r, hr, hstands⟩ := hc
  obtain ⟨q, stack⟩ := t
  rw [hf] at hstands
  obtain rfl : u.target = q := htarget
  obtain rfl : u.onto r = stack := hstands
  refine ⟨⟨c.state, r⟩, ⟨ha, rfl, StackGraph.covers_of_mem hr⟩, .along (fun hs => ?_) hu hdrifts⟩
  rw [(hstop hs).1] at hf
  cases hf

/-- Entering a configuration for the first time. -/
theorem entered_advance (hp : p.Sane env) (hc : p.work.graph.knows c.stack)
    (hstop : env.network.isStop c.state → env.fullContext = false ∧
      [] ∈ p.work.graph.stackSet c.stack) (depth : Int) (collecting : Bool)
    (hstays : p'.Sane env) (hgrows : Extends p.work.graph p'.work.graph)
    (hvisited : p'.visited = p.visited.insert c.visit)
    (hout : ∀ alt s, p.out.Covers p.work.graph alt s → p'.out.Covers p'.work.graph alt s)
    (hcollected : (env.network.state c.state).freeOnly = false → ∀ alt s,
      c.Covers (!env.fullContext) p.work.graph alt s → p'.out.Covers p'.work.graph alt s)
    (honly : env.fullContext → ∀ alt s, p'.out.Covers p'.work.graph alt s →
      p.out.Covers p.work.graph alt s ∨ c.Covers (!env.fullContext) p.work.graph alt s) :
    Advance env p True (c.Covers (!env.fullContext) p.work.graph)
      ((env.network.ways c.state).map (Item.follow c depth collecting)) p' := by
  have hknown : ∀ i ∈ (env.network.ways c.state).map (Item.follow c depth collecting),
      i.Known env p.work.graph := fun i hi => by
    obtain ⟨t, ht, rfl⟩ := List.mem_map.mp hi
    exact ⟨hc, ht, hstop⟩
  have hcovers : ∀ alt s, c.Covers (!env.fullContext) p.work.graph alt s ↔
      c.visit.Covers env p'.work.graph alt s := by
    intro alt s
    have hkept : c.visit.Covers env p'.work.graph alt s ↔ c.visit.Covers env p.work.graph alt s :=
      visit_covers_iff hgrows hp.truthful hstays.truthful hc
    exact (visit_covers hstop).symm.trans hkept.symm
  refine ⟨hstays, hgrows, fun i hi => (hknown i hi).mono hgrows hp.truthful hstays.truthful,
    fun v hv => ?_, hout, fun _ alt s ho => ?_, fun v hv hn => ?_, fun hf alt s ho => ?_⟩
  · rw [hvisited]
    exact Std.HashSet.mem_insert.mpr (.inr hv)
  · refine .visited (v := c.visit) ?_ ((hcovers alt s).mp ho)
    rw [hvisited]
    exact Std.HashSet.mem_insert_self
  · rw [hvisited] at hv
    obtain rfl : c.visit = v := by
      rcases Std.HashSet.mem_insert.mp hv with heq | hv
      · exact eq_of_beq heq
      · exact absurd hv hn
    intro alt s hs
    have hs' := (hcovers alt s).mpr hs
    refine ⟨fun hfree => hcollected ?_ alt s hs', fun t hr hd => ?_⟩
    · rw [hs'.state]
      exact hfree
    · obtain ⟨i, hi, hpass, hic⟩ := exists_follow depth collecting hstop hs' hr hd
      exact .due hi hpass ((Item.covers_iff hgrows hp.truthful hstays.truthful (hknown i hi)).mpr hic)
  · rcases ho with ho | ⟨i, hi, hic⟩
    · rcases honly hf alt s ho with ho | ho
      · exact .inl ho
      · exact .inr ⟨s, ho, .refl⟩
    · have hic := (Item.covers_iff hgrows hp.truthful hstays.truthful (hknown i hi)).mp hic
      obtain ⟨t, ht, hd⟩ := drifts_of_follow hf hstop hi hic
      exact .inr ⟨t, ht, .single hd⟩

theorem enter_advance (hp : p.Sane env) (hc : p.work.graph.knows c.stack)
    (hstop : env.network.isStop c.state → env.fullContext = false ∧
      [] ∈ p.work.graph.stackSet c.stack) {depth : Int} {collecting : Bool}
    {opened : Option (List Item)} (h : enter env c depth collecting p = (.ok opened, p')) :
    Advance env p True (c.Covers (!env.fullContext) p.work.graph) (opened.getD []) p' := by
  obtain ⟨hseen, rfl, rfl⟩ | ⟨rfl, hp'⟩ := enter_cases h
  · refine ⟨hp, Extends.refl _, fun _ hi => absurd hi List.not_mem_nil, fun _ hv => hv,
      fun _ _ ho => ho, fun _ alt s ho => .visited (Std.HashSet.mem_iff_contains.mpr hseen)
        ((visit_covers hstop).mpr ho), fun v hv hn => absurd hv hn, fun _ alt s ho => ?_⟩
    rcases ho with ho | ⟨i, hi, -⟩
    · exact .inl ho
    · exact absurd hi List.not_mem_nil
  · have hknown : ∀ v ∈ p.visited.insert c.visit, p.work.graph.knows v.stack := fun v hv => by
      rcases Std.HashSet.mem_insert.mp hv with heq | hv
      · obtain rfl := eq_of_beq heq
        exact hc
      · exact hp.visited v hv
    have hmarked : Progress.Sane env { p with visited := p.visited.insert c.visit } :=
      ⟨hp.truthful, hp.sits, hp.fullContext, hknown, hp.collects⟩
    obtain ⟨hfree, rfl⟩ | ⟨hfree, rfl⟩ := hp'
    · refine entered_advance hp hc hstop depth collecting hmarked (Extends.refl _) rfl
        (fun _ _ ho => ho) (fun hf => ?_) fun _ _ _ ho => .inl ho
      rw [hfree] at hf
      cases hf
    · obtain ⟨hsane, hg⟩ := gains_collecting hmarked hc fun hf alt s hs => by
        refine ⟨fun hq => ?_, fun _ => ?_⟩
        · rw [(hstop (hs.state ▸ hq)).1] at hf
          cases hf
        · rwa [← hs.state]
      exact entered_advance hp hc hstop depth collecting hsane hg.grows rfl
        (fun alt s ho => hg.covers alt s (.inl ho)) (fun _ alt s ho => hg.covers alt s (.inr ho))
        fun hf alt s ho => hg.only (hp.fullContext.trans hf) alt s ho

/-! ## Arriving and popping -/

/-- The end of a rule is unwound frame by frame. -/
theorem unwind_advance (hp : p.Sane env) (hc : p.work.graph.knows c.stack)
    (hstop : env.network.isStop c.state) (depth : Int) (collecting : Bool) :
    Advance env p True (c.Covers (!env.fullContext) p.work.graph)
      ((p.work.graph.frames c.stack).map (Item.pop c depth collecting)) p := by
  have hset := hp.truthful.toSound.stackSet_eq hc
  refine ⟨hp, Extends.refl _, fun i hi => ?_, fun _ hv => hv, fun _ _ ho => ho,
    fun _ alt s ho => ?_, fun v hv hn => absurd hv hn, fun hf alt s ho => ?_⟩
  · obtain ⟨f, hf, rfl⟩ := List.mem_map.mp hi
    exact ⟨hc, hstop, hf⟩
  · obtain ⟨ha, hs, r, hr, hstands⟩ := ho
    rw [hset] at hr
    obtain ⟨f, hf, hr⟩ := hr
    refine .due (List.mem_map_of_mem hf) trivial ⟨ha, hs, ?_⟩
    cases hret : f.returnTo with
    | none =>
      rw [hret] at hr
      exact hr ▸ hstands
    | some x =>
      rw [hret] at hr
      obtain ⟨below, hbelow, rfl⟩ := hr
      exact ⟨below, hbelow, hstands⟩
  · rcases ho with ho | ⟨i, hi, hic⟩
    · exact .inl ho
    · obtain ⟨f, hf', rfl⟩ := List.mem_map.mp hi
      obtain ⟨ha, hs, hframe⟩ := hic
      refine .inr ⟨s, ⟨ha, hs, ?_⟩, .refl⟩
      rw [hset]
      cases hret : f.returnTo with
      | none =>
        rw [hret] at hframe
        exact ⟨[], StackGraph.nil_mem_stacksOver.mpr ⟨f, hf', hret⟩, hframe⟩
      | some x =>
        rw [hret] at hframe
        obtain ⟨r, hr, hstands⟩ := hframe
        exact ⟨x :: r, StackGraph.cons_mem_stacksOver.mpr ⟨f, hf', hret, hr⟩, hstands⟩

theorem arrive_advance (hp : p.Sane env) (hc : p.work.graph.knows c.stack) {depth : Int}
    {collecting : Bool} {opened : Option (List Item)}
    (h : arrive env c depth collecting p = (.ok opened, p')) :
    Advance env p True (c.Covers (!env.fullContext) p.work.graph) (opened.getD []) p' := by
  unfold arrive at h
  by_cases hstop : env.network.isStop c.state
  · by_cases hbottom : c.stack.isBottom
    · have hstack := StackGraph.isBottom_iff.mp hbottom
      have hset : p.work.graph.stackSet c.stack = {[]} := by
        rw [hstack]
        exact hp.truthful.toSound.stackSet_bottom
      cases hf : env.fullContext with
      | true =>
        simp only [hstop, hbottom, hf, Bool.not_true, Bool.and_false, Bool.false_eq_true, if_false,
          Bool.and_true, if_true] at h
        rw [Run.bind_apply, collect_apply] at h
        cases h
        -- At the bottom already, the configuration is what it would be returned to.
        have heq : c = c.returnTo c.state StackRef.bottom := by
          rw [← hstack]
          rfl
        rw [heq, ← hf]
        refine finish_advance hp hf hstop fun alt s => ?_
        rw [← heq]
        constructor
        · rintro ⟨ha, hs, hcover⟩
          rw [hf, Bool.not_true, StackGraph.covers_false, hset] at hcover
          exact ⟨ha, hs, hcover⟩
        · rintro ⟨ha, hs, hnil⟩
          exact ⟨ha, hs, StackGraph.covers_of_mem (by rw [hset, hnil]; rfl)⟩
      | false =>
        simp only [hstop, hbottom, hf, Bool.not_true, Bool.and_false, Bool.false_eq_true,
          if_false] at h
        have := enter_advance hp hc (fun _ => ⟨hf, by rw [hset]; rfl⟩) h
        rwa [hf] at this
    · simp only [hstop, hbottom, Bool.not_false, Bool.and_true, if_true] at h
      cases h
      exact unwind_advance hp hc hstop depth collecting
  · simp only [hstop, Bool.false_and, Bool.false_eq_true, if_false] at h
    exact enter_advance hp hc (fun hs => absurd hs hstop) h

theorem pop_advance (hp : p.Sane env) {depth : Int} {collecting : Bool} {f : Frame}
    (hk : (Item.pop c depth collecting f).Known env p.work.graph) {opened : Option (List Item)}
    (h : pop env c depth collecting f p = (.ok opened, p')) :
    Advance env p True (fun alt s => (Item.pop c depth collecting f).Covers env p.work.graph alt s)
      (opened.getD []) p' := by
  obtain ⟨hc, hstop, hf⟩ := hk
  unfold pop at h
  -- A frame that returns nowhere is the end of the stack; any other is popped.
  cases hret : f.returnTo with
  | none =>
    have hnil : [] ∈ p.work.graph.stackSet c.stack := by
      rw [hp.truthful.toSound.stackSet_eq hc]
      exact StackGraph.nil_mem_stacksOver.mpr ⟨f, hf, hret⟩
    simp only [hret] at h
    cases hfull : env.fullContext with
    | true =>
      rw [hfull, if_pos rfl, Run.bind_apply, collect_apply] at h
      cases h
      refine finish_advance hp hfull hstop fun alt s => ?_
      simp only [Item.Covers, hret, hfull]
      exact and_congr_right fun _ => and_congr_right fun _ => eq_comm
    | false =>
      rw [hfull, if_neg Bool.false_ne_true] at h
      refine (enter_advance hp hc (fun _ => ⟨hfull, hnil⟩) h).after hp (.refl hp) id ?_ ?_
      · intro alt s ho
        simp only [Item.Covers, hret, hfull]
        exact ⟨ho.alt, ho.state, .nil _⟩
      · intro alt s ho
        simp only [Item.Covers, hret] at ho
        exact ⟨ho.1, ho.2.1, [], hnil, ho.2.2⟩
  | some x =>
    simp only [hret] at h
    have hparent := hp.truthful.toSound.knows_parent hc hf
    have ha := arrive_advance hp (c := c.returnTo x f.parent) hparent h
    refine { ha with settled := fun hfree alt s ho => ?_, only := fun hfull alt s ho => ?_ }
    · simp only [Item.Covers, hret] at ho
      obtain ⟨halt, hstate, r, hr, hstands⟩ := ho
      obtain ⟨q, stack⟩ := s
      obtain ⟨below, rfl, hbelow⟩ := hstands.exists_of_cons
      exact .popped (hstate ▸ hstop) (ha.settled hfree alt ⟨x, below⟩ ⟨halt, rfl, r, hr, hbelow⟩)
    · rcases ha.only hfull alt s ho with ho | ⟨t, ⟨halt, hstate, hcover⟩, hd⟩
      · exact .inl ho
      · obtain ⟨q, stack⟩ := t
        obtain rfl : x = q := hstate
        rw [hfull, Bool.not_true, StackGraph.covers_false] at hcover
        refine .inr ⟨⟨c.state, x :: stack⟩, ?_, .head (.pop hstop) hd⟩
        simp only [Item.Covers, hret]
        exact ⟨halt, trivial, stack, hcover, .refl _ _⟩

/-! ## Following transitions -/

/-- Where a transition leads from a configuration: it only pushes what a call does. -/
structure Leads (p p₁ : Progress σ) (c : Config) (t : Transition) (d : Config) : Prop where
  alt : d.alt = c.alt
  state : d.state = t.target
  known : p₁.work.graph.knows d.stack
  stackSet : p₁.work.graph.stackSet d.stack = t.onto '' p.work.graph.stackSet c.stack

/-- Where a transition heads.  If no answer stops a closure there, it heads somewhere whenever the machine
may drift along it. -/
inductive Heads (env : Surroundings σ) (p p₁ : Progress σ) (c : Config) (t : Transition) :
    Option Config → Prop
  | nowhere : (env.Lets t → t.drifts env.endIsFree = false) → Heads env p p₁ c t none
  | somewhere {d : Config} : t.drifts env.endIsFree → Leads p p₁ c t d → Heads env p p₁ c t (some d)

theorem leads_moveTo (hp : p.Sane env) (hs : Progress.Stays env p p₁)
    (hc : p.work.graph.knows c.stack) {t : Transition} (honto : ∀ r, t.onto r = r) {d : Config}
    (halt : d.alt = c.alt) (hstate : d.state = t.target) (hstack : d.stack = c.stack) :
    Leads p p₁ c t d where
  alt := halt
  state := hstate
  known := hstack ▸ hs.grows.knows hc
  stackSet := by
    rw [hstack, hs.grows.stackSet hp.truthful.toSound hs.sane.truthful.toSound hc,
      show t.onto = id from funext honto, Set.image_id]

theorem push_stays (hp : p.Sane env) (hc : p.work.graph.knows c.stack) (target rule : Nat) (level : Int)
    (follow : Nat) {r : StackRef} (h : push c.stack follow p = (.ok r, p₁)) :
    Progress.Stays env p p₁ ∧
      Leads p p₁ c (.call target rule level follow) (c.returnTo target r) := by
  have hkeeps := hp.truthful.push hc (some follow)
  have hset := hp.truthful.toSound.stackSet_push hc follow
  cases h
  exact ⟨hp.grown hkeeps.grows hkeeps.truthful rfl rfl hp.sits.isOpen, rfl, rfl, hkeeps.known, hset⟩

theorem passGuard_stays (hp : p.Sane env) (hc : p.work.graph.knows c.stack) {g : Guard}
    {collecting : Bool} {t : Transition} (hguard : t.guard? = some g)
    (hdrifts : t.drifts env.endIsFree) (honto : ∀ r, t.onto r = r) {o : Option Config}
    (h : passGuard env c t.target g collecting p = (.ok o, p₁)) :
    Progress.Stays env p p₁ ∧ Heads env p p₁ c t o := by
  have hmoved : ∀ {u : Progress σ}, Progress.Stays env p u →
      Heads env p u c t (some (c.moveTo t.target)) := fun hs =>
    .somewhere hdrifts (leads_moveTo hp hs hc honto rfl rfl rfl)
  have hguarded : ∀ d : Config, d.alt = c.alt → d.state = t.target → d.stack = c.stack →
      Heads env p p c t (some d) := fun d h1 h2 h3 =>
    .somewhere hdrifts (leads_moveTo hp (.refl hp) hc honto h1 h2 h3)
  -- The guard is passed, or noted, or in full context asked, and then it may block the way.
  unfold passGuard at h
  split at h
  · cases h
    exact ⟨.refl hp, hmoved (.refl hp)⟩
  · split at h
    · cases h
      exact ⟨.refl hp, hguarded _ rfl rfl rfl⟩
    · next hfull =>
      cases hask : env.ask with
      | none =>
        rw [hask] at h
        cases h
        exact ⟨.refl hp, hmoved (.refl hp)⟩
      | some ask =>
        rw [hask] at h
        obtain ⟨holds, u, hu, h⟩ := Run.exists_of_bind h
        have hstays : Progress.Stays env p u := by
          cases hu
          exact hp.grown (Extends.refl _) hp.truthful rfl rfl hp.sits.isOpen
        have hholds : (ask g p.work.author).1 = holds := by
          cases hu
          rfl
        cases holds with
        | true =>
          cases h
          exact ⟨hstays, hmoved hstays⟩
        | false =>
          cases h
          refine ⟨hstays, .nowhere fun hlets => ?_⟩
          rw [hlets (by simpa using hfull) ask hask g hguard] at hholds
          cases hholds

theorem target?_stays (hp : p.Sane env) (hc : p.work.graph.knows c.stack) {inRule collecting : Bool}
    {t : Transition} {o : Option Config}
    (h : target? env c inRule collecting t p = (.ok o, p₁)) :
    Progress.Stays env p p₁ ∧ Heads env p p₁ c t o := by
  have hmoved : ∀ {b : Bool}, t.drifts env.endIsFree = b → (∀ r, t.onto r = r) →
      (if b then pure (some (c.moveTo t.target)) else pure none : Run (Progress σ) _) p =
        (.ok o, p₁) → Progress.Stays env p p₁ ∧ Heads env p p₁ c t o := by
    intro b hb honto hrun
    cases b with
    | true =>
      cases hrun
      exact ⟨.refl hp, .somewhere hb (leads_moveTo hp (.refl hp) hc honto rfl rfl rfl)⟩
    | false =>
      cases hrun
      exact ⟨.refl hp, .nowhere fun _ => hb⟩
  unfold target? at h
  cases t with
  | call target rule level follow =>
    obtain ⟨r, u, hu, h⟩ := Run.exists_of_bind h
    cases h
    obtain ⟨hstays, hleads⟩ := push_stays hp hc target rule level follow hu
    exact ⟨hstays, .somewhere rfl hleads⟩
  | precedence | predicate => exact passGuard_stays hp hc rfl rfl (fun _ => rfl) h
  | action | epsilon | ret => exact hmoved (b := true) rfl (fun _ => rfl) h
  | symbol | range | set => exact hmoved rfl (fun _ => rfl) h
  | notSet | wildcard =>
    refine hmoved (b := false) ?_ (fun _ => rfl) h
    simp [Transition.drifts, Transition.isFree, Transition.consumes, endOfInput]

theorem noteDip_stays (hp : p.Sane env) {u : PUnit} (h : noteDip p = (.ok u, p₁)) :
    Progress.Stays env p p₁ := by
  cases h
  exact hp.grown (Extends.refl _) hp.truthful rfl rfl { hp.sits.isOpen with }

/-- Arriving where a transition leads is following it. -/
theorem arrived_advance {q : Progress σ} (hp : p.Sane env) (hs : Progress.Stays env p q)
    {depth depth' : Int} {collecting collecting' : Bool} {t : Transition} {d : Config}
    (hdrifts : t.drifts env.endIsFree) (hleads : Leads p q c t d) {opened : Option (List Item)}
    (h : arrive env d depth' collecting' q = (.ok opened, p')) :
    Advance env p (env.Lets t) (fun alt s => (Item.follow c depth collecting t).Covers env p.work.graph alt s)
      (opened.getD []) p' := by
  have hcovers : ∀ alt s, d.Covers (!env.fullContext) q.work.graph alt s ↔
      (Item.follow c depth collecting t).Covers env p.work.graph alt s := fun alt s => by
    constructor
    · rintro ⟨ha, hstate, r, hr, hstands⟩
      rw [hleads.stackSet] at hr
      obtain ⟨r, hr, rfl⟩ := hr
      exact ⟨hleads.alt.symm.trans ha, hdrifts, hleads.state.symm.trans hstate, r, hr, hstands⟩
    · rintro ⟨ha, -, hstate, r, hr, hstands⟩
      exact ⟨hleads.alt.trans ha, hleads.state.trans hstate, t.onto r,
        hleads.stackSet ▸ ⟨r, hr, rfl⟩, hstands⟩
  exact (arrive_advance hs.sane hleads.known h).after hp hs (fun _ => trivial)
    (fun alt s => (hcovers alt s).mp) fun alt s => (hcovers alt s).mpr

theorem follow_advance (hp : p.Sane env) {depth : Int} {collecting : Bool} {t : Transition}
    (hk : (Item.follow c depth collecting t).Known env p.work.graph) {opened : Option (List Item)}
    (h : follow env c depth collecting t p = (.ok opened, p')) :
    Advance env p (env.Lets t) (fun alt s => (Item.follow c depth collecting t).Covers env p.work.graph alt s)
      (opened.getD []) p' := by
  obtain ⟨hc, -⟩ := hk
  unfold follow at h
  obtain ⟨o, p₁, htarget, h⟩ := Run.exists_of_bind h
  obtain ⟨hstays, hheads⟩ := target?_stays hp hc htarget
  cases hheads with
  | nowhere hno =>
    cases h
    refine ⟨hstays.sane, hstays.grows, fun _ hi => absurd hi List.not_mem_nil,
      fun v hv => hstays.visited ▸ hv, fun alt s ho => (hstays.covers_iff hp).mpr ho,
      fun hun alt s ho => ?_, fun v hv hn => absurd (hstays.visited ▸ hv) hn, fun _ alt s ho => ?_⟩
    · exact absurd ((hno hun).symm.trans ho.2.1) Bool.false_ne_true
    · rcases ho with ho | ⟨i, hi, -⟩
      · exact .inl ((hstays.covers_iff hp).mp ho)
      · exact absurd hi List.not_mem_nil
  | @somewhere d hdrifts hleads =>
    dsimp only at h
    split at h
    · obtain ⟨_, p₂, hdip, h⟩ := Run.exists_of_bind h
      have hnote := noteDip_stays hstays.sane hdip
      refine arrived_advance hp (hstays.trans hnote) hdrifts ?_ h
      have hset := hnote.grows.stackSet hstays.sane.truthful.toSound hnote.sane.truthful.toSound
        hleads.known
      exact ⟨hleads.alt, hleads.state, hnote.grows.knows hleads.known, hset.trans hleads.stackSet⟩
    · split at h
      · exact arrived_advance hp hstays hdrifts hleads h
      · exact arrived_advance hp hstays hdrifts hleads h

/-! ## Walks -/

/-- A visit takes on what its item owes. -/
theorem visit_advance (hp : p.Sane env) {item : Item} (hk : item.Known env p.work.graph)
    {opened : Option (List Item)} (h : visit env item p = (.ok opened, p')) :
    Advance env p (item.Passes env) (fun alt s => item.Covers env p.work.graph alt s) (opened.getD []) p' := by
  cases item with
  | arrive c depth collecting => exact arrive_advance hp hk h
  | pop c depth collecting f => exact pop_advance hp hk h
  | follow c depth collecting t => exact follow_advance hp hk h

/-- What holds between the visits of a closure that began with some spots: what is visited is answered
for, what it began with is accounted for, and with a known caller nothing is collected or waits that
the machine does not drift to from there. -/
structure Account (env : Surroundings σ) (start : Nat → Spot → Prop) (due : List Item)
    (p : Progress σ) : Prop where
  sane : p.Sane env
  known : ∀ i ∈ due, i.Known env p.work.graph
  answered : ∀ v ∈ p.visited, Answered env p due v
  settled : ∀ alt s, start alt s → Accounted env p due alt s.state s.stack
  only : env.fullContext → ∀ alt s,
    p.out.Covers p.work.graph alt s ∨ (∃ i ∈ due, i.Covers env p.work.graph alt s) →
      ∃ t, start alt t ∧ Relation.ReflTransGen env.Drifts t s

namespace Account
variable {start : Nat → Spot → Prop} {due : List Item}

/-- One visit. -/
theorem step {item : Item} {rest : List Item} {opened : Option (List Item)}
    (h : Account env start (item :: rest) p) (hrun : visit env item p = (.ok opened, p')) :
    Account env start (opened.getD [] ++ rest) p' := by
  have hitem := h.known item List.mem_cons_self
  have ha := visit_advance h.sane hitem hrun
  have hrest : ∀ i ∈ rest, i.Known env p.work.graph := fun i hi =>
    h.known i (List.mem_cons_of_mem _ hi)
  refine ⟨ha.sane, fun i hi => ?_, fun v hv alt s hs => ?_, fun alt s hs => ?_,
    fun hf alt s hs => ?_⟩
  · rcases List.mem_append.mp hi with hi | hi
    · exact ha.known i hi
    · exact (hrest i hi).mono ha.grows h.sane.truthful ha.sane.truthful
  · by_cases hold : v ∈ p.visited
    · have hs' := (visit_covers_iff ha.grows h.sane.truthful ha.sane.truthful
        (h.sane.visited v hold)).mp hs
      obtain ⟨hcollected, hdrifts⟩ := h.answered v hold alt s hs'
      exact ⟨fun hfree => ha.out alt s (hcollected hfree),
        fun t hr hd => (hdrifts t hr hd).advance h.sane h.known ha⟩
    · obtain ⟨hcollected, hdrifts⟩ := ha.answered v hv hold alt s hs
      exact ⟨hcollected, fun t hr hd => (hdrifts t hr hd).mono fun i hi => List.mem_append_left _ hi⟩
  · exact (h.settled alt s hs).advance h.sane h.known ha
  · have hnew : ∀ {t}, p'.out.Covers p'.work.graph alt t ∨
        (∃ i ∈ opened.getD [], i.Covers env p'.work.graph alt t) →
          ∃ u, start alt u ∧ Relation.ReflTransGen env.Drifts u t := fun ht => by
      rcases ha.only hf alt _ ht with ht | ⟨u, hu, hd⟩
      · exact h.only hf alt _ (.inl ht)
      · obtain ⟨u', hu', hd'⟩ := h.only hf alt u (.inr ⟨item, List.mem_cons_self, hu⟩)
        exact ⟨u', hu', hd'.trans hd⟩
    rcases hs with hs | ⟨i, hi, hic⟩
    · exact hnew (.inl hs)
    · rcases List.mem_append.mp hi with hi | hi
      · exact hnew (.inr ⟨i, hi, hic⟩)
      · exact h.only hf alt s (.inr ⟨i, List.mem_cons_of_mem _ hi,
          (Item.covers_iff ha.grows h.sane.truthful ha.sane.truthful (hrest i hi)).mp hic⟩)

/-- One more configuration is to be closed. -/
theorem begin (h : Account env start [] p) (hc : p.work.graph.knows c.stack) (depth : Int)
    (collecting : Bool) :
    Account env (fun alt s => start alt s ∨ c.Covers (!env.fullContext) p.work.graph alt s)
      [.arrive c depth collecting] p where
  sane := h.sane
  known i hi := List.mem_singleton.mp hi ▸ hc
  answered v hv alt s hs := by
    obtain ⟨hcollected, hdrifts⟩ := h.answered v hv alt s hs
    exact ⟨hcollected, fun t hr hd => (hdrifts t hr hd).mono fun i hi => absurd hi List.not_mem_nil⟩
  settled alt s hs := by
    rcases hs with hs | hs
    · exact (h.settled alt s hs).mono fun i hi => absurd hi List.not_mem_nil
    · exact .due (List.mem_singleton_self _) trivial hs
  only hf alt s hs := by
    rcases hs with hs | ⟨i, hi, hic⟩
    · obtain ⟨t, ht, hd⟩ := h.only hf alt s (.inl hs)
      exact ⟨t, .inl ht, hd⟩
    · obtain rfl := List.mem_singleton.mp hi
      exact ⟨s, .inr hic, .refl⟩

/-- Counting a closure changes nothing. -/
theorem counted (h : Account env start due p) (closures : Nat) :
    Account env start due { p with work := { p.work with closures } } := by
  have hcongr : ∀ {alt q s}, Accounted env p due alt q s →
      Accounted env { p with work := { p.work with closures } } due alt q s := fun ha => by
    induction ha with
    | visited hv hc => exact .visited hv hc
    | due hi hpass hc => exact .due hi hpass hc
    | done hf hs ho => exact .done hf hs ho
    | popped hs _ ih => exact .popped hs ih
  refine ⟨{ h.sane with }, h.known, fun v hv alt s hs => ?_,
    fun alt s hs => hcongr (h.settled alt s hs), h.only⟩
  obtain ⟨hcollected, hdrifts⟩ := h.answered v hv alt s hs
  exact ⟨hcollected, fun t hr hd => hcongr (hdrifts t hr hd)⟩

/-- Closing a configuration. -/
theorem close (h : Account env start [] p) (hc : p.work.graph.knows c.stack) {collecting : Bool}
    {u : Unit} (hrun : close env collecting c p = (.ok u, p')) :
    Extends p.work.graph p'.work.graph ∧
      Account env (fun alt s => start alt s ∨ c.Covers (!env.fullContext) p.work.graph alt s) [] p' := by
  unfold Closure.close at hrun
  rw [Run.bind_apply, Run.modify_apply] at hrun
  have hbegin := (h.begin hc 0 collecting).counted (p.work.closures + 1)
  refine DepthFirst.run_keeps hrun (fun due q => Extends p.work.graph q.work.graph ∧
    Account env (fun alt s => start alt s ∨ c.Covers (!env.fullContext) p.work.graph alt s) due q)
    ⟨Extends.refl _, hbegin⟩ fun item rest q opened r ⟨he, ha⟩ hv => ⟨?_, ha.step hv⟩
  exact he.trans (visit_advance ha.sane (ha.known item List.mem_cons_self) hv).grows

/-- Closing configurations one after another. -/
theorem forM_close {cs : List Config} (h : Account env start [] p)
    (hcs : ∀ c ∈ cs, p.work.graph.knows c.stack) {collecting : Bool} {u : PUnit}
    (hrun : cs.forM (Closure.close env collecting) p = (.ok u, p')) :
    Extends p.work.graph p'.work.graph ∧ Account env
      (fun alt s => start alt s ∨ Config.AnyCovers (!env.fullContext) p.work.graph cs alt s) [] p' := by
  induction cs generalizing start p with
  | nil =>
    cases hrun
    refine ⟨Extends.refl _, ?_⟩
    simpa [Config.AnyCovers] using h
  | cons c cs ih =>
    rw [List.forall_mem_cons] at hcs
    change (Closure.close env collecting c >>= fun _ => cs.forM (Closure.close env collecting)) p = _
      at hrun
    obtain ⟨_, p₁, hfirst, hrest⟩ := Run.exists_of_bind hrun
    obtain ⟨he, ha⟩ := h.close hcs.1 hfirst
    obtain ⟨he', ha'⟩ := ih ha (fun d hd => he.knows (hcs.2 d hd)) hrest
    refine ⟨he.trans he', ?_⟩
    have hiff : ∀ alt s, (start alt s ∨ c.Covers (!env.fullContext) p.work.graph alt s) ∨
        Config.AnyCovers (!env.fullContext) p₁.work.graph cs alt s ↔
          start alt s ∨ Config.AnyCovers (!env.fullContext) p.work.graph (c :: cs) alt s := by
      intro alt s
      rw [Config.anyCovers_iff he h.sane.truthful ha.sane.truthful hcs.2, or_assoc]
      simp [Config.AnyCovers]
    rwa [show (fun alt s => (start alt s ∨ c.Covers (!env.fullContext) p.work.graph alt s) ∨
        Config.AnyCovers (!env.fullContext) p₁.work.graph cs alt s) = fun alt s => start alt s ∨
          Config.AnyCovers (!env.fullContext) p.work.graph (c :: cs) alt s from
      funext fun alt => funext fun s => propext (hiff alt s)] at ha'

/-- In the end everything that the machine glides to is accounted for ... -/
theorem accounted (h : Account env start [] p) {s t : Spot} (hs : start alt s)
    (hr : env.fullContext = false → ∀ u, Relation.ReflTransGen env.Glides s u → env.network.Returning u)
    (hd : Relation.ReflTransGen env.Glides s t) : Accounted env p [] alt t.state t.stack := by
  induction hd with
  | refl => exact h.settled alt s hs
  | @tail t u ht htu ih =>
    obtain ⟨q, stack⟩ := t
    dsimp only at ih
    cases ih with
    | visited hv hc =>
      exact (h.answered _ hv alt _ hc).2 u (hc.returning fun hf => hr hf _ ht) htu
    | due hi => exact absurd hi List.not_mem_nil
    | done _ hstop _ =>
      cases htu with
      | along hq => exact absurd hstop hq
    | popped hstop hbelow =>
      cases htu with
      | along hq => exact absurd hstop hq
      | pop _ => exact hbelow

/-- ... and so what should be collected was. -/
theorem collected (h : Account env start [] p) {t : Spot}
    (ha : Accounted env p [] alt t.state t.stack) (hc : env.Collects t) :
    p.out.Covers p.work.graph alt t := by
  obtain ⟨q, stack⟩ := t
  dsimp only at ha
  cases ha with
  | visited hv hcover =>
    refine (h.answered _ hv alt _ hcover).1 (hc.consuming fun hfs => ?_)
    have := (hcover.stop hfs.2).1
    rw [hfs.1] at this
    cases this
  | due hi => exact absurd hi List.not_mem_nil
  | done _ _ ho => exact ho
  | popped hstop _ => exact absurd (hc.stop hstop) (List.cons_ne_nil _ _)

end Account

/-- What closing configurations comes to. -/
structure Closed (env : Surroundings σ) (g : StackGraph) (cs : List Config) (out : ConfigSet)
    (g' : StackGraph) : Prop where
  truthful : g'.Truthful
  grows : Extends g g'
  sits : out.Sits g'
  fullContext : out.fullContext = env.fullContext
  complete : ∀ alt s t, Config.AnyCovers (!env.fullContext) g cs alt s →
    (env.fullContext = false → ∀ u, Relation.ReflTransGen env.Glides s u → env.network.Returning u) →
      Relation.ReflTransGen env.Glides s t → env.Collects t → out.Covers g' alt t
  sound : env.fullContext → ∀ alt t, out.Covers g' alt t → env.Collects t ∧
    ∃ s, Config.AnyCovers (!env.fullContext) g cs alt s ∧ Relation.ReflTransGen env.Drifts s t

/-- If no guard can stop it, a closure collects what the machine drifts to. -/
theorem Closed.complete_of_unguarded {g g' : StackGraph} {cs : List Config} {out : ConfigSet}
    (h : Closed env g cs out g') (hun : env.Unguarded) {s t : Spot}
    (hs : Config.AnyCovers (!env.fullContext) g cs alt s)
    (hr : ∀ u, Relation.ReflTransGen env.Drifts s u → env.network.Returning u)
    (hd : Relation.ReflTransGen env.Drifts s t) (hc : env.Collects t) : out.Covers g' alt t :=
  h.complete alt s t hs
    (fun _ u hu => hr u (Relation.ReflTransGen.mono (fun _ _ (hg : env.Glides _ _) => hg.drifts) s u hu))
    (Relation.ReflTransGen.mono (fun _ _ (hg : env.Drifts _ _) => hun.glides hg) s t hd) hc

/-- Over a known caller no return transition is needed for that: the stacks say where to go on. -/
theorem Closed.complete_of_known {g g' : StackGraph} {cs : List Config} {out : ConfigSet}
    (h : Closed env g cs out g') (hf : env.fullContext = true) (hun : env.Unguarded) {s t : Spot}
    (hs : Config.AnyCovers (!env.fullContext) g cs alt s)
    (hd : Relation.ReflTransGen env.Drifts s t) (hc : env.Collects t) : out.Covers g' alt t := by
  refine h.complete alt s t hs (fun hn => ?_)
    (Relation.ReflTransGen.mono (fun _ _ (hg : env.Drifts _ _) => hun.glides hg) s t hd) hc
  rw [hf] at hn
  cases hn

/-- A closure that does not fail closes one configuration after another, beginning with nothing. -/
theorem exists_of_closeAll {w w' : Workspace σ} {cs : List Config} {collecting : Bool} {out : ConfigSet}
    (h : closeAll env collecting cs w = (.ok out, w')) :
    ∃ u p, cs.forM (close env collecting) ⟨w, ConfigSet.empty env.fullContext, ∅⟩ = (.ok u, p) ∧
      p.out = out ∧ p.work = w' := by
  unfold closeAll at h
  rcases hrun : cs.forM (close env collecting) ⟨w, ConfigSet.empty env.fullContext, ∅⟩ with ⟨e | u, p⟩
  · simp only [hrun] at h
    cases h
  · simp only [hrun] at h
    cases h
    exact ⟨u, p, rfl, rfl, rfl⟩

/-- A closure collects everything that it should, and with a known caller nothing else. -/
theorem closeAll_spots {w w' : Workspace σ} (hw : w.graph.Truthful) {cs : List Config}
    (hcs : ∀ c ∈ cs, w.graph.knows c.stack) {collecting : Bool} {out : ConfigSet}
    (h : closeAll env collecting cs w = (.ok out, w')) : Closed env w.graph cs out w'.graph := by
  have hbegin : Account env (fun _ _ => False) [] ⟨w, ConfigSet.empty env.fullContext, ∅⟩ := by
    refine ⟨⟨hw, ConfigSet.sits_empty _ _, rfl, ?_, ?_⟩, ?_, ?_, ?_, ?_⟩
    · exact fun v hv => absurd hv Std.HashSet.not_mem_empty
    · exact fun _ alt s hs => absurd hs ConfigSet.not_covers_empty
    · exact fun i hi => absurd hi List.not_mem_nil
    · exact fun v hv => absurd hv Std.HashSet.not_mem_empty
    · exact fun _ _ hs => hs.elim
    · rintro - alt s (hs | ⟨i, hi, -⟩)
      · exact absurd hs ConfigSet.not_covers_empty
      · exact absurd hi List.not_mem_nil
  obtain ⟨u, p, hrun, rfl, rfl⟩ := exists_of_closeAll h
  obtain ⟨he, ha⟩ := hbegin.forM_close hcs hrun
  refine ⟨ha.sane.truthful, he, ha.sane.sits, ha.sane.fullContext, fun alt s t hs hr hd hc => ?_,
    fun hf alt t ht => ⟨ha.sane.collects hf alt t ht, ?_⟩⟩
  · exact ha.collected (ha.accounted (.inr hs) hr hd) hc
  · obtain ⟨s, hs, hd⟩ := ha.only hf alt t (.inl ht)
    exact ⟨s, hs.resolve_left id, hd⟩

end Closure
end AdaptiveLL

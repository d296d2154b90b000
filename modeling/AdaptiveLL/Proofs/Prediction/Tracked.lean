import Mathlib
import AdaptiveLL.Proofs.Prediction.Entries
import AdaptiveLL.Proofs.Prediction.Plain

/-! # Keeping track of a closure

Without the caller's stack a closure may collect more than the machine reaches, because the empty stack
stands for every stack.  What it collects then can be said of its course: where a configuration is, under
which guard and over which stacks it got there, how deep below the rule where the closure began it is, and
whether guards are still collected (`Standing`).

`Closure.Tracks` says that a property of this lasts from one transition to the next and from the end of a rule
to what lies on its stacks.  If configurations that agree in all but their stacks agree in these as well, no
two of them are ever merged into another one, and the property holds of everything that is collected
(`Closure.closeAll_tracked`).
-/
namespace AdaptiveLL
open StackGraph (Extends)

/-- Where a configuration stands in the course of a closure. -/
structure Standing where
  /-- The state. -/
  state : Nat
  /-- The alternative. -/
  alt : Nat
  /-- The guard collected. -/
  guard : Guard
  /-- The call stacks. -/
  stack : Set (List Nat)
  /-- How deep it is below the rule that the closure began in, negative past it. -/
  depth : Int
  /-- Whether guards are collected. -/
  collecting : Bool

/-- Where a configuration stands. -/
def Config.standing (g : StackGraph) (c : Config) (depth : Int) (collecting : Bool) : Standing :=
  ⟨c.state, c.alt, c.guard, g.stackSet c.stack, depth, collecting⟩

namespace Standing
variable (n : Network) (x : Standing)

/-- The guard collected behind a transition. -/
def guardBehind : Transition → Guard
  | .precedence _ level =>
    if x.collecting && x.depth = 0 then x.guard.both (.precedence level) else x.guard
  | .predicate _ rule index contextual =>
    if x.collecting && (!contextual || x.depth = 0) then x.guard.both (.predicate rule index contextual)
    else x.guard
  | _ => x.guard

/-- How deep a configuration is behind a transition. -/
def depthBehind (t : Transition) : Int :=
  if n.isStop x.state then x.depth - 1
  else if Closure.isCall t && decide (0 ≤ x.depth) then x.depth + 1 else x.depth

/-- Where a configuration stands behind a transition. -/
def behind (t : Transition) : Standing where
  state := t.target
  alt := x.alt
  guard := x.guardBehind t
  stack := t.onto '' x.stack
  depth := x.depthBehind n t
  collecting := x.collecting && !Closure.isAction t

/-- Where a configuration stands that has returned to a state on top of its stacks. -/
def popped (q : Nat) : Standing :=
  { x with state := q, stack := StackGraph.below x.stack q, depth := x.depth - 1 }

/-- Whether configurations that agree in all but their stacks agree in these as well. -/
def Alone (good : Standing → Prop) : Prop :=
  ∀ x y, good x → good y → x.state = y.state → x.alt = y.alt → x.guard = y.guard → x.stack = y.stack

/-- Where a configuration with a property is collected. -/
def Kept (good : Standing → Prop) : Prop := good x ∧ (n.state x.state).freeOnly = false

end Standing

/-- A property of configurations in the course of a closure without the caller's stack that lasts, and by
which those agree in their stacks that agree otherwise. -/
structure Closure.Tracks {σ : Type} (env : Surroundings σ) (good : Standing → Prop) : Prop where
  noContext : env.fullContext = false
  alone : Standing.Alone good
  pop : ∀ {x : Standing}, good x → env.network.isStop x.state → ∀ {q s}, q :: s ∈ x.stack → good (x.popped q)
  follow : ∀ {x : Standing}, good x → (env.network.isStop x.state → [] ∈ x.stack) →
    ∀ {t}, t ∈ env.network.ways x.state → t.drifts env.endIsFree → good (x.behind env.network t)

/-- Over the empty stack alone nothing returns, so only what transitions lead to has to last. -/
theorem Closure.Tracks.of_bottom {σ : Type} {env : Surroundings σ} {good : Standing → Prop}
    (hfull : env.fullContext = false) (hbottom : ∀ {x}, good x → x.stack = {[]})
    (hfollow : ∀ {x}, good x → ∀ {t}, t ∈ env.network.ways x.state → t.drifts env.endIsFree →
      good (x.behind env.network t)) : Closure.Tracks env good where
  noContext := hfull
  alone _ _ hx hy _ _ _ := (hbottom hx).trans (hbottom hy).symm
  pop hx _ _ _ hm := by
    rw [hbottom hx] at hm
    cases hm
  follow hx _ _ ht hdrifts := hfollow hx ht hdrifts

variable {good : Standing → Prop} {n : Network} {g h : StackGraph} {c : Config} {depth : Int} {collecting : Bool}

theorem Config.standing_of_extends (e : Extends g h) (hg : g.Truthful) (hh : h.Truthful)
    (hc : g.knows c.stack) : c.standing h depth collecting = c.standing g depth collecting := by
  rw [standing, standing, e.stackSet hg.toSound hh.toSound hc]

namespace ConfigSet
variable {s : ConfigSet}

/-- A set of configurations with a property, whose entries differ from each other, and which records that
there is a guard if there is one. -/
structure Tracked (good : Standing → Prop) (g : StackGraph) (s : ConfigSet) : Prop where
  standing : ∀ c ∈ s.toList, ∃ depth collecting, good (c.standing g depth collecting)
  guarded : ∀ c ∈ s.toList, c.isGuarded → s.hasGuards
  apart : s.keys.Nodup

namespace Tracked

theorem empty (fullContext : Bool) : (ConfigSet.empty fullContext).Tracked good g :=
  ⟨fun _ hc => absurd hc List.not_mem_nil, fun _ hc => absurd hc List.not_mem_nil, List.nodup_nil⟩

theorem mono (ht : s.Tracked good g) (e : Extends g h) (hg : g.Truthful) (hh : h.Truthful)
    (hs : s.Sits g) : s.Tracked good h :=
  { ht with
    standing := fun c hc => by
      obtain ⟨depth, collecting, hgood⟩ := ht.standing c hc
      exact ⟨depth, collecting, by rwa [Config.standing_of_extends e hg hh (hs.known c hc)]⟩ }

/-- Adding a configuration with the property. -/
theorem insert (ht : s.Tracked good g) (halone : Standing.Alone good) (hg : g.Truthful) (hs : s.Sits g)
    (hc : g.knows c.stack) (hgood : good (c.standing g depth collecting)) :
    (s.insert c g).1.Tracked good (s.insert c g).2 := by
  have hgains := gains_insert hg hs hc
  have hguards := hasGuards_insert s c g
  have hkept : ∀ {e : Config} {k b}, g.knows e.stack → good (e.standing g k b) →
      good (e.standing (s.insert c g).2 k b) := fun he hgood => by
    rwa [Config.standing_of_extends hgains.grows hg hgains.truthful he]
  refine ⟨fun d hd => ?_, fun d hd hguarded => ?_, nodup_keys_insert hs.isOpen ht.apart c g⟩
  · rcases mem_insert hs.isOpen hd with hold | ⟨rfl, -⟩ | ⟨old, hold, hkey, rfl, hgraph⟩
    · obtain ⟨k, b, he⟩ := ht.standing d hold
      exact ⟨k, b, hkept (hs.known d hold) he⟩
    · exact ⟨depth, collecting, hkept hc hgood⟩
    · -- what is merged has the same stacks, so nothing changes
      obtain ⟨k, b, he⟩ := ht.standing old hold
      obtain ⟨hstate, halt, hguard⟩ : old.state = c.state ∧ old.alt = c.alt ∧ old.guard = c.guard := by
        simpa [Config.key] using hkey
      have hsame : g.stackSet old.stack = g.stackSet c.stack := halone _ _ he hgood hstate halt hguard
      have hmerge := hg.merge (hs.known old hold) hc (!s.fullContext)
      have hset : (g.merge old.stack c.stack (!s.fullContext)).2.stackSet
          (g.merge old.stack c.stack (!s.fullContext)).1 = g.stackSet old.stack := by
        rw [hmerge.joined, ← hsame, StackGraph.joined_self]
      refine ⟨k, b, ?_⟩
      rw [hgraph]
      unfold Config.standing merged
      dsimp only
      rwa [hset]
  · obtain ⟨e, he, -, -, hguard⟩ := exists_of_mem_insert hd
    rw [hguards, Bool.or_eq_true]
    rcases he with he | rfl
    · exact .inl (ht.guarded e he (by rwa [Config.isGuarded, hguard]))
    · exact .inr (by rwa [Config.isGuarded, hguard])

/-- Adding configurations with the property. -/
theorem insertAll (ht : s.Tracked good g) (halone : Standing.Alone good) (hg : g.Truthful) (hs : s.Sits g)
    {cs : List Config} (hcs : ∀ c ∈ cs, g.knows c.stack ∧ ∃ depth collecting, good (c.standing g depth collecting)) :
    (s.insertAll cs g).1.Tracked good (s.insertAll cs g).2 := by
  induction cs generalizing s g with
  | nil => exact ht
  | cons c cs ih =>
    obtain ⟨⟨hc, depth, collecting, hgood⟩, hrest⟩ := List.forall_mem_cons.mp hcs
    have hgains := gains_insert hg hs hc
    refine ih (s := (s.insert c g).1) (g := (s.insert c g).2) (ht.insert halone hg hs hc hgood)
      hgains.truthful hgains.sits fun d hd => ?_
    obtain ⟨hk, depth, collecting, hgood⟩ := hrest d hd
    exact ⟨hgains.grows.knows hk, depth, collecting, by
      rwa [Config.standing_of_extends hgains.grows hg hgains.truthful hk]⟩

end Tracked

/-- The keys of a set to which configurations were added. -/
theorem mem_keys_insertAll (hs : s.Open) {cs : List Config} {k : Nat × Nat × Guard} :
    k ∈ (s.insertAll cs g).1.keys ↔ k ∈ s.keys ∨ ∃ c ∈ cs, c.key = k := by
  induction cs generalizing s g with
  | nil => simp [insertAll]
  | cons c cs ih =>
    have hinsert : k ∈ (s.insert c g).1.keys ↔ k ∈ s.keys ∨ c.key = k := by
      rw [keys_insert hs]
      split
      · next hmem => exact ⟨.inl, fun h => h.elim id fun h => h ▸ hmem⟩
      · rw [List.mem_append, List.mem_singleton, eq_comm]
    have hrest : k ∈ (s.insertAll (c :: cs) g).1.keys ↔
        k ∈ (s.insert c g).1.keys ∨ ∃ d ∈ cs, d.key = k := ih (hs.insert c g)
    rw [hrest, hinsert, or_assoc]
    simp

end ConfigSet

namespace Closure
variable {σ : Type} {env : Surroundings σ} {p p' p₁ : Progress σ}

/-- Whether the configuration of an item has a property. -/
def Item.Stands (good : Standing → Prop) (g : StackGraph) : Item → Prop
  | .arrive c depth collecting | .pop c depth collecting _ | .follow c depth collecting _ =>
    good (c.standing g depth collecting)

theorem Item.Stands.mono {i : Item} (hi : i.Stands good g) (e : Extends g h) (hg : g.Truthful)
    (hh : h.Truthful) (hk : i.Known env g) : i.Stands good h := by
  cases i with
  | arrive c => exact (congrArg good (Config.standing_of_extends e hg hh hk)).mpr hi
  | pop c => exact (congrArg good (Config.standing_of_extends e hg hh hk.1)).mpr hi
  | follow c => exact (congrArg good (Config.standing_of_extends e hg hh hk.1)).mpr hi

/-- A step keeps to a property: everything that was collected has it, and everything that was opened. -/
structure Keeping (env : Surroundings σ) (good : Standing → Prop) (opened : Option (List Item))
    (p' : Progress σ) : Prop where
  tracked : p'.out.Tracked (Standing.Kept env.network · good) p'.work.graph
  stands : ∀ i ∈ opened.getD [], i.Stands good p'.work.graph

theorem Keeping.done (hout : p'.out.Tracked (Standing.Kept env.network · good) p'.work.graph) :
    Keeping env good none p' :=
  ⟨hout, fun _ hi => absurd hi List.not_mem_nil⟩

variable (ht : Tracks env good)
include ht

theorem enter_tracks (hp : p.Sane env) (hout : p.out.Tracked (Standing.Kept env.network · good) p.work.graph)
    (hc : p.work.graph.knows c.stack) (hgood : good (c.standing p.work.graph depth collecting))
    {opened : Option (List Item)} (h : enter env c depth collecting p = (.ok opened, p')) :
    Keeping env good opened p' := by
  have hitems : ∀ {k : StackGraph}, good (c.standing k depth collecting) →
      ∀ i ∈ (some ((env.network.ways c.state).map (Item.follow c depth collecting))).getD [],
        i.Stands good k := by
    intro k hk i hi
    obtain ⟨t, -, rfl⟩ := List.mem_map.mp hi
    exact hk
  obtain ⟨-, rfl, rfl⟩ | ⟨rfl, ⟨-, rfl⟩ | ⟨hfree, rfl⟩⟩ := enter_cases h
  · exact .done hout
  · exact ⟨hout, hitems hgood⟩
  · have hgains := ConfigSet.gains_insert hp.truthful hp.sits hc
    have hkept : c.standing _ depth collecting = c.standing _ depth collecting :=
      Config.standing_of_extends hgains.grows hp.truthful hgains.truthful hc
    have halone : Standing.Alone (Standing.Kept env.network · good) := fun x y hx hy =>
      ht.alone x y hx.1 hy.1
    exact ⟨hout.insert halone hp.truthful hp.sits hc ⟨hgood, hfree⟩, hitems (hkept ▸ hgood)⟩

theorem arrive_tracks (hp : p.Sane env) (hout : p.out.Tracked (Standing.Kept env.network · good) p.work.graph)
    (hc : p.work.graph.knows c.stack) (hgood : good (c.standing p.work.graph depth collecting))
    {opened : Option (List Item)} (h : arrive env c depth collecting p = (.ok opened, p')) :
    Keeping env good opened p' := by
  unfold arrive at h
  rw [ht.noContext, Bool.and_false, if_neg Bool.false_ne_true] at h
  split at h
  · cases h
    refine ⟨hout, fun i hi => ?_⟩
    obtain ⟨f, -, rfl⟩ := List.mem_map.mp hi
    exact hgood
  · exact enter_tracks ht hp hout hc hgood h

theorem pop_tracks (hp : p.Sane env) (hout : p.out.Tracked (Standing.Kept env.network · good) p.work.graph)
    {f : Frame}
    (hk : (Item.pop c depth collecting f).Known env p.work.graph)
    (hgood : good (c.standing p.work.graph depth collecting)) {opened : Option (List Item)}
    (h : pop env c depth collecting f p = (.ok opened, p')) : Keeping env good opened p' := by
  obtain ⟨hc, hstop, hf⟩ := hk
  have hsound := hp.truthful.toSound
  unfold pop at h
  cases hret : f.returnTo with
  | none =>
    rw [hret] at h
    dsimp only at h
    rw [ht.noContext, if_neg Bool.false_ne_true] at h
    exact enter_tracks ht hp hout hc hgood h
  | some q =>
    rw [hret] at h
    have hparent := hsound.knows_parent hc hf
    obtain ⟨s, hs⟩ := hsound.stackSet_nonempty hparent
    have hbelow : p.work.graph.stackSet f.parent = StackGraph.below (p.work.graph.stackSet c.stack) q :=
      Set.ext fun s => hsound.mem_parent_iff hc hf hret s
    have hpopped := ht.pop hgood hstop ((hsound.mem_parent_iff hc hf hret s).mp hs)
    have hstanding : (c.returnTo q f.parent).standing p.work.graph (depth - 1) collecting =
        (c.standing p.work.graph depth collecting).popped q := by
      rw [Config.standing, Standing.popped]
      exact congrArg (fun A => Standing.mk q c.alt c.guard A (depth - 1) collecting) hbelow
    exact arrive_tracks ht hp hout hparent (hstanding ▸ hpopped) h

/-- The guard of where a transition leads.  Nothing is collected on the way. -/
theorem guard_of_target? {t : Transition} {o : Option Config}
    (h : target? env c (depth = 0) (collecting && !isAction t) t p = (.ok o, p₁)) :
    p₁.out = p.out ∧ ∀ d ∈ o, d.guard = (c.standing p.work.graph depth collecting).guardBehind t := by
  have hsome : ∀ {d : Config} {u : Guard}, d.guard = u → ∀ e ∈ some d, e.guard = u := by
    rintro d u hd e he
    cases he
    exact hd
  -- Without full context a guard is noted where guards are collected, and passed elsewhere.
  have hpass : ∀ {target : Nat} {u : Guard} {collects : Bool},
      passGuard env c target u collects p = (.ok o, p₁) →
        p₁.out = p.out ∧ ∀ d ∈ o, d.guard = if collects then c.guard.both u else c.guard := by
    intro target u collects h
    unfold passGuard at h
    rw [ht.noContext, Bool.not_false, if_pos rfl] at h
    cases collects <;>
    · cases h
      exact ⟨rfl, hsome rfl⟩
  have hmoved : ∀ {b : Bool} {target : Nat},
      (if b then pure (some (c.moveTo target)) else pure none : Run (Progress σ) _) p = (.ok o, p₁) →
        p₁.out = p.out ∧ ∀ d ∈ o, d.guard = c.guard := by
    intro b target h
    cases b with
    | true =>
      cases h
      exact ⟨rfl, hsome rfl⟩
    | false =>
      cases h
      exact ⟨rfl, fun _ hd => nomatch hd⟩
  unfold target? at h
  cases t with
  | call target rule level follow =>
    cases h
    exact ⟨rfl, hsome rfl⟩
  | precedence | predicate =>
    simp only [isAction, Bool.not_false, Bool.and_true] at h
    exact hpass h
  | action | epsilon | ret =>
    cases h
    exact ⟨rfl, hsome rfl⟩
  | symbol | range | set => exact hmoved h
  | notSet | wildcard =>
    cases h
    exact ⟨rfl, fun _ hd => nomatch hd⟩

theorem follow_tracks (hp : p.Sane env) (hout : p.out.Tracked (Standing.Kept env.network · good) p.work.graph)
    {t : Transition}
    (hk : (Item.follow c depth collecting t).Known env p.work.graph)
    (hgood : good (c.standing p.work.graph depth collecting)) {opened : Option (List Item)}
    (h : follow env c depth collecting t p = (.ok opened, p')) : Keeping env good opened p' := by
  obtain ⟨hc, hmem, hstop⟩ := hk
  unfold follow at h
  obtain ⟨o, p₁, htarget, h⟩ := Run.exists_of_bind h
  obtain ⟨hstays, hheads⟩ := target?_stays hp hc htarget
  obtain ⟨hsame, hguard⟩ := guard_of_target? ht htarget
  have hkept : ∀ {q : Progress σ}, Progress.Stays env p q → q.out.hasGuards = p.out.hasGuards →
      q.out.Tracked (Standing.Kept env.network · good) q.work.graph := by
    intro q hq hguards
    have hmono := hout.mono hq.grows hp.truthful hq.sane.truthful hp.sits
    have hlist := hq.out
    exact ⟨fun d hd => hmono.standing d (hlist ▸ hd),
      fun d hd hg => hguards ▸ hmono.guarded d (hlist ▸ hd) hg, by
        rw [ConfigSet.keys, hlist]
        exact hmono.apart⟩
  cases hheads with
  | nowhere =>
    cases h
    exact .done (hkept hstays (congrArg ConfigSet.hasGuards hsame))
  | @somewhere d hdrifts hleads =>
    have hbehind := ht.follow hgood (fun hs => (hstop hs).2) hmem hdrifts
    -- arriving there is arriving behind the transition, however far the graph has grown
    have harrived : ∀ {q : Progress σ} {e : Config} {k : Int}, Progress.Stays env p₁ q →
        q.out.hasGuards = p₁.out.hasGuards → e.state = d.state → e.alt = d.alt → e.guard = d.guard →
        e.stack = d.stack → k = (c.standing p.work.graph depth collecting).depthBehind env.network t →
        arrive env e k (collecting && !isAction t) q = (.ok opened, p') → Keeping env good opened p' := by
      rintro q e _ hq hguards hstate halt hguard' hstack rfl h
      have hknown : q.work.graph.knows e.stack := hstack ▸ hq.grows.knows hleads.known
      refine arrive_tracks ht hq.sane
        (hkept (hstays.trans hq) (hguards.trans (congrArg ConfigSet.hasGuards hsame))) hknown ?_ h
      have hset : q.work.graph.stackSet e.stack = t.onto '' p.work.graph.stackSet c.stack := by
        rw [hstack, hq.grows.stackSet hstays.sane.truthful.toSound hq.sane.truthful.toSound hleads.known,
          hleads.stackSet]
      rw [Config.standing, hstate, halt, hguard', hset, hleads.state, hleads.alt, hguard d rfl]
      exact hbehind
    dsimp only at h
    split at h
    · next hs =>
      obtain ⟨_, p₂, hdip, h⟩ := Run.exists_of_bind h
      have hnote := noteDip_stays hstays.sane hdip
      refine harrived (e := { d with outerReach := d.outerReach + 1 }) hnote ?_ rfl rfl rfl rfl ?_ h
      · cases hdip
        rfl
      · exact (if_pos hs).symm
    · next hs =>
      split at h
      · next hcall =>
        exact harrived (.refl hstays.sane) rfl rfl rfl rfl rfl ((if_neg hs).trans (if_pos hcall)).symm h
      · next hcall =>
        exact harrived (.refl hstays.sane) rfl rfl rfl rfl rfl ((if_neg hs).trans (if_neg hcall)).symm h

theorem visit_tracks (hp : p.Sane env) (hout : p.out.Tracked (Standing.Kept env.network · good) p.work.graph)
    {item : Item}
    (hk : item.Known env p.work.graph) (hi : item.Stands good p.work.graph) {opened : Option (List Item)}
    (h : visit env item p = (.ok opened, p')) : Keeping env good opened p' := by
  cases item with
  | arrive c depth collecting => exact arrive_tracks ht hp hout hk hi h
  | pop c depth collecting f => exact pop_tracks ht hp hout hk hi h
  | follow c depth collecting t => exact follow_tracks ht hp hout hk hi h

/-- Closing a configuration. -/
theorem close_tracks (hp : p.Sane env) (hout : p.out.Tracked (Standing.Kept env.network · good) p.work.graph)
    (hc : p.work.graph.knows c.stack) (hgood : good (c.standing p.work.graph 0 collecting)) {u : Unit}
    (h : close env collecting c p = (.ok u, p')) :
    Extends p.work.graph p'.work.graph ∧ p'.Sane env ∧
      p'.out.Tracked (Standing.Kept env.network · good) p'.work.graph := by
  unfold Closure.close at h
  rw [Run.bind_apply, Run.modify_apply] at h
  have hend := DepthFirst.run_keeps h (fun items q => Extends p.work.graph q.work.graph ∧ q.Sane env ∧
    q.out.Tracked (Standing.Kept env.network · good) q.work.graph ∧
      ∀ i ∈ items, i.Known env q.work.graph ∧ i.Stands good q.work.graph)
    ⟨Extends.refl _, { hp with }, hout, ?_⟩ ?_
  · exact ⟨hend.1, hend.2.1, hend.2.2.1⟩
  · intro i hi
    obtain rfl : i = .arrive c 0 collecting := by simpa using hi
    exact ⟨hc, hgood⟩
  · rintro item rest q opened r ⟨he, hq, hq', hitems⟩ hv
    obtain ⟨⟨hk, hi⟩, hrest⟩ := List.forall_mem_cons.mp hitems
    have ha := visit_advance hq hk hv
    have hkeeping := visit_tracks ht hq hq' hk hi hv
    refine ⟨he.trans ha.grows, ha.sane, hkeeping.tracked, fun i hi => ?_⟩
    rcases List.mem_append.mp hi with hi | hi
    · exact ⟨ha.known i hi, hkeeping.stands i hi⟩
    · obtain ⟨hk, hs⟩ := hrest i hi
      exact ⟨hk.mono ha.grows hq.truthful ha.sane.truthful, hs.mono ha.grows hq.truthful ha.sane.truthful hk⟩

/-- Everything that is collected has a property that lasts, if everything that is closed has it. -/
theorem closeAll_tracked {w w' : Workspace σ} (hw : w.graph.Truthful) {cs : List Config}
    (hcs : ∀ c ∈ cs, w.graph.knows c.stack ∧ good (c.standing w.graph 0 collecting)) {out : ConfigSet}
    (h : closeAll env collecting cs w = (.ok out, w')) : out.Tracked (Standing.Kept env.network · good) w'.graph := by
  have hforM : ∀ {cs : List Config} {p p' : Progress σ} {u : PUnit}, p.Sane env →
      p.out.Tracked (Standing.Kept env.network · good) p.work.graph →
      (∀ c ∈ cs, p.work.graph.knows c.stack ∧ good (c.standing p.work.graph 0 collecting)) →
      cs.forM (close env collecting) p = (.ok u, p') →
        p'.out.Tracked (Standing.Kept env.network · good) p'.work.graph := by
    intro cs
    induction cs with
    | nil =>
      intro p p' u _ hout _ h
      cases h
      exact hout
    | cons c cs ih =>
      intro p p' u hp hout hcs h
      rw [List.forall_mem_cons] at hcs
      change (close env collecting c >>= fun _ => cs.forM (close env collecting)) p = _ at h
      obtain ⟨_, p₁, hfirst, hrest⟩ := Run.exists_of_bind h
      obtain ⟨he, hp₁, hout₁⟩ := close_tracks ht hp hout hcs.1.1 hcs.1.2 hfirst
      refine ih hp₁ hout₁ (fun d hd => ?_) hrest
      obtain ⟨hk, hgood⟩ := hcs.2 d hd
      exact ⟨he.knows hk, by rwa [Config.standing_of_extends he hp.truthful hp₁.truthful hk]⟩
  have hbegin : Progress.Sane env ⟨w, ConfigSet.empty env.fullContext, ∅⟩ := by
    refine ⟨hw, ConfigSet.sits_empty _ _, rfl, ?_, ?_⟩
    · exact fun v hv => absurd hv Std.HashSet.not_mem_empty
    · exact fun _ alt s hs => absurd hs ConfigSet.not_covers_empty
  obtain ⟨u, p, hrun, rfl, rfl⟩ := exists_of_closeAll h
  exact hforM hbegin (.empty _) hcs hrun

end Closure
end AdaptiveLL

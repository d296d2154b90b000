import Mathlib
import AdaptiveLL.Proofs.DepthFirst
import AdaptiveLL.Proofs.Lexing.Thread
import AdaptiveLL.Proofs.Network.Link

/-! # Closures stay within the network

In a linked network every transition, every call and every mode leads to a state (`Network.Closed`).  So the
configurations that a lexer's closure collects are at states of the network, and the stacks that it makes
return to such states, whatever the author's predicates answer.  A closure fails only because it is too
deep.
-/
namespace AdaptiveLL

/-! ## Networks that are closed -/

namespace Network
variable {n n' : Network}

/-- Whatever leads on in a network leads to one of its states. -/
structure Closed (n : Network) : Prop where
  transitions : ∀ ⦃q : Nat⦄ ⦃s : State⦄, n.states[q]? = some s →
    ∀ t ∈ s.transitions, t.Within n.states.size
  modeStarts : ∀ ⦃mode start : Nat⦄, n.modeStarts[mode]? = some start → start < n.states.size

theorem lt_of_kindFault?_eq_none {id : Nat} {kind : StateKind} {entry : String}
    (h : n.kindFault? id kind entry = none) : id < n.states.size := by
  rw [kindFault?] at h
  cases hs : n.states[id]? with
  | none => simp [hs] at h
  | some s => exact (Array.getElem?_eq_some_iff.mp hs).1

/-- Linking looks at every transition and at every mode of a lexer. -/
theorem closed_of_link (h : n.link = .ok n') (hkind : n'.kind = .lexer) : n'.Closed := by
  have htransitions : ∀ ⦃q : Nat⦄ ⦃s : State⦄, n'.states[q]? = some s →
      ∀ t ∈ s.transitions, t.Within n'.states.size := fun q s hs t ht => within_of_link h hs ht
  obtain ⟨hfault, rfl⟩ := link_cases h
  generalize n.withoutReturns = m at *
  obtain ⟨-, -, -, -, -, hlexer⟩ := fault?_eq_none_iff.mp hfault
  have hsize : m.withReturns.states.size = m.states.size := by
    rw [withReturns]
    exact Array.size_map
  refine ⟨htransitions, ?_⟩
  intro mode start hmode
  rw [hsize]
  have hkind : m.kind = .lexer := hkind
  rw [lexerFault?, if_neg (by simp [hkind])] at hlexer
  by_cases htypes : m.tokenTypes.size ≠ m.ruleStarts.size
  · simp [htypes] at hlexer
  · rw [if_neg htypes] at hlexer
    have hmem : start ∈ m.modeStarts.toList := by
      rw [← Array.getElem?_toList] at hmode
      exact List.mem_of_getElem? hmode
    exact lt_of_kindFault?_eq_none (List.findSome?_eq_none_iff.mp hlexer start hmem)

end Network

/-! ## Configurations within a network -/

/-- Every frame of a graph returns to one of the first states. -/
def StackGraph.Within (bound : Nat) (g : StackGraph) : Prop :=
  ∀ fs ∈ g.nodes, ∀ f ∈ fs, ∀ x, f.returnTo = some x → x < bound

/-- An ordered set that can be added to, with configurations at the first states. -/
structure ConfigSet.Within (bound : Nat) (s : ConfigSet) : Prop where
  ordered : s.ordered = true
  unsealed : s.sealed = 0
  states : ∀ c ∈ s.toList, c.state < bound

namespace StackGraph
variable {bound : Nat} {g : StackGraph}

theorem within_empty (bound : Nat) : empty.Within bound := by
  intro fs hfs f hf x hx
  obtain rfl : fs = [Frame.root] := by simpa [empty] using hfs
  obtain rfl := List.mem_singleton.mp hf
  cases hx

theorem Within.frames (hg : g.Within bound) {r : StackRef} {f : Frame} (hf : f ∈ g.frames r) {x : Nat}
    (hx : f.returnTo = some x) : x < bound := by
  rw [StackGraph.frames] at hf
  cases hr : g.nodes[r.index]? with
  | some fs =>
    rw [hr, Option.getD_some] at hf
    exact hg fs (Array.mem_of_getElem? hr) f hf x hx
  | none =>
    rw [hr, Option.getD_none] at hf
    obtain rfl := List.mem_singleton.mp hf
    cases hx

theorem Within.push (hg : g.Within bound) (below : StackRef) {x : Nat} (hx : x < bound) :
    (g.push below (some x)).2.Within bound := by
  unfold StackGraph.push intern
  cases hi : g.index[[(⟨some x, below⟩ : Frame)]]? with
  | some r => simpa [hi] using hg
  | none =>
    intro fs hfs f hf y hy
    simp only [Array.mem_push] at hfs
    rcases hfs with hfs | rfl
    · exact hg fs hfs f hf y hy
    · obtain rfl := List.mem_singleton.mp hf
      cases hy
      exact hx

end StackGraph

namespace ConfigSet
variable {bound : Nat} {s : ConfigSet}

theorem within_emptyOrdered (bound : Nat) : emptyOrdered.Within bound :=
  ⟨rfl, rfl, fun c hc => by simp [emptyOrdered, toList] at hc⟩

/-- Adding to an ordered set leaves the graph alone. -/
theorem Within.insert (hs : s.Within bound) {c : Config} (hc : c.state < bound) (g : StackGraph) :
    (s.insert c g).1.Within bound ∧ (s.insert c g).2 = g := by
  rw [insert_of_ordered hs.ordered hs.unsealed]
  by_cases hany : s.toList.any c.same
  · rw [if_pos hany]
    exact ⟨⟨hs.ordered, hs.unsealed, hs.states⟩, rfl⟩
  · rw [if_neg hany]
    refine ⟨⟨hs.ordered, hs.unsealed, ?_⟩, rfl⟩
    intro d hd
    have hd : d ∈ s.toList ∨ d = c := by simpa [toList] using hd
    rcases hd with hd | rfl
    · exact hs.states d hd
    · exact hc

end ConfigSet

/-! ## Closures -/

namespace Outlook
variable {σ : Type} {n : Network} {bound : Nat} {env : Outlook σ}

/-- The stacks and the configurations collected lie within the first states. -/
structure Progress.Within (bound : Nat) (p : Progress σ) : Prop where
  graph : p.work.graph.Within bound
  out : p.out.Within bound

/-- An item leads to one of the first states. -/
def Item.Within (bound : Nat) : Item → Prop
  | .arrive c => c.state < bound
  | .pop c f => c.state < bound ∧ ∀ x, f.returnTo = some x → x < bound
  | .follow c t => c.state < bound ∧ t.Within bound

/-- The only error of a closure. -/
def TooDeep (env : Outlook σ) (e : RecognitionError) : Prop :=
  e = .closureDepthExceeded (env.maxDepth + 1) env.maxDepth

/-- A closure stays within the first states and fails only because it is too deep. -/
abbrev Stays (env : Outlook σ) (bound : Nat) {α : Type} (m : Run (Progress σ) α)
    (good : α → Prop) : Prop :=
  Run.Meets (Progress.Within bound) m (fun a p => p.Within bound ∧ good a)
    (fun e p => p.Within bound ∧ env.TooDeep e)

theorem Stays.bind {α β : Type} {m : Run (Progress σ) α} {k : α → Run (Progress σ) β}
    {good : α → Prop} {good' : β → Prop} (hm : env.Stays bound m good)
    (hk : ∀ a, good a → env.Stays bound (k a) good') : env.Stays bound (m >>= k) good' :=
  Run.Meets.bind hm fun a p h => hk a h.2 p h.1

theorem Stays.pure {α : Type} {a : α} {good : α → Prop} (h : good a) :
    env.Stays bound (Pure.pure a) good := fun _ hp => ⟨hp, h⟩

theorem lookUp_stays {id : Nat} (h : id < n.states.size) :
    env.Stays bound (lookUp n id) fun s => n.states[id]? = some s := by
  intro p hp
  have hs : n.states[id]? = some n.states[id] := Array.getElem?_eq_getElem h
  rw [lookUp, Network.state?, hs]
  exact ⟨hp, rfl⟩

theorem collect_stays {c : Config} (hc : c.state < bound) :
    env.Stays bound (collect c) fun _ => True := by
  rintro ⟨⟨graph, author, closures⟩, out, visited, finished⟩ hp
  obtain ⟨hout, hgraph⟩ := hp.out.insert hc graph
  refine ⟨⟨?_, hout⟩, trivial⟩
  change (out.insert c graph).2.Within bound
  rw [hgraph]
  exact hp.graph

theorem finish_stays {c : Config} (hc : c.state < bound) :
    env.Stays bound (finish c) fun _ => True :=
  (collect_stays hc).bind fun _ _ => fun _ hp => ⟨⟨hp.graph, hp.out⟩, trivial⟩

theorem push_stays (below : StackRef) {x : Nat} (hx : x < bound) :
    env.Stays bound (push below x) fun _ => True := fun _ hp =>
  ⟨⟨hp.graph.push below hx, hp.out⟩, trivial⟩

theorem markVisited_stays (c : Config) : env.Stays bound (markVisited c) fun _ => True := by
  rintro ⟨work, out, visited, finished⟩ hp
  unfold markVisited
  rw [Run.modifyGet_apply]
  refine ⟨?_, trivial⟩
  dsimp only
  by_cases hc : visited.contains c.identity
  · rw [if_pos hc]
    exact hp
  · rw [if_neg hc]
    exact ⟨hp.graph, hp.out⟩

theorem get_stays : env.Stays bound (MonadState.get : Run (Progress σ) (Progress σ))
    fun p => p.Within bound := fun _ hp => ⟨hp, hp⟩

theorem decidePredicate_stays (rule index : Nat) :
    env.Stays bound (decidePredicate env rule index) fun _ => True := fun _ hp =>
  ⟨⟨hp.graph, ⟨hp.out.ordered, hp.out.unsealed, hp.out.states⟩⟩, trivial⟩

theorem moveTo_stays {c : Config} {target : Nat} (h : target < n.states.size) :
    env.Stays bound (moveTo n c target) fun d => d.state = target :=
  (lookUp_stays h).bind fun _ _ => .pure rfl

/-- Reaching a configuration.  Its frames return within the graph, and its transitions lead within the
network. -/
theorem arrive_stays (hn : env.network.Closed) {c : Config} (hc : c.state < env.network.states.size) :
    env.Stays env.network.states.size (arrive env c)
      fun o => ∀ i ∈ o.getD [], i.Within env.network.states.size := by
  unfold arrive
  refine (lookUp_stays hc).bind fun s hs => ?_
  by_cases hstop : s.isStop
  · rw [if_pos hstop]
    by_cases hbottom : c.stack.isBottom
    · rw [if_pos hbottom]
      exact (finish_stays hc).bind fun _ _ => .pure (by simp)
    · rw [if_neg hbottom]
      -- The frames are popped whether or not the empty stack is among those below.
      have hpops : env.Stays env.network.states.size (do
          let p ← MonadState.get
          pure (some ((p.work.graph.frames c.stack).map (Item.pop c))))
          fun o => ∀ i ∈ o.getD [], i.Within env.network.states.size := by
        refine get_stays.bind fun p hp => .pure ?_
        intro i hi
        obtain ⟨f, hf, rfl⟩ := List.mem_map.mp hi
        exact ⟨hc, fun x hx => hp.graph.frames hf hx⟩
      refine get_stays.bind fun p _ => ?_
      dsimp only
      by_cases hempty : p.work.graph.hasEmptyStack c.stack
      · rw [if_pos hempty]
        exact Stays.bind (finish_stays (c := c.returnTo c.state StackRef.bottom) hc) fun _ _ => hpops
      · rw [if_neg hempty]
        exact hpops
  · rw [if_neg hstop]
    refine (markVisited_stays c).bind fun fresh _ => ?_
    have hfollows : env.Stays env.network.states.size
        (pure (some (s.transitions.map (Item.follow c))))
        fun o => ∀ i ∈ o.getD [], i.Within env.network.states.size := by
      refine .pure ?_
      intro i hi
      obtain ⟨t, ht, rfl⟩ := List.mem_map.mp hi
      exact ⟨hc, hn.transitions hs t ht⟩
    by_cases hfresh : fresh = true
    · rw [if_pos hfresh]
      refine get_stays.bind fun p _ => ?_
      dsimp only
      by_cases hwanted : (!s.freeOnly && (!p.finished || !c.passedLazy)) = true
      · rw [if_pos hwanted]
        exact (collect_stays hc).bind fun _ _ => hfollows
      · rw [if_neg hwanted]
        exact hfollows
    · rw [if_neg hfresh]
      exact .pure (by simp)

/-- Following a transition without consuming a character. -/
theorem target?_stays (c : Config) {t : Transition}
    (ht : t.Within env.network.states.size) :
    env.Stays env.network.states.size (target? env c t)
      fun o => ∀ d, o = some d → d.state < env.network.states.size := by
  have hmove : ∀ target, target < env.network.states.size →
      env.Stays env.network.states.size (some <$> moveTo env.network c target)
        fun o => ∀ d, o = some d → d.state < env.network.states.size := by
    intro target htarget
    refine (moveTo_stays htarget).bind fun d hd => .pure ?_
    intro d' hd'
    cases hd'
    rw [hd]
    exact htarget
  have hnone : env.Stays env.network.states.size (pure none)
      fun o : Option Config => ∀ d, o = some d → d.state < env.network.states.size :=
    .pure fun _ h => nomatch h
  cases t with
  | call target rule level follow =>
    refine (push_stays c.stack (ht.2 target rule level follow rfl)).bind fun stack _ => ?_
    refine (moveTo_stays ht.1).bind fun d hd => .pure ?_
    intro d' hd'
    cases hd'
    change d.state < _
    rw [hd]
    exact ht.1
  | predicate target rule index contextual =>
    refine (decidePredicate_stays rule index).bind fun holds _ => ?_
    by_cases hholds : holds = true
    · rw [if_pos hholds]
      exact hmove target ht.1
    · rw [if_neg hholds]
      exact hnone
  | action target rule index contextual =>
    refine (moveTo_stays ht.1).bind fun d hd => get_stays.bind fun p _ => .pure ?_
    intro d' hd'
    cases hd'
    change d.state < _
    rw [hd]
    exact ht.1
  | epsilon target | ret target => exact hmove target ht.1
  | symbol target label | range target lo hi | set target set =>
    exact Run.Meets.ite (fun _ => hmove target ht.1) fun _ => hnone
  | precedence | notSet | wildcard => exact hnone

theorem visit_stays (hn : env.network.Closed) {i : Item} (hi : i.Within env.network.states.size) :
    env.Stays env.network.states.size (visit env i)
      fun o => ∀ j ∈ o.getD [], j.Within env.network.states.size := by
  cases i with
  | arrive c => exact arrive_stays hn hi
  | pop c f =>
    show env.Stays env.network.states.size (pop env c f) _
    unfold pop
    cases hx : f.returnTo with
    | none => exact Stays.pure fun _ h => nomatch h
    | some x => exact arrive_stays (c := c.returnTo x f.parent) hn (hi.2 x hx)
  | follow c t =>
    refine (target?_stays c hi.2).bind fun o ho => ?_
    cases o with
    | none => exact .pure (by simp)
    | some d => exact arrive_stays hn (ho d rfl)

/-- A closure within a workspace: the stacks stay within the first states. -/
abbrev Sweeps (env : Outlook σ) {α : Type} (m : Run (Workspace σ) α) (good : α → Prop) : Prop :=
  Run.Meets (fun w => w.graph.Within env.network.states.size) m
    (fun a w => w.graph.Within env.network.states.size ∧ good a)
    (fun e w => w.graph.Within env.network.states.size ∧ env.TooDeep e)

theorem Sweeps.bind {α β : Type} {m : Run (Workspace σ) α} {k : α → Run (Workspace σ) β}
    {good : α → Prop} {good' : β → Prop} (hm : env.Sweeps m good)
    (hk : ∀ a, good a → env.Sweeps (k a) good') : env.Sweeps (m >>= k) good' :=
  Run.Meets.bind hm fun a w h => hk a h.2 w h.1

theorem Sweeps.pure {α : Type} {a : α} {good : α → Prop} (h : good a) :
    env.Sweeps (Pure.pure a) good := fun _ hw => ⟨hw, h⟩

theorem close_sweeps (hn : env.network.Closed) (finished : Bool) {out : ConfigSet}
    (hout : out.Within env.network.states.size) {c : Config}
    (hc : c.state < env.network.states.size) :
    env.Sweeps (close env finished out c) fun r => r.2.Within env.network.states.size := by
  rintro ⟨graph, author, closures⟩ hw
  have hmeets : Run.Meets (Progress.Within env.network.states.size)
      (DepthFirst.walk (visit env) (.closureDepthExceeded (env.maxDepth + 1) env.maxDepth)
        env.maxDepth (.arrive c)) (fun _ p => p.Within env.network.states.size)
      (fun e p => p.Within env.network.states.size ∧ env.TooDeep e) :=
    DepthFirst.walk_meets (fun _ hi => visit_stays hn hi) (fun _ hp => ⟨hp, rfl⟩) env.maxDepth hc
  have hwalk := hmeets ⟨⟨graph, author, closures + 1⟩, out, ∅, finished⟩ ⟨hw, hout⟩
  unfold close
  dsimp only
  rcases hr : DepthFirst.walk (visit env) (.closureDepthExceeded (env.maxDepth + 1) env.maxDepth)
    env.maxDepth (.arrive c) ⟨⟨graph, author, closures + 1⟩, out, ∅, finished⟩ with ⟨e | u, p⟩ <;>
    rw [hr] at hwalk
  · exact ⟨hwalk.1.graph, hwalk.2⟩
  · exact ⟨hwalk.graph, hwalk.out⟩

theorem startFrom_sweeps (hn : env.network.Closed) (alt : Nat) {out : ConfigSet}
    (hout : out.Within env.network.states.size) {ts : List Transition}
    (hts : ∀ t ∈ ts, t.Within env.network.states.size) :
    env.Sweeps (startFrom env alt out ts) fun s => s.Within env.network.states.size := by
  induction ts generalizing alt out with
  | nil => exact .pure hout
  | cons t rest ih =>
    obtain ⟨ht, hrest⟩ := List.forall_mem_cons.mp hts
    exact (close_sweeps hn false hout ht.1).bind fun r hr => ih (alt + 1) hr hrest

theorem lookUp_sweeps {id : Nat} (h : id < n.states.size) :
    env.Sweeps (lookUp n id) fun s => n.states[id]? = some s := by
  intro w hw
  have hs : n.states[id]? = some n.states[id] := Array.getElem?_eq_getElem h
  rw [lookUp, Network.state?, hs]
  exact ⟨hw, rfl⟩

theorem startConfigs_sweeps (hn : env.network.Closed) {start : Nat}
    (hstart : start < env.network.states.size) :
    env.Sweeps (startConfigs env start) fun s => s.Within env.network.states.size :=
  (lookUp_sweeps hstart).bind fun _ hs =>
    startFrom_sweeps hn 1 (ConfigSet.within_emptyOrdered _) (hn.transitions hs)

theorem cross_sweeps (offset : Nat) (c : Config) {t : Transition}
    (ht : t.target < env.network.states.size) :
    env.Sweeps (cross env offset c t) fun d => d.state < env.network.states.size := by
  have hmoved : env.Sweeps (moveTo env.network c t.target) fun d => d.state = t.target :=
    (lookUp_sweeps ht).bind fun _ _ => .pure rfl
  refine hmoved.bind fun d hd => .pure ?_
  change d.state < _
  rw [hd]
  exact ht

theorem reachFrom_sweeps (hn : env.network.Closed) (offset : Nat) (finished : Bool) (c : Config)
    {out : ConfigSet} (hout : out.Within env.network.states.size) {ts : List Transition}
    (hts : ∀ t ∈ ts, t.Within env.network.states.size) :
    env.Sweeps (reachFrom env offset finished c out ts)
      fun r => r.2.Within env.network.states.size := by
  induction ts generalizing out with
  | nil => exact .pure hout
  | cons t rest ih =>
    obtain ⟨ht, hrest⟩ := List.forall_mem_cons.mp hts
    refine (cross_sweeps offset c ht.1).bind fun d hd => ?_
    refine (close_sweeps hn finished hout hd).bind fun r hr => ?_
    rcases r with ⟨_ | _, out⟩
    · exact ih hr hrest
    · exact .pure hr

theorem reachAll_sweeps (hn : env.network.Closed) (offset : Nat) (x : Symbol) (done : Option Nat)
    {out : ConfigSet} (hout : out.Within env.network.states.size) {cs : List Config}
    (hcs : ∀ c ∈ cs, c.state < env.network.states.size) :
    env.Sweeps (reachAll env offset x done out cs)
      fun s => s.Within env.network.states.size := by
  induction cs generalizing done out with
  | nil => exact .pure hout
  | cons c rest ih =>
    obtain ⟨hc, hrest⟩ := List.forall_mem_cons.mp hcs
    unfold reachAll
    dsimp only
    by_cases hskip : (decide (done = some c.alt) && c.passedLazy) = true
    · rw [if_pos hskip]
      exact ih done hout hrest
    · rw [if_neg hskip]
      refine (lookUp_sweeps hc).bind fun s hs => ?_
      refine (reachFrom_sweeps hn offset _ c hout ?_).bind fun r hr => ih _ hr hrest
      intro t ht
      exact hn.transitions hs t (List.mem_of_mem_filter ht)

theorem reach_sweeps (hn : env.network.Closed) (offset : Nat) (x : Symbol) {configs : ConfigSet}
    (h : ∀ c ∈ configs.toList, c.state < env.network.states.size) :
    env.Sweeps (reach env offset x configs) fun s => s.Within env.network.states.size :=
  reachAll_sweeps hn offset x none (ConfigSet.within_emptyOrdered _) h

end Outlook

end AdaptiveLL

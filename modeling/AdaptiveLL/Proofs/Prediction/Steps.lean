import Mathlib
import AdaptiveLL.Proofs.Prediction.Faithful

/-! # Steps of a prediction keep the cache faithful

Following an edge ends with what the edge leads to, whether it was stored or is worked out, or with
the error of working it out (`Predictor.step_ends`).  The same holds of finding the state to begin
in (`Predictor.startState_ends`).
-/
namespace AdaptiveLL
open StackGraph (Paired)

namespace Predictor
variable {n : Network} {allowed : Settings → Prop} {d : Nat} {p p' p'' : Predictor}

/-- A predictor for a network, under allowed settings, with a faithful cache. -/
structure Sane (n : Network) (allowed : Settings → Prop) (p : Predictor) : Prop where
  network : p.network = n
  settings : allowed p.settings
  cache : p.cache.Faithful n allowed

/-- How a predictor changes while the automaton of a decision is run. -/
structure Advances (n : Network) (allowed : Settings → Prop) (d : Nat) (p p' : Predictor) :
    Prop where
  sane : p'.Sane n allowed
  settings : p'.settings = p.settings
  grows : StackGraph.Extends p.cache.graph p'.cache.graph
  automaton : Automaton.Extends (p.cache.automaton d) (p'.cache.automaton d)

theorem Advances.refl (h : p.Sane n allowed) : Advances n allowed d p p :=
  ⟨h, rfl, StackGraph.Extends.refl _, Automaton.Extends.refl _⟩

theorem Advances.trans (h : Advances n allowed d p p') (h' : Advances n allowed d p' p'') :
    Advances n allowed d p p'' :=
  ⟨h'.sane, h'.settings.trans h.settings, h.grows.trans h'.grows, h.automaton.trans h'.automaton⟩

/-- The predictor after closures that left a workspace behind. -/
def afterWork {σ : Type} (p : Predictor) (w : Workspace σ) : Predictor :=
  { p with
    cache := { p.cache with graph := w.graph }
    counters := { p.counters with closures := p.counters.closures + w.closures } }

theorem withStacksOnly_apply {α : Type} (act : Run (Workspace Unit) α) (p : Predictor) :
    withStacksOnly act p =
      ((act ⟨p.cache.graph, (), 0⟩).1, p.afterWork (act ⟨p.cache.graph, (), 0⟩).2) := rfl

/-- Closures that let the graph grow. -/
theorem Advances.afterWork {σ : Type} (h : p.Sane n allowed) {w : Workspace σ}
    (hw : w.graph.Truthful) (e : StackGraph.Extends p.cache.graph w.graph) :
    Advances n allowed d p (p.afterWork w) :=
  ⟨⟨h.network, h.settings, h.cache.grow hw e⟩, rfl, e, Automaton.Extends.refl _⟩

theorem Advances.count (h : p.Sane n allowed) (f : Counters → Counters) :
    Advances n allowed d p { p with counters := f p.counters } :=
  ⟨⟨h.network, h.settings, h.cache⟩, rfl, StackGraph.Extends.refl _, Automaton.Extends.refl _⟩

/-- A change to the automaton of the decision that keeps it faithful. -/
theorem Advances.change (h : p.Sane n allowed) (hd : d < n.decisions.size)
    {f : Automaton → Automaton}
    (hf : (f (p.cache.automaton d)).netState = (p.cache.automaton d).netState)
    (he : Automaton.Extends (p.cache.automaton d) (f (p.cache.automaton d)))
    (ha : (f (p.cache.automaton d)).Faithful n allowed d p.cache.graph) :
    Advances n allowed d p { p with cache := p.cache.change d f } := by
  refine ⟨⟨h.network, h.settings, h.cache.change fun a hget => ?_⟩, rfl,
    StackGraph.Extends.refl _, ?_⟩
  · obtain rfl := Option.some.inj ((Cache.getElem?_automaton h.cache.fits hd).symm.trans hget)
    exact ⟨hf, ha⟩
  · change Automaton.Extends _ ((p.cache.change d f).automaton d)
    rwa [Cache.automaton_change h.cache.fits hd]

/-- Adding a state gives a target that names a state with these configurations. -/
theorem addState_ends (h : p.Sane n allowed) (hd : d < n.decisions.size) {s : AutomatonState}
    (hs : s.Classified (n.alternatives d)) (hedges : s.edges = [])
    (hk : ∀ c ∈ s.configs.toList, p.cache.graph.knows c.stack) :
    ∃ t p', addState d s p = (.ok t, p') ∧ Advances n allowed d p p' ∧
      p'.cache.graph = p.cache.graph ∧ ∃ e, Automaton.Names (p'.cache.automaton d) t (some e) ∧
        AutomatonState.Alike false p'.cache.graph p'.cache.graph s e ∧
        s.configs.same e.configs := by
  have hpub : EveryState (n.alternatives d) p.cache.graph { s with configs := s.configs.publish } :=
    ⟨hs.publish, hk⟩
  obtain ⟨hfilled, e, hn, he, hsame⟩ := (h.cache.automaton hd).add hedges hpub
  have hadv : Advances n allowed d p { p with cache := (p.cache.addState d s).2 } := by
    refine Advances.change h hd (f := fun _ => ((p.cache.automaton d).add s).2)
      (Automaton.netState_add _ s) (Automaton.extends_add _ s) ?_
    rw [Automaton.Faithful, Automaton.netState_add]
    exact hfilled
  refine ⟨_, _, rfl, hadv, rfl, e, ?_, ?_, ?_⟩
  · have haut : (p.cache.addState d s).2.automaton d = ((p.cache.automaton d).add s).2 :=
      Cache.automaton_change h.cache.fits hd _
    change Automaton.Names ((p.cache.addState d s).2.automaton d) _ _
    rw [haut]
    exact hn
  · change AutomatonState.Alike false p.cache.graph p.cache.graph s e
    refine hs.alike he.1 ?_
    rcases hsame with hsame | rfl
    · exact (ConfigSet.alike_of_same hsame he.2).symm
    · exact { ConfigSet.Alike.refl hk with }
  · rcases hsame with hsame | rfl
    · exact ConfigSet.same_symm hsame
    · exact ConfigSet.same_publish s.configs

/-- The state that a target names can be looked up. -/
theorem automatonState_ends {t : Target} {e : AutomatonState}
    (ht : Automaton.Names (p.cache.automaton d) t (some e)) :
    ∃ s, automatonState d t p = (.ok s, p) ∧ s.bare = e := by
  cases ht with
  | @state i s hs =>
    refine ⟨s, ?_, rfl⟩
    unfold automatonState
    rw [Run.bind_apply, Run.get_apply]
    simp only [Automaton.state?, hs]
    rfl

theorem storeEdge_apply (source : Target) (x : Symbol) (t : Target) (p : Predictor) :
    storeEdge d source x t p =
      (.ok (), if endOfInput ≤ x ∧ x ≤ p.network.maxSymbol then
        { p with cache := p.cache.change d (·.setEdge source x t) } else p) := by
  unfold storeEdge
  rw [Run.bind_apply, Run.get_apply]
  simp only [Bool.and_eq_true, decide_eq_true_eq]
  split <;> rfl

/-- Storing an edge that leads where it should. -/
theorem storeEdge_ends (h : p.Sane n allowed) (hd : d < n.decisions.size) {source t : Target}
    {s : AutomatonState} {o : Option AutomatonState} {x : Symbol}
    (hs : Automaton.Names (p.cache.automaton d) source (some s))
    (ht : Automaton.Names (p.cache.automaton d) t o)
    (he : EveryEdge n allowed (n.alternatives d) p.cache.graph s x o) :
    ∃ p', storeEdge d source x t p = (.ok (), p') ∧ Advances n allowed d p p' ∧
      p'.cache.graph = p.cache.graph := by
  rw [storeEdge_apply]
  split
  · refine ⟨_, rfl, ?_, rfl⟩
    cases hs with
    | state hs =>
      exact Advances.change h hd (f := fun a => a.setEdge _ x t) rfl
        (Automaton.extends_setEdge _ _ x t) ((h.cache.automaton hd).setEdge hs ht he)
  · exact ⟨p, rfl, .refl h, rfl⟩

/-- How following an edge ends: with what it leads to, or with the error of working it out. -/
def StepEnds (n : Network) (allowed : Settings → Prop) (d : Nat) (p : Predictor)
    (s : AutomatonState) (x : Symbol) : Ending Predictor Target → Prop
  | (.ok t, p') => Advances n allowed d p p' ∧ ∃ o, Automaton.Names (p'.cache.automaton d) t o ∧
      EveryEdge n allowed (n.alternatives d) p'.cache.graph s x o
  | (.error e, p') => Advances n allowed d p p' ∧ ∃ g,
      edgeResult n p.settings (n.alternatives d) x s.configs p.cache.graph = (.error e, g)

/-- The predictor with another graph. -/
def withGraph (p : Predictor) (g : StackGraph) : Predictor :=
  { p with cache := { p.cache with graph := g } }

theorem classifyReached_apply (d : Nat) (reached : ConfigSet) (p : Predictor) :
    classifyReached d reached p =
      (let made := AutomatonState.classify p.settings.mode p.network (p.network.alternatives d)
        reached p.cache.graph
      (.ok made.1, p.withGraph made.2)) := rfl

/-- Storing a state that was made, and the edge to it. -/
theorem addEdge_ends (h : p.Sane n allowed) (hd : d < n.decisions.size) {source : Target}
    {s made : AutomatonState} {x : Symbol}
    (hs : Automaton.Names (p.cache.automaton d) source (some s))
    (hmade : Made (n.alternatives d) p.cache.graph (some made))
    (he : ∀ e, AutomatonState.Alike false p.cache.graph p.cache.graph made e →
      made.configs.same e.configs →
      EveryEdge n allowed (n.alternatives d) p.cache.graph s x (some e)) :
    ∃ t q, (do
        let t ← addState d made
        storeEdge d source x t
        pure t : Run Predictor Target) p = (.ok t, q) ∧ Advances n allowed d p q ∧
      ∃ o, Automaton.Names (q.cache.automaton d) t o ∧
        EveryEdge n allowed (n.alternatives d) q.cache.graph s x o := by
  obtain ⟨hcl, hedges, hk⟩ := hmade _ rfl
  obtain ⟨t, q, hadd, hadv, hgraph, e, hn, hae, hsame⟩ := addState_ends h hd hcl hedges hk
  rw [hgraph] at hae
  have hedge := he e hae hsame
  rw [← hgraph] at hedge
  obtain ⟨q', hstore, hadv', hgraph'⟩ :=
    storeEdge_ends hadv.sane hd (hs.mono hadv.automaton) hn hedge
  refine ⟨t, q', ?_, hadv.trans hadv', some e, hn.mono hadv'.automaton, ?_⟩
  · simp only [Run.bind_apply, hadd, hstore]
    rfl
  · rw [hgraph']
    exact hedge

/-- Working out an edge. -/
theorem computeEdge_ends (h : p.Sane n allowed) (hd : d < n.decisions.size) {source : Target}
    {s : AutomatonState} (hs : Automaton.Names (p.cache.automaton d) source (some s))
    (x : Symbol) : StepEnds n allowed d p s x (computeEdge d source x p) := by
  have hevery := (h.cache.automaton hd).every_of_names hs
  obtain ⟨u, hu, rfl⟩ := automatonState_ends hs
  have hg := h.cache.graph
  have ha : ConfigSet.Alike true p.cache.graph p.cache.graph u.configs u.bare.configs :=
    ConfigSet.Alike.refl hevery.2
  have hres := edgeResult_agree n p.settings (n.alternatives d) x hg hg ha
  have henv : p.surroundings false none = Surroundings.alone n p.settings := by
    rw [surroundings, Surroundings.alone, h.network]
  unfold computeEdge
  simp only [Run.bind_apply, hu, Run.get_apply, withStacksOnly_apply, henv]
  -- The edge fails, or leads nowhere, or leads to a state that is then added.
  rcases hr : (Surroundings.alone n p.settings).reach true x u.configs ⟨p.cache.graph, (), 0⟩
    with ⟨e | _ | reached, w⟩
  · have hedge : edgeResult n p.settings (n.alternatives d) x u.configs p.cache.graph =
        (.error e, w.graph) := by rw [edgeResult, hr]
    change Matches _ _ (edgeResult _ _ _ _ u.configs _) (edgeResult _ _ _ _ u.configs _) at hres
    rw [hedge] at hres
    cases hres with
    | error _ hp => exact ⟨.afterWork h hp.left hp.leftGrows, w.graph, hedge⟩
  · have hedge : edgeResult n p.settings (n.alternatives d) x u.configs p.cache.graph =
        (.ok none, w.graph) := by rw [edgeResult, hr]
    change Matches _ _ (edgeResult _ _ _ _ u.configs _) (edgeResult _ _ _ _ u.configs _) at hres
    rw [hedge] at hres
    cases hres with
    | ok hp =>
      obtain ⟨hp, -⟩ := hp
      have hadv : Advances n allowed d p (p.afterWork w) := .afterWork h hp.left hp.leftGrows
      have he : EveryEdge n allowed (n.alternatives d) w.graph u.bare x none :=
        ⟨p.settings, h.settings, p.cache.graph, none, w.graph, hg, hp.left,
          ha.mono hg hg ⟨hg, hp.left, .refl _, hp.leftGrows⟩, hedge, .none, .refl _, .none⟩
      obtain ⟨p', hstore, hadv', hgraph⟩ := storeEdge_ends hadv.sane hd hs .error he
      simp only [Run.bind_apply, hstore]
      refine ⟨hadv.trans hadv', none, .error, ?_⟩
      rw [hgraph]
      exact he
  · obtain ⟨made, hmade⟩ : ∃ made, AutomatonState.classify p.settings.mode n (n.alternatives d)
        reached w.graph = made := ⟨_, rfl⟩
    have hedge : edgeResult n p.settings (n.alternatives d) x u.configs p.cache.graph =
        (.ok (some made.1), made.2) := by rw [edgeResult, hr, ← hmade]
    change Matches _ _ (edgeResult _ _ _ _ u.configs _) (edgeResult _ _ _ _ u.configs _) at hres
    rw [hedge] at hres
    cases hres with
    | ok hp =>
      obtain ⟨hp, -, hm, -⟩ := hp
      have hclassify : classifyReached d reached (p.afterWork w) =
          (.ok made.1, (p.afterWork w).withGraph made.2) := by
        have hnet : (p.afterWork w).network = n := h.network
        rw [classifyReached_apply, hnet, ← hmade]
        rfl
      have hadv : Advances n allowed d p ((p.afterWork w).withGraph made.2) :=
        ⟨⟨h.network, h.settings, h.cache.grow hp.left hp.leftGrows⟩, rfl, hp.leftGrows,
          Automaton.Extends.refl _⟩
      have hadd := addEdge_ends hadv.sane hd (hs.mono hadv.automaton) hm fun e hae hsame =>
        ⟨p.settings, h.settings, p.cache.graph, some made.1, made.2, hg, hp.left,
          ha.mono hg hg ⟨hg, hp.left, .refl _, hp.leftGrows⟩, hedge, .some hae, .refl _,
          .some hsame⟩
      obtain ⟨t, q, hrun, hadv', ho⟩ := hadd
      change StepEnds n allowed d p u.bare x ((do
        let made ← classifyReached d reached
        let t ← addState d made
        storeEdge d source x t
        pure t : Run Predictor Target) (p.afterWork w))
      rw [Run.bind_apply, hclassify]
      change StepEnds n allowed d p u.bare x ((do
        let t ← addState d made.1
        storeEdge d source x t
        pure t : Run Predictor Target) ((p.afterWork w).withGraph made.2))
      rw [hrun]
      exact ⟨hadv.trans hadv', ho⟩

theorem count_apply (f : Counters → Counters) (p : Predictor) :
    count f p = (.ok (), { p with counters := f p.counters }) := rfl

/-- What counts for a predictor counts for one that advances to it. -/
theorem StepEnds.after {s : AutomatonState} {x : Symbol} {r : Ending Predictor Target}
    (hadv : Advances n allowed d p p') (hgraph : p'.cache.graph = p.cache.graph)
    (h : StepEnds n allowed d p' s x r) : StepEnds n allowed d p s x r := by
  obtain ⟨_ | _, q⟩ := r
  · obtain ⟨hadv', g, hg⟩ := h
    rw [hadv.settings, hgraph] at hg
    exact ⟨hadv.trans hadv', g, hg⟩
  · obtain ⟨hadv', ho⟩ := h
    exact ⟨hadv.trans hadv', ho⟩

/-- Following an edge, stored or not. -/
theorem step_ends (h : p.Sane n allowed) (hd : d < n.decisions.size) {source : Target}
    {s : AutomatonState} (hs : Automaton.Names (p.cache.automaton d) source (some s))
    (x : Symbol) : StepEnds n allowed d p s x (step d source x p) := by
  unfold step
  rw [Run.bind_apply, Run.get_apply]
  cases he : (p.cache.automaton d).edge? source x with
  | some t =>
    have hadv := Advances.count (d := d) h fun c => { c with hits := c.hits + 1 }
    simp only [he, Run.bind_apply, count_apply]
    exact ⟨hadv, (h.cache.automaton hd).edge_of_names hs he⟩
  | none =>
    have hadv := Advances.count (d := d) h fun c => { c with misses := c.misses + 1 }
    simp only [he, Run.bind_apply, count_apply]
    exact (computeEdge_ends hadv.sane hd hs x).after hadv rfl

/-! ## Where to begin -/

section
variable {σ α : Type}

theorem inSession_apply (act : Run Predictor α) (s : Session σ) :
    inSession act s = ((act s.predictor).1, { s with predictor := (act s.predictor).2 }) := rfl

theorem withSessionStacks_apply (act : Run (Workspace σ) α) (s : Session σ) :
    withSessionStacks act s =
      let r := act ⟨s.predictor.cache.graph, s.author, 0⟩
      (r.1, ⟨s.predictor.afterWork r.2, s.stream, r.2.author⟩) := rfl

/-- A session in which the automaton of a decision was run and nothing else was done. -/
structure Runs (n : Network) (allowed : Settings → Prop) (d : Nat) (s s' : Session σ) : Prop where
  predictor : Advances n allowed d s.predictor s'.predictor
  stream : s'.stream = s.stream
  author : s'.author = s.author

/-- How finding the state to begin in ends: with a state for the configurations with which the
decision begins, or with the error of working these out. -/
def StartEnds (n : Network) (allowed : Settings → Prop) (d : Nat) (s : Session σ) :
    Ending (Session σ) Target → Prop
  | (.ok t, s') => Runs n allowed d s s' ∧ ∃ e,
      Automaton.Names (s'.predictor.cache.automaton d) t (some e) ∧
        FirstState n allowed (s.predictor.cache.automaton d).netState s'.predictor.cache.graph e
  | (.error e, s') => Runs n allowed d s s' ∧ ∃ w,
      (Surroundings.alone n s.predictor.settings).startConfigs
        (s.predictor.cache.automaton d).netState [] ⟨s.predictor.cache.graph, (), 0⟩ = (.error e, w)

/-- Without the caller's stack nobody is asked. -/
theorem surroundings_alike (h : p.Sane n allowed) (ask : Option (Guard → σ → Bool × σ)) (a : σ) :
    (p.surroundings false ask).Alike (fun b _ => b = a) (Surroundings.alone n p.settings) :=
  ⟨h.network, rfl, rfl, rfl, fun hf => nomatch hf⟩

/-- Saying where the automaton begins. -/
theorem setStart_ends (h : p.Sane n allowed) (hd : d < n.decisions.size) {t : Target}
    {e : AutomatonState} (ht : Automaton.Names (p.cache.automaton d) t (some e))
    (he : FirstState n allowed (p.cache.automaton d).netState p.cache.graph e) :
    ∃ p', changeAutomaton d (·.setStart t) p = (.ok (), p') ∧ Advances n allowed d p p' ∧
      p'.cache.graph = p.cache.graph :=
  ⟨_, rfl, Advances.change h hd (f := fun a => a.setStart t) rfl (Automaton.extends_setStart _ t)
    ((h.cache.automaton hd).setStart ht he), rfl⟩

/-- Finding the state to begin in, stored or not. -/
theorem startState_ends (q : Question σ) (s : Session σ) (h : s.predictor.Sane n allowed)
    (hd : q.decision < n.decisions.size) :
    StartEnds n allowed q.decision s (startState q s) := by
  obtain ⟨p, stream, author⟩ := s
  unfold startState
  rw [Run.bind_apply, Run.get_apply]
  cases hstart : (p.cache.automaton q.decision).start with
  | some t =>
    simp only [hstart]
    exact ⟨⟨.refl h, rfl, rfl⟩, (h.cache.automaton hd).start hstart⟩
  | none =>
    simp only [hstart]
    rw [Run.bind_apply, withSessionStacks_apply]
    have hg := h.cache.graph
    -- Without full context no guard is asked, so the hooks make no difference.
    have hagree := Surroundings.startConfigs_agree
      (surroundings_alike h (some fun g => g.eval q.hooks q.outer) author)
      (w := ⟨p.cache.graph, author, 0⟩) (v := ⟨p.cache.graph, (), 0⟩) ⟨hg, hg, rfl⟩
      (p.cache.automaton q.decision).netState []
    rcases hw : (p.surroundings false (some fun g => g.eval q.hooks q.outer)).startConfigs
      (p.cache.automaton q.decision).netState [] ⟨p.cache.graph, author, 0⟩ with ⟨r, w⟩
    rcases hv : (Surroundings.alone n p.settings).startConfigs
      (p.cache.automaton q.decision).netState [] ⟨p.cache.graph, (), 0⟩ with ⟨r', v⟩
    rw [hw, hv] at hagree
    cases hagree with
    | error e hl =>
      exact ⟨⟨.afterWork h hl.related.left hl.paired.leftGrows, rfl, hl.related.author⟩, v, hv⟩
    | @ok configs _ configs' _ hrel =>
      obtain ⟨hl, hconfigs, hopen, hopen'⟩ := hrel
      have hadv : Advances n allowed q.decision p (p.afterWork w) :=
        .afterWork h hl.related.left hl.paired.leftGrows
      obtain ⟨t, p', hadd, hadv', hgraph, e, hn, he, -⟩ := addState_ends hadv.sane hd
        (AutomatonState.classified_ofConfigs hopen (n.alternatives q.decision)) rfl hconfigs.known
      rw [hgraph] at he
      have hfirst : FirstState n allowed (p.cache.automaton q.decision).netState
          p'.cache.graph e := by
        refine ⟨p.settings, h.settings, p.cache.graph, configs', v, hg, hl.related.right, hopen',
          hv, ?_⟩
        rw [hgraph]
        exact hconfigs.symm.lax.trans he.configs
      have hnet : (p'.cache.automaton q.decision).netState =
          (p.cache.automaton q.decision).netState :=
        Option.some.inj ((Cache.netState_automaton hadv'.sane.cache.fits hd).symm.trans
          (Cache.netState_automaton h.cache.fits hd))
      obtain ⟨p'', hset, hadv'', hgraph'⟩ := setStart_ends hadv'.sane hd hn (hnet ▸ hfirst)
      simp only [Run.bind_apply, inSession_apply, hadd, hset]
      refine ⟨⟨hadv.trans (hadv'.trans hadv''), rfl, hl.related.author⟩, e,
        hn.mono hadv''.automaton, ?_⟩
      rw [hgraph']
      exact hfirst

end

/-- What the run of an automaton does at a state, once it is known. -/
def goOn {σ : Type} (q : Question σ) (fuel steps : Nat) (t : Target) (x : Symbol)
    (f : AutomatonState) : Run (Session σ) Halt := do
  match haltAt? (← get).predictor.settings.mode steps t f x with
  | some halt => pure halt
  | none => do
    let next ← readOn x
    runAutomaton q fuel (steps + 1) t next

end Predictor
end AdaptiveLL

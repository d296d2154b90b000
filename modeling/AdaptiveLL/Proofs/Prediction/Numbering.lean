import Mathlib
import AdaptiveLL.Proofs.Prediction.Termination

/-! # The alternatives of stored states

A decision numbers its alternatives from one.  The configurations with which it begins have these numbers,
and no step changes one, so the states stored for a decision are about its own alternatives only.  What a
state records of its configurations, the only alternative left or those in conflict, is read off them when
it is made, so these alternatives occur in it (`AutomatonState.Numbered`).

Nothing but growing an automaton adds states.  One step along it keeps this (`Predictor.numbered_step`),
therefore a whole run does, and so do all the requests that predictors may be asked to serve, in any
order (`Cache.Served.numbered`).
-/
namespace AdaptiveLL

/-- An alternative is one of so many. -/
def OneOf (count alt : Nat) : Prop := 1 ≤ alt ∧ alt ≤ count

/-- Guards have no say in what the alternatives are. -/
theorem Network.passes_oneOf (n : Network) (count : Nat) : n.Passes fun alt _ => OneOf count alt :=
  fun _ _ _ _ _ _ _ h => h

namespace AutomatonState

/-- A state is about alternatives of the decision, and those that it records occur in it. -/
structure Numbered (count : Nat) (s : AutomatonState) : Prop where
  range : ∀ c ∈ s.configs.toList, OneOf count c.alt
  occurring : ∀ alts, s.configs.altsInQuestion? = some alts →
    ∀ alt ∈ alts.toList, ∃ c ∈ s.configs.toList, c.alt = alt
  unique : ∀ alt, s.configs.uniqueAlt = some alt → ∃ c ∈ s.configs.toList, c.alt = alt

variable {count : Nat} {configs : ConfigSet}

/-- Only the configurations matter. -/
theorem Numbered.of_configs {s t : AutomatonState} (hs : s.Numbered count)
    (h : t.configs = s.configs) : t.Numbered count := by
  cases hs
  constructor
  · rwa [h]
  · rwa [h]
  · rwa [h]

theorem Numbered.publish {s : AutomatonState} (hs : s.Numbered count) :
    Numbered count { s with configs := s.configs.publish } := ⟨hs.range, hs.occurring, hs.unique⟩

theorem Numbered.setEdge {s : AutomatonState} (hs : s.Numbered count) (x : Symbol) (t : Target) :
    (s.setEdge x t).Numbered count :=
  have hbare : (s.setEdge x t).bare.configs = s.bare.configs := by rw [bare_setEdge]
  hs.of_configs hbare

theorem numbered_ofConfigs (h : configs.Carries fun alt _ => OneOf count alt) :
    (ofConfigs configs).Numbered count where
  range := h.configs
  occurring alts halts := by
    -- nothing is recorded yet
    rw [ofConfigs, ConfigSet.altsInQuestion?, h.isOpen.noConflict, h.isOpen.noUnique] at halts
    cases halts
  unique alt halt := by
    rw [ofConfigs, h.isOpen.noUnique] at halt
    cases halt

theorem exists_of_findUniqueAlt {alt : Nat} (h : configs.findUniqueAlt = some alt) :
    ∃ c ∈ configs.toList, c.alt = alt := by
  unfold ConfigSet.findUniqueAlt at h
  split at h
  · cases h
  · next c cs hl =>
    split at h
    · exact ⟨c, hl ▸ List.mem_cons_self, Option.some.inj h⟩
    · cases h

theorem numbered_recognising (h : configs.Carries fun alt _ => OneOf count alt) {alt : Nat}
    (halt : configs.findUniqueAlt = some alt) : (recognising count alt configs).Numbered count := by
  refine Numbered.of_configs (s := { configs := { configs with uniqueAlt := some alt } })
    ⟨h.configs, fun alts halts => ?_, fun a ha => ?_⟩ (configs_applyGuards count _)
  · rw [ConfigSet.altsInQuestion?] at halts
    simp only [h.isOpen.noConflict, Option.some.injEq] at halts
    subst halts
    intro a ha
    obtain rfl := List.mem_singleton.mp ha
    exact exists_of_findUniqueAlt halt
  · obtain rfl : alt = a := Option.some.inj ha
    exact exists_of_findUniqueAlt halt

theorem numbered_contested (h : configs.Carries fun alt _ => OneOf count alt) :
    (contested count configs.findConflictingAlts configs).Numbered count := by
  refine Numbered.of_configs
    (s := { configs := { configs with conflictingAlts := some configs.findConflictingAlts } })
    ⟨h.configs, fun alts halts => ?_, fun a ha => ?_⟩ (configs_applyGuards count _)
  · obtain rfl : configs.findConflictingAlts = alts := Option.some.inj halts
    intro a ha
    exact ConfigSet.mem_findConflictingAlts.mp ha
  · rw [h.isOpen.noUnique] at ha
    cases ha

/-- A state that is made of configurations records alternatives of theirs. -/
theorem numbered_classify (h : configs.Carries fun alt _ => OneOf count alt) (mode : PredictionMode)
    (n : Network) (g : StackGraph) : (classify mode n count configs g).1.Numbered count := by
  unfold classify
  split
  · next alt halt => exact numbered_recognising h halt
  · dsimp only
    split
    · exact numbered_contested h
    · exact numbered_ofConfigs h

end AutomatonState

/-! ## Automata and caches -/

namespace Automaton
variable {n : Network} {d : Nat} {a : Automaton}

/-- The automaton of a decision, whose states are all about its alternatives. -/
structure Numbered (n : Network) (d : Nat) (a : Automaton) : Prop where
  netState : n.decisions[d]? = some a.netState
  states : ∀ ⦃i : Nat⦄ ⦃s : AutomatonState⦄, a.states[i]? = some s → s.Numbered (n.alternatives d)

theorem Numbered.setEdge (h : a.Numbered n d) (source : Target) (x : Symbol) (t : Target) :
    (a.setEdge source x t).Numbered n d := by
  cases source with
  | error => exact h
  | state i =>
    refine ⟨h.netState, fun j s hs => ?_⟩
    rw [states_setEdge] at hs
    split at hs
    · obtain ⟨u, hu, rfl⟩ := Option.map_eq_some_iff.mp hs
      exact (h.states hu).setEdge x t
    · exact h.states hs

theorem Numbered.add (h : a.Numbered n d) {s : AutomatonState} (hs : s.Numbered (n.alternatives d)) :
    (a.add s).2.Numbered n d := by
  rcases a.add_cases s with ⟨i, e, -, -, heq⟩ | heq
  · rw [heq]
    exact h
  · rw [heq]
    refine ⟨h.netState, fun j u hu => ?_⟩
    rw [Array.getElem?_push] at hu
    split at hu
    · exact Option.some.inj hu ▸ hs.publish
    · exact h.states hu

theorem Numbered.clear (h : a.Numbered n d) : a.clear.Numbered n d :=
  ⟨h.netState, fun i s hs => by simp [Automaton.clear] at hs⟩

end Automaton

namespace Cache
variable {n : Network} {c : Cache} {d : Nat}

/-- There is an automaton for every decision, and each is about the alternatives of its own. -/
structure Numbered (n : Network) (c : Cache) : Prop where
  size : c.automata.size = n.decisions.size
  automata : ∀ ⦃d : Nat⦄ ⦃a : Automaton⦄, c.automata[d]? = some a → a.Numbered n d

theorem Numbered.change (h : c.Numbered n) {f : Automaton → Automaton}
    (hf : ∀ a, c.automata[d]? = some a → (f a).Numbered n d) : (c.change d f).Numbered n where
  size := (Array.size_modify ..).trans h.size
  automata e a ha := by
    rw [getElem?_change] at ha
    split at ha
    · next hde =>
      subst hde
      obtain ⟨b, hb, rfl⟩ := Option.map_eq_some_iff.mp ha
      exact hf b hb
    · exact h.automata ha

theorem Numbered.clear (h : c.Numbered n) (d : Option Nat) : (c.clear d).Numbered n := by
  cases d with
  | some d => exact h.change fun a ha => (h.automata ha).clear
  | none =>
    refine ⟨(Array.size_map ..).trans h.size, fun d a ha => ?_⟩
    change (c.automata.map Automaton.clear)[d]? = some a at ha
    rw [Array.getElem?_map, Option.map_eq_some_iff] at ha
    obtain ⟨b, hb, rfl⟩ := ha
    exact (h.automata hb).clear

theorem numbered_ofNetwork (n : Network) : (ofNetwork n).Numbered n where
  size := by simp [ofNetwork]
  automata d a ha := by
    simp only [ofNetwork, Array.getElem?_mapIdx, Option.map_eq_some_iff] at ha
    obtain ⟨q, hq, rfl⟩ := ha
    exact ⟨hq, fun i s hs => by simp at hs⟩

theorem Numbered.exists_automaton (h : c.Numbered n) (hd : d < n.decisions.size) :
    c.automata[d]? = some (c.automaton d) := by
  have hlt : d < c.automata.size := h.size ▸ hd
  simp [automaton, hlt]

/-- A state of a decision's automaton is about alternatives of the decision. -/
theorem Numbered.state (h : c.Numbered n) {t : Target} {s : AutomatonState}
    (hs : (c.automaton d).state? t = some s) : s.Numbered (n.alternatives d) := by
  cases t with
  | error => cases hs
  | state i =>
    change (c.automaton d).states[i]? = some s at hs
    unfold automaton at hs
    cases ha : c.automata[d]? with
    | none => simp [ha] at hs
    | some a =>
      rw [ha] at hs
      exact (h.automata ha).states hs

end Cache

/-! ## Growing an automaton -/

namespace Predictor
open Run
variable {n : Network} {d : Nat}

/-- A predictor for a network, whose states are all about alternatives of their decisions. -/
structure Numbered (n : Network) (p : Predictor) : Prop where
  network : p.network = n
  cache : p.cache.Numbered n

/-- Only the network and the automata matter. -/
theorem Numbered.of_outline {p p' : Predictor} (h : p'.outline = p.outline) (hp : p.Numbered n) :
    p'.Numbered n := by
  obtain ⟨hframe, hautomata⟩ := Prod.mk.inj h
  refine ⟨(congrArg Prod.fst hframe).trans hp.network, ?_, ?_⟩
  · rw [hautomata]
    exact hp.cache.size
  · rw [hautomata]
    exact hp.cache.automata

theorem numbered_of_leaves {α : Type} {m : Run Predictor α} (h : Leaves outline m) :
    Maintains (Numbered n) (fun _ => True) m :=
  .of_leaves h fun _ _ => Numbered.of_outline

theorem numbered_automatonState (source : Target) :
    Maintains (Numbered n) (fun s => s.Numbered (n.alternatives d)) (automatonState d source) := by
  refine Maintains.get.bind fun p hp => ?_
  split
  · next s hs => exact .pure (hp.cache.state hs)
  · exact .throw _
  · exact .throw _

/-- Work on the stacks gives what it gives. -/
theorem numbered_withStacksOnly {α : Type} {act : Run (Workspace Unit) α} {good : α → Prop}
    (h : ∀ w a w', act w = (.ok a, w') → good a) :
    Maintains (Numbered n) good (withStacksOnly act) := by
  intro p hp
  have hleaves := numbered_of_leaves (leaves_withStacksOnly act) p hp
  rw [withStacksOnly_apply] at hleaves ⊢
  rcases hr : act ⟨p.cache.graph, (), 0⟩ with ⟨e | a, w⟩ <;> rw [hr] at hleaves
  · exact hleaves
  · exact ⟨h _ a w hr, hleaves.2⟩

theorem numbered_changeAutomaton {f : Automaton → Automaton}
    (hf : ∀ a : Automaton, a.Numbered n d → (f a).Numbered n d) :
    Maintains (Numbered n) (fun _ => True) (changeAutomaton d f) :=
  .modify fun _ hp => ⟨hp.network, hp.cache.change fun _ ha => hf _ (hp.cache.automata ha)⟩

theorem numbered_storeEdge (source : Target) (x : Symbol) (t : Target) :
    Maintains (Numbered n) (fun _ => True) (storeEdge d source x t) :=
  Maintains.get.bind fun _ _ =>
    .ite (numbered_changeAutomaton fun _ ha => ha.setEdge source x t) (.pure trivial)

theorem numbered_addState {s : AutomatonState} (hs : s.Numbered (n.alternatives d)) :
    Maintains (Numbered n) (fun _ => True) (addState d s) := by
  refine .modifyGet fun p hp => ⟨trivial, hp.network, hp.cache.change fun a ha => ?_⟩
  have hautomaton : p.cache.automaton d = a := by rw [Cache.automaton, ha, Option.getD_some]
  rw [hautomaton]
  exact (hp.cache.automata ha).add hs

theorem numbered_classifyReached {reached : ConfigSet}
    (h : reached.Carries fun alt _ => OneOf (n.alternatives d) alt) :
    Maintains (Numbered n) (fun s => s.Numbered (n.alternatives d)) (classifyReached d reached) := by
  refine .modifyGet fun p hp => ⟨?_, hp.network, { hp.cache with }⟩
  rw [hp.network]
  exact AutomatonState.numbered_classify h _ _ _

/-- Working out an edge stores states about alternatives of the decision. -/
theorem numbered_computeEdge (source : Target) (x : Symbol) :
    Maintains (Numbered n) (fun _ => True) (computeEdge d source x) := by
  refine (numbered_automatonState source).bind fun s hs => Maintains.get.bind fun p hp => ?_
  have hreach : Maintains (Numbered n)
      (fun o : Option ConfigSet => ∀ r, o = some r → r.Carries fun alt _ => OneOf (n.alternatives d) alt)
      (withStacksOnly ((p.surroundings false none).reach true x s.configs)) := by
    refine numbered_withStacksOnly fun w o w' h r hr => ?_
    subst hr
    exact Surroundings.carries_reach (Network.passes_oneOf _ _) hs.range h
  refine hreach.bind fun o ho => ?_
  cases o with
  | none => exact (numbered_storeEdge source x .error).bind fun _ _ => .pure trivial
  | some reached =>
    refine (numbered_classifyReached (ho reached rfl)).bind fun made hmade => ?_
    refine (numbered_addState hmade).bind fun t _ => ?_
    exact (numbered_storeEdge source x t).bind fun _ _ => .pure trivial

/-- One step along an automaton. -/
theorem numbered_step (source : Target) (x : Symbol) :
    Maintains (Numbered n) (fun _ => True) (step d source x) := by
  refine Maintains.get.bind fun p _ => ?_
  split
  · exact (numbered_of_leaves (leaves_count _)).bind fun _ _ => .pure trivial
  · exact (numbered_of_leaves (leaves_count _)).bind fun _ _ => numbered_computeEdge source x

/-! ## Predictions -/

variable {σ : Type}

/-- The same of the predictor of a session. -/
def NumberedIn (n : Network) (s : Session σ) : Prop := s.predictor.Numbered n

theorem numberedIn_of_leaves {α : Type} {m : Run (Session σ) α} (h : Leaves Session.outline m) :
    Maintains (NumberedIn n) (fun _ => True) m :=
  .of_leaves h fun s t hst => Numbered.of_outline <| by
    obtain ⟨hframe, hautomata⟩ := Prod.mk.inj hst
    have hpredictor : t.predictor.frame = s.predictor.frame := congrArg Prod.fst hframe
    exact Prod.ext hpredictor hautomata

theorem numberedIn_inSession {α : Type} {act : Run Predictor α} {good : α → Prop}
    (h : Maintains (Numbered n) good act) :
    Maintains (NumberedIn n) good (inSession act : Run (Session σ) α) := by
  rintro ⟨p, stream, author⟩ hp
  have hact := h p hp
  rw [inSession_apply]
  rcases hr : act p with ⟨e | a, p'⟩ <;> rw [hr] at hact
  · exact hact
  · exact hact

/-- The configurations with which a decision begins are about all of its alternatives. -/
theorem carries_startState {p : Predictor} (hp : p.Numbered n) (hd : d < n.decisions.size)
    {fullContext : Bool} {ask : Option (Guard → σ → Bool × σ)} {outer : List Invocation} {w w' : Workspace σ}
    {configs : ConfigSet} (h : (p.surroundings fullContext ask).startConfigs
      (p.cache.automaton d).netState outer w = (.ok configs, w')) :
    configs.Carries fun alt _ => OneOf (n.alternatives d) alt := by
  have hnetState := (hp.cache.automata (hp.cache.exists_automaton hd)).netState
  refine Surroundings.carries_startConfigs (Network.passes_oneOf _ _) (fun i hi => ?_) h
  have halternatives : (p.network.state (p.cache.automaton d).netState).transitions.length =
      n.alternatives d := by
    rw [Network.alternatives, Network.decisionState, hnetState, Option.getD_some, hp.network]
  have hlt : i < n.alternatives d := by
    rw [← halternatives]
    exact hi
  exact ⟨Nat.le_add_left 1 i, hlt⟩

theorem numberedIn_startState (q : Question σ) (hd : q.decision < n.decisions.size) :
    Maintains (NumberedIn n) (fun _ => True) (startState q) := by
  intro s hs
  unfold startState
  rw [Run.bind_apply, Run.get_apply]
  dsimp only
  cases (s.predictor.cache.automaton q.decision).start with
  | some t => exact ⟨trivial, hs⟩
  | none =>
    have hstart : Maintains (NumberedIn n)
        (fun configs : ConfigSet => configs.Carries fun alt _ => OneOf (n.alternatives q.decision) alt)
        (withSessionStacks ((s.predictor.surroundings false
          (some fun g => g.eval q.hooks q.outer)).startConfigs
            (s.predictor.cache.automaton q.decision).netState [])) := by
      intro s' hs'
      have hleaves := numberedIn_of_leaves (leaves_withSessionStacks ((s.predictor.surroundings false
        (some fun g => g.eval q.hooks q.outer)).startConfigs
          (s.predictor.cache.automaton q.decision).netState [])) s' hs'
      rw [withSessionStacks_apply] at hleaves ⊢
      rcases hr : (s.predictor.surroundings false (some fun g => g.eval q.hooks q.outer)).startConfigs
        (s.predictor.cache.automaton q.decision).netState []
          ⟨s'.predictor.cache.graph, s'.author, 0⟩ with ⟨e | configs, w⟩ <;> rw [hr] at hleaves
      · exact hleaves
      · exact ⟨carries_startState hs hd hr, hleaves.2⟩
    refine hstart.bind (fun configs hconfigs => ?_) s hs
    refine (numberedIn_inSession (numbered_addState (AutomatonState.numbered_ofConfigs hconfigs))).bind fun t _ => ?_
    refine (numberedIn_inSession (numbered_changeAutomaton fun a ha => ?_)).bind fun _ _ => .pure trivial
    exact ⟨ha.netState, ha.states⟩

/-- A run along an automaton, by induction on its steps. -/
theorem numberedIn_runAutomaton (q : Question σ) (fuel : Nat) :
    ∀ (steps : Nat) (previous : Target) (x : Symbol),
      Maintains (NumberedIn n) (fun _ => True) (runAutomaton q fuel steps previous x) := by
  induction fuel with
  | zero => exact fun _ _ _ => .throw _
  | succ fuel ih =>
    intro steps previous x
    rw [runAutomaton]
    refine (numberedIn_of_leaves (leaves_countStep q steps)).bind fun _ _ => ?_
    refine (numberedIn_inSession (numbered_step previous x)).bind fun t _ => .ite ?_ ?_
    · exact (numberedIn_inSession (numbered_automatonState previous)).bind fun _ _ => .pure trivial
    · refine (numberedIn_inSession (numbered_automatonState t)).bind fun s _ => Maintains.get.bind fun _ _ => ?_
      split
      · exact .pure trivial
      · exact (numberedIn_of_leaves (leaves_readOn x)).bind fun next _ => ih _ _ _

/-- A whole prediction: once the automaton has halted, no state is added. -/
theorem numberedIn_predict (hooks : ParserHooks σ) (outer : List Invocation) (decision : Nat) :
    Preserves (NumberedIn n) (predict hooks outer decision) := by
  intro s hs
  unfold predict
  split
  · exact hs
  · next hd =>
    rw [hs.network, Nat.not_le] at hd
    let q : Question σ := ⟨hooks, outer, decision, s.stream.index⟩
    have hahead : Maintains (NumberedIn n) (fun _ => True) (lookAhead q) :=
      (numberedIn_startState q hd).bind fun start _ => Maintains.get.bind fun _ _ =>
        numberedIn_runAutomaton q _ _ _ _
    have hchoose : Maintains (NumberedIn n) (fun _ => True) (choose q) :=
      hahead.bind fun halt _ => numberedIn_of_leaves (leaves_conclude q halt)
    have hend := hchoose.preserves s hs
    exact ⟨hend.network, hend.cache.size, hend.cache.automata⟩

end Predictor

/-- Whatever predictors were asked for, the states that they leave behind are about alternatives of their
decisions. -/
theorem Cache.Served.numbered {n : Network} {c : Cache} (h : c.Served n) : c.Numbered n := by
  have hwork : ∀ {α : Type} {m : Run Predictor α} {p : Predictor}, Run.Leaves Predictor.outline m →
      p.network = n → p.cache.Numbered n → (m p).2.cache.Numbered n :=
    fun hm hn hp => (Predictor.Numbered.of_outline (hm _) ⟨hn, hp⟩).cache
  induction h with
  | fresh => exact numbered_ofNetwork n
  | predict hooks outer decision hn _ ih =>
    exact (Predictor.numberedIn_predict hooks outer decision _ ⟨hn, ih⟩).cache
  | step decision source x hn _ ih =>
    exact ((Predictor.numbered_step source x).preserves _ ⟨hn, ih⟩).cache
  | startConfigs decision outer fullContext hn _ ih =>
    exact hwork (Run.Leaves.get.bind fun _ => Predictor.leaves_withStacksOnly _) hn ih
  | closure fullContext hn _ _ ih =>
    exact hwork (Run.Leaves.get.bind fun _ => Predictor.leaves_withStacksOnly _) hn ih
  | reach x fullContext hn _ _ ih =>
    exact hwork (Run.Leaves.get.bind fun _ => Predictor.leaves_withStacksOnly _) hn ih
  | clear decision _ ih => exact ih.clear decision

end AdaptiveLL

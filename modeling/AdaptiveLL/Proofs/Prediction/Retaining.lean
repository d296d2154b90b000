import Mathlib
import AdaptiveLL.Proofs.Prediction.Apart

/-! # What is stored stays

A prediction adds states to an automaton and stores edges that were missing.  Nothing that is there is changed:
neither where the automaton begins, nor what a state says, nor where an edge leads (`Automaton.Retains`).  So
whatever a prediction stored is there for every later one (`Predictor.retains_predict`), and what it stored
includes each edge that it went along over a symbol for which edges are stored (`Predictor.stores_step`).
-/
namespace AdaptiveLL

/-! ## Automata -/

/-- One automaton has everything that another has: where to begin, the states, but perhaps with more edges, and
the edges. -/
structure Automaton.Retains (a b : Automaton) : Prop where
  start : ∀ t, a.start = some t → b.start = some t
  states : a.Extends b
  edges : ∀ source x t, a.edge? source x = some t → b.edge? source x = some t

namespace Automaton
variable {a b c : Automaton}

theorem Retains.refl (a : Automaton) : a.Retains a := ⟨fun _ h => h, .refl a, fun _ _ _ h => h⟩

theorem Retains.trans (h : a.Retains b) (h' : b.Retains c) : a.Retains c where
  start t ht := h'.start t (h.start t ht)
  states := h.states.trans h'.states
  edges source x t ht := h'.edges source x t (h.edges source x t ht)

/-- Adding a state leaves those that are there. -/
theorem state?_add {source : Target} {s : AutomatonState} (hs : a.state? source = some s) (made : AutomatonState) :
    (a.add made).2.state? source = some s := by
  rcases a.add_cases made with ⟨i, e, -, -, heq⟩ | heq
  · rw [heq]
    exact hs
  · rw [heq]
    cases source with
    | error => cases hs
    | state i =>
      have hi : a.states[i]? = some s := hs
      obtain ⟨hlt, -⟩ := Array.getElem?_eq_some_iff.mp hi
      show (a.states.push _)[i]? = some s
      rw [Array.getElem?_push_lt hlt, ← Array.getElem?_eq_getElem hlt]
      exact hi

theorem edge?_eq_some {source : Target} {x : Symbol} {t : Target} :
    a.edge? source x = some t ↔ ∃ s, a.state? source = some s ∧ s.edge? x = some t := by
  rw [edge?, Option.bind_eq_some_iff]

theorem start_add (a : Automaton) (made : AutomatonState) : (a.add made).2.start = a.start := by
  rcases a.add_cases made with ⟨i, e, -, -, heq⟩ | heq <;> rw [heq]

theorem retains_add (a : Automaton) (made : AutomatonState) : a.Retains (a.add made).2 where
  start t ht := by rwa [start_add]
  states := a.extends_add made
  edges source x t ht := by
    obtain ⟨s, hs, hedge⟩ := edge?_eq_some.mp ht
    exact edge?_eq_some.mpr ⟨s, state?_add hs made, hedge⟩

theorem retains_setStart (h : a.start = none) (t : Target) : a.Retains (a.setStart t) where
  start u hu := by
    rw [h] at hu
    cases hu
  states := a.extends_setStart t
  edges _ _ _ hu := hu

/-- Where the edges of a state lead after one was stored. -/
theorem edge?_setEdge {source : Target} {s : AutomatonState} (hs : a.state? source = some s) (x y : Symbol)
    (t : Target) : (a.setEdge source x t).edge? source y = (s.setEdge x t).edge? y := by
  cases source with
  | error => cases hs
  | state i =>
    have hi : a.states[i]? = some s := hs
    have hget := states_setEdge a i i x t
    rw [if_pos rfl, hi, Option.map_some] at hget
    rw [edge?, state?, hget]
    rfl

theorem retains_setEdge {source : Target} {x : Symbol} (h : a.edge? source x = none) (t : Target) :
    a.Retains (a.setEdge source x t) where
  start _ hu := by
    cases source with
    | error => exact hu
    | state i => exact hu
  states := a.extends_setEdge source x t
  edges source' y u hu := by
    obtain ⟨s, hs, hedge⟩ := edge?_eq_some.mp hu
    by_cases hsource : source' = source
    · subst hsource
      have hother : ¬ (AutomatonState.hasEdgeFor x ∧ x = y) := by
        rintro ⟨-, rfl⟩
        rw [h] at hu
        cases hu
      rw [edge?_setEdge hs, AutomatonState.edge?_setEdge, if_neg hother]
      exact hedge
    · have hstay : (a.setEdge source x t).state? source' = a.state? source' := by
        cases source with
        | error => rfl
        | state i =>
          cases source' with
          | error => rfl
          | state j =>
            have hij : i ≠ j := fun he => hsource (congrArg Target.state he.symm)
            exact (states_setEdge a i j x t).trans (if_neg hij)
      exact edge?_eq_some.mpr ⟨s, hstay.trans hs, hedge⟩

end Automaton

/-! ## Caches -/

/-- Each automaton of a cache has everything that it has in another. -/
def Cache.Retains (c c' : Cache) : Prop := ∀ d, (c.automaton d).Retains (c'.automaton d)

namespace Cache
variable {c c' c'' : Cache} {d : Nat}

theorem Retains.refl (c : Cache) : c.Retains c := fun _ => .refl _

theorem Retains.trans (h : c.Retains c') (h' : c'.Retains c'') : c.Retains c'' := fun d => (h d).trans (h' d)

/-- Only the automata matter. -/
theorem Retains.of_automata (h : c'.automata = c.automata) : c.Retains c' := fun d => by
  unfold automaton
  rw [h]
  exact .refl _

/-- An automaton with a state is one of the cache's. -/
theorem automaton_change_of_state {source : Target} {s : AutomatonState}
    (hs : (c.automaton d).state? source = some s) (f : Automaton → Automaton) :
    (c.change d f).automaton d = f (c.automaton d) := by
  have hget := getElem?_change c d d f
  rw [if_pos rfl] at hget
  unfold automaton at hs ⊢
  rw [hget]
  cases ha : c.automata[d]? with
  | some a => rfl
  | none =>
    rw [ha] at hs
    cases source <;> cases hs

/-- Changing an automaton that is the cache's afterwards changes it. -/
theorem automaton_change_of_fits {n : Network} {f : Automaton → Automaton} (h : (c.change d f).fits n)
    (hd : d < n.decisions.size) : (c.change d f).automaton d = f (c.automaton d) := by
  have hget := getElem?_automaton h hd
  rw [getElem?_change, if_pos rfl, Option.map_eq_some_iff] at hget
  obtain ⟨a, ha, hchanged⟩ := hget
  rw [← hchanged]
  unfold automaton
  rw [ha]
  rfl

theorem Retains.change {f : Automaton → Automaton} (h : (c.automaton d).Retains (f (c.automaton d))) :
    c.Retains (c.change d f) := by
  intro e
  have hget := getElem?_change c d e f
  by_cases hde : d = e
  · subst hde
    rw [if_pos rfl] at hget
    unfold automaton at h ⊢
    rw [hget]
    cases ha : c.automata[d]? with
    | none => exact .refl _
    | some a =>
      rw [ha] at h
      exact h
  · rw [if_neg hde] at hget
    unfold automaton
    rw [hget]
    exact .refl _

end Cache

/-- Edges are stored for a symbol: it is the end of the input or in the vocabulary, and not the largest of 32
bits. -/
def Network.Stores (n : Network) (x : Symbol) : Prop :=
  endOfInput ≤ x ∧ x ≤ n.maxSymbol ∧ AutomatonState.hasEdgeFor x

namespace Predictor
open Run

/-! ## Following an edge -/

/-- Working out an edge that is missing changes nothing that is there, and the edge is there afterwards if it
can be stored. -/
structure Stores (d : Nat) (source : Target) (x : Symbol) (p : Predictor) (r : Ending Predictor Target) : Prop where
  retains : p.cache.Retains r.2.cache
  stored : ∀ t, r.1 = .ok t → p.network.Stores x → (r.2.cache.automaton d).edge? source x = some t

theorem Stores.failed {d : Nat} {source : Target} {x : Symbol} {p p' : Predictor} {e : RecognitionError}
    (h : p.cache.Retains p'.cache) : Stores d source x p (.error e, p') where
  retains := h
  stored _ ht := nomatch ht

/-- Storing an edge of a state that has none for the symbol. -/
theorem stores_storeEdge {d : Nat} {source : Target} {x : Symbol} {p : Predictor} {s : AutomatonState}
    (hs : (p.cache.automaton d).state? source = some s) (hnone : s.edge? x = none) (t : Target) :
    Stores d source x p ((storeEdge d source x t >>= fun _ => pure t) p) := by
  have hmissing : (p.cache.automaton d).edge? source x = none := by
    rw [Automaton.edge?, hs]
    exact hnone
  rw [bind_apply, storeEdge_apply]
  dsimp only
  split
  · next hin =>
    refine ⟨.change (Automaton.retains_setEdge hmissing t), fun u hu hx => ?_⟩
    cases hu
    show ((p.cache.change d _).automaton d).edge? source x = some t
    rw [Cache.automaton_change_of_state hs, Automaton.edge?_setEdge hs, AutomatonState.edge?_setEdge,
      if_pos ⟨hx.2.2, rfl⟩]
  · next hout => exact ⟨.refl _, fun u hu hx => absurd ⟨hx.1, hx.2.1⟩ hout⟩

theorem Stores.after {d : Nat} {source : Target} {x : Symbol} {p p' : Predictor} {r : Ending Predictor Target}
    (h : Stores d source x p' r) (hretains : p.cache.Retains p'.cache) (hnetwork : p'.network = p.network) :
    Stores d source x p r where
  retains := hretains.trans h.retains
  stored t ht hx := h.stored t ht (hnetwork ▸ hx)

/-- A state is there, or asking for it fails. -/
theorem automatonState_cases (d : Nat) (source : Target) (p : Predictor) :
    (∃ s, (p.cache.automaton d).state? source = some s ∧ automatonState d source p = (.ok s, p)) ∨
      ∃ e, automatonState d source p = (.error e, p) := by
  unfold automatonState
  rw [bind_apply, get_apply]
  dsimp only
  cases hs : (p.cache.automaton d).state? source with
  | some s => exact .inl ⟨s, rfl, rfl⟩
  | none => cases source <;> exact .inr ⟨_, rfl⟩

theorem stores_computeEdge {d : Nat} {source : Target} {x : Symbol} {p : Predictor}
    (hmissing : (p.cache.automaton d).edge? source x = none) :
    Stores d source x p (computeEdge d source x p) := by
  rcases automatonState_cases d source p with ⟨s, hs, hstate⟩ | ⟨e, hstate⟩
  · have hnone : s.edge? x = none := by
      rw [Automaton.edge?, hs] at hmissing
      exact hmissing
    rw [computeEdge, bind_apply, hstate]
    dsimp only
    rw [bind_apply, get_apply]
    dsimp only
    rw [bind_apply, withStacksOnly_apply]
    generalize hwork : (p.surroundings false none).reach true x s.configs ⟨p.cache.graph, (), 0⟩ = r
    obtain ⟨e | _ | reached, w⟩ := r
    · exact .failed (.of_automata rfl)
    · have hstore := stores_storeEdge (d := d) (p := p.afterWork w) hs hnone .error
      exact hstore.after (.of_automata rfl) rfl
    · dsimp only
      rw [bind_apply, classifyReached_apply]
      dsimp only
      generalize AutomatonState.classify _ _ _ _ _ = made
      obtain ⟨made, graph⟩ := made
      -- the state that was made is added, and does not come in the way of the source's edges
      generalize hp : (p.afterWork w).withGraph graph = p₁
      have hautomata : p₁.cache.automata = p.cache.automata := by
        rw [← hp]
        rfl
      have hsame : p₁.cache.automaton d = p.cache.automaton d := by
        unfold Cache.automaton
        rw [hautomata]
      have hadd : addState d made p₁ = (.ok ((p.cache.automaton d).add made).1,
          { p₁ with cache := p₁.cache.change d fun _ => ((p.cache.automaton d).add made).2 }) := by
        rw [← hsame]
        rfl
      have hs' : (p₁.cache.automaton d).state? source = some s := by
        rw [hsame]
        exact hs
      have hadded : (((p₁.cache.change d fun _ => ((p.cache.automaton d).add made).2)).automaton d).state?
          source = some s := by
        rw [Cache.automaton_change_of_state hs']
        exact Automaton.state?_add hs made
      have hretains : p₁.cache.Retains (p₁.cache.change d fun _ => ((p.cache.automaton d).add made).2) := by
        refine .change ?_
        rw [hsame]
        exact Automaton.retains_add _ made
      rw [bind_apply, hadd]
      have hstore := stores_storeEdge (d := d)
        (p := { p₁ with cache := p₁.cache.change d fun _ => ((p.cache.automaton d).add made).2 })
        hadded hnone ((p.cache.automaton d).add made).1
      refine hstore.after ((Cache.Retains.of_automata hautomata).trans hretains) ?_
      rw [← hp]
      rfl
  · rw [computeEdge, bind_apply, hstate]
    exact .failed (.refl _)

/-- **What is followed is stored.**  Following an edge changes nothing that is there.  If it leads somewhere, over
a symbol for which edges are stored, the edge is there afterwards. -/
theorem stores_step (d : Nat) (source : Target) (x : Symbol) (p : Predictor) :
    Stores d source x p (step d source x p) := by
  rw [step, bind_apply, get_apply]
  dsimp only
  cases hedge : (p.cache.automaton d).edge? source x with
  | some t =>
    refine ⟨.of_automata rfl, fun u hu _ => ?_⟩
    cases hu
    exact hedge
  | none =>
    have hcompute := stores_computeEdge
      (p := { p with counters := { p.counters with misses := p.counters.misses + 1 } }) hedge
    dsimp only
    rw [bind_apply, count_apply]
    exact hcompute.after (.of_automata rfl) rfl

/-! ## Predictions -/

variable {σ : Type} (q : Question σ) {c : Cache}

/-- What leaves the automata alone. -/
theorem retains_of_outline {α : Type} {m : Run (Session σ) α} (hm : Leaves Session.outline m) :
    Preserves (fun s => c.Retains s.predictor.cache) m := fun s hs =>
  hs.trans (.of_automata (congrArg Prod.snd (hm s)))

theorem retains_lookAtState (steps : Nat) (previous : Target) (x : Symbol) :
    Preserves (fun s => c.Retains s.predictor.cache) (lookAtState q steps previous x) := by
  have hstep : Preserves (fun s : Session σ => c.Retains s.predictor.cache)
      (inSession (step q.decision previous x)) := fun s hs => hs.trans (stores_step _ _ _ s.predictor).retains
  have hstate : ∀ t, Preserves (fun s : Session σ => c.Retains s.predictor.cache)
      (inSession (automatonState q.decision t)) := fun t =>
    retains_of_outline (leaves_inSession_outline (leaves_automatonState _ t))
  refine hstep.bind fun t => .ite ?_ ?_
  · exact (hstate _).bind fun _ => .pure _
  · refine (hstate _).bind fun u => Preserves.get.bind fun s => ?_
    split <;> exact .pure _

theorem retains_startState (s : Session σ) : s.predictor.cache.Retains (startState q s).2.predictor.cache := by
  unfold startState
  rw [bind_apply, get_apply]
  dsimp only
  cases hstart : (s.predictor.cache.automaton q.decision).start with
  | some t => exact .refl _
  | none =>
    dsimp only
    rw [bind_apply, withSessionStacks_apply]
    rcases (s.predictor.surroundings false (some fun g => g.eval q.hooks q.outer)).startConfigs
      (s.predictor.cache.automaton q.decision).netState [] ⟨s.predictor.cache.graph, s.author, 0⟩
      with ⟨e | configs, w⟩
    · exact .of_automata rfl
    · dsimp only
      generalize AutomatonState.ofConfigs configs = made
      have hwork : s.predictor.cache.Retains (s.predictor.afterWork w).cache := .of_automata rfl
      have hnone : ((s.predictor.afterWork w).cache.automaton q.decision).start = none := hstart
      generalize s.predictor.afterWork w = p at hwork hnone
      generalize hadded : p.cache.change q.decision (fun _ => ((p.cache.automaton q.decision).add made).2) = c
      have hadd : p.cache.Retains c := by
        rw [← hadded]
        exact .change (Automaton.retains_add _ made)
      have hbegun : (c.automaton q.decision).start = none := by
        rw [← hadded]
        rcases Cache.automaton_change_cases p.cache q.decision
          (fun _ => ((p.cache.automaton q.decision).add made).2) with heq | heq <;> rw [heq]
        · rw [Automaton.start_add, hnone]
        · exact hnone
      have hset : c.Retains (c.change q.decision (·.setStart ((p.cache.automaton q.decision).add made).1)) :=
        .change (Automaton.retains_setStart hbegun _)
      have hend := (hwork.trans hadd).trans hset
      rw [← hadded] at hend
      exact hend

/-- Looking ahead changes nothing that is stored. -/
theorem retains_lookAhead : Preserves (fun s => c.Retains s.predictor.cache) (lookAhead q) := by
  have hstart : Preserves (fun s => c.Retains s.predictor.cache) (startState q) :=
    fun s hs => hs.trans (retains_startState q s)
  refine hstart.bind fun start => Preserves.get.bind fun stream => ?_
  rw [runAutomaton_eq]
  exact preserves_readLoop q (retains_lookAtState q) (fun x => retains_of_outline (leaves_readOn x)) _ _ _ _

end Predictor

/-- **What is stored stays.**  Whatever the network, the tokens, the author's callbacks and the settings are, a
prediction leaves every state, every edge and the beginning of each automaton as they are. -/
theorem Predictor.retains_predict {σ : Type} (hooks : ParserHooks σ) (outer : List Invocation) (decision : Nat)
    (s : Session σ) : s.predictor.cache.Retains (predict hooks outer decision s).2.predictor.cache := by
  have hahead : Run.Preserves (fun t => s.predictor.cache.Retains t.predictor.cache)
      (choose ⟨hooks, outer, decision, s.stream.index⟩) :=
    (retains_lookAhead _).bind fun a => retains_of_outline (leaves_conclude _ a)
  have hchoose := hahead s (.refl _)
  unfold predict
  split
  · exact .refl _
  · exact hchoose.trans (.of_automata rfl)

/-- A cache after more predictions were made with it. -/
inductive Cache.Later (n : Network) (c : Cache) : Cache → Prop
  /-- None was made. -/
  | refl : Later n c c
  /-- One more was made, whatever its result was. -/
  | predict {σ : Type} {s : Session σ} (hooks : ParserHooks σ) (outer : List Invocation) (decision : Nat) :
      s.predictor.network = n → Later n c s.predictor.cache →
      Later n c (Predictor.predict hooks outer decision s).2.predictor.cache

theorem Cache.Later.retains {n : Network} {c c' : Cache} (h : Later n c c') : c.Retains c' := by
  induction h with
  | refl => exact .refl c
  | predict hooks outer decision _ _ ih => exact ih.trans (Predictor.retains_predict hooks outer decision _)

end AdaptiveLL

import Mathlib
import AdaptiveLL.Proofs.Prediction.ConcludeAlike

/-! # Looking ahead with two caches

Two predictors for a network, under the same settings, may have different things in their caches.
As long as both caches are faithful, what one has stored is alike to what the other has stored or
works out.  So both look ahead through alike states and stop in the same way, at the same token
(`Predictor.lookAhead_agree`).
-/
namespace AdaptiveLL
open StackGraph (SameStacks Paired)

namespace AutomatonState.Alike
variable {strict : Bool} {g h k : StackGraph} {s t u : AutomatonState}

theorem symm (a : Alike strict g h s t) : Alike strict h g t s :=
  ⟨a.configs.symm, a.isAccept.symm, a.prediction.symm, a.needsFullContext.symm,
    a.guardedAlts.symm⟩

theorem trans (a : Alike strict g h s t) (b : Alike strict h k t u) : Alike strict g k s u :=
  ⟨a.configs.trans b.configs, a.isAccept.trans b.isAccept, a.prediction.trans b.prediction,
    a.needsFullContext.trans b.needsFullContext, a.guardedAlts.trans b.guardedAlts⟩

/-- Edges do not count. -/
theorem of_bare (a : Alike strict g h s.bare t.bare) : Alike strict g h s t :=
  ⟨a.configs, a.isAccept, a.prediction, a.needsFullContext, a.guardedAlts⟩

end AutomatonState.Alike

namespace SameStates
variable {strict : Bool} {g h k : StackGraph} {o o' o'' : Option AutomatonState}

theorem symm (a : SameStates strict g h o o') : SameStates strict h g o' o := by
  cases a with
  | none => exact .none
  | some a => exact .some a.symm

theorem trans (a : SameStates strict g h o o') (b : SameStates strict h k o' o'') :
    SameStates strict g k o o'' := by
  cases a with
  | none =>
    cases b
    exact .none
  | some a =>
    cases b with
    | some b => exact .some (a.trans b)

end SameStates

/-! ## What is stored is determined -/

section
variable {n : Network} {settings : Settings} {g h g₀ : StackGraph}

/-- All states to begin in have alike configurations. -/
theorem FirstState.alike {netState : Nat} {s t : AutomatonState}
    (hs : FirstState n (· = settings) netState g s)
    (ht : FirstState n (· = settings) netState h t) :
    ConfigSet.Alike false g h s.configs t.configs := by
  obtain ⟨_, hset, g₁, configs, w, hg₁, -, -, hrun, ha⟩ := hs
  obtain rfl := hset.symm
  obtain ⟨_, hset, h₁, configs', v, hh₁, -, -, hrun', ha'⟩ := ht
  obtain rfl := hset.symm
  have hagree := Surroundings.startConfigs_agree
    (Surroundings.alone_alike n settings) (w := ⟨g₁, (), 0⟩) (v := ⟨h₁, (), 0⟩)
    ⟨hg₁, hh₁, trivial⟩ netState []
  rw [hrun, hrun'] at hagree
  cases hagree with
  | ok hrel => exact (ha.symm.trans hrel.2.1.lax).trans ha'

/-- A state to begin in that is stored can be worked out. -/
theorem FirstState.not_error {netState : Nat} {s : AutomatonState} {e : RecognitionError}
    {w : Workspace Unit} (hs : FirstState n (· = settings) netState g s) (hg₀ : g₀.Truthful)
    (he : (Surroundings.alone n settings).startConfigs netState [] ⟨g₀, (), 0⟩ = (.error e, w)) :
    False := by
  obtain ⟨_, hset, g₁, configs, w, hg₁, -, -, hrun, -⟩ := hs
  obtain rfl := hset.symm
  have hagree := Surroundings.startConfigs_agree
    (Surroundings.alone_alike n settings) (w := ⟨g₁, (), 0⟩) (v := ⟨g₀, (), 0⟩)
    ⟨hg₁, hg₀, trivial⟩ netState []
  rw [hrun, he] at hagree
  cases hagree

variable {count : Nat} {s t : AutomatonState} {x : Symbol} {o o' : Option AutomatonState}

/-- From alike states a symbol leads to alike states. -/
theorem EveryEdge.alike (ha : ConfigSet.Alike false g h s.configs t.configs)
    (hs : EveryEdge n (· = settings) count g s x o)
    (ht : EveryEdge n (· = settings) count h t x o') : SameStates false g h o o' := by
  obtain ⟨_, hset, g₀, o₀, g₁, hg₀, -, hconfigs, hrun, hsame, -⟩ := hs
  obtain rfl := hset.symm
  obtain ⟨_, hset, h₀, o₀', h₁, hh₀, -, hconfigs', hrun', hsame', -⟩ := ht
  obtain rfl := hset.symm
  have hagree := edgeResult_agree n settings count x hg₀ hh₀
    ((hconfigs.lax.trans ha).trans hconfigs'.lax.symm)
  rw [hrun, hrun'] at hagree
  cases hagree with
  | ok hrel => exact (hsame.symm.trans hrel.2.1).trans hsame'

/-- An edge that is stored can be worked out. -/
theorem EveryEdge.not_error (ha : ConfigSet.Alike false g h s.configs t.configs)
    (hh : h.Truthful) (hs : EveryEdge n (· = settings) count g s x o) {e : RecognitionError}
    {h₁ : StackGraph} (he : edgeResult n settings count x t.configs h = (.error e, h₁)) : False := by
  obtain ⟨_, hset, g₀, o₀, g₁, hg₀, -, hconfigs, hrun, -⟩ := hs
  obtain rfl := hset.symm
  have hagree := edgeResult_agree n settings count x hg₀ hh (hconfigs.lax.trans ha)
  rw [hrun, he] at hagree
  cases hagree

end

namespace Predictor
variable {σ : Type} {n : Network} {settings : Settings} {d : Nat} {s t s' t' s'' t'' : Session σ}

/-- Twins that have gone on, each running the automaton of a decision. -/
structure Onward (n : Network) (settings : Settings) (d : Nat) (s t s' t' : Session σ) : Prop where
  twins : Twins n (· = settings) s' t'
  left : Advances n (· = settings) d s.predictor s'.predictor
  right : Advances n (· = settings) d t.predictor t'.predictor

theorem Onward.refl (h : Twins n (· = settings) s t) : Onward n settings d s t s t :=
  ⟨h, .refl h.left, .refl h.right⟩

theorem Onward.trans (h : Onward n settings d s t s' t') (h' : Onward n settings d s' t' s'' t'') :
    Onward n settings d s t s'' t'' :=
  ⟨h'.twins, h.left.trans h'.left, h.right.trans h'.right⟩

theorem Onward.paired (ho : Onward n settings d s t s' t') :
    Paired s.predictor.cache.graph t.predictor.cache.graph s'.predictor.cache.graph
      t'.predictor.cache.graph :=
  ⟨ho.left.sane.cache.graph, ho.right.sane.cache.graph, ho.left.grows, ho.right.grows⟩

theorem Twins.onward (h : Twins n (· = settings) s t) (hs : Runs n (· = settings) d s s')
    (ht : Runs n (· = settings) d t t') : Onward n settings d s t s' t' where
  twins := ⟨hs.predictor.sane, ht.predictor.sane,
    hs.predictor.settings.trans (h.settings.trans ht.predictor.settings.symm),
    hs.stream.trans (h.stream.trans ht.stream.symm),
    hs.author.trans (h.author.trans ht.author.symm)⟩
  left := hs.predictor
  right := ht.predictor

/-- Targets that name alike states, or are both nowhere. -/
def SameTargets (d : Nat) (p p' : Predictor) (t t' : Target) : Prop :=
  ∃ o o', Automaton.Names (p.cache.automaton d) t o ∧ Automaton.Names (p'.cache.automaton d) t' o' ∧
    SameStates false p.cache.graph p'.cache.graph o o'

theorem SameTargets.after {x y : Target} (hxy : SameTargets d s.predictor t.predictor x y)
    (h : Twins n (· = settings) s t) (ho : Onward n settings d s t s' t') :
    SameTargets d s'.predictor t'.predictor x y := by
  obtain ⟨o, o', hn, hn', hsame⟩ := hxy
  refine ⟨o, o', hn.mono ho.left.automaton, hn'.mono ho.right.automaton, ?_⟩
  cases hsame with
  | none => exact .none
  | some ha => exact .some (ha.mono h.left.cache.graph h.right.cache.graph ho.paired)

/-- Twins begin in alike states. -/
theorem startState_agree (q : Question σ) (hd : q.decision < n.decisions.size)
    (h : Twins n (· = settings) s t) :
    Matches (fun x s' y t' => Onward n settings q.decision s t s' t' ∧ (∃ i, x = .state i) ∧
        SameTargets q.decision s'.predictor t'.predictor x y)
      (Onward n settings q.decision s t) (startState q s) (startState q t) := by
  have hs := startState_ends q s h.left hd
  have ht := startState_ends q t h.right hd
  have hnet : (s.predictor.cache.automaton q.decision).netState =
      (t.predictor.cache.automaton q.decision).netState :=
    Option.some.inj ((Cache.netState_automaton h.left.cache.fits hd).symm.trans
      (Cache.netState_automaton h.right.cache.fits hd))
  have hg := h.left.cache.graph
  have hg' := h.right.cache.graph
  generalize startState q s = r at hs ⊢
  generalize startState q t = r' at ht ⊢
  -- Both begin in sets that are alike, so it cannot be that only one of them fails.
  obtain ⟨e | x, s'⟩ := r <;> obtain ⟨e' | y, t'⟩ := r'
  · obtain ⟨hruns, w, hw⟩ := hs
    obtain ⟨hruns', v, hv⟩ := ht
    have hagree := Surroundings.startConfigs_agree
      (Surroundings.alone_alike n settings) (w := ⟨s.predictor.cache.graph, (), 0⟩)
      (v := ⟨t.predictor.cache.graph, (), 0⟩) ⟨hg, hg', trivial⟩
      (t.predictor.cache.automaton q.decision).netState []
    rw [hnet, h.left.settings] at hw
    rw [h.right.settings] at hv
    rw [hw, hv] at hagree
    cases hagree with
    | error e _ => exact .error e (h.onward hruns hruns')
  · obtain ⟨-, w, hw⟩ := hs
    obtain ⟨-, f, -, hf⟩ := ht
    rw [hnet, h.left.settings] at hw
    exact (hf.not_error hg hw).elim
  · obtain ⟨-, f, -, hf⟩ := hs
    obtain ⟨-, v, hv⟩ := ht
    rw [← hnet, h.right.settings] at hv
    exact (hf.not_error hg' hv).elim
  · obtain ⟨hruns, f, hn, hf⟩ := hs
    obtain ⟨hruns', f', hn', hf'⟩ := ht
    have hevery := (hruns.predictor.sane.cache.automaton hd).every_of_names hn
    have hevery' := (hruns'.predictor.sane.cache.automaton hd).every_of_names hn'
    rw [← hnet] at hf'
    refine .ok ⟨h.onward hruns hruns', ?_, some f, some f', hn, hn',
      .some (hevery.1.alike hevery'.1 (hf.alike hf'))⟩
    cases hn
    exact ⟨_, rfl⟩

/-- Twins follow an edge to alike states. -/
theorem step_agree (hd : d < n.decisions.size) (h : Twins n (· = settings) s t) {i : Nat} {y : Target}
    (hxy : SameTargets d s.predictor t.predictor (.state i) y) (x : Symbol) :
    Matches (fun u s' v t' => Onward n settings d s t s' t' ∧
        SameTargets d s'.predictor t'.predictor u v)
      (Onward n settings d s t) (inSession (step d (.state i) x) s) (inSession (step d y x) t) := by
  obtain ⟨o, o', hn, hn', hsame⟩ := hxy
  obtain ⟨f, rfl⟩ : ∃ f, o = some f := by
    cases hn
    exact ⟨_, rfl⟩
  cases hsame with
  | @some _ f' hff' =>
    have hs := step_ends h.left hd hn x
    have ht := step_ends h.right hd hn' x
    have hg := h.left.cache.graph
    have hg' := h.right.cache.graph
    rw [inSession_apply, inSession_apply]
    generalize step d (.state i) x s.predictor = r at hs ⊢
    generalize step d y x t.predictor = r' at ht ⊢
    -- Alike states have alike edges, so it cannot be that only one of the two fails.
    obtain ⟨e | u, p⟩ := r <;> obtain ⟨e' | v, p'⟩ := r'
    · obtain ⟨hadv, w, hw⟩ := hs
      obtain ⟨hadv', w', hw'⟩ := ht
      have hagree := edgeResult_agree n settings (n.alternatives d) x hg hg' hff'.configs
      rw [h.left.settings] at hw
      rw [h.right.settings] at hw'
      rw [hw, hw'] at hagree
      cases hagree with
      | error e _ => exact .error e (h.onward ⟨hadv, rfl, rfl⟩ ⟨hadv', rfl, rfl⟩)
    · obtain ⟨-, w, hw⟩ := hs
      obtain ⟨hadv', o', -, hedge⟩ := ht
      rw [h.left.settings] at hw
      have ha := hff'.configs.symm.mono hg' hg
        ⟨hadv'.sane.cache.graph, hg, hadv'.grows, StackGraph.Extends.refl _⟩
      exact (hedge.not_error ha hg hw).elim
    · obtain ⟨hadv, o, -, hedge⟩ := hs
      obtain ⟨-, w, hw⟩ := ht
      rw [h.right.settings] at hw
      have ha := hff'.configs.mono hg hg'
        ⟨hadv.sane.cache.graph, hg', hadv.grows, StackGraph.Extends.refl _⟩
      exact (hedge.not_error ha hg' hw).elim
    · obtain ⟨hadv, o, hu, hedge⟩ := hs
      obtain ⟨hadv', o', hv, hedge'⟩ := ht
      have honward : Onward n settings d s t { s with predictor := p } { t with predictor := p' } :=
        h.onward ⟨hadv, rfl, rfl⟩ ⟨hadv', rfl, rfl⟩
      have ha := hff'.configs.mono hg hg' (honward.paired)
      exact .ok ⟨honward, o, o', hu, hv, hedge.alike ha hedge'⟩

/-! ## Runs of the automaton -/

/-- Looking up the states of targets that name alike states. -/
theorem automatonState_agree {p p' : Predictor} {i : Nat} {y : Target}
    (hxy : SameTargets d p p' (.state i) y) :
    ∃ u u', automatonState d (.state i) p = (.ok u, p) ∧ automatonState d y p' = (.ok u', p') ∧
      u.Alike false p.cache.graph p'.cache.graph u' ∧
      Automaton.Names (p.cache.automaton d) (.state i) (some u.bare) := by
  obtain ⟨o, o', hn, hn', hsame⟩ := hxy
  cases hsame with
  | none => cases hn
  | some hff' =>
    obtain ⟨u, hu, rfl⟩ := automatonState_ends hn
    obtain ⟨u', hu', rfl⟩ := automatonState_ends hn'
    exact ⟨u, u', hu, hu', hff'.of_bare, hn⟩

theorem haltAt?_alike {g h : StackGraph} {u u' : AutomatonState} (ha : u.Alike false g h u')
    (hu : u.bare.Classified (n.alternatives d)) (mode : PredictionMode) (steps : Nat) (t t' : Target)
    (x : Symbol) :
    Option.Rel (Halt.Alike false g h) (haltAt? mode steps t u x) (haltAt? mode steps t' u' x) := by
  unfold haltAt?
  rw [← ha.needsFullContext, ← ha.isAccept]
  split
  · exact .some (.contested _ ha)
  · split
    · next hacc => exact .some (.accepting t t' x ha (hu.exists_prediction hacc))
    · exact .none

theorem readOn_onward (d : Nat) (h : Twins n (· = settings) s t) (x : Symbol) :
    Matches (fun y s' y' t' => y = y' ∧ Onward n settings d s t s' t') (Onward n settings d s t)
      (readOn x s) (readOn x t) := by
  rw [readOn_apply, readOn_apply, h.stream]
  split
  · exact .ok ⟨rfl, .refl h⟩
  · exact .ok ⟨rfl, { h with stream := rfl }, .refl h.left, .refl h.right⟩

/-- Twins run the automaton of a decision to the same end. -/
theorem runAutomaton_agree (q : Question σ) (hd : q.decision < n.decisions.size) (fuel steps : Nat)
    (h : Twins n (· = settings) s t) {i : Nat} {y : Target}
    (hxy : SameTargets q.decision s.predictor t.predictor (.state i) y) (x : Symbol) :
    Matches (fun r s' r' t' => Onward n settings q.decision s t s' t' ∧
        Halt.Alike false s'.predictor.cache.graph t'.predictor.cache.graph r r')
      (Onward n settings q.decision s t) (runAutomaton q fuel steps (.state i) x s)
      (runAutomaton q fuel steps y x t) := by
  induction fuel generalizing steps s t i y x with
  | zero => exact .error _ (.refl h)
  | succ fuel ih =>
    unfold runAutomaton
    have hcount : Matches (fun _ s' _ t' => s' = s ∧ t' = t) (Onward n settings q.decision s t)
        (countStep q steps s) (countStep q steps t) := by
      rw [countStep_apply, countStep_apply, h.settings]
      dsimp only
      split
      · exact .error _ (.refl h)
      · exact .ok ⟨rfl, rfl⟩
    refine Matches.bind hcount ?_
    rintro - _ - _ ⟨rfl, rfl⟩
    refine Matches.bind (step_agree hd h hxy x) ?_
    rintro u s' v t' ⟨honward, huv⟩
    have h' := honward.twins
    cases u with
    | error =>
      obtain ⟨o, o', hn, hn', hsame⟩ := huv
      cases hn
      cases hsame
      cases hn'
      obtain ⟨f, f', hf, hf', hff', -⟩ := automatonState_agree (hxy.after h honward)
      change Matches _ _
        ((inSession (automatonState q.decision (.state i)) >>= fun f =>
          pure (.stranded f.configs x) : Run (Session σ) Halt) s')
        ((inSession (automatonState q.decision y) >>= fun f =>
          pure (.stranded f.configs x) : Run (Session σ) Halt) t')
      simp only [Run.bind_apply, inSession_apply, hf, hf']
      exact .ok ⟨honward, .stranded x hff'.configs⟩
    | state j =>
      obtain ⟨f, f', hf, hf', hff', hn⟩ := automatonState_agree huv
      have hevery := (h'.left.cache.automaton hd).every_of_names hn
      obtain ⟨k, rfl⟩ : ∃ k, v = .state k := by
        obtain ⟨o, o', hn, hn', hsame⟩ := huv
        cases hn
        cases hsame
        cases hn'
        exact ⟨_, rfl⟩
      change Matches _ _
        ((inSession (automatonState q.decision (.state j)) >>= goOn q fuel steps (.state j) x) s')
        ((inSession (automatonState q.decision (.state k)) >>= goOn q fuel steps (.state k) x) t')
      have hhalt := haltAt?_alike hff' hevery.1 settings.mode steps (.state j) (.state k) x
      simp only [goOn, Run.bind_apply, inSession_apply, hf, hf', Run.get_apply, h'.left.settings,
        h'.right.settings]
      generalize haltAt? settings.mode steps (.state j) f x = o at hhalt ⊢
      generalize haltAt? settings.mode steps (.state k) f' x = o' at hhalt ⊢
      cases hhalt with
      | some ha => exact .ok ⟨honward, ha⟩
      | none =>
        have hread := readOn_onward q.decision h' x
        refine Matches.bind (hread.imp (fun _ _ _ _ hr => hr) fun _ _ hr => honward.trans hr) ?_
        rintro next s'' _ t'' ⟨rfl, honward'⟩
        have hfar := honward.trans honward'
        exact (ih (steps + 1) hfar.twins (huv.after h' honward') next).imp
          (fun _ _ _ _ hr => ⟨hfar.trans hr.1, hr.2⟩) fun _ _ hr => hfar.trans hr

/-- **Twins look ahead to the same end.**  What they have in their caches does not matter. -/
theorem lookAhead_agree (q : Question σ) (hd : q.decision < n.decisions.size)
    (h : Twins n (· = settings) s t) :
    Matches (fun r s' r' t' => Onward n settings q.decision s t s' t' ∧
        Halt.Alike false s'.predictor.cache.graph t'.predictor.cache.graph r r')
      (Onward n settings q.decision s t) (lookAhead q s) (lookAhead q t) := by
  unfold lookAhead
  refine Matches.bind (startState_agree q hd h) ?_
  rintro x s' y t' ⟨honward, ⟨i, rfl⟩, hxy⟩
  simp only [Run.bind_apply, Run.get_apply, honward.twins.stream]
  exact (runAutomaton_agree q hd _ 0 honward.twins hxy _).imp
    (fun _ _ _ _ hr => ⟨honward.trans hr.1, hr.2⟩) fun _ _ hr => honward.trans hr

end Predictor
end AdaptiveLL

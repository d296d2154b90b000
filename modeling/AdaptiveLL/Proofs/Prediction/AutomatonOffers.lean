import Mathlib
import AdaptiveLL.Proofs.Prediction.Frame
import AdaptiveLL.Proofs.Prediction.StateOffers

/-! # Running an automaton towards an alternative

While a machine can finish from some alternative of a decision, the run of the decision's automaton is
never stranded: it ends at a state that recognises an alternative not above any of these, or that asks
for the caller's stack, unless a limit is hit (`Predictor.lookAhead_settles`).
-/
namespace AdaptiveLL
open StackGraph (Extends)

/-- Whether a machine can finish from an alternative of a state, with a stack of return states. -/
def Network.Viable (n : Network) (stop q : Nat) (stack : List Nat) (w : List Symbol) (alt : Nat) :
    Prop :=
  ∃ t, (n.state q).alternative? alt = some t ∧ n.Finishes stop ⟨t.target, stack⟩ w

variable {gr : Grammar} {plan : Plan} {lazy : Prop} {n : Network} {top last stop : Nat}
  {σ : Type}

/-! ## Where to begin -/

/-- Starting closes one configuration for each alternative, over the caller's stack if it is known. -/
theorem Surroundings.startConfigs_closed (hl : gr.LaidOut plan lazy n) {env : Surroundings σ}
    {ws ws' : Workspace σ} (hn : env.network = n) (hw : ws.graph.Truthful) {q rule : Nat}
    {outer : List Invocation} (hcalls : n.Calls top outer rule) {out : ConfigSet}
    (h : env.startConfigs q (if env.fullContext then outer else []) ws = (.ok out, ws')) :
    ∃ g cs, Closure.Closed env g cs out ws'.graph ∧
      (∀ alt t, (n.state q).alternative? alt = some t →
        Config.AnyCovers (!env.fullContext) g cs alt ⟨t.target, n.returnStates outer⟩) ∧
      (env.fullContext → ∀ alt s, Config.AnyCovers (!env.fullContext) g cs alt s →
        ∃ t, (n.state q).alternative? alt = some t ∧ s = ⟨t.target, n.returnStates outer⟩) := by
  subst hn
  obtain ⟨r, g, hpush, -, -, hclosed⟩ := startConfigs_spots hw h
  refine ⟨g, _, hclosed, ?_, ?_⟩
  · intro alt t ht
    obtain ⟨hpos, -, hget⟩ := State.alternative?_eq_some ht
    refine anyCovers_firstConfigs.mpr ⟨alt - 1, t, hget, by omega, rfl, ?_⟩
    -- In full context the caller's stack was pushed, otherwise the stack is the wildcard.
    by_cases hf : env.fullContext
    · rw [if_pos hf, if_pos hf] at hpush
      obtain ⟨r', g', hpush', hset⟩ := hl.push_of_calls hcalls hw
      rw [hpush] at hpush'
      cases hpush'
      exact StackGraph.covers_of_mem (by rw [hset]; rfl)
    · rw [if_neg hf] at hpush
      obtain ⟨rfl, rfl⟩ := hpush
      rw [Bool.not_eq_true] at hf
      rw [hf]
      exact ⟨[], by rw [hw.toSound.stackSet_bottom]; rfl, .nil _⟩
  · intro hf alt s hs
    rw [if_pos hf, if_pos hf] at hpush
    obtain ⟨i, t, hget, rfl, hstate, hcover⟩ := anyCovers_firstConfigs.mp hs
    obtain ⟨r', g', hpush', hset⟩ := hl.push_of_calls hcalls hw
    rw [hpush] at hpush'
    cases hpush'
    rw [hf, Bool.not_true, StackGraph.covers_false, hset] at hcover
    refine ⟨t, ?_, ?_⟩
    · rw [State.alternative?, if_neg (Nat.succ_ne_zero i)]
      exact hget
    · obtain ⟨state, stack⟩ := s
      obtain rfl : state = t.target := hstate
      obtain rfl : stack = _ := hcover
      rfl

/-- Below every alternative of a decision lies what the callers left. -/
theorem Grammar.LaidOut.chained_of_alternative (hl : gr.LaidOut plan lazy n)
    (hlay : gr.layout = .ok n) {q : Nat} (hq : q ∈ n.decisions.toList) {stack : List Nat}
    (hchain : n.Chained (some top) q stack) {alt : Nat} {t : Transition}
    (ht : (n.state q).alternative? alt = some t) : n.Chained (some top) t.target stack := by
  obtain ⟨hstop, hepsilon⟩ := hl.epsilon_of_decision hlay hq
  obtain ⟨-, -, hget⟩ := State.alternative?_eq_some ht
  have hmem : t ∈ n.ways q := List.mem_of_getElem? hget
  obtain ⟨z, rfl⟩ := hepsilon t hmem
  exact hl.chained_along hchain hstop hmem

/-- The configurations with which a decision begins offer the alternatives from which a machine can
finish. -/
theorem Surroundings.startConfigs_offers (hl : gr.LaidOut plan lazy n) (hlay : gr.layout = .ok n)
    (hc : n.Closing top last stop) {env : Surroundings σ} {ws ws' : Workspace σ}
    (hn : env.network = n) (hun : env.Unguarded) (hw : ws.graph.Truthful) {q : Nat}
    (hq : q ∈ n.decisions.toList) {outer : List Invocation}
    (hcalls : n.Calls top outer (n.state q).rule)
    (hchain : n.Chained (some top) q (n.returnStates outer)) {w : List Symbol} {out : ConfigSet}
    (h : env.startConfigs q (if env.fullContext then outer else []) ws = (.ok out, ws')) :
    out.Offers n stop (n.Viable stop q (n.returnStates outer) w) w ws'.graph := by
  obtain ⟨g, cs, hclosed, hfirst, -⟩ := startConfigs_closed hl hn hw hcalls h
  refine ⟨hclosed.sits.known, ?_⟩
  rintro i ⟨t, ht, hf⟩
  exact hclosed.exists_poised hl hc hn hun (hfirst i t ht)
    (hl.chained_of_alternative hlay hq hchain ht) hf

/-- So do the configurations of the state in which the automaton of the decision begins. -/
theorem FirstState.pending (hl : gr.LaidOut plan lazy n) (hlay : gr.layout = .ok n)
    (hc : n.Closing top last stop) {allowed : Settings → Prop} {q : Nat} {g : StackGraph}
    {s : AutomatonState} (h : FirstState n allowed q g s) (hq : q ∈ n.decisions.toList)
    {outer : List Invocation} (hcalls : n.Calls top outer (n.state q).rule)
    (hchain : n.Chained (some top) q (n.returnStates outer)) (w : List Symbol) :
    s.configs.Pending n stop (n.Viable stop q (n.returnStates outer) w) w g := by
  obtain ⟨settings, -, g₀, configs, w₀, hg₀, -, -, hrun, ha⟩ := h
  have hun : (Surroundings.alone n settings).Unguarded := fun hf => nomatch hf
  have hnet : (Surroundings.alone n settings).network = n := rfl
  have hwork : (⟨g₀, (), 0⟩ : Workspace Unit).graph.Truthful := hg₀
  have hoffers := Surroundings.startConfigs_offers hl hlay hc hnet hun hwork hq hcalls hchain (w := w) hrun
  have hplain := Surroundings.plain_startConfigs (hnet.symm ▸ hc.unguarded') hrun
  obtain ⟨_, _, hclosed, -⟩ := Surroundings.startConfigs_closed hl hnet hwork hcalls hrun
  exact ConfigSet.Pending.alike ⟨hoffers, hplain, hclosed.fullContext⟩ ha

/-! ## The run -/

namespace Predictor
variable {allowed : Settings → Prop} {V : Nat → Prop} {s s' : Session σ}

/-- The run of an automaton has come to something for the alternatives in question. -/
inductive Halt.Settles (mode : PredictionMode) (V : Nat → Prop) : Halt → Prop
  | contested (steps : Nat) {u : AutomatonState} : mode ≠ .sll → u.guardedAlts = none →
      Settles mode V (.contested steps u)
  | accepting (t : Target) {u : AutomatonState} (x : Symbol) {m : Nat} : u.guardedAlts = none →
      u.Picks V m → (mode ≠ .sll → u.needsFullContext = false) → Settles mode V (.accepting t u x)

theorem settles_of_haltAt? {u : AutomatonState} (hguards : u.guardedAlts = none)
    (hpicks : u.isAccept → ∃ m, u.Picks V m) {mode : PredictionMode} {steps : Nat} {t : Target}
    {x : Symbol} {a : Halt} (ha : haltAt? mode steps t u x = some a) : a.Settles mode V := by
  unfold haltAt? at ha
  by_cases hfull : u.needsFullContext && mode ≠ .sll
  · rw [if_pos hfull] at ha
    cases ha
    simp only [Bool.and_eq_true, decide_eq_true_eq] at hfull
    exact .contested _ hfull.2 hguards
  · rw [if_neg hfull] at ha
    by_cases haccept : u.isAccept
    · rw [if_pos haccept] at ha
      cases ha
      obtain ⟨m, hm⟩ := hpicks haccept
      refine .accepting t x hguards hm fun hmode => ?_
      simpa [hmode] using hfull
    · rw [if_neg haccept] at ha
      cases ha

theorem limited_countStep (q : Question σ) (steps : Nat) (s : Session σ) :
    Run.Limited (fun _ s' => s' = s) (countStep q steps s) := by
  unfold countStep
  rw [Run.bind_apply, Run.get_apply]
  dsimp only
  split
  · exact .limit (.inr ⟨_, _, rfl⟩)
  · exact .ok rfl

/-- Looking ahead runs the automaton from a state for what the decision begins with. -/
theorem limited_lookAhead {q : Question σ} {qs : Nat} (hqs : n.decisions[q.decision]? = some qs)
    (h : s.predictor.Sane n allowed) {good : Halt → Session σ → Prop}
    (hrun : ∀ t s' e, Runs n allowed q.decision s s' →
      Automaton.Names (s'.predictor.cache.automaton q.decision) t (some e) →
      FirstState n allowed qs s'.predictor.cache.graph e →
      Run.Limited good (runAutomaton q (s'.stream.size + 2) 0 t s'.stream.peek s')) :
    Run.Limited good (lookAhead q s) := by
  have hd : q.decision < n.decisions.size := (Array.getElem?_eq_some_iff.mp hqs).1
  have hnet : (s.predictor.cache.automaton q.decision).netState = qs :=
    Option.some.inj ((Cache.netState_automaton h.cache.fits hd).symm.trans hqs)
  have hstart := startState_ends q s h hd
  unfold lookAhead
  rw [Run.bind_apply]
  generalize startState q s = r at hstart ⊢
  obtain ⟨e | t, s'⟩ := r
  · obtain ⟨-, w, herror⟩ := hstart
    exact .limit (Surroundings.fails_startConfigs _ rfl _ _ herror)
  · obtain ⟨hruns, e, hn, hfirst⟩ := hstart
    rw [hnet] at hfirst
    dsimp only
    rw [Run.bind_apply, Run.get_apply]
    exact hrun t s' e hruns hn hfirst

/-- A prediction comes to what choosing an alternative comes to. -/
theorem limited_predict {hooks : ParserHooks σ} {outer : List Invocation} {decision : Nat}
    (hd : decision < s.predictor.network.decisions.size) {good : Nat → Prop}
    (hchoose : Run.Limited (fun m _ => good m) (choose ⟨hooks, outer, decision, s.stream.index⟩ s)) :
    Run.Limited (fun m _ => good m) (predict hooks outer decision s) := by
  unfold predict
  rw [if_neg (Nat.not_le.mpr hd)]
  dsimp only
  generalize choose ⟨hooks, outer, decision, s.stream.index⟩ s = r at hchoose ⊢
  cases hchoose with
  | ok hm => exact .ok hm
  | limit he => exact .limit he

/-- Running the automaton from a state that offers some alternatives. -/
theorem runAutomaton_settles (hl : gr.LaidOut plan lazy n) (hc : n.Closing top last stop)
    (hV : ∃ i, V i) (q : Question σ) (hd : q.decision < n.decisions.size) (fuel steps : Nat)
    (h : s.predictor.Sane n allowed) (hplaced : s.stream.Placed) {t : Target} {e : AutomatonState}
    (ht : Automaton.Names (s.predictor.cache.automaton q.decision) t (some e))
    (hp : e.configs.Pending n stop V s.stream.remaining s.predictor.cache.graph)
    (hfuel : s.stream.remaining.length ≤ fuel) :
    Run.Limited (fun a s' => a.Settles s.predictor.settings.mode V ∧ s'.predictor.Sane n allowed)
      (runAutomaton q fuel steps t s.stream.peek s) := by
  induction fuel generalizing steps s t e with
  | zero =>
    obtain ⟨w, hw, -⟩ := hplaced.remaining_cases
    rw [hw] at hfuel
    exact absurd hfuel (by simp)
  | succ fuel ih =>
    obtain ⟨w, hw, hend, hmore⟩ := hplaced.remaining_cases
    rw [hw] at hp hfuel
    unfold runAutomaton
    refine (limited_countStep q steps s).bind fun _ s₀ hs₀ => ?_
    subst hs₀
    have hstep := step_ends h hd ht s₀.stream.peek
    rw [Run.bind_apply, inSession_apply]
    generalize step q.decision t s₀.stream.peek s₀.predictor = r at hstep ⊢
    obtain ⟨err | u, p⟩ := r
    · obtain ⟨-, g, herror⟩ := hstep
      exact .limit (isLimit_of_edgeResult herror)
    · obtain ⟨hadv, o, hu, hedge⟩ := hstep
      have hpend : e.configs.Pending n stop V (s₀.stream.peek :: w) p.cache.graph := by
        have hevery := (h.cache.automaton hd).every_of_names ht
        have hsame : ConfigSet.Alike true s₀.predictor.cache.graph p.cache.graph e.configs e.configs :=
          (ConfigSet.Alike.refl hevery.2).mono h.cache.graph h.cache.graph
            ⟨h.cache.graph, hadv.sane.cache.graph, .refl _, hadv.grows⟩
        exact hp.alike hsame
      obtain ⟨f, rfl, hf⟩ := hedge.offers hl hc hV hpend hend
      have herror : u.isError = false := by
        cases hu
        rfl
      obtain ⟨f', hf', rfl⟩ := automatonState_ends hu
      have hpicks : f'.isAccept → ∃ m, f'.Picks V m := fun haccept => by
        obtain ⟨m, hm⟩ := hf.picks haccept
        exact ⟨m, hm.prediction, hm.le, hm.only⟩
      dsimp only
      rw [herror]
      change Run.Limited _ ((inSession (automatonState q.decision u) >>=
        goOn q fuel steps u s₀.stream.peek) { s₀ with predictor := p })
      rw [Run.bind_apply, inSession_apply, hf']
      dsimp only
      rw [goOn, Run.bind_apply, Run.get_apply]
      dsimp only
      have hmode : p.settings.mode = s₀.predictor.settings.mode := by rw [hadv.settings]
      cases ha : haltAt? p.settings.mode steps u f' s₀.stream.peek with
      | some a =>
        rw [hmode] at ha
        exact .ok ⟨settles_of_haltAt? (u := f') hf.guardless hpicks ha, hadv.sane⟩
      | none =>
        -- a state that recognises nothing still offers the alternatives
        have haccept : f'.isAccept = false := by
          by_contra hne
          rw [Bool.not_eq_false] at hne
          unfold haltAt? at ha
          rw [if_pos hne] at ha
          split at ha <;> cases ha
        obtain ⟨-, hne, hpend'⟩ := hf.pending haccept
        have hpeek : s₀.stream.peek ≠ endOfInput := fun he => hne (hend.mp he)
        dsimp only
        rw [Run.bind_apply, readOn_apply, if_neg hpeek]
        rw [hmore hpeek] at hpend' hfuel
        have hrest := ih (s := ⟨p, s₀.stream.consume, s₀.author⟩) (steps + 1) hadv.sane hplaced.consume hu
          hpend' (Nat.le_of_succ_le_succ hfuel)
        rw [hmode] at hrest
        exact hrest

/-- Looking ahead under a chain of calls, while a machine can finish from some alternative. -/
theorem lookAhead_settles (hl : gr.LaidOut plan lazy n) (hlay : gr.layout = .ok n)
    (hkind : gr.kind = .parser) (hc : n.Closing top last stop) (q : Question σ) {qs : Nat}
    (hqs : n.decisions[q.decision]? = some qs) (hcalls : n.Calls top q.outer (n.state qs).rule)
    (h : s.predictor.Sane n allowed) (hplaced : s.stream.Placed)
    (hV : ∃ i, n.Viable stop qs (n.returnStates q.outer) s.stream.remaining i) :
    Run.Limited (fun a s' =>
      a.Settles s.predictor.settings.mode
        (n.Viable stop qs (n.returnStates q.outer) s.stream.remaining) ∧
      s'.predictor.Sane n allowed) (lookAhead q s) := by
  have hd : q.decision < n.decisions.size := (Array.getElem?_eq_some_iff.mp hqs).1
  have hmem : qs ∈ n.decisions.toList := Array.mem_toList_iff.mpr (Array.mem_of_getElem? hqs)
  have hchain := hl.chained_returnStates hcalls ⟨rfl, hl.kind_ne_tokensStart hkind qs⟩
  refine limited_lookAhead hqs h fun t s' e hruns hn hfirst => ?_
  have hp := hfirst.pending hl hlay hc hmem hcalls hchain s.stream.remaining
  rw [← hruns.stream] at hplaced hV hp ⊢
  have hrun := runAutomaton_settles hl hc hV q hd (s'.stream.size + 2) 0 hruns.predictor.sane hplaced hn hp
    (s'.stream.length_remaining_le.trans (Nat.le_succ _))
  rw [hruns.predictor.settings] at hrun
  exact hrun

end Predictor
end AdaptiveLL

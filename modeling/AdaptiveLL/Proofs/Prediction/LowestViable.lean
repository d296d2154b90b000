import Mathlib
import AdaptiveLL.Proofs.Prediction.FullContext

/-! # The lowest viable alternative

A prediction under a chain of calls, while a machine can read the rest of the input from some alternative
and stop with an empty stack, gives the lowest such alternative, unless a limit is hit
(`Predictor.predict_lowest`).  Without the caller's stack it may give a lower one, never a higher one
(`Predictor.predict_viable`).  What earlier predictions left behind makes no difference.
-/
namespace AdaptiveLL

variable {gr : Grammar} {plan : Plan} {lazy : Prop} {n : Network} {top last stop : Nat}
  {σ : Type}

/-! ## Where to begin over the caller's stack -/

namespace Network.Closing
variable (h : n.Closing top last stop)
include h

/-- Nothing that calls leave behind is where the input ends. -/
theorem clear_of_chained {outer : Option Nat} {q : Nat} {stack : List Nat}
    (hq : q ≠ last ∧ q ≠ stop) (hchain : n.Chained outer q stack) : Spot.Clear last stop ⟨q, stack⟩ := by
  induction stack generalizing q with
  | nil =>
    intro r hr
    rw [List.mem_singleton.mp hr]
    exact hq
  | cons f stack ih =>
    obtain ⟨-, ⟨caller, target, level, hcall⟩, hrest⟩ := hchain
    have hclear := ih (h.calls hcall).2 hrest
    intro r hr
    rcases List.mem_cons.mp hr with rfl | hr
    · exact hq
    · exact hclear r hr

/-- From the stop nothing more is read. -/
theorem eq_nil_of_finishes {w : List Symbol} (hf : n.Finishes stop ⟨stop, []⟩ w) : w = [] := by
  cases hf with
  | refl => rfl
  | free hfree _ =>
    cases hfree with
    | pass hq _ _ | call hq _ => exact absurd h.isStop hq
  | eat heat _ =>
    cases heat with
    | along hq _ _ => exact absurd h.isStop hq

/-- Where more is to be read the input has not ended. -/
theorem ne_last_of_viable {q : Nat} {stack : List Nat} (hchain : n.Chained (some top) q stack)
    {w : List Symbol} (hw : w ≠ []) {i : Nat} (hi : n.Viable stop q stack w i) : q ≠ last := by
  rintro rfl
  obtain ⟨t, ht, hf⟩ := hi
  have hmem : t ∈ n.ways q := List.mem_of_getElem? (State.alternative?_eq_some ht).2.2
  rw [h.ways_last, List.mem_singleton] at hmem
  subst hmem
  have hempty : stack = [] := by
    cases stack with
    | nil => rfl
    | cons f stack =>
      obtain ⟨-, ⟨caller, target, level, hcall⟩, -⟩ := hchain
      exact absurd h.inRule.1 (h.calls hcall).1
  subst hempty
  exact hw (h.eq_nil_of_finishes hf)

end Network.Closing

/-- The configurations with which a decision begins over the caller's stack cover no more than what a
machine begins with. -/
theorem Surroundings.startConfigs_weighs (hl : gr.LaidOut plan lazy n) (hlay : gr.layout = .ok n)
    (hc : n.Closing top last stop) {env : Surroundings σ} {ws ws' : Workspace σ}
    (hn : env.network = n) (hun : env.Unguarded) (hf : env.fullContext = true)
    (hend : env.endIsFree = false) (hw : ws.graph.Truthful) {q : Nat} (hq : q ∈ n.decisions.toList)
    {outer : List Invocation} (hcalls : n.Calls top outer (n.state q).rule)
    (hchain : n.Chained (some top) q (n.returnStates outer)) {w : List Symbol} (hmore : w ≠ [])
    (hV : ∃ i, n.Viable stop q (n.returnStates outer) w i) {out : ConfigSet}
    (h : env.startConfigs q outer ws = (.ok out, ws')) :
    out.Weighs n top last stop (n.Viable stop q (n.returnStates outer) w) w ws'.graph := by
  have hrun : env.startConfigs q (if env.fullContext then outer else []) ws = (.ok out, ws') := by
    rwa [if_pos hf]
  obtain ⟨g, cs, hclosed, -, honly⟩ := startConfigs_closed hl hn hw hcalls hrun
  have hoffers := startConfigs_offers hl hlay hc hn hun hw hq hcalls hchain (w := w) hrun
  subst hn
  -- every spot is one to which the machine drifts from an alternative
  have hfrom : ∀ alt s, out.Covers ws'.graph alt s → env.Collects s ∧ ∃ t,
      (env.network.state q).alternative? alt = some t ∧
        Relation.ReflTransGen (env.network.Drifts false) ⟨t.target, env.network.returnStates outer⟩ s := by
    intro alt s hs
    obtain ⟨hcollects, s₀, hs₀, hd⟩ := hclosed.sound hf alt s hs
    obtain ⟨t, ht, rfl⟩ := honly hf alt s₀ hs₀
    rw [Surroundings.Drifts, hend] at hd
    exact ⟨hcollects, t, ht, hd⟩
  obtain ⟨i, hi⟩ := hV
  have hne := hc.ne_last_of_viable hchain hmore hi
  refine ⟨hoffers, hclosed.fullContext.trans hf, fun alt s hs hfin => ?_, fun _ alt s hs => ?_,
    fun hnil => absurd hnil hmore⟩
  · obtain ⟨-, t, ht, hd⟩ := hfrom alt s hs
    exact ⟨t, ht, Network.finishes_of_drifts hc.unguarded' hd hfin⟩
  · obtain ⟨hcollects, t, ht, hd⟩ := hfrom alt s hs
    have hmem : t ∈ env.network.ways q := List.mem_of_getElem? (State.alternative?_eq_some ht).2.2
    have hbelow := hl.chained_of_alternative hlay hq hchain ht
    have htarget : t.target ≠ last ∧ t.target ≠ stop := by
      refine ⟨fun he => ?_, fun he => hne (hc.enters_stop hmem he)⟩
      obtain ⟨z, hz⟩ := (hl.epsilon_of_decision hlay hq).2 t hmem
      rw [hc.enters_last hmem he] at hz
      cases hz
    have hclear := hc.clear_of_drifts hd (hc.clear_of_chained htarget hbelow)
    have hchain' := hl.chained_of_drifts hd hbelow
    exact ⟨hclear, hchain', hc.not_isStop_of_clear hclear hchain' hcollects.stop⟩

/-- Under a chain of calls, starting over the caller's stack fails because a closure is too deep. -/
theorem Surroundings.isLimit_of_startConfigs (hl : gr.LaidOut plan lazy n) {env : Surroundings σ}
    {ws ws' : Workspace σ} (hn : env.network = n) (hf : env.fullContext = true)
    (hw : ws.graph.Truthful) {outer : List Invocation} {rule : Nat} (hcalls : n.Calls top outer rule)
    {q : Nat} {e : RecognitionError} (h : env.startConfigs q outer ws = (.error e, ws')) :
    e.IsLimit := by
  subst hn
  obtain ⟨r, g, hpush, -⟩ := hl.push_of_calls hcalls hw
  unfold startConfigs at h
  rw [if_pos hf] at h
  simp only [Run.bind_apply, Run.modifyGet_apply, Run.mk_apply, hpush] at h
  exact Closure.fails_closeAll _ _ h

namespace Predictor
variable {allowed : Settings → Prop} {s : Session σ}

/-- What asking the caller's stack does once it was reported. -/
def overCaller (q : Question σ) (steps : Nat) : Run (Session σ) Nat := do
  let p := (← get).predictor
  let env := p.surroundings true (some fun g => g.eval q.hooks q.outer)
  let start ← withSessionStacks (env.startConfigs (p.cache.automaton q.decision).netState q.outer)
  seek q.start
  let stream := (← get).stream
  runFullContext q env (stream.size + 3) steps start stream.peek

/-- The caller's stack is asked with the configurations that the decision begins with over it, and at the
tokens from which the prediction began. -/
theorem overCaller_apply (q : Question σ) (steps : Nat) (s : Session σ) :
    overCaller q steps s =
      let env := s.predictor.surroundings true (some fun g => g.eval q.hooks q.outer)
      let stream := s.stream.seek q.start
      match env.startConfigs (s.predictor.cache.automaton q.decision).netState q.outer
        ⟨s.predictor.cache.graph, s.author, 0⟩ with
      | (.error e, w) => (.error e, ⟨s.predictor.afterWork w, s.stream, w.author⟩)
      | (.ok start, w) => runFullContext q env (stream.size + 3) steps start stream.peek
          ⟨s.predictor.afterWork w, stream, w.author⟩ := by
  unfold overCaller
  rw [Run.bind_apply, Run.get_apply]
  dsimp only
  rw [Run.bind_apply, withSessionStacks_apply]
  rcases (s.predictor.surroundings true (some fun g => g.eval q.hooks q.outer)).startConfigs
    (s.predictor.cache.automaton q.decision).netState q.outer ⟨s.predictor.cache.graph, s.author, 0⟩
    with ⟨e | start, w⟩
  · rfl
  · dsimp only
    rw [Run.bind_apply, seek, Run.modify_apply]
    dsimp only
    rw [Run.bind_apply, Run.get_apply]

theorem startFullContext_eq (q : Question σ) (steps : Nat) (conflicting : AltSet) (configs : ConfigSet) :
    startFullContext q steps conflicting configs = (do
      let stop := (← get).stream.index
      report (.fullContext q.decision q.start stop conflicting configs)
      inSession (count fun c => { c with llPredictions := c.llPredictions + 1 })
      overCaller q steps) := rfl

/-- Asking the caller's stack hits a limit or runs with the configurations that the decision begins with over it. -/
theorem limited_overCaller (hl : gr.LaidOut plan lazy n) {q : Question σ} {qs : Nat}
    (hqs : n.decisions[q.decision]? = some qs) (hcalls : n.Calls top q.outer (n.state qs).rule)
    (h : s.predictor.Sane n allowed) {good : Nat → Session σ → Prop} {steps : Nat}
    (hrun : ∀ (env : Surroundings σ) start w, env.network = n → env.fullContext = true → env.endIsFree = false →
      (env.ask = some fun g => g.eval q.hooks q.outer) →
      env.startConfigs qs q.outer ⟨s.predictor.cache.graph, s.author, 0⟩ = (.ok start, w) →
      Run.Limited good (runFullContext q env ((s.stream.seek q.start).size + 3) steps start
        (s.stream.seek q.start).peek ⟨s.predictor.afterWork w, s.stream.seek q.start, w.author⟩)) :
    Run.Limited good (overCaller q steps s) := by
  have hd : q.decision < n.decisions.size := (Array.getElem?_eq_some_iff.mp hqs).1
  have hnet : (s.predictor.cache.automaton q.decision).netState = qs :=
    Option.some.inj ((Cache.netState_automaton h.cache.fits hd).symm.trans hqs)
  rw [overCaller_apply]
  dsimp only
  rw [hnet]
  generalize henv : s.predictor.surroundings true (some fun g => g.eval q.hooks q.outer) = env
  have hn : env.network = n := by rw [← henv]; exact h.network
  have hf : env.fullContext = true := by rw [← henv]; rfl
  have hend : env.endIsFree = false := by rw [← henv]; rfl
  have hask : env.ask = some fun g => g.eval q.hooks q.outer := by rw [← henv]; rfl
  have hg : (⟨s.predictor.cache.graph, s.author, 0⟩ : Workspace σ).graph.Truthful := h.cache.graph
  rcases hr : env.startConfigs qs q.outer ⟨s.predictor.cache.graph, s.author, 0⟩ with ⟨e | start, w⟩
  · exact .limit (Surroundings.isLimit_of_startConfigs hl hn hf hg hcalls hr)
  · exact hrun env start w hn hf hend hask hr

theorem limited_report (d : Diagnostic) (h : s.predictor.Sane n allowed) :
    Run.Limited (fun _ t => t.stream = s.stream ∧ t.predictor.Sane n allowed) (report d s) := by
  obtain ⟨reports, hreport⟩ := report_apply d s
  rw [hreport]
  exact .ok ⟨rfl, h.network, h.settings, h.cache⟩

theorem limited_count (f : Counters → Counters) (h : s.predictor.Sane n allowed) :
    Run.Limited (fun _ t => t.stream = s.stream ∧ t.predictor.Sane n allowed)
      (inSession (count f) s) :=
  .ok ⟨rfl, h.network, h.settings, h.cache⟩

variable (hl : gr.LaidOut plan lazy n) (hlay : gr.layout = .ok n) (hkind : gr.kind = .parser)
  (hc : n.Closing top last stop)
include hl hlay hkind hc

/-- Asking the caller's stack gives the lowest alternative from which a machine can finish. -/
theorem overCaller_lowest (q : Question σ) {qs : Nat} (hqs : n.decisions[q.decision]? = some qs)
    (hcalls : n.Calls top q.outer (n.state qs).rule) (h : s.predictor.Sane n allowed)
    (hplaced : (s.stream.seek q.start).Placed) {w : List Symbol}
    (hword : (s.stream.seek q.start).remaining = w)
    (hV : ∃ i, n.Viable stop qs (n.returnStates q.outer) w i) (steps : Nat) :
    Run.Limited (fun m _ => n.Viable stop qs (n.returnStates q.outer) w m ∧
      ∀ i, n.Viable stop qs (n.returnStates q.outer) w i → m ≤ i) (overCaller q steps s) := by
  have hmem : qs ∈ n.decisions.toList := Array.mem_toList_iff.mpr (Array.mem_of_getElem? hqs)
  have hchain := hl.chained_returnStates hcalls ⟨rfl, hl.kind_ne_tokensStart hkind qs⟩
  have hmore : w ≠ [] := by
    obtain ⟨v, hv, -⟩ := hplaced.remaining_cases
    rw [← hword, hv]
    exact List.cons_ne_nil _ v
  have hwork : (⟨s.predictor.cache.graph, s.author, 0⟩ : Workspace σ).graph.Truthful := h.cache.graph
  refine limited_overCaller hl hqs hcalls h fun env start ws hn hf hend _ hr => ?_
  have hun : env.Unguarded := fun _ => .inr (hn ▸ hc.unguarded')
  have hweighs := Surroundings.startConfigs_weighs hl hlay hc hn hun hf hend hwork hmem hcalls hchain
    hmore hV hr
  have hrun : env.startConfigs qs (if env.fullContext then q.outer else [])
      ⟨s.predictor.cache.graph, s.author, 0⟩ = (.ok start, ws) := by
    rwa [if_pos hf]
  obtain ⟨_, _, hclosed, -⟩ := Surroundings.startConfigs_closed hl hn hwork hcalls hrun
  have hfuel := (s.stream.seek q.start).length_remaining_le
  subst hword
  exact runFullContext_lowest (s := ⟨s.predictor.afterWork ws, s.stream.seek q.start, ws.author⟩) hl hc hn
    hun hf hV q _ steps hclosed.truthful hplaced hweighs
    (hfuel.trans (Nat.add_le_add_left (by decide : 1 ≤ 3) _))

/-- From where the run of the automaton has come to something, an alternative follows that is not above
any from which a machine can finish, and the lowest of them unless conflicts are left unsettled. -/
theorem conclude_viable (q : Question σ) {qs : Nat} (hqs : n.decisions[q.decision]? = some qs)
    (hcalls : n.Calls top q.outer (n.state qs).rule) (h : s.predictor.Sane n allowed)
    (hplaced : (s.stream.seek q.start).Placed) {w : List Symbol}
    (hword : (s.stream.seek q.start).remaining = w)
    (hV : ∃ i, n.Viable stop qs (n.returnStates q.outer) w i) {mode : PredictionMode} {a : Halt}
    (ha : a.Settles mode (n.Viable stop qs (n.returnStates q.outer) w)) :
    Run.Limited (fun m _ => (∀ i, n.Viable stop qs (n.returnStates q.outer) w i → m ≤ i) ∧
      (mode ≠ .sll → n.Viable stop qs (n.returnStates q.outer) w m)) (conclude q a s) := by
  cases ha with
  | @contested steps u hmode hguards =>
    rw [conclude, settleConflict, hguards]
    dsimp only
    rw [startFullContext_eq, Run.bind_apply, Run.get_apply]
    dsimp only
    refine (limited_report _ h).bind fun _ t ht => (limited_count _ ht.2).bind fun _ t' ht' => ?_
    rw [← ht.1, ← ht'.1] at hplaced hword
    exact (overCaller_lowest hl hlay hkind hc q hqs hcalls ht'.2 hplaced hword hV steps).imp
      fun m _ hm => ⟨hm.2, fun _ => hm.1⟩
  | @accepting t u x m hguards hpicks honly =>
    rw [conclude, accept, hguards]
    dsimp only
    rw [Run.bind_apply, countSll, inSession_apply, count_apply]
    dsimp only
    rw [hpicks.prediction]
    refine .ok ⟨hpicks.le, fun hmode => ?_⟩
    obtain ⟨i, hi⟩ := hV
    rwa [← hpicks.only (honly hmode) i hi]

/-- Under a chain of calls a prediction gives an alternative that is not above any from which a machine
can finish, and the lowest of them unless conflicts are left unsettled. -/
theorem predict_viable (hooks : ParserHooks σ) {outer : List Invocation} {decision qs : Nat}
    (hqs : n.decisions[decision]? = some qs) (hcalls : n.Calls top outer (n.state qs).rule)
    (h : s.predictor.Sane n allowed) (hplaced : s.stream.Placed)
    (hV : ∃ i, n.Viable stop qs (n.returnStates outer) s.stream.remaining i) :
    Run.Limited (fun m _ => (∀ i, n.Viable stop qs (n.returnStates outer) s.stream.remaining i → m ≤ i) ∧
      (s.predictor.settings.mode ≠ .sll → n.Viable stop qs (n.returnStates outer) s.stream.remaining m))
      (predict hooks outer decision s) := by
  have hd : decision < n.decisions.size := (Array.getElem?_eq_some_iff.mp hqs).1
  have hlook := lookAhead_settles hl hlay hkind hc ⟨hooks, outer, decision, s.stream.index⟩ hqs hcalls h
    hplaced hV
  refine limited_predict (by rw [h.network]; exact hd) ?_
  refine (hlook.leaving (leaves_lookAhead _)).bind fun a s' ⟨⟨ha, h'⟩, hframe⟩ => ?_
  rw [Session.frame, Session.frame, Prod.mk.injEq] at hframe
  have hback : s'.stream.seek s.stream.index = s.stream := hplaced.seek_index
    (congrArg Prod.fst hframe.2) (congrArg Prod.snd hframe.2)
  exact conclude_viable hl hlay hkind hc _ hqs hcalls h' (by rwa [hback]) (by rw [hback]) hV ha

end Predictor

/-- Under a chain of calls from a rule that is recognised as a whole, a prediction that lets the caller's
stack settle conflicts gives the lowest alternative from which a machine can read the rest of the input
and stop with an empty stack, or it hits a limit.  Whatever was predicted before makes no difference. -/
theorem Predictor.predict_lowest {g : Grammar} {n : Network} (hl : g.layout = .ok n) {top stop : Nat}
    (hs : g.Sentential top) (hstop : n.ruleStops[top]? = some stop) {σ : Type} {s : Session σ}
    (hn : s.predictor.network = n) (hmode : s.predictor.settings.mode ≠ .sll)
    (hcache : s.predictor.cache.Grown n fun _ => True) (hstream : s.stream.Used)
    (hooks : ParserHooks σ) {outer : List Invocation} {decision q : Nat}
    (hq : n.decisions[decision]? = some q) (hcalls : n.Calls top outer (n.state q).rule)
    (hV : ∃ i, n.Viable stop q (n.returnStates outer) s.stream.remaining i) :
    ∃ m, n.Viable stop q (n.returnStates outer) s.stream.remaining m ∧
      (∀ i, n.Viable stop q (n.returnStates outer) s.stream.remaining i → m ≤ i) ∧
      ((predict hooks outer decision s).1 = .ok m ∨
        ∃ e, (predict hooks outer decision s).1 = .error e ∧ e.IsLimit) := by
  have hlaid : ∃ p, g.LaidOut p True n := Grammar.exists_laidOut hl fun hf => absurd trivial hf
  obtain ⟨p, hp⟩ := hlaid
  obtain ⟨r, items, hr, -⟩ := hs.sentence
  obtain rfl : p.stop top = stop := Option.some.inj
    ((hp.toTables.ruleStop (List.getElem?_eq_some_iff.mp hr).1).symm.trans hstop)
  have hsane : s.predictor.Sane n fun _ => True := ⟨hn, trivial, hcache.faithful⟩
  have hpredict := predict_viable hp hl hs.parser (hp.closing hs) hooks hq hcalls hsane hstream.placed hV
  -- there is a lowest alternative also where a limit is hit
  obtain ⟨m, hm, hleast⟩ : ∃ m, n.Viable (p.stop top) q (n.returnStates outer) s.stream.remaining m ∧
      ∀ i, n.Viable (p.stop top) q (n.returnStates outer) s.stream.remaining i → m ≤ i := by
    classical exact ⟨Nat.find hV, Nat.find_spec hV, fun i hi => Nat.find_le hi⟩
  refine ⟨m, hm, hleast, ?_⟩
  generalize predict hooks outer decision s = res at hpredict ⊢
  cases hpredict with
  | @ok a _ ha =>
    obtain ⟨hle, hviable⟩ := ha
    exact .inl (congrArg Except.ok (Nat.le_antisymm (hle m hm) (hleast a (hviable hmode))))
  | limit he => exact .inr ⟨_, rfl, he⟩

/-- A word, one or two tokens long, stands behind a first token and may have a last one after it, which could
also belong to the word. -/
def calledGrammar : Grammar :=
  { kind := .parser, maxSymbol := 4
    rules := [
      ⟨"sentence", .seq [.alt [.seq [.symbol 3, .call "word" 0, .symbol 2], .seq [.symbol 4, .call "word" 0]],
        .endOfInput], unclassified, 0, false⟩,
      ⟨"word", .alt [.symbol 1, .seq [.symbol 1, .symbol 2]], unclassified, 0, false⟩] }

/-- Its network. -/
def calledNetwork : Network :=
  calledGrammar.layout.toOption.getD { kind := .parser, maxSymbol := 4 }

/-- A session before the word of a sentence that begins with a token. -/
def calledSession (predictor : Predictor) (first : Int) : Session Unit :=
  ⟨predictor, (TokenStream.ofTypes [first, 1, 2]).consume, ()⟩

/-- How the first prediction ends: the word is called where a last token has to follow. -/
def calledFirst : Ending (Session Unit) Nat :=
  Predictor.predict .none [.root 0, .called 1 8 0] 1 (calledSession (.ofNetwork calledNetwork {}) 3)

theorem sentential_called : calledGrammar.Sentential 0 where
  parser := rfl
  unconditional := by decide
  sentence := ⟨_, [.alt [.seq [.symbol 3, .call "word" 0, .symbol 2], .seq [.symbol 4, .call "word" 0]]],
    rfl, rfl, by decide, by decide⟩
  elsewhere i r hi hr := by
    obtain rfl : i = 1 := by
      have hlt : i < 2 := (List.getElem?_eq_some_iff.mp hr).1
      omega
    obtain rfl := Option.some.inj hr
    decide

/-- Where nothing has to follow, the word takes both tokens. -/
theorem viable_called : calledNetwork.Viable 1 18 [15] [1, 2, endOfInput] 2 := by
  obtain ⟨hmin, hmax, hchoice, hends, hstops, hways⟩ : calledNetwork.minSymbol = minTokenType ∧
      calledNetwork.maxSymbol = 4 ∧ (calledNetwork.state 18).alternative? 2 = some (.epsilon 22) ∧
      calledNetwork.isStop 3 = true ∧
      [22, 23, 24, 25, 19, 15, 5, 16, 17].map calledNetwork.isStop = List.replicate 9 false ∧
      [22, 23, 24, 25, 19, 15, 5, 16, 17].map calledNetwork.ways =
        [[.symbol 23 1], [.epsilon 24], [.symbol 25 2], [.epsilon 19], [.epsilon 3], [.epsilon 5],
          [.epsilon 16], [.symbol 17 endOfInput], [.epsilon 1]] := by
    cbv
  have hpass : ∀ {q z stack}, calledNetwork.isStop q = false → calledNetwork.ways q = [.epsilon z] →
      calledNetwork.Reads minTokenType 4 ⟨q, stack⟩ [] ⟨z, stack⟩ := fun hq hz =>
    Grammar.LaidOut.reads_one _ (by simp [hq]) hz
  have heat : ∀ {q z stack} {x : Int}, calledNetwork.isStop q = false →
      calledNetwork.ways q = [.symbol z x] →
      calledNetwork.Reads minTokenType 4 ⟨q, stack⟩ [x] ⟨z, stack⟩ := fun hq hz =>
    .eat (.along (by simp [hq]) (List.mem_of_mem_head? (congrArg List.head? hz)) (decide_eq_true rfl)) (.refl _)
  simp only [List.map_cons, List.map_nil, List.replicate, List.cons.injEq, and_true] at hstops hways
  obtain ⟨hs22, hs23, hs24, hs25, hs19, hs15, hs5, hs16, hs17⟩ := hstops
  obtain ⟨hw22, hw23, hw24, hw25, hw19, hw15, hw5, hw16, hw17⟩ := hways
  refine ⟨.epsilon 22, hchoice, ?_⟩
  rw [Network.Finishes, hmin, hmax]
  have hword : calledNetwork.Reads minTokenType 4 ⟨22, [15]⟩ [1, 2] ⟨3, [15]⟩ :=
    (heat hs22 hw22).append ((hpass hs23 hw23).append ((heat hs24 hw24).append
      ((hpass hs25 hw25).append (hpass hs19 hw19))))
  have hback : calledNetwork.Reads minTokenType 4 ⟨3, [15]⟩ [] ⟨15, []⟩ := .free (.pop hends) (.refl _)
  have hrest : calledNetwork.Reads minTokenType 4 ⟨15, []⟩ [endOfInput] ⟨1, []⟩ :=
    (hpass hs15 hw15).append ((hpass hs5 hw5).append ((heat hs16 hw16).append (hpass hs17 hw17)))
  exact hword.append (hback.append hrest)

/-- The word may be one token long or two until the caller's stack is looked at: one if a last token has to
follow, and two, with what was stored for the first prediction, if nothing has to. -/
theorem Predictor.predict_lowest_called :
    let s := calledSession calledFirst.2.predictor 4
    let outer := [Invocation.root 0, .called 1 14 0]
    calledGrammar.layout = .ok calledNetwork ∧ s.predictor.cache.Grown calledNetwork (fun _ => True) ∧
      s.stream.Used ∧ calledNetwork.Calls 0 outer (calledNetwork.state 18).rule ∧
      calledFirst.1 = .ok 1 ∧ (predict ParserHooks.none outer 1 s).1 = .ok 2 ∧
      ∃ m, calledNetwork.Viable 1 18 (calledNetwork.returnStates outer) s.stream.remaining m ∧
        (∀ i, calledNetwork.Viable 1 18 (calledNetwork.returnStates outer) s.stream.remaining i → m ≤ i) ∧
        ((predict ParserHooks.none outer 1 s).1 = .ok m ∨
          ∃ e, (predict ParserHooks.none outer 1 s).1 = .error e ∧ e.IsLimit) := by
  intro s outer
  obtain ⟨hlayout, hstop, hdecision, hrule, hcaller, hway⟩ : calledGrammar.layout = .ok calledNetwork ∧
      calledNetwork.ruleStops[0]? = some 1 ∧ calledNetwork.decisions[1]? = some 18 ∧
      (calledNetwork.state 18).rule = 1 ∧ (calledNetwork.state 14).rule = 0 ∧
      calledNetwork.ways 14 = [.call 2 1 0 15] := by
    cbv
  obtain ⟨hreturn, hremaining, hfirst, hsecond⟩ : calledNetwork.returnStates outer = [15] ∧
      s.stream.remaining = [1, 2, endOfInput] ∧ calledFirst.1 = .ok 1 ∧
      (predict ParserHooks.none outer 1 s).1 = .ok 2 := by
    cbv
  have hcache : s.predictor.cache.Grown calledNetwork (fun _ => True) :=
    .predict ParserHooks.none _ 1 rfl trivial .fresh
  have hused : s.stream.Used := .consume (s := .ofTypes [4, 1, 2]) (.ofTokens _ _)
  have hcalls : calledNetwork.Calls 0 outer (calledNetwork.state 18).rule := by
    rw [hrule]
    exact .call 0 .root hcaller (hway ▸ List.mem_singleton_self _)
  have hframe : s.predictor.network = calledNetwork ∧ s.predictor.settings = {} := by
    have hleaves := leaves_predict ParserHooks.none [.root 0, .called 1 8 0] 1
      (calledSession (.ofNetwork calledNetwork {}) 3)
    exact ⟨congrArg (fun f => f.1.1) hleaves, congrArg (fun f => f.1.2) hleaves⟩
  refine ⟨hlayout, hcache, hused, hcalls, hfirst, hsecond, ?_⟩
  refine predict_lowest hlayout sentential_called hstop hframe.1 (by rw [hframe.2]; decide) hcache hused
    ParserHooks.none hdecision hcalls ⟨2, ?_⟩
  rw [hreturn, hremaining]
  exact viable_called

end AdaptiveLL

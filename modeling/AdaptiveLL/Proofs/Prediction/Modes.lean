import AdaptiveLL.Proofs.Prediction.Recomputing
import AdaptiveLL.Proofs.Prediction.StateOffers

/-!
# One cache, several modes

The mode of prediction may be switched between predictions, and the automata are kept.  Of all that a
stored edge says, the mode has a say in one thing: whether reading on is pointless, and there only
in whether the caller's stack will be asked, for if not, guards do not keep configurations apart.

So what is stored under one mode is what would be worked out in another one wherever both ask for the
caller's stack, or neither does, or no guard is involved (`Cache.Switched.recomputes_across`).
Where none of this is the case it may not be: an edge that was stored with guards that keep
alternatives apart leads on, where without asking for the caller's stack it would settle them.
-/

namespace AdaptiveLL

namespace AutomatonState
variable {n : Network} {configs : ConfigSet} {mode now : PredictionMode}

/-- The mode has no say in what a set recognises, but for whether the caller's stack is asked, and
where no guard is involved none at all. -/
theorem classify_eq_of_mode (h : (now = .sll ↔ mode = .sll) ∨ configs.hasGuards = false)
    (count : Nat) (g : StackGraph) :
    classify now n count configs g = classify mode n count configs g := by
  have hstops : configs.stopsReading now n g = configs.stopsReading mode n g := by
    rcases h with hmode | hplain
    · unfold ConfigSet.stopsReading
      rw [decide_eq_decide.mpr hmode]
    · rw [stopsReading_of_plain hplain, stopsReading_of_plain hplain]
  unfold classify
  rw [hstops]

theorem hasGuards_classify (mode : PredictionMode) (n : Network) (count : Nat) (configs : ConfigSet)
    (g : StackGraph) : (classify mode n count configs g).1.configs.hasGuards = configs.hasGuards := by
  unfold classify
  split
  · rw [recognising, configs_applyGuards]
  · dsimp only
    split
    · rw [contested, configs_applyGuards]
    · rfl

end AutomatonState

/-- These settings, but for the mode, which is one of some modes. -/
def Settings.InModes (settings : Settings) (used : PredictionMode → Prop) (s : Settings) : Prop :=
  ∃ mode, used mode ∧ s = { settings with mode }

/-- The caches that a predictor for a network leaves behind under settings of which only the mode is
switched, among those in `used`: by any sequence of predictions, of single steps along an
automaton, and of clearing. -/
inductive Cache.Switched (n : Network) (settings : Settings) (used : PredictionMode → Prop) :
    Cache → Prop
  /-- Nothing was done yet. -/
  | fresh : Switched n settings used (Cache.ofNetwork n)
  /-- After a prediction, whatever its result was. -/
  | predict {σ : Type} {s : Session σ} (hooks : ParserHooks σ) (outer : List Invocation)
      (decision : Nat) : s.predictor.network = n → settings.InModes used s.predictor.settings →
      Switched n settings used s.predictor.cache →
      Switched n settings used (Predictor.predict hooks outer decision s).2.predictor.cache
  /-- After an edge was followed or worked out. -/
  | step {p : Predictor} (decision : Nat) (source : Target) (x : Symbol) : p.network = n →
      settings.InModes used p.settings → Switched n settings used p.cache →
      Switched n settings used (Predictor.step decision source x p).2.cache
  /-- After a decision's automaton was cleared, or all of them. -/
  | clear {c : Cache} (decision : Option Nat) : Switched n settings used c →
      Switched n settings used (c.clear decision)

variable {n : Network} {settings : Settings} {used : PredictionMode → Prop} {c : Cache}

theorem Cache.Switched.faithful (h : c.Switched n settings used) :
    c.Faithful n (settings.InModes used) := by
  induction h with
  | fresh => exact faithful_ofNetwork n _
  | predict hooks outer decision hn hs _ ih =>
    exact (Predictor.predict_sane hooks outer decision ⟨hn, hs, ih⟩).cache
  | step decision source x hn hs _ ih =>
    exact (Predictor.step_sane ⟨hn, hs, ih⟩ decision source x).cache
  | clear decision _ ih => exact ih.clear decision

/-- Worked out in another mode, an edge is the same if the mode has no say in it. -/
theorem Recomputes.of_mode {now : PredictionMode} {count : Nat} {g : StackGraph}
    {s : AutomatonState} {x : Symbol} {o : Option AutomatonState}
    (h : Recomputes n settings count g s x o)
    (hmode : (now = .sll ↔ settings.mode = .sll) ∨ ∀ e, o = some e → e.configs.hasGuards = false) :
    Recomputes n { settings with mode := now } count g s x o := by
  cases o with
  | none => exact h
  | some e =>
    obtain ⟨reached, w, hreach, hmade⟩ := h
    refine ⟨reached, w, hreach, ?_⟩
    have hguards : reached.hasGuards = e.configs.hasGuards := by
      have hsame := hmade.1
      simp only [ConfigSet.same, Bool.and_eq_true, decide_eq_true_eq] at hsame
      rw [← AutomatonState.hasGuards_classify settings.mode n count reached w.graph]
      exact hsame.1.1.1.1.2
    have hclassify : AutomatonState.classify now n count reached w.graph =
        AutomatonState.classify settings.mode n count reached w.graph :=
      AutomatonState.classify_eq_of_mode
        (hmode.imp id fun hplain => hguards.trans (hplain e rfl)) count w.graph
    rw [hclassify]
    exact hmade

/-- **Edges stored under one mode hold in others.**  However predictions in several modes, single steps
and clearing have followed one another, every stored edge was worked out in one of these modes, and
is what working it out now would give, with the same verdict, in that mode and in every other one that
agrees with it on whether to ask for the caller's stack; and if the set reached has no guards, in
all modes. -/
theorem Cache.Switched.recomputes_across (h : c.Switched n settings used) {d i : Nat} {a : Automaton}
    {s : AutomatonState} (ha : c.automata[d]? = some a) (hs : a.states[i]? = some s) {x : Symbol}
    {t : Target} (ht : s.edge? x = some t) :
    (t = .error ∨ ∃ e, a.state? t = some e) ∧
      ∃ mode, used mode ∧ ∀ now, (now = .sll ↔ mode = .sll) ∨
          (∀ e, a.state? t = some e → e.configs.hasGuards = false) →
        Recomputes n { settings with mode := now } (n.alternatives d) c.graph s x (a.state? t) := by
  have hfaithful := h.faithful
  obtain ⟨o, hnames, _, ⟨mode, hused, rfl⟩, hedge⟩ := (hfaithful.automata ha).edges hs ht
  have hagain : Recomputes n { settings with mode } (n.alternatives d) c.graph s x o :=
    EveryEdge.worked_again hfaithful.graph ⟨_, rfl, hedge⟩
  cases hnames with
  | error => exact ⟨.inl rfl, mode, hused, fun now hnow => hagain.of_mode hnow⟩
  | state he =>
    have hstate : a.state? (.state _) = some _ := he
    rw [hstate]
    refine ⟨.inr ⟨_, rfl⟩, mode, hused, fun now hnow => ?_⟩
    refine hagain.of_mode (hnow.imp id fun hplain e he => ?_)
    obtain rfl := Option.some.inj he
    have hguards := hplain _ rfl
    exact hguards

/-- A rule that begins with one token or two, before another rule: first under a guard each, then
without one. -/
def guardedGrammar : Grammar :=
  ((Grammar.parser 3).rule "r" (.seq [.alt
      [.alt [.seq [.predicate 0 false, .symbol 1], .seq [.predicate 1 false, .symbol 1, .symbol 1]],
        .alt [.symbol 1, .seq [.symbol 1, .symbol 1]]],
    .call "q" 0])).rule "q" (.alt [.seq [.symbol 1, .call "q" 0], .symbol 2])

/-- Its network. -/
def guardedNetwork : Network := guardedGrammar.layout.toOption.getD { kind := .parser, maxSymbol := 3 }

/-- The cache after a prediction in which the caller's stack may be asked. -/
def guardedCache : Cache :=
  (Predictor.predict ParserHooks.none [] 0
    ⟨Predictor.ofNetwork guardedNetwork {}, TokenStream.ofTypes [1, 1, 3], ()⟩).2.predictor.cache

theorem Cache.Switched.recomputes_across_guarded :
    guardedCache.Switched guardedNetwork {} (fun _ => True) ∧
      ∃ a s, guardedCache.automata[0]? = some a ∧ a.states[1]? = some s ∧
        s.edge? 1 = some (.state 2) ∧
        (Target.state 2 = .error ∨ ∃ e, a.state? (.state 2) = some e) ∧
        ∃ mode : PredictionMode, True ∧ ∀ now, (now = .sll ↔ mode = .sll) ∨
            (∀ e, a.state? (.state 2) = some e → e.configs.hasGuards = false) →
          Recomputes guardedNetwork { mode := now } (guardedNetwork.alternatives 0)
            guardedCache.graph s 1 (a.state? (.state 2)) := by
  have hswitched : guardedCache.Switched guardedNetwork {} (fun _ => True) :=
    .predict ParserHooks.none [] 0 rfl ⟨.ll, trivial, rfl⟩ .fresh
  obtain ⟨hd, hedge⟩ : 0 < guardedNetwork.decisions.size ∧
      ((guardedCache.automaton 0).states[1]?).map (·.edge? 1) = some (some (.state 2)) := by
    cbv
  have ha : guardedCache.automata[0]? = some (guardedCache.automaton 0) :=
    Cache.getElem?_automaton hswitched.faithful.fits hd
  obtain ⟨s, hs, he⟩ := Option.map_eq_some_iff.mp hedge
  exact ⟨hswitched, _, s, ha, hs, he, hswitched.recomputes_across ha hs he⟩

/-- The state behind two tokens recognises nothing, but worked out without asking for the caller's
stack it recognises the first alternative. -/
example : ((guardedCache.automaton 0).states[2]?).map (fun s => (s.isAccept, s.needsFullContext)) =
      some (false, false) ∧
    ((guardedCache.automaton 0).states[2]?).map (fun s =>
      (AutomatonState.classify .sll guardedNetwork 2 s.configs guardedCache.graph).1.isAccept) =
      some true := by
  cbv

end AdaptiveLL

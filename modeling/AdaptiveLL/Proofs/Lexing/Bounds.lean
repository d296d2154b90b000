import Mathlib
import AdaptiveLL.Proofs.Cache
import AdaptiveLL.Proofs.Grammar.Reading
import AdaptiveLL.Proofs.Lexing.History
import AdaptiveLL.Proofs.Lexing.Within

/-! # Matches read the tables where they have entries

A match reads states of the network, the automaton of the mode's decision and its states, and the token
types of rules.  The configurations of a match stay within a linked network, and the edges that are stored
lead to states that are stored.

Two entries are not covered by linking: the decision of a mode may be beyond the decisions, and a state at
which a rule ends may name a rule beyond the token types.  `Scan.next_ends` says that a match ends in
one of the ways that its caller is told of, unless it comes upon one of these.  A grammar's network has
neither (`Scan.next_ne_badIndex`).
-/
namespace AdaptiveLL

/-! ## What a match may end with -/

/-- The errors of a match in a mode.  The last two are reads beyond the end of a table. -/
inductive Network.MatchFails (n : Network) (mode : Nat) : RecognitionError → Prop
  /-- The network is a parser's. -/
  | notLexer : n.kind ≠ .lexer → MatchFails n mode (.invalidNetwork .notLexer)
  /-- There is no such mode, or no decision where it starts. -/
  | noMode : (∀ start s, n.modeStarts[mode]? = some start → n.states[start]? = some s →
      s.decision = none) → MatchFails n mode (.invalidNetwork (.noMode mode))
  /-- No token begins with the next characters. -/
  | noToken (start index line column : Nat) :
    MatchFails n mode (.lexerNoViableAlt mode start index line column)
  /-- A closure is too deep. -/
  | tooDeep (depth maxDepth : Nat) : MatchFails n mode (.closureDepthExceeded depth maxDepth)
  /-- The match goes on at the end of the input until it is cut off. -/
  | cutOff : MatchFails n mode .outOfFuel
  /-- The mode's decision is beyond the decisions. -/
  | noAutomaton {start d : Nat} {s : State} : n.modeStarts[mode]? = some start →
    n.states[start]? = some s → s.decision = some d → n.decisions.size ≤ d →
    MatchFails n mode (.badIndex "automata" d)
  /-- A rule ends in a state whose rule is beyond the token types. -/
  | noTokenType {q : Nat} {s : State} : n.states[q]? = some s → s.isStop →
    n.tokenTypes.size ≤ s.rule → MatchFails n mode (.badIndex "token types" s.rule)

/-- Configurations at states of the network recognise something or not, unless a rule ends where there is
no token type. -/
theorem Matcher.recognised?_fails {n : Network} (mode : Nat) {cs : List Config}
    (h : ∀ c ∈ cs, c.state < n.states.size) {e : RecognitionError}
    (he : Matcher.recognised? n cs = .error e) : n.MatchFails mode e := by
  induction cs with
  | nil => cases he
  | cons c rest ih =>
    obtain ⟨hc, hrest⟩ := List.forall_mem_cons.mp h
    have hs : n.states[c.state]? = some n.states[c.state] := Array.getElem?_eq_getElem hc
    rw [recognised?, Network.state?, hs] at he
    dsimp only at he
    by_cases hstop : n.states[c.state].isStop
    · rw [if_pos hstop] at he
      cases htype : n.tokenTypes[n.states[c.state].rule]? with
      | some type => simp [htype] at he
      | none =>
        rw [htype] at he
        cases he
        exact .noTokenType hs hstop (Array.getElem?_eq_none_iff.mp htype)
    · rw [if_neg hstop] at he
      exact ih hrest he

/-- An automaton whose configurations are at states of a network, and whose edges lead to its states. -/
def Automaton.Within (bound : Nat) (a : Automaton) : Prop :=
  a.Filled (fun u => ∀ c ∈ u.configs.toList, c.state < bound) (fun _ => True) fun _ _ _ => True

namespace Scan
variable {σ : Type} {n : Network} {d mode : Nat} {s s' s'' : Scan σ}

/-- A matcher for a network, each of whose decisions has an automaton within the network. -/
structure Within (n : Network) (s : Scan σ) : Prop where
  network : s.matcher.network = n
  graph : s.matcher.cache.graph.Within n.states.size
  size : s.matcher.cache.automata.size = n.decisions.size
  automata : ∀ ⦃d : Nat⦄ ⦃a : Automaton⦄, s.matcher.cache.automata[d]? = some a →
    a.Within n.states.size

theorem within_ofNetwork (n : Network) (settings : Settings) (stream : CharStream) (author : σ) :
    Within n ⟨Matcher.ofNetwork n settings, stream, author⟩ where
  network := rfl
  graph := StackGraph.within_empty _
  size := Array.size_mapIdx
  automata d a ha := by
    simp only [Matcher.ofNetwork, Cache.ofNetwork, Array.getElem?_mapIdx,
      Option.map_eq_some_iff] at ha
    obtain ⟨q, -, rfl⟩ := ha
    exact Automaton.Filled.clear { decision := d, netState := q }

theorem Within.getElem?_automaton (h : s.Within n) (hd : d < n.decisions.size) :
    s.matcher.cache.automata[d]? = some (s.matcher.cache.automaton d) := by
  have hlt : d < s.matcher.cache.automata.size := by rwa [h.size]
  simp [Cache.automaton, hlt]

theorem Within.automaton (h : s.Within n) (hd : d < n.decisions.size) :
    (s.matcher.cache.automaton d).Within n.states.size :=
  h.automata (h.getElem?_automaton hd)

/-- A target is a state of a decision's automaton. -/
def Stored (d : Nat) (t : Target) (s : Scan σ) : Prop :=
  ∃ u, Automaton.Names (s.matcher.cache.automaton d) t (some u)

/-- A matcher that grew its automaton of a decision. -/
structure Grows (n : Network) (d : Nat) (s s' : Scan σ) : Prop where
  within : s'.Within n
  automaton : Automaton.Extends (s.matcher.cache.automaton d) (s'.matcher.cache.automaton d)

theorem Grows.trans (h : Grows n d s s') (h' : Grows n d s' s'') : Grows n d s s'' :=
  ⟨h'.within, h.automaton.trans h'.automaton⟩

theorem Stored.mono {t : Target} (ht : Stored d t s) (h : Grows n d s s') : Stored d t s' :=
  ht.imp fun _ hu => hu.mono h.automaton

/-- A step of a match in a mode grows the automaton and fails only in the ways of a match. -/
abbrev Yields (n : Network) (d mode : Nat) {α : Type} (s : Scan σ) (m : Run (Scan σ) α)
    (good : α → Scan σ → Prop) : Prop :=
  Run.Meets (· = s) m (fun a s' => Grows n d s s' ∧ good a s') fun e _ => n.MatchFails mode e

theorem Yields.pure {α : Type} {a : α} {good : α → Scan σ → Prop} (h : s.Within n)
    (ha : good a s) : Yields n d mode s (Pure.pure a) good := by
  rintro s rfl
  exact ⟨⟨h, .refl _⟩, ha⟩

theorem Yields.bind {α β : Type} {m : Run (Scan σ) α} {k : α → Run (Scan σ) β}
    {good : α → Scan σ → Prop} {good' : β → Scan σ → Prop} (hm : Yields n d mode s m good)
    (hk : ∀ a s', Grows n d s s' → good a s' → Yields n d mode s' (k a) good') :
    Yields n d mode s (m >>= k) good' := by
  refine Run.Meets.bind hm fun a s' h => ?_
  exact (hk a s' h.1 h.2).imp (fun _ h => h) (fun _ _ h' => ⟨h.1.trans h'.1, h'.2⟩)
    (fun _ _ h => h) s' rfl

theorem Yields.get (h : s.Within n) :
    Yields n d mode s (MonadState.get : Run (Scan σ) (Scan σ)) fun a s' => a = s' := by
  rintro s rfl
  exact ⟨⟨h, .refl _⟩, rfl⟩

/-- Changing what has nothing to do with the automata. -/
theorem Yields.modify {f : Scan σ → Scan σ} (h : s.Within n)
    (hnetwork : (f s).matcher.network = s.matcher.network)
    (hcache : (f s).matcher.cache = s.matcher.cache) :
    Yields n d mode s (MonadState.modifyGet fun s => (⟨⟩, f s) : Run (Scan σ) PUnit)
      fun _ s' => s' = f s := by
  rintro s rfl
  refine ⟨⟨⟨hnetwork.trans h.network, ?_, ?_, ?_⟩, ?_⟩, rfl⟩
  · exact hcache ▸ h.graph
  · exact hcache ▸ h.size
  · exact hcache ▸ h.automata
  · rw [hcache]
    exact .refl _

theorem automatonState_yields (h : s.Within n) (hd : d < n.decisions.size) {t : Target}
    (ht : Stored d t s) :
    Yields n d mode s (automatonState d t) fun u s' =>
      s' = s ∧ ∀ c ∈ u.configs.toList, c.state < n.states.size := by
  obtain ⟨u, hu⟩ := ht
  cases hu with
  | @state i u hu =>
    rintro s rfl
    unfold automatonState
    rw [Run.bind_apply, Run.get_apply]
    simp only [Automaton.state?, hu]
    exact ⟨⟨h, .refl _⟩, rfl, (h.automaton hd).states hu⟩

/-- Closures of configurations grow the graph and leave the automata alone. -/
theorem withStacks_yields {env : Outlook σ} {α : Type} {act : Run (Workspace σ) α} {good : α → Prop}
    (h : s.Within n) (henv : env.network = n) (hact : env.Sweeps act good) :
    Yields n d mode s (withStacks act) fun a _ => good a := by
  rintro s rfl
  subst henv
  have hend := hact ⟨s.matcher.cache.graph, s.author, 0⟩ h.graph
  obtain ⟨⟨network, ⟨graph, automata⟩, settings, counters, tokenStart, position⟩, stream, author⟩ := s
  unfold withStacks
  dsimp only at hend ⊢
  rcases hr : act ⟨graph, author, 0⟩ with ⟨e | a, w⟩ <;> rw [hr] at hend
  · obtain ⟨-, rfl⟩ := hend
    exact .tooDeep _ _
  · exact ⟨⟨⟨h.network, hend.1, h.size, h.automata⟩, .refl _⟩, hend.2⟩

/-- A change to the automaton of a decision. -/
theorem within_change (h : s.Within n) (hd : d < n.decisions.size) {f : Automaton → Automaton}
    (hf : (f (s.matcher.cache.automaton d)).Within n.states.size)
    (hgrows : Automaton.Extends (s.matcher.cache.automaton d) (f (s.matcher.cache.automaton d))) :
    Grows n d s { s with matcher := { s.matcher with cache := s.matcher.cache.change d f } } := by
  have hget := h.getElem?_automaton hd
  refine ⟨⟨h.network, h.graph, ?_, ?_⟩, ?_⟩
  · change (s.matcher.cache.automata.modify d f).size = _
    rw [Array.size_modify]
    exact h.size
  · intro e a ha
    rw [Cache.getElem?_change] at ha
    by_cases hde : d = e
    · subst hde
      rw [if_pos rfl, hget] at ha
      cases ha
      exact hf
    · rw [if_neg hde] at ha
      exact h.automata ha
  · have hnew : (s.matcher.cache.change d f).automaton d = f (s.matcher.cache.automaton d) := by
      rw [Cache.automaton, Cache.getElem?_change, if_pos rfl, hget]
      rfl
    change Automaton.Extends _ ((s.matcher.cache.change d f).automaton d)
    rw [hnew]
    exact hgrows

theorem changeAutomaton_yields (h : s.Within n) (hd : d < n.decisions.size)
    {f : Automaton → Automaton} (hf : (f (s.matcher.cache.automaton d)).Within n.states.size)
    (hgrows : Automaton.Extends (s.matcher.cache.automaton d) (f (s.matcher.cache.automaton d))) :
    Yields n d mode s (changeAutomaton d f) fun _ _ => True := by
  rintro s rfl
  exact ⟨within_change h hd hf hgrows, trivial⟩

theorem addState_yields (h : s.Within n) (hd : d < n.decisions.size) (configs : ConfigSet)
    (hconfigs : ∀ c ∈ configs.toList, c.state < n.states.size) :
    Yields n d mode s (addState d configs) fun t s' => Stored d t s' := by
  rintro s rfl
  unfold addState
  rw [Run.bind_apply, Run.get_apply]
  dsimp only
  rw [Run.bind_apply, h.network]
  cases hr : Matcher.recognised? n configs.toList with
  | error e =>
    have hclassify : Matcher.classify n configs = .error e := by
      rw [Matcher.classify, hr]
    rw [hclassify]
    exact Matcher.recognised?_fails mode hconfigs hr
  | ok o =>
    obtain ⟨u, hu, hsame, hedges, -, -⟩ := exists_classify hr
    obtain ⟨hfilled, e, hn, -, -⟩ := (h.automaton hd).add (s := u) hedges
      (by rw [hsame]; exact hconfigs)
    rw [hu]
    have hgrows := within_change h hd (f := fun _ => ((s.matcher.cache.automaton d).add u).2)
      hfilled (Automaton.extends_add _ u)
    refine ⟨hgrows, e, ?_⟩
    have hnew : (s.matcher.cache.addState d u).2.automaton d =
        ((s.matcher.cache.automaton d).add u).2 := by
      change (s.matcher.cache.change d _).automaton d = _
      rw [Cache.automaton, Cache.getElem?_change, if_pos rfl, h.getElem?_automaton hd]
      rfl
    change Automaton.Names ((s.matcher.cache.addState d u).2.automaton d) _ _
    rw [hnew]
    exact hn

/-- The state in which a mode's automaton begins. -/
theorem startState_yields (hn : n.Closed) (h : s.Within n) (hd : d < n.decisions.size)
    (hooks : LexerHooks σ) {start : Nat} (hmode : n.modeStarts[mode]? = some start) :
    Yields n d mode s (startState hooks mode d) fun t s' => Stored d t s' := by
  unfold startState
  refine (Yields.get h).bind fun a s₁ hs₁ ha => ?_
  subst ha
  cases hstart : (a.matcher.cache.automaton d).start with
  | some t =>
    obtain ⟨u, hu, -⟩ := (hs₁.within.automaton hd).start hstart
    exact .pure hs₁.within ⟨u, hu⟩
  | none =>
    dsimp only
    have hnet : a.matcher.network = n := hs₁.within.network
    have hsweeps : (a.outlook hooks a.cursor false).Sweeps
        ((a.outlook hooks a.cursor false).startConfigs
          (a.matcher.network.modeStarts[mode]?.getD a.matcher.network.states.size))
        fun configs => configs.Within n.states.size := by
      rw [hnet, hmode, Option.getD_some]
      subst hnet
      exact Outlook.startConfigs_sweeps hn (hn.modeStarts hmode)
    refine (withStacks_yields hs₁.within hnet hsweeps).bind fun configs s₂ hs₂ hconfigs => ?_
    refine (addState_yields hs₂.within hd { configs with hasGuards := false }
      hconfigs.states).bind fun t s₃ hs₃ ht => ?_
    by_cases hguards : (!configs.hasGuards) = true
    · rw [if_pos hguards]
      obtain ⟨u, hu⟩ := ht
      have hset := (hs₃.within.automaton hd).setStart hu trivial
      refine (changeAutomaton_yields hs₃.within hd (f := (·.setStart t)) hset
        (Automaton.extends_setStart _ t)).bind fun _ s₄ hs₄ _ => .pure hs₄.within ?_
      exact Stored.mono ⟨u, hu⟩ hs₄
    · rw [if_neg hguards]
      exact .pure hs₃.within ht

/-- Storing an edge to a target, if that is allowed. -/
theorem storeEdge_yields (h : s.Within n) (hd : d < n.decisions.size) {source : Target}
    (hsource : Stored d source s) {t : Target} (ht : t.isError = false → Stored d t s) (store : Bool)
    (x : Symbol) :
    Yields n d mode s (do
      if store then changeAutomaton d (·.setEdge source x t)
      pure t) fun t s' => t.isError = false → Stored d t s' := by
  cases store with
  | false => exact .pure h ht
  | true =>
    obtain ⟨o, ho⟩ : ∃ o, Automaton.Names (s.matcher.cache.automaton d) t o := by
      cases t with
      | error => exact ⟨none, .error⟩
      | state i => exact (ht rfl).imp' some fun _ hu => hu
    obtain ⟨u, hu⟩ := hsource
    cases hu with
    | @state i _ hu =>
      have hset := (h.automaton hd).setEdge hu ho (x := x) trivial
      exact (changeAutomaton_yields h hd (f := (·.setEdge (.state i) x t)) hset
        (Automaton.extends_setEdge _ _ x t)).bind
        fun _ s' hs' _ => .pure hs'.within fun herr => (ht herr).mono hs'

/-- An edge that is worked out leads to a state of the automaton, or nowhere. -/
theorem computeEdge_yields (hn : n.Closed) (h : s.Within n) (hd : d < n.decisions.size)
    (hooks : LexerHooks σ) {source : Target} (hsource : Stored d source s) (x : Symbol) :
    Yields n d mode s (computeEdge hooks d source x) fun t s' => t.isError = false → Stored d t s' := by
  unfold computeEdge
  refine (automatonState_yields h hd hsource).bind fun u s₁ hs₁ hu => ?_
  obtain ⟨rfl, hu⟩ := hu
  refine (Yields.get h).bind fun a s₂ hs₂ ha => ?_
  subst ha
  have hnet : a.matcher.network = n := hs₂.within.network
  have hsweeps : (a.outlook hooks a.consume.cursor (decide (x = endOfInput))).Sweeps
      ((a.outlook hooks a.consume.cursor (decide (x = endOfInput))).reach
        (a.stream.index - a.matcher.tokenStart) x u.configs)
      fun configs => configs.Within n.states.size := by
    subst hnet
    exact Outlook.reach_sweeps hn _ x hu
  refine (withStacks_yields hs₂.within hnet hsweeps).bind fun configs s₃ hs₃ hconfigs => ?_
  have hsource := hsource.mono (hs₂.trans hs₃)
  dsimp only
  by_cases hempty : configs.isEmpty
  · rw [if_pos hempty]
    exact storeEdge_yields hs₃.within hd hsource (fun h => absurd h (by decide)) _ x
  · rw [if_neg hempty]
    refine (addState_yields hs₃.within hd { configs with hasGuards := false }
      hconfigs.states).bind fun t s₄ hs₄ ht => ?_
    exact storeEdge_yields hs₄.within hd (hsource.mono hs₄) (fun _ => ht) _ x

/-- A step leads to a state of the automaton, or nowhere. -/
theorem step_yields (hn : n.Closed) (h : s.Within n) (hd : d < n.decisions.size)
    (hooks : LexerHooks σ) {source : Target} (hsource : Stored d source s) (x : Symbol) :
    Yields n d mode s (step hooks d source x) fun t s' => t.isError = false → Stored d t s' := by
  unfold step
  refine (Yields.get h).bind fun a s₁ hs₁ ha => ?_
  subst ha
  dsimp only
  cases hedge : (if Matcher.isStored x then (a.matcher.cache.automaton d).edge? source x else none) with
  | some t =>
    refine (Yields.modify hs₁.within rfl rfl).bind fun _ s₂ hs₂ _ => .pure hs₂.within ?_
    intro herr
    by_cases hstored : Matcher.isStored x
    · rw [if_pos hstored] at hedge
      obtain ⟨u, hu⟩ := hsource.mono hs₁
      obtain ⟨o, ho, -⟩ := (hs₁.within.automaton hd).edge_of_names hu hedge
      have hstored : Stored d t a := by
        cases ho with
        | state ho => exact ⟨_, .state ho⟩
        | error => cases herr
      exact hstored.mono hs₂
    · rw [if_neg hstored] at hedge
      cases hedge
  | none =>
    refine (Yields.modify hs₁.within rfl rfl).bind fun _ s₂ hs₂ _ => ?_
    exact computeEdge_yields hn hs₂.within hd hooks ((hsource.mono hs₁).mono hs₂) x

/-- A checkpoint is a state of the automaton. -/
theorem checkpoint?_yields (h : s.Within n) (hd : d < n.decisions.size) {t : Target}
    (ht : Stored d t s) :
    Yields n d mode s (checkpoint? d t) fun place s' =>
      ∀ c, place = some c → Stored d c.target s' := by
  unfold checkpoint?
  refine (automatonState_yields h hd ht).bind fun u s₁ hs₁ _ => ?_
  refine (Yields.get hs₁.within).bind fun a s₂ hs₂ ha => .pure hs₂.within ?_
  intro c hc
  by_cases haccept : u.isAccept
  · rw [if_pos haccept] at hc
    cases hc
    exact (ht.mono hs₁).mono hs₂
  · rw [if_neg haccept] at hc
    cases hc

/-- Running the automaton, by induction on the steps left: the state reached and the last checkpoint stay
states of the automaton, which only grows. -/
theorem munch_yields (hn : n.Closed) (hd : d < n.decisions.size) (hooks : LexerHooks σ) (fuel : Nat)
    (h : s.Within n) {last : Option Checkpoint} (hlast : ∀ c, last = some c → Stored d c.target s)
    {source : Target} (hsource : Stored d source s) (x : Symbol) :
    Yields n d mode s (munch hooks d fuel last source x) fun r s' =>
      ∀ c, r.1 = some c → Stored d c.target s' := by
  induction fuel generalizing s last source x with
  | zero => exact fun _ _ => .cutOff
  | succ fuel ih =>
    unfold munch
    refine (step_yields hn h hd hooks hsource x).bind fun t s₁ hs₁ ht => ?_
    by_cases herr : t.isError = true
    · rw [if_pos herr]
      exact .pure hs₁.within fun c hc => (hlast c hc).mono hs₁
    · rw [if_neg herr]
      have ht := ht (by simpa using herr)
      -- Behind the character the state may become the checkpoint, and the run goes on from it.
      have hrest : ∀ {s₂ : Scan σ}, Grows n d s₁ s₂ → Yields n d mode s₂ (do
          let here ← checkpoint? d t
          if x = endOfInput && here.isSome then pure (here, x)
          else munch hooks d fuel (here <|> last) t (← MonadState.get).stream.peek)
          fun r s' => ∀ c, r.1 = some c → Stored d c.target s' := by
        intro s₂ hs₂
        refine (checkpoint?_yields hs₂.within hd (ht.mono hs₂)).bind fun here s₃ hs₃ hhere => ?_
        by_cases hend : (decide (x = endOfInput) && here.isSome) = true
        · rw [if_pos hend]
          exact .pure hs₃.within hhere
        · rw [if_neg hend]
          refine (Yields.get hs₃.within).bind fun a s₄ hs₄ _ => ?_
          refine ih hs₄.within ?_ (((ht.mono hs₂).mono hs₃).mono hs₄) _
          intro c hc
          cases here with
          | some place => exact (hhere c hc).mono hs₄
          | none => exact (hlast c hc).mono (hs₁.trans (hs₂.trans (hs₃.trans hs₄)))
      dsimp only
      by_cases hx : x ≠ endOfInput
      · rw [if_pos hx]
        exact (Yields.modify hs₁.within rfl rfl).bind fun _ s₂ hs₂ _ => hrest hs₂
      · rw [if_neg hx]
        exact hrest ⟨hs₁.within, .refl _⟩

/-- The decision of a mode, or why there is none. -/
theorem modeDecision_cases (hn : n.Closed) {m : Matcher} (hm : m.network = n) (mode : Nat) :
    (∃ e, m.modeDecision mode = .error e ∧ n.MatchFails mode e) ∨
      ∃ d start, m.modeDecision mode = .ok d ∧ d < n.decisions.size ∧
        n.modeStarts[mode]? = some start := by
  subst hm
  unfold Matcher.modeDecision
  by_cases hkind : m.network.kind ≠ .lexer
  · rw [if_pos hkind]
    exact .inl ⟨_, rfl, .notLexer hkind⟩
  · rw [if_neg hkind]
    cases hmode : m.network.modeStarts[mode]? with
    | none => exact .inl ⟨_, rfl, .noMode fun _ _ h => by rw [hmode] at h; cases h⟩
    | some start =>
      obtain ⟨s, hs⟩ : ∃ s, m.network.states[start]? = some s :=
        ⟨_, Array.getElem?_eq_getElem (hn.modeStarts hmode)⟩
      dsimp only
      rw [Network.state?, hs]
      dsimp only
      cases hd : s.decision with
      | none =>
        refine .inl ⟨_, rfl, .noMode ?_⟩
        intro start' s' hmode' hs'
        obtain rfl := Option.some.inj (hmode.symm.trans hmode')
        obtain rfl := Option.some.inj (hs.symm.trans hs')
        exact hd
      | some d =>
        dsimp only
        by_cases hlt : d < m.network.decisions.size
        · rw [if_pos hlt]
          exact .inr ⟨d, start, rfl, hlt, rfl⟩
        · rw [if_neg hlt]
          exact .inl ⟨_, rfl, .noAutomaton hmode hs hd (Nat.le_of_not_lt hlt)⟩

/-- How a match ends, from any place and with any cache that lies within the network. -/
theorem next_meets (hn : n.Closed) (h : s.Within n) (hooks : LexerHooks σ) (mode : Nat) :
    Run.Meets (· = s) (next hooks mode) (fun _ s' => s'.Within n) fun e _ => n.MatchFails mode e := by
  rintro a rfl
  rw [next_eq]
  rcases modeDecision_cases hn h.network mode with ⟨e, he, hfails⟩ | ⟨d, start, hdecision, hd, hmode⟩
  · rw [he]
    exact hfails
  · rw [hdecision]
    have hbegun : a.begun.Within n := ⟨h.network, h.graph, h.size, h.automata⟩
    have hends : Yields n d mode a.begun (matchFrom hooks mode d a.begun) fun _ _ => True := by
      refine (startState_yields hn hbegun hd hooks hmode).bind fun t s₃ hs₃ ht => ?_
      refine (checkpoint?_yields hs₃.within hd ht).bind fun first s₄ hs₄ hfirst => ?_
      refine (munch_yields hn hd hooks _ hs₄.within hfirst (ht.mono hs₄) _).bind
        fun r s₅ hs₅ hr => ?_
      obtain ⟨_ | place, x⟩ := r
      · refine (Yields.get hs₅.within).bind fun reached s₆ hs₆ _ => ?_
        dsimp only
        refine Run.Meets.ite (fun _ => Yields.pure hs₆.within trivial) fun _ => ?_
        exact fun _ _ => .noToken _ _ _ _
      · refine (Yields.modify hs₅.within rfl rfl).bind fun _ s₆ hs₆ _ => ?_
        have hplace : Stored d place.target s₆ := Stored.mono (hr place rfl) hs₆
        exact (automatonState_yields hs₆.within hd hplace).bind
          fun u s₇ hs₇ _ => .pure hs₇.within trivial
    exact hends.imp (fun _ h => h) (fun _ _ h => h.1.within) (fun _ _ h => h) a.begun rfl

/-- A match in a mode without a decision changes nothing. -/
theorem next_of_modeDecision {e : RecognitionError} (h : s.matcher.modeDecision mode = .error e)
    (hooks : LexerHooks σ) : next hooks mode s = (.error e, s) := by
  rw [next_eq, h]

/-- A mode whose decision is beyond the decisions cannot be matched in. -/
theorem modeDecision_noAutomaton {m : Matcher} {start : Nat} {q : State}
    (hkind : m.network.kind = .lexer) (hmode : m.network.modeStarts[mode]? = some start)
    (hq : m.network.states[start]? = some q) (hd : q.decision = some d)
    (hle : m.network.decisions.size ≤ d) : m.modeDecision mode = .error (.badIndex "automata" d) := by
  unfold Matcher.modeDecision
  rw [if_neg (not_not_intro hkind), hmode]
  dsimp only
  rw [Network.state?, hq]
  dsimp only
  rw [hd]
  exact if_neg (Nat.not_lt_of_le hle)

/-- **Matches read the tables where they have entries.**  In a linked network a match by a new matcher, in
any mode of any text, whatever the author's callbacks do, ends with a token or in one of the ways in which
a match fails.  It reads beyond a table in two cases only: the mode's decision is beyond the decisions, and
then it always does, or a rule ends in a state whose rule is beyond the token types. -/
theorem next_ends {n₀ : Network} (hlink : n₀.link = .ok n) (settings : Settings) (stream : CharStream)
    (author : σ) (hooks : LexerHooks σ) (mode : Nat) :
    let ending := (next hooks mode ⟨Matcher.ofNetwork n settings, stream, author⟩).1
    ((∃ t, ending = .ok t) ∨ ∃ e, ending = .error e ∧ n.MatchFails mode e) ∧
      ∀ start q d, n.kind = .lexer → n.modeStarts[mode]? = some start → n.states[start]? = some q →
        q.decision = some d → n.decisions.size ≤ d → ending = .error (.badIndex "automata" d) := by
  intro ending
  refine ⟨?_, fun start q d hkind hmode hq hd hle => ?_⟩
  · by_cases hkind : n.kind = .lexer
    · have hend := next_meets (Network.closed_of_link hlink hkind)
        (within_ofNetwork n settings stream author) hooks mode _ rfl
      change (∃ t, (next hooks mode _).1 = .ok t) ∨ ∃ e, (next hooks mode _).1 = .error e ∧ _
      rcases hr : next hooks mode ⟨Matcher.ofNetwork n settings, stream, author⟩ with ⟨e | t, s'⟩ <;>
        rw [hr] at hend
      · exact .inr ⟨e, rfl, hend⟩
      · exact .inl ⟨t, rfl⟩
    · refine .inr ⟨_, congrArg Prod.fst (next_of_modeDecision ?_ hooks), .notLexer hkind⟩
      exact if_pos hkind
  · exact congrArg Prod.fst (next_of_modeDecision
      (modeDecision_noAutomaton (m := Matcher.ofNetwork n settings) hkind hmode hq hd hle) hooks)

/-- A lexer whose only token rule ends in a state of a rule that it does not have. -/
def strayStop : Network where
  kind := .lexer
  maxSymbol := maxCodePoint
  states := #[{ id := 0, rule := 0, kind := .tokensStart, transitions := [.epsilon 1], decision := some 0 },
    { id := 1, rule := 7, kind := .ruleStop }]
  decisions := #[0]
  modeStarts := #[0]

/-- A lexer whose mode starts with a decision that is not listed. -/
def strayDecision : Network where
  kind := .lexer
  maxSymbol := maxCodePoint
  states := #[{ id := 0, rule := 0, kind := .tokensStart, decision := some 4 }]
  modeStarts := #[0]

theorem next_ends_stray :
    let n := strayStop.withReturns
    let ending := (next .none 0 ⟨Matcher.ofNetwork n {}, .ofText "a", ()⟩).1
    strayStop.link = .ok n ∧ ending = .error (.badIndex "token types" 7) ∧
      ((∃ t, ending = .ok t) ∨ ∃ e, ending = .error e ∧ n.MatchFails 0 e) ∧
        ∀ start q d, n.kind = .lexer → n.modeStarts[0]? = some start → n.states[start]? = some q →
          q.decision = some d → n.decisions.size ≤ d → ending = .error (.badIndex "automata" d) :=
  have hlink : strayStop.link = .ok strayStop.withReturns := by cbv
  ⟨hlink, by cbv, next_ends hlink {} (.ofText "a") () .none 0⟩

example : strayDecision.link = .ok strayDecision ∧
    (next .none 0 ⟨Matcher.ofNetwork strayDecision {}, .ofText "a", ()⟩).1 =
      .error (.badIndex "automata" 4) := by
  cbv

/-- In a lexer grammar's network every mode has its decision and every rule its token type. -/
theorem ne_badIndex_of_layout {g : Grammar} (h : g.layout = .ok n) (hkind : n.kind = .lexer)
    {e : RecognitionError} (he : n.MatchFails mode e) (table : String) (i : Nat) :
    e ≠ .badIndex table i := by
  obtain ⟨p, hlaid⟩ : ∃ p, g.LaidOut p True n := Grammar.exists_laidOut h fun hf => absurd trivial hf
  rintro rfl
  cases he with
  | noAutomaton hmode hs hd hle =>
    have hapart := Network.modesApart_of_layout h _ _ _ _ hmode (by rw [Network.state?, hs]) hd
    exact absurd (Array.getElem?_eq_some_iff.mp hapart).1 (Nat.not_lt_of_le hle)
  | @noTokenType q s hs hstop hle =>
    have hq : n.isStop q := by
      rwa [Network.isStop, Network.state, hs, Option.getD_some]
    obtain ⟨i, hi, rfl⟩ := hlaid.isStop_iff.mp hq
    obtain ⟨u, hu, -, hrule, -⟩ := hlaid.stop i hi
    obtain rfl := Option.some.inj (hs.symm.trans hu)
    have htypes := congrArg List.length (hlaid.toTables.tokenTypes (hlaid.toTables.kind ▸ hkind))
    rw [List.take_length, List.length_map, Array.length_toList] at htypes
    omega

/-- A match in a grammar's network reads nothing beyond the tables. -/
theorem next_ne_badIndex {g : Grammar} (h : g.layout = .ok n) (settings : Settings)
    (stream : CharStream) (author : σ) (hooks : LexerHooks σ) (mode : Nat) (table : String) (i : Nat) :
    (next hooks mode ⟨Matcher.ofNetwork n settings, stream, author⟩).1 ≠
      .error (.badIndex table i) := by
  obtain ⟨n₀, -, hlink⟩ := Grammar.layout_eq_ok_iff.mp h
  intro hend
  by_cases hkind : n.kind = .lexer
  · have hmeets := next_meets (Network.closed_of_link hlink hkind)
      (within_ofNetwork n settings stream author) hooks mode _ rfl
    rcases hr : next hooks mode ⟨Matcher.ofNetwork n settings, stream, author⟩ with ⟨e | t, s'⟩ <;>
      rw [hr] at hmeets hend
    · exact ne_badIndex_of_layout h hkind hmeets table i (Except.error.inj hend)
    · cases hend
  · have hdecision : (Matcher.ofNetwork n settings).modeDecision mode =
        .error (.invalidNetwork .notLexer) := if_pos hkind
    rw [next_of_modeDecision hdecision] at hend
    cases hend

end Scan
end AdaptiveLL

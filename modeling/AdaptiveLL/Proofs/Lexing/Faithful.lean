import Mathlib
import AdaptiveLL.Lexing.Matcher
import AdaptiveLL.Proofs.Cache
import AdaptiveLL.Proofs.Config
import AdaptiveLL.Proofs.Lexing.Offsets

/-! # What a lexer stores could be worked out again

The automaton of a mode is faithful if each state stands for threads and recognises what these
recognise, the state to begin in has the threads with which the mode begins, and each edge leads to the
threads that are reached by consuming its character.  All of this leaves the distances aside to which
commands are pinned: an edge keeps those of the match for which it was worked out.

Every step of a match keeps the automaton faithful, and ends with the threads that are reached
(`Scan.step_ends`).  What is stored was found without asking a predicate, so it does not depend on the
author's answers.
-/
namespace AdaptiveLL
open StackGraph (Extends)

/-! ## What threads recognise -/

namespace Thread

/-- The token that threads recognise: that of the first one at the end of a rule. -/
def recognised? (n : Network) : List Thread →
    Except RecognitionError (Option (Int × Option (List Command)))
  | [] => .ok none
  | t :: rest =>
    match n.state? t.state with
    | .error e => .error e
    | .ok s =>
      if s.isStop then
        match n.tokenTypes[s.rule]? with
        | some type => .ok (some (type, t.commands))
        | none => .error (.badIndex "token types" s.rule)
      else recognised? n rest

/-- Configurations recognise what the threads recognise that they stand for. -/
theorem recognised?_eq (n : Network) {g : StackGraph} {cs : List Config} {ts : List Thread}
    (h : List.Forall₂ (Config.IsThread g) cs ts) :
    Matcher.recognised? n cs = recognised? n ts := by
  induction h with
  | nil => rfl
  | cons i _ ih =>
    rw [Matcher.recognised?, i.state, i.commands, ih]
    rfl

/-- A token without the distances to which its commands are pinned. -/
def unplacedToken (o : Option (Int × Option (List Command))) :
    Option (Int × Option (List Command)) :=
  o.map fun v => (v.1, v.2.map (List.map Command.unplaced))

theorem recognised?_unplaced (n : Network) (ts : List Thread) :
    recognised? n (ts.map unplaced) = (recognised? n ts).map unplacedToken := by
  induction ts with
  | nil => rfl
  | cons t rest ih =>
    rw [List.map_cons, recognised?, recognised?, state_unplaced, ih]
    cases n.state? t.state with
    | error e => rfl
    | ok s =>
      dsimp only
      split
      · cases n.tokenTypes[s.rule]? <;> rfl
      · rfl

theorem recognised?_append (n : Network) (ts us : List Thread) :
    recognised? n (ts ++ us) =
      match recognised? n ts with
      | .ok none => recognised? n us
      | r => r := by
  induction ts with
  | nil => rfl
  | cons t rest ih =>
    rw [List.cons_append, recognised?, recognised?, ih]
    cases n.state? t.state with
    | error e => rfl
    | ok s =>
      dsimp only
      split
      · cases n.tokenTypes[s.rule]? <;> rfl
      · rfl

theorem recognised?_of_mem {n : Network} {ts : List Thread} {t : Thread}
    (h : recognised? n ts = .ok none) (ht : t ∈ ts) : recognised? n [t] = .ok none := by
  obtain ⟨before, after, rfl⟩ := List.append_of_mem ht
  rw [recognised?_append] at h
  have hbefore : recognised? n before = .ok none := by
    split at h
    · assumption
    · exact h
  rw [hbefore] at h
  change recognised? n ([t] ++ after) = _ at h
  rw [recognised?_append] at h
  split at h
  · assumption
  · exact h

/-- Repeats do not count. -/
theorem recognised?_putAll (n : Network) (ts : List Thread) :
    recognised? n (putAll [] ts) = recognised? n ts := by
  induction ts using List.reverseRecOn with
  | nil => rfl
  | append_singleton ts t ih =>
    rw [putAll_concat, recognised?_append, put]
    split
    · next ht =>
      rw [mem_putAll] at ht
      have ht' : t ∈ ts := ht.resolve_left List.not_mem_nil
      rw [ih]
      cases hr : recognised? n ts with
      | error e => rfl
      | ok o =>
        cases o with
        | none => exact (recognised?_of_mem hr ht').symm
        | some v => rfl
    · rw [recognised?_append, ih]

/-- What threads recognise depends on their outline, distances aside. -/
theorem recognised?_outline (n : Network) (ts : List Thread) :
    recognised? n (outline ts) = (recognised? n ts).map unplacedToken := by
  rw [outline, recognised?_putAll, recognised?_unplaced]

/-- Threads with one outline recognise the same, distances aside, or fail alike. -/
theorem recognised?_alongside {n : Network} {ts us : List Thread} (h : outline ts = outline us) :
    Alongside (fun o o' => unplacedToken o = unplacedToken o') (recognised? n ts) (recognised? n us) := by
  have hmap : (recognised? n ts).map unplacedToken = (recognised? n us).map unplacedToken := by
    rw [← recognised?_outline, ← recognised?_outline, h]
  cases ht : recognised? n ts with
  | error e =>
    cases hu : recognised? n us with
    | error e' =>
      rw [ht, hu] at hmap
      cases hmap
      exact .error e
    | ok o' =>
      rw [ht, hu] at hmap
      cases hmap
  | ok o =>
    cases hu : recognised? n us with
    | error e' =>
      rw [ht, hu] at hmap
      cases hmap
    | ok o' =>
      rw [ht, hu] at hmap
      exact .ok (Except.ok.inj hmap)

theorem outline_eq_nil_iff {ts : List Thread} : outline ts = [] ↔ ts = [] := by
  constructor
  · intro h
    cases ts with
    | nil => rfl
    | cons t rest =>
      have ht : t.unplaced ∈ outline (t :: rest) := mem_outline.mpr List.mem_cons_self
      rw [h] at ht
      exact absurd ht List.not_mem_nil
  · rintro rfl
    rfl

end Thread

/-! ## States that stand for threads -/

/-- What a closure sees where predicates have known answers. -/
def Outlook.told (n : Network) (settings : Settings) (answers : Nat → Nat → Bool)
    (endIsFree : Bool) : Outlook Unit where
  network := n
  endIsFree
  ask rule index _ := (answers rule index, ())
  maxDepth := settings.maxDepth

/-- A state of a mode's automaton stands for threads, and recognises what they recognise. -/
structure AutomatonState.Holds (n : Network) (g : StackGraph) (s : AutomatonState)
    (ts : List Thread) : Prop where
  configs : List.Forall₂ (Config.IsThread g) s.configs.toList ts
  sorted : Thread.Sorted ts
  token : ∃ o, Thread.recognised? n ts = .ok o ∧ s.isAccept = o.isSome ∧
    ∀ v, o = some v → s.tokenType = v.1 ∧ s.commands = v.2

/-- What an edge leads to: nowhere if there are no threads, and otherwise to a state that stands for
them. -/
inductive AutomatonState.Leads (n : Network) (g : StackGraph) :
    Option AutomatonState → List Thread → Prop
  | nowhere : Leads n g none []
  | state {s : AutomatonState} {ts : List Thread} : s.Holds n g ts → ts ≠ [] → Leads n g (some s) ts

section
variable (n : Network) (allowed : Settings → Prop) (g : StackGraph)

/-- A state stands for threads. -/
def LexerState (s : AutomatonState) : Prop := ∃ ts, s.Holds n g ts

/-- A state stands for the threads with which a mode begins. -/
def LexerStart (start : Nat) (s : AutomatonState) : Prop :=
  ∃ settings, allowed settings ∧ ∃ (answers : Nat → Nat → Bool) (sweep : Thread.Sweep)
    (ts : List Thread), Thread.starts (.told n settings answers false) start = .ok sweep ∧
      sweep.asked = false ∧ s.Holds n g ts ∧ Thread.outline ts = Thread.outline sweep.threads

/-- A character leads from a state to the threads that are reached by consuming it. -/
def LexerEdge (s : AutomatonState) (x : Symbol) (o : Option AutomatonState) : Prop :=
  ∃ settings, allowed settings ∧ ∃ (answers : Nat → Nat → Bool) (offset : Nat) (ts : List Thread)
    (sweep : Thread.Sweep) (ts' : List Thread), s.Holds n g ts ∧
      Thread.reach (.told n settings answers (x = endOfInput)) offset x ts = .ok sweep ∧
      sweep.asked = false ∧ AutomatonState.Leads n g o ts' ∧
      Thread.outline ts' = Thread.outline sweep.threads

end

/-- The automaton of a mode stores only what could be worked out again. -/
def Automaton.FaithfulLexer (n : Network) (allowed : Settings → Prop) (g : StackGraph)
    (a : Automaton) : Prop :=
  a.Filled (LexerState n g) (LexerStart n allowed g a.netState) (LexerEdge n allowed g)

variable {n : Network} {allowed : Settings → Prop} {g h : StackGraph}

theorem AutomatonState.Holds.mono (hg : g.Truthful) (hh : h.Truthful) (e : Extends g h)
    {s : AutomatonState} {ts : List Thread} (hs : s.Holds n g ts) : s.Holds n h ts :=
  { hs with configs := hs.configs.imp fun _ _ i => i.mono hg hh e }

theorem AutomatonState.Leads.mono (hg : g.Truthful) (hh : h.Truthful) (e : Extends g h)
    {o : Option AutomatonState} {ts : List Thread} (ho : Leads n g o ts) : Leads n h o ts := by
  cases ho with
  | nowhere => exact .nowhere
  | state hs hne => exact .state (hs.mono hg hh e) hne

/-- Configurations of one graph that count as the same stand for the same threads. -/
theorem threads_unique (hg : g.Truthful) {cs ds : List Config} {ts us : List Thread}
    (hc : List.Forall₂ (Config.IsThread g) cs ts) (hd : List.Forall₂ (Config.IsThread g) ds us)
    (h : cs.map Config.identity = ds.map Config.identity) : ts = us := by
  induction hc generalizing ds us with
  | nil =>
    obtain rfl := List.map_eq_nil_iff.mp h.symm
    cases hd
    rfl
  | cons i _ ih =>
    cases hd with
    | nil => cases h
    | cons j hd =>
      obtain ⟨hhead, htail⟩ := List.cons_eq_cons.mp h
      rw [(i.identity_eq_iff hg j).mp hhead, ih hd htail]

/-- What is stored stays right while the graph grows. -/
theorem Automaton.FaithfulLexer.mono (hg : g.Truthful) (hh : h.Truthful)
    (e : StackGraph.Extends g h) {a : Automaton} (ha : a.FaithfulLexer n allowed g) : a.FaithfulLexer n allowed h := by
  refine Filled.imp ha (fun s ⟨ts, hs⟩ => ⟨ts, hs.mono hg hh e⟩) ?_ ?_
  · rintro s ⟨settings, hall, answers, sweep, ts, hrun, hask, hs, heq⟩
    exact ⟨settings, hall, answers, sweep, ts, hrun, hask, hs.mono hg hh e, heq⟩
  · rintro s x o - - ⟨settings, hall, answers, offset, ts, sweep, ts', hs, hrun, hask, ho, heq⟩
    exact ⟨settings, hall, answers, offset, ts, sweep, ts', hs.mono hg hh e, hrun, hask,
      ho.mono hg hh e, heq⟩

/-! ## Steps of a match -/

/-- Callbacks whose predicates depend on their arguments and not on the author's state. -/
def LexerHooks.Answers {σ : Type} (hooks : LexerHooks σ) (answers : Nat → Nat → Cursor → Bool) :
    Prop :=
  ∀ rule index cursor s, (hooks.predicate rule index cursor s).1 = answers rule index cursor

namespace Scan
variable {σ : Type} {d : Nat} {s s' s'' : Scan σ}

/-- A scan over a network, under allowed settings, with a faithful cache. -/
structure Sane (n : Network) (allowed : Settings → Prop) (s : Scan σ) : Prop where
  network : s.matcher.network = n
  settings : allowed s.matcher.settings
  cache : s.matcher.cache.Keeps n fun _ g a => a.FaithfulLexer n allowed g

/-- How a scan changes while it stands where it is. -/
structure Stays (n : Network) (allowed : Settings → Prop) (d : Nat) (s s' : Scan σ) : Prop where
  sane : s'.Sane n allowed
  settings : s'.matcher.settings = s.matcher.settings
  tokenStart : s'.matcher.tokenStart = s.matcher.tokenStart
  position : s'.matcher.position = s.matcher.position
  stream : s'.stream = s.stream
  grows : Extends s.matcher.cache.graph s'.matcher.cache.graph
  automaton : Automaton.Extends (s.matcher.cache.automaton d) (s'.matcher.cache.automaton d)

theorem Stays.refl (h : s.Sane n allowed) : Stays n allowed d s s :=
  ⟨h, rfl, rfl, rfl, rfl, Extends.refl _, Automaton.Extends.refl _⟩

theorem Stays.trans (h : Stays n allowed d s s') (h' : Stays n allowed d s' s'') :
    Stays n allowed d s s'' :=
  ⟨h'.sane, h'.settings.trans h.settings, h'.tokenStart.trans h.tokenStart,
    h'.position.trans h.position, h'.stream.trans h.stream, h.grows.trans h'.grows,
    h.automaton.trans h'.automaton⟩

/-- The scan after closures that left a workspace behind. -/
def afterWork (s : Scan σ) (w : Workspace σ) : Scan σ where
  matcher := { s.matcher with
    cache := { s.matcher.cache with graph := w.graph }
    counters := { s.matcher.counters with
      closures := s.matcher.counters.closures + w.closures } }
  stream := s.stream
  author := w.author

theorem withStacks_apply {α : Type} (act : Run (Workspace σ) α) (s : Scan σ) :
    withStacks act s =
      ((act ⟨s.matcher.cache.graph, s.author, 0⟩).1,
        s.afterWork (act ⟨s.matcher.cache.graph, s.author, 0⟩).2) := rfl

/-- Closures that let the graph grow. -/
theorem Stays.afterWork (h : s.Sane n allowed) {w : Workspace σ} (hw : w.graph.Truthful)
    (e : Extends s.matcher.cache.graph w.graph) : Stays n allowed d s (s.afterWork w) :=
  ⟨⟨h.network, h.settings, h.cache.grow hw fun _ _ ha => ha.mono h.cache.graph hw e⟩, rfl, rfl, rfl,
    rfl, e, Automaton.Extends.refl _⟩

/-- A change to the automaton of the decision that keeps it faithful. -/
theorem Stays.changeAutomaton (h : s.Sane n allowed) (hd : d < n.decisions.size)
    {f : Automaton → Automaton}
    (hf : (f (s.matcher.cache.automaton d)).netState = (s.matcher.cache.automaton d).netState)
    (he : Automaton.Extends (s.matcher.cache.automaton d) (f (s.matcher.cache.automaton d)))
    (ha : (f (s.matcher.cache.automaton d)).FaithfulLexer n allowed s.matcher.cache.graph) :
    Stays n allowed d s
      { s with matcher := { s.matcher with cache := s.matcher.cache.change d f } } := by
  refine ⟨⟨h.network, h.settings, h.cache.change fun a hget => ?_⟩, rfl, rfl, rfl, rfl,
    Extends.refl _, ?_⟩
  · obtain rfl := Option.some.inj ((Cache.getElem?_automaton h.cache.fits hd).symm.trans hget)
    exact ⟨hf, ha⟩
  · change Automaton.Extends _ ((s.matcher.cache.change d f).automaton d)
    rwa [Cache.automaton_change h.cache.fits hd]

theorem netState_automaton (h : s.Sane n allowed) (hd : d < n.decisions.size) :
    n.decisions[d]? = some (s.matcher.cache.automaton d).netState :=
  Cache.netState_automaton h.cache.fits hd

/-- The state that a target names can be looked up. -/
theorem automatonState_ends {t : Target} {e : AutomatonState}
    (ht : Automaton.Names (s.matcher.cache.automaton d) t (some e)) :
    ∃ u, automatonState d t s = (.ok u, s) ∧ u.bare = e := by
  cases ht with
  | @state i u hu =>
    refine ⟨u, ?_, rfl⟩
    unfold automatonState
    rw [Run.bind_apply, Run.get_apply]
    simp only [Automaton.state?, hu]
    rfl

/-- The state for configurations recognises what these do. -/
theorem exists_classify {configs : ConfigSet} {o : Option (Int × Option (List Command))}
    (h : Matcher.recognised? n configs.toList = .ok o) :
    ∃ u, Matcher.classify n configs = .ok u ∧ u.configs = configs ∧ u.edges = [] ∧
      u.isAccept = o.isSome ∧ ∀ v, o = some v → u.tokenType = v.1 ∧ u.commands = v.2 := by
  unfold Matcher.classify
  rw [h]
  cases o with
  | none => exact ⟨_, rfl, rfl, rfl, rfl, nofun⟩
  | some v =>
    refine ⟨_, rfl, rfl, rfl, rfl, fun w hw => ?_⟩
    cases hw
    exact ⟨rfl, rfl⟩

/-- Adding the state for configurations: it recognises what their threads do, or fails as they do. -/
theorem addState_ends (h : s.Sane n allowed) (hd : d < n.decisions.size) {configs : ConfigSet}
    {ts : List Thread}
    (hc : List.Forall₂ (Config.IsThread s.matcher.cache.graph) configs.toList ts)
    (hts : Thread.Sorted ts) :
    (∃ e, Thread.recognised? n ts = .error e ∧ addState d configs s = (.error e, s)) ∨
      ∃ t s', addState d configs s = (.ok t, s') ∧ Stays n allowed d s s' ∧
        s'.matcher.cache.graph = s.matcher.cache.graph ∧ ∃ e,
          Automaton.Names (s'.matcher.cache.automaton d) t (some e) ∧
            e.Holds n s.matcher.cache.graph ts := by
  have hrec := Thread.recognised?_eq n hc
  unfold addState
  rw [Run.bind_apply, Run.get_apply]
  dsimp only
  rw [Run.bind_apply, h.network]
  cases hr : Thread.recognised? n ts with
  | error e =>
    have hclassify : Matcher.classify n configs = .error e := by
      rw [Matcher.classify, hrec, hr]
    rw [hclassify]
    exact .inl ⟨e, rfl, rfl⟩
  | ok o =>
    obtain ⟨u, hu, hconfigs, hedges, haccept, htoken⟩ := exists_classify (hrec.trans hr)
    rw [hu]
    have hholds : AutomatonState.Holds n s.matcher.cache.graph
        { u with configs := u.configs.publish } ts :=
      ⟨by rw [hconfigs]; exact hc, hts, o, hr, haccept, htoken⟩
    obtain ⟨hfilled, e, hn, ⟨us, he⟩, hsame⟩ := (h.cache.automaton hd).add hedges ⟨ts, hholds⟩
    have hstays : Stays n allowed d s { s with
        matcher := { s.matcher with cache := (s.matcher.cache.addState d u).2 } } := by
      refine Stays.changeAutomaton h hd (f := fun _ => ((s.matcher.cache.automaton d).add u).2)
        (Automaton.netState_add _ u) (Automaton.extends_add _ u) ?_
      rw [Automaton.FaithfulLexer, Automaton.netState_add]
      exact hfilled
    refine .inr ⟨_, _, rfl, hstays, rfl, e, ?_, ?_⟩
    · have haut : (s.matcher.cache.addState d u).2.automaton d =
          ((s.matcher.cache.automaton d).add u).2 :=
        Cache.automaton_change h.cache.fits hd _
      change Automaton.Names ((s.matcher.cache.addState d u).2.automaton d) _ _
      rw [haut]
      exact hn
    · -- a state that was there before has the same configurations, hence the same threads
      rcases hsame with hsame | rfl
      · have hthreads : us = ts := by
          refine threads_unique h.cache.graph he.configs hc ?_
          rw [ConfigSet.identity_of_same hsame, hconfigs]
        exact hthreads ▸ he
      · exact hholds

/-- What the closures see while a character is consumed from where a scan stands. -/
def view (n : Network) (settings : Settings) (answers : Nat → Nat → Cursor → Bool) (s : Scan σ)
    (x : Symbol) : Outlook Unit :=
  .told n settings (fun rule index => answers rule index s.consume.cursor) (x = endOfInput)

/-- How a step from threads ends: with what stands for the threads that are reached, or with the error of
reaching them or of recognising their token. -/
def StepEnds (n : Network) (allowed : Settings → Prop) (d : Nat)
    (answers : Nat → Nat → Cursor → Bool) (s : Scan σ) (x : Symbol) (ts : List Thread) :
    Ending (Scan σ) Target → Prop
  | (.ok t, s') => Stays n allowed d s s' ∧ ∃ o ts',
      Automaton.Names (s'.matcher.cache.automaton d) t o ∧
        AutomatonState.Leads n s'.matcher.cache.graph o ts' ∧ ∃ settings, allowed settings ∧
          ∃ sweep, Thread.reach (s.view n settings answers x) 0 x ts = .ok sweep ∧
            Thread.outline ts' = Thread.outline sweep.threads
  | (.error e, s') => Stays n allowed d s s' ∧
      (Thread.reach (s.view n s.matcher.settings answers x) 0 x ts = .error e ∨
        ∃ sweep, Thread.reach (s.view n s.matcher.settings answers x) 0 x ts = .ok sweep ∧
          Thread.recognised? n sweep.threads = .error e)

theorem outlook_agrees (h : s.Sane n allowed) {hooks : LexerHooks σ}
    {answers : Nat → Nat → Cursor → Bool} (ha : hooks.Answers answers) (cursor : Cursor)
    (endIsFree : Bool) :
    (s.outlook hooks cursor endIsFree).Agrees (.told n s.matcher.settings
      (fun rule index => answers rule index cursor) endIsFree) :=
  ⟨h.network, rfl, rfl, fun rule index a => ha rule index cursor a⟩

/-- The distance from the start of the token decides neither what is reached nor whether it fails. -/
theorem reach_near (env : Outlook Unit) (offset : Nat) (x : Symbol) {ts : List Thread}
    (hts : Thread.Sorted ts) :
    Alongside Thread.Sweep.Alike (Thread.reach env offset x ts) (Thread.reach env 0 x ts) :=
  Thread.reach_outline env offset 0 x hts hts rfl

/-- Storing an edge that leads where it should. -/
theorem storeEdge_ends (h : s.Sane n allowed) (hd : d < n.decisions.size) {source t : Target}
    {e : AutomatonState} {o : Option AutomatonState} {x : Symbol}
    (hs : Automaton.Names (s.matcher.cache.automaton d) source (some e))
    (ht : Automaton.Names (s.matcher.cache.automaton d) t o)
    (he : LexerEdge n allowed s.matcher.cache.graph e x o) :
    ∃ s', changeAutomaton d (·.setEdge source x t) s = (.ok (), s') ∧ Stays n allowed d s s' ∧
      s'.matcher.cache.graph = s.matcher.cache.graph := by
  refine ⟨_, rfl, ?_, rfl⟩
  cases hs with
  | state hs =>
    exact Stays.changeAutomaton h hd (f := fun a => a.setEdge _ x t) rfl
      (Automaton.extends_setEdge _ _ x t) ((h.cache.automaton hd).setEdge hs ht he)

/-- Storing an edge, if that is allowed, and going along it. -/
theorem conclude_edge (h : s.Sane n allowed) (hd : d < n.decisions.size) {source t : Target}
    {e : AutomatonState} {o : Option AutomatonState} {x : Symbol}
    (hs : Automaton.Names (s.matcher.cache.automaton d) source (some e))
    (ht : Automaton.Names (s.matcher.cache.automaton d) t o) (store : Bool)
    (he : store → LexerEdge n allowed s.matcher.cache.graph e x o) :
    ∃ s', (do
        if store then changeAutomaton d (·.setEdge source x t)
        pure t : Run (Scan σ) Target) s = (.ok t, s') ∧ Stays n allowed d s s' ∧
      s'.matcher.cache.graph = s.matcher.cache.graph := by
  cases store with
  | false => exact ⟨s, rfl, .refl h, rfl⟩
  | true =>
    obtain ⟨s', hrun, hstays, hgraph⟩ := storeEdge_ends h hd hs ht (he rfl)
    refine ⟨s', ?_, hstays, hgraph⟩
    change (do
      changeAutomaton d (·.setEdge source x t)
      pure t : Run (Scan σ) Target) s = _
    rw [Run.bind_apply, hrun]
    rfl

/-- A step ends by storing the edge and going along it to what stands for the threads that are reached. -/
theorem conclude_ends {s₁ : Scan σ} (hstays : Stays n allowed d s s₁) (hd : d < n.decisions.size)
    (hall : allowed s.matcher.settings) {answers : Nat → Nat → Cursor → Bool} {source t : Target}
    {e : AutomatonState} {o : Option AutomatonState} {x : Symbol} {ts ts' : List Thread} {sweep : Thread.Sweep}
    (hs : Automaton.Names (s₁.matcher.cache.automaton d) source (some e))
    (ht : Automaton.Names (s₁.matcher.cache.automaton d) t o)
    (hleads : AutomatonState.Leads n s₁.matcher.cache.graph o ts')
    (hrun : Thread.reach (s.view n s.matcher.settings answers x) 0 x ts = .ok sweep)
    (heq : Thread.outline ts' = Thread.outline sweep.threads) (store : Bool)
    (he : store → LexerEdge n allowed s₁.matcher.cache.graph e x o) :
    StepEnds n allowed d answers s x ts ((do
      if store then changeAutomaton d (·.setEdge source x t)
      pure t : Run (Scan σ) Target) s₁) := by
  obtain ⟨s₂, hconclude, hstays', hgraph⟩ := conclude_edge hstays.sane hd hs ht store he
  rw [hconclude]
  exact ⟨hstays.trans hstays', o, ts', ht.mono hstays'.automaton, hgraph ▸ hleads, s.matcher.settings, hall,
    sweep, hrun, heq⟩

theorem isEmpty_iff_of_threads {g : StackGraph} {configs : ConfigSet} {ts : List Thread}
    (h : List.Forall₂ (Config.IsThread g) configs.toList ts) : configs.isEmpty ↔ ts = [] := by
  have hlist : configs.isEmpty ↔ configs.toList = [] := by simp [ConfigSet.isEmpty, ConfigSet.toList]
  rw [hlist, ← List.length_eq_zero_iff, ← List.length_eq_zero_iff, h.length_eq]

/-- Working out an edge. -/
theorem computeEdge_ends (h : s.Sane n allowed) (hd : d < n.decisions.size) {hooks : LexerHooks σ}
    {answers : Nat → Nat → Cursor → Bool} (ha : hooks.Answers answers) {source : Target}
    {e : AutomatonState} {ts : List Thread}
    (hs : Automaton.Names (s.matcher.cache.automaton d) source (some e))
    (he : e.Holds n s.matcher.cache.graph ts) (x : Symbol) :
    StepEnds n allowed d answers s x ts (computeEdge hooks d source x s) := by
  obtain ⟨u, hu, rfl⟩ := automatonState_ends hs
  have hg := h.cache.graph
  have hreach : Outlook.Gathers _ Outlook.Gathered
      ((s.outlook hooks s.consume.cursor (x = endOfInput)).reach
        (s.stream.index - s.matcher.tokenStart) x u.configs ⟨s.matcher.cache.graph, s.author, 0⟩)
      (Thread.reach (s.view n s.matcher.settings answers x)
        (s.stream.index - s.matcher.tokenStart) x ts) :=
    Outlook.reach_gathers (outlook_agrees h ha s.consume.cursor _) hg _ x he.configs
  have hnear := reach_near (s.view n s.matcher.settings answers x)
    (s.stream.index - s.matcher.tokenStart) x he.sorted
  unfold computeEdge
  simp only [Run.bind_apply, hu, Run.get_apply, withStacks_apply]
  cases hr : Thread.reach (s.view n s.matcher.settings answers x)
      (s.stream.index - s.matcher.tokenStart) x ts with
  | error err =>
    rw [hr] at hreach
    generalize (s.outlook hooks s.consume.cursor (x = endOfInput)).reach _ x u.configs _ = r
      at hreach ⊢
    cases hreach with
    | error _ hw => exact ⟨.afterWork h hw.1 hw.2, .inl (hnear.eq_error hr)⟩
  | ok sweep =>
    rw [hr] at hreach
    generalize (s.outlook hooks s.consume.cursor (x = endOfInput)).reach _ x u.configs _ = r
      at hreach ⊢
    obtain ⟨sweep', hr', hlike⟩ := hnear.exists_ok hr
    cases hreach with
    | @ok configs w _ _ hgathered =>
      obtain ⟨hw, hgrows, hgathered⟩ := hgathered
      have hstays : Stays n allowed d s (s.afterWork w) := .afterWork h hw hgrows
      have hlists : List.Forall₂ (Config.IsThread w.graph) ({ configs with hasGuards := false } : ConfigSet).toList
          (Thread.putAll [] sweep.threads) := hgathered.lists.configs
      have houtline := Thread.outline_putAll sweep.threads
      have heq := houtline.trans hlike.outline
      -- What the edge leads to, it leads to by this very run, if no predicate was met.
      have hedge : ∀ {k : StackGraph} {o : Option AutomatonState}, k.Truthful → Extends w.graph k →
          AutomatonState.Leads n k o (Thread.putAll [] sweep.threads) →
          (!configs.hasGuards && Matcher.isStored x) = true → LexerEdge n allowed k u.bare x o := by
        intro k o hk hext ho hstore
        have hask : sweep.asked = false := by
          rw [← hgathered.hasGuards]
          simpa using (Bool.and_eq_true_iff.mp hstore).1
        exact ⟨s.matcher.settings, h.settings, _, _, ts, sweep, _,
          he.mono hg hk (hgrows.trans hext), hr, hask, ho, houtline⟩
      by_cases hempty : configs.isEmpty
      · have hleads : AutomatonState.Leads n w.graph none (Thread.putAll [] sweep.threads) := by
          rw [(isEmpty_iff_of_threads hlists).mp hempty]
          exact .nowhere
        simp only [hempty, if_true]
        exact conclude_ends hstays hd h.settings (hs.mono hstays.automaton) .error hleads hr' heq _
          (hedge hw (.refl _) hleads)
      · have hne : Thread.putAll [] sweep.threads ≠ [] := fun hnil =>
          hempty ((isEmpty_iff_of_threads hlists).mpr hnil)
        have hadd := addState_ends hstays.sane hd hlists (Thread.sorted_reach he.sorted hr).putAll
        simp only [hempty, Bool.false_eq_true, if_false]
        rcases hadd with ⟨err, herr, hrun⟩ | ⟨t, s', hrun, hstays', hgraph, e', hn, he'⟩
        · rw [Run.bind_apply, hrun]
          exact ⟨hstays, .inr ⟨sweep', hr', (Thread.recognised?_alongside heq).eq_error herr⟩⟩
        · rw [Run.bind_apply, hrun]
          have hleads : AutomatonState.Leads n s'.matcher.cache.graph (some e')
              (Thread.putAll [] sweep.threads) := .state (hgraph ▸ he') hne
          exact conclude_ends (hstays.trans hstays') hd h.settings
            ((hs.mono hstays.automaton).mono hstays'.automaton) hn hleads hr' heq _
            (hedge hstays'.sane.cache.graph hstays'.grows hleads)

/-- Counting. -/
theorem Stays.count (h : s.Sane n allowed) (f : Counters → Counters) :
    Stays n allowed d s { s with matcher := { s.matcher with counters := f s.matcher.counters } } :=
  ⟨⟨h.network, h.settings, h.cache⟩, rfl, rfl, rfl, rfl, Extends.refl _, Automaton.Extends.refl _⟩

theorem change_apply (f : Matcher → Matcher) (s : Scan σ) :
    change f s = (.ok (), { s with matcher := f s.matcher }) := rfl

theorem told_sameButAnswers (n : Network) (settings : Settings) (answers answers' : Nat → Nat → Bool)
    (endIsFree : Bool) :
    Thread.SameButAnswers (.told n settings answers endIsFree)
      (.told n settings answers' endIsFree) := ⟨rfl, rfl, rfl⟩

/-- What counts for a scan counts for one that stays with it. -/
theorem StepEnds.after {answers : Nat → Nat → Cursor → Bool} {x : Symbol} {ts : List Thread}
    {r : Ending (Scan σ) Target} (hstays : Stays n allowed d s s')
    (hr : StepEnds n allowed d answers s' x ts r) : StepEnds n allowed d answers s x ts r := by
  have hview : ∀ settings, s'.view n settings answers x = s.view n settings answers x := by
    intro settings
    unfold view consume cursor
    rw [hstays.stream, hstays.position, hstays.tokenStart]
  obtain ⟨e | t, s''⟩ := r
  · obtain ⟨hstays', herr⟩ := hr
    rw [hstays.settings, hview] at herr
    exact ⟨hstays.trans hstays', herr⟩
  · obtain ⟨hstays', o, ts', hn, hl, settings, hall, sweep, hrun, heq⟩ := hr
    rw [hview] at hrun
    exact ⟨hstays.trans hstays', o, ts', hn, hl, settings, hall, sweep, hrun, heq⟩

/-- Following an edge, stored or not. -/
theorem step_ends (h : s.Sane n allowed) (hd : d < n.decisions.size) {hooks : LexerHooks σ}
    {answers : Nat → Nat → Cursor → Bool} (ha : hooks.Answers answers) {source : Target}
    {e : AutomatonState} {ts : List Thread}
    (hs : Automaton.Names (s.matcher.cache.automaton d) source (some e))
    (he : e.Holds n s.matcher.cache.graph ts) (x : Symbol) :
    StepEnds n allowed d answers s x ts (step hooks d source x s) := by
  unfold step
  rw [Run.bind_apply, Run.get_apply]
  dsimp only
  cases hedge : if Matcher.isStored x then (s.matcher.cache.automaton d).edge? source x
    else none with
  | some t =>
    have hstored : (s.matcher.cache.automaton d).edge? source x = some t := by
      split at hedge
      · exact hedge
      · cases hedge
    have hcount := Stays.count (d := d) h fun c => { c with hits := c.hits + 1 }
    dsimp only
    rw [Run.bind_apply, change_apply]
    obtain ⟨o, hn, settings, hall, answers', offset, us, sweep, ts', he', hrun, hask, ho, heq⟩ :=
      (h.cache.automaton hd).edge_of_names hs hstored
    obtain rfl : us = ts := threads_unique h.cache.graph he'.configs he.configs rfl
    have hnow : Thread.reach (s.view n settings answers x) offset x us = .ok sweep :=
      Thread.reach_congr (told_sameButAnswers n settings _ _ _) hrun hask
    obtain ⟨sweep', hr, hlike⟩ := (reach_near (s.view n settings answers x) offset x he.sorted).exists_ok hnow
    exact ⟨hcount, o, ts', hn, ho, settings, hall, sweep', hr, heq.trans hlike.outline⟩
  | none =>
    have hcount := Stays.count (d := d) h fun c => { c with misses := c.misses + 1 }
    dsimp only
    rw [Run.bind_apply, change_apply]
    exact (computeEdge_ends hcount.sane hd ha hs he x).after hcount

/-! ## Where to begin -/

/-- How finding the state to begin in ends: with what stands for the threads with which the mode begins,
or with the error of working these out or of recognising their token. -/
def StartEnds (n : Network) (allowed : Settings → Prop) (d : Nat)
    (answers : Nat → Nat → Cursor → Bool) (s : Scan σ) (start : Nat) : Ending (Scan σ) Target → Prop
  | (.ok t, s') => Stays n allowed d s s' ∧ ∃ e ts,
      Automaton.Names (s'.matcher.cache.automaton d) t (some e) ∧
        e.Holds n s'.matcher.cache.graph ts ∧ ∃ settings, allowed settings ∧ ∃ sweep,
          Thread.starts (.told n settings (fun rule index => answers rule index s.cursor) false)
            start = .ok sweep ∧ Thread.outline ts = Thread.outline sweep.threads
  | (.error e, s') => Stays n allowed d s s' ∧
      (Thread.starts (.told n s.matcher.settings (fun rule index => answers rule index s.cursor)
          false) start = .error e ∨
        ∃ sweep, Thread.starts (.told n s.matcher.settings
          (fun rule index => answers rule index s.cursor) false) start = .ok sweep ∧
          Thread.recognised? n sweep.threads = .error e)

/-- Finding the state to begin in, stored or not. -/
theorem startState_ends (h : s.Sane n allowed) {hooks : LexerHooks σ}
    {answers : Nat → Nat → Cursor → Bool} (ha : hooks.Answers answers) {mode start : Nat}
    (hmode : n.modeStarts[mode]? = some start) (hd : n.decisions[d]? = some start) :
    StartEnds n allowed d answers s start (startState hooks mode d s) := by
  have hlt : d < n.decisions.size := (Array.getElem?_eq_some_iff.mp hd).1
  have hnet : (s.matcher.cache.automaton d).netState = start :=
    Option.some.inj ((netState_automaton h hlt).symm.trans hd)
  have hg := h.cache.graph
  unfold startState
  rw [Run.bind_apply, Run.get_apply]
  dsimp only
  cases hstart : (s.matcher.cache.automaton d).start with
  | some t =>
    -- The stored state may have been worked out with other answers, but it asked for none.
    obtain ⟨e, hn, settings, hall, answers', sweep, ts, hrun, hask, he, heq⟩ :=
      (h.cache.automaton hlt).start hstart
    rw [hnet] at hrun
    exact ⟨.refl h, e, ts, hn, he, settings, hall, sweep,
      Thread.starts_congr (told_sameButAnswers n settings _ _ _) hrun hask, heq⟩
  | none =>
    have hbegin : Outlook.Gathers _ Outlook.Gathered
        ((s.outlook hooks s.cursor false).startConfigs start ⟨s.matcher.cache.graph, s.author, 0⟩)
        (Thread.starts (.told n s.matcher.settings (fun rule index => answers rule index s.cursor)
          false) start) :=
      Outlook.startConfigs_gathers (outlook_agrees h ha s.cursor false) hg start
    dsimp only
    rw [Run.bind_apply, withStacks_apply, h.network, hmode, Option.getD_some]
    generalize (s.outlook hooks s.cursor false).startConfigs start _ = r at hbegin ⊢
    cases hr : Thread.starts (.told n s.matcher.settings
        (fun rule index => answers rule index s.cursor) false) start with
    | error err =>
      rw [hr] at hbegin
      cases hbegin with
      | error _ hw => exact ⟨.afterWork h hw.1 hw.2, .inl hr⟩
    | ok sweep =>
      rw [hr] at hbegin
      cases hbegin with
      | @ok configs w _ _ hgathered =>
        obtain ⟨hw, hgrows, hgathered⟩ := hgathered
        have hstays : Stays n allowed d s (s.afterWork w) := .afterWork h hw hgrows
        have hunguarded : List.Forall₂ (Config.IsThread w.graph)
            ({ configs with hasGuards := false } : ConfigSet).toList
            (Thread.putAll [] sweep.threads) := hgathered.lists.configs
        dsimp only
        rw [Run.bind_apply]
        rcases addState_ends hstays.sane hlt hunguarded (Thread.sorted_starts hr).putAll with
          ⟨err, herr, hrun⟩ | ⟨t, s', hrun, hstays', hgraph, e, hn, he⟩
        · rw [hrun]
          exact ⟨hstays, .inr ⟨sweep, hr, Thread.recognised?_putAll n _ ▸ herr⟩⟩
        · rw [hrun]
          have he' : e.Holds n s'.matcher.cache.graph (Thread.putAll [] sweep.threads) :=
            hgraph ▸ he
          have heq := Thread.outline_putAll sweep.threads
          have hend : ∀ s'', Stays n allowed d s' s'' →
              s''.matcher.cache.graph = s'.matcher.cache.graph →
              StartEnds n allowed d answers s start (.ok t, s'') := fun s'' hstays'' hgraph' =>
            ⟨hstays.trans (hstays'.trans hstays''), e, _, hn.mono hstays''.automaton, hgraph' ▸ he',
              s.matcher.settings, h.settings, sweep, hr, heq⟩
          dsimp only
          -- Only a state to which no guard led is stored as the first one.
          cases hguards : configs.hasGuards with
          | true => exact hend s' (.refl hstays'.sane) rfl
          | false =>
            have hnet' : (s'.matcher.cache.automaton d).netState = start :=
              Option.some.inj ((netState_automaton hstays'.sane hlt).symm.trans hd)
            have hfirst : LexerStart n allowed s'.matcher.cache.graph
                (s'.matcher.cache.automaton d).netState e := by
              rw [hnet']
              exact ⟨s.matcher.settings, h.settings, _, sweep, _, hr,
                hgathered.hasGuards.symm.trans hguards, he', heq⟩
            exact hend _ (Stays.changeAutomaton hstays'.sane hlt (f := fun a => a.setStart t) rfl
              (Automaton.extends_setStart _ t)
              ((hstays'.sane.cache.automaton hlt).setStart hn hfirst)) rfl

end Scan
end AdaptiveLL

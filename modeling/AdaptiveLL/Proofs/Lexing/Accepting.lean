import AdaptiveLL.Proofs.Lexing.Positions

/-!
# What a match gives

A match adds to the automaton of its mode and changes no state but for its edges, whatever the cache
held before.  So a state that recognised a token in the course of a match still does when the match
goes back to it (`Scan.Accepts`).  Hence a match gives what an accepting state says, or the end of the
input, or an error (`Scan.next_gives`).
-/

namespace AdaptiveLL
namespace Scan

open Run (Leaves Meets Preserves)

variable {σ : Type} {s s' : Scan σ} {d : Nat} {t : Target} {found : TokenMatch}

/-- A state of the automaton of a decision recognises a token. -/
def Accepts (d : Nat) (t : Target) (s : Scan σ) : Prop :=
  ∃ u, (s.matcher.cache.automaton d).Names t (some u) ∧ u.isAccept

/-- A match in a mode gives what an accepting state of the mode's automaton says. -/
def Recognises (hooks : LexerHooks σ) (mode : Nat) (s : Scan σ) (found : TokenMatch) : Prop :=
  ∃ d t u, s.matcher.modeDecision mode = .ok d ∧
    ((next hooks mode s).2.matcher.cache.automaton d).Names t (some u) ∧ u.isAccept ∧
      found = ⟨u.tokenType, u.commands⟩

/-! ## What recognises a token lasts -/

theorem Accepts.of_extends (h : s.Accepts d t)
    (hext : (s.matcher.cache.automaton d).Extends (s'.matcher.cache.automaton d)) :
    s'.Accepts d t := by
  obtain ⟨u, hu, haccept⟩ := h
  exact ⟨u, hu.mono hext, haccept⟩

theorem accepts_of_leaves {α : Type} {m : Run (Scan σ) α}
    (h : Leaves (fun s => s.matcher.cache.automata) m) : Preserves (Accepts d t) m := by
  intro s hs
  have hsame : (m s).2.matcher.cache.automata = s.matcher.cache.automata := h s
  refine hs.of_extends ?_
  rw [Cache.automaton, Cache.automaton, hsame]
  exact .refl _

theorem accepts_change {f : Automaton → Automaton}
    (hf : (s.matcher.cache.automaton d).Extends (f (s.matcher.cache.automaton d)))
    (h : s.Accepts d t) :
    Accepts d t { s with matcher := { s.matcher with cache := s.matcher.cache.change d f } } := by
  refine h.of_extends ?_
  change (s.matcher.cache.automaton d).Extends ((s.matcher.cache.change d f).automaton d)
  rcases Cache.automaton_change_cases s.matcher.cache d f with hchange | hchange
  · rwa [hchange]
  · rw [hchange]
    exact .refl _

theorem accepts_changeAutomaton {f : Automaton → Automaton} (hf : ∀ a : Automaton, a.Extends (f a)) :
    Preserves (Accepts d t) (changeAutomaton d f : Run (Scan σ) Unit) :=
  .modify fun _ hs => accepts_change (hf _) hs

theorem accepts_addState (configs : ConfigSet) :
    Preserves (Accepts d t) (addState d configs : Run (Scan σ) Target) := by
  refine Preserves.get.bind fun _ => (accepts_of_leaves (leaves_check _)).bind fun state => fun s hs => ?_
  exact accepts_change (f := fun _ => ((s.matcher.cache.automaton d).add state).2)
    (Automaton.extends_add _ state) hs

theorem accepts_computeEdge (hooks : LexerHooks σ) (source : Target) (x : Symbol) :
    Preserves (Accepts d t) (computeEdge hooks d source x) := by
  refine (accepts_of_leaves (leaves_automatonState d source)).bind fun state => Preserves.get.bind fun s =>
    (accepts_of_leaves fun _ => rfl).bind fun configs => ?_
  have hstore : ∀ target : Target, Preserves (Accepts d t) (do
      if !configs.hasGuards && Matcher.isStored x then
        changeAutomaton d (·.setEdge source x target)
      pure target : Run (Scan σ) Target) := fun target =>
    .ite ((accepts_changeAutomaton fun a => a.extends_setEdge source x target).bind fun _ => .pure _)
      (.pure _)
  exact .ite ((Preserves.pure _).bind hstore) ((accepts_addState _).bind hstore)

theorem accepts_step (hooks : LexerHooks σ) (source : Target) (x : Symbol) :
    Preserves (Accepts d t) (step hooks d source x) := by
  refine Preserves.get.bind fun s => ?_
  dsimp only
  split
  · exact (accepts_of_leaves fun _ => rfl).bind fun _ => .pure _
  · exact (accepts_of_leaves fun _ => rfl).bind fun _ => accepts_computeEdge hooks source x

/-! ## Going back to what recognises a token -/

/-- The state at a place that is remembered, if there is one, recognises a token. -/
def Recalls (d : Nat) (place : Option Checkpoint) (s : Scan σ) : Prop :=
  ∀ c, place = some c → s.Accepts d c.target

theorem recalls_of_preserves {α : Type} {m : Run (Scan σ) α}
    (h : ∀ t, Preserves (Accepts d t) m) (place : Option Checkpoint) :
    Meets (Recalls d place) m (fun _ => Recalls d place) fun _ _ => True := by
  intro s hs
  have hkept : (m s).2.Recalls d place := fun c hc => h c.target s (hs c hc)
  rcases hr : m s with ⟨e | a, s'⟩ <;> rw [hr] at hkept
  · trivial
  · exact hkept

theorem checkpoint?_recalls (last : Option Checkpoint) (t : Target) :
    Meets (Recalls d last) (checkpoint? d t)
      (fun here (s : Scan σ) => s.Recalls d here ∧ s.Recalls d last) fun _ _ => True := by
  intro s hlast
  unfold checkpoint? automatonState
  rw [Run.bind_apply, Run.bind_apply, Run.get_apply]
  dsimp only
  cases t with
  | error => trivial
  | state i =>
    cases hu : (s.matcher.cache.automaton d).states[i]? with
    | none =>
      simp only [Automaton.state?, hu]
      trivial
    | some u =>
      simp only [Automaton.state?, hu]
      refine ⟨fun c hc => ?_, hlast⟩
      split at hc
      · next haccept =>
        cases hc
        exact ⟨u.bare, .state hu, haccept⟩
      · cases hc

/-- Wherever the automaton is run to, the place remembered is one at which a token was recognised. -/
theorem munch_recalls (hooks : LexerHooks σ) (fuel : Nat) (last : Option Checkpoint) (source : Target)
    (x : Symbol) :
    Meets (Recalls d last) (munch hooks d fuel last source x) (fun r => Recalls d r.1)
      fun _ _ => True := by
  induction fuel generalizing last source x with
  | zero => exact .throw fun _ _ => trivial
  | succ fuel ih =>
    unfold munch
    refine (recalls_of_preserves (fun _ => accepts_step hooks source x) last).bind fun t => ?_
    refine .ite (fun _ => .pure fun _ hs => hs) fun _ => ?_
    have hrest : Meets (Recalls d last) (do
        let here ← checkpoint? d t
        if x = endOfInput && here.isSome then pure (here, x)
        else munch hooks d fuel (here <|> last) t (← MonadState.get).stream.peek)
        (fun r => Recalls (σ := σ) d r.1) fun _ _ => True := by
      refine (checkpoint?_recalls last t).bind fun here => ?_
      refine .ite (fun _ => .pure fun _ hs => hs.1) fun _ => ?_
      rintro s ⟨hhere, hlast⟩
      rw [Run.bind_apply, Run.get_apply]
      refine ih (here <|> last) t s.stream.peek s ?_
      cases here with
      | some place => exact hhere
      | none => exact hlast
    exact .ite (fun _ => Meets.bind (.modify fun _ hs => hs) fun _ => hrest) fun _ => hrest

/-- What is given in the end: the token of an accepting state, or the end of the input. -/
def Gives (d : Nat) (found : TokenMatch) (s : Scan σ) : Prop :=
  found = ⟨endOfInput, none⟩ ∨ ∃ t u, (s.matcher.cache.automaton d).Names t (some u) ∧ u.isAccept ∧
    found = ⟨u.tokenType, u.commands⟩

theorem commit_gives (place : Checkpoint) :
    Meets (Accepts d place.target) (commit d place : Run (Scan σ) TokenMatch) (Gives d)
      fun _ _ => True := by
  intro s h
  obtain ⟨e, he, haccept⟩ := h
  have he' : (Scan.mk (s.matcher.setPosition place.position) (s.stream.seek place.index)
      s.author).matcher.cache.automaton d |>.Names place.target (some e) := he
  obtain ⟨u, hu, rfl⟩ := automatonState_ends he'
  unfold commit
  rw [Run.bind_apply, Run.modify_apply]
  dsimp only
  rw [Run.bind_apply, hu]
  exact .inr ⟨place.target, u.bare, he', haccept, rfl⟩

theorem settle_gives (mode : Nat) (begin : Scan σ) (reached : Option Checkpoint × Symbol) :
    Meets (Recalls d reached.1) (settle mode d begin reached) (Gives d) fun _ _ => True := by
  obtain ⟨_ | place, x⟩ := reached
  · intro s _
    unfold settle
    dsimp only
    rw [Run.bind_apply, Run.get_apply]
    dsimp only
    by_cases hend : (decide (x = endOfInput) && decide (s.stream.index = begin.stream.index)) = true
    · rw [if_pos hend]
      exact .inl rfl
    · rw [if_neg hend]
      trivial
  · exact fun s hs => commit_gives place s (hs place rfl)

theorem matchFrom_gives (hooks : LexerHooks σ) (mode : Nat) (begin : Scan σ) :
    Meets (fun _ => True) (matchFrom hooks mode d begin) (Gives d) fun _ _ => True := by
  have hstart : Meets (fun _ => True) (startState hooks mode d) (fun _ => Recalls d none) fun _ _ => True := by
    intro s _
    split
    · exact fun c hc => nomatch hc
    · trivial
  refine hstart.bind fun start => (checkpoint?_recalls none start).bind fun first => ?_
  have hmunch : Meets (fun s => s.Recalls d first ∧ s.Recalls d none)
      (munch hooks d (begin.matcher.settings.fuel begin.stream.size) first start begin.stream.peek)
      (fun r => Recalls d r.1) fun _ _ => True := fun s hs => munch_recalls hooks _ first start _ s hs.1
  exact hmunch.bind fun reached => settle_gives mode begin reached

/-- **A match gives what an accepting state says**, or else the end of the input or an error. -/
theorem next_gives {hooks : LexerHooks σ} {mode : Nat} (h : (next hooks mode s).1 = .ok found) :
    found = ⟨endOfInput, none⟩ ∨ Recognises hooks mode s found := by
  cases hdecision : s.matcher.modeDecision mode with
  | error e =>
    rw [next_eq, hdecision] at h
    cases h
  | ok d =>
    have hnext : next hooks mode s = matchFrom hooks mode d s.begun s.begun := by
      rw [next_eq, hdecision]
    have hgives := (matchFrom_gives hooks mode s.begun : Meets _ _ (Gives d) _) s.begun trivial
    rw [← hnext] at hgives
    rcases hr : next hooks mode s with ⟨e | found', s'⟩ <;> rw [hr] at h hgives
    · cases h
    · cases h
      rcases hgives with heq | ⟨t, u, hu, haccept, heq⟩
      · exact .inl heq
      · exact .inr ⟨d, t, u, hdecision, hr ▸ hu, haccept, heq⟩

end Scan
end AdaptiveLL

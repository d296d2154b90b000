import AdaptiveLL.Parsing.Parser
import AdaptiveLL.Proofs.Network.Chained
import AdaptiveLL.Proofs.Prediction.Frame

/-! # The moves of a parser

`Session.Moves` says how a walk goes on over a stream of tokens, whatever was predicted and whatever
guards and actions do.  Every parse that returns a trace is such a course of moves, from the start of
the rule to a stop where nobody called (`Session.moves_of_parse`).
-/
namespace AdaptiveLL

namespace Session
variable {σ : Type} {n : Network}

/-- A walk at a place in a stream. -/
structure Stage where
  /-- The walk. -/
  walk : Walk
  /-- The tokens ahead. -/
  stream : TokenStream

/-- A move of a walk. -/
inductive Moves (n : Network) : Stage → Stage → Prop
  /-- An alternative is chosen at a decision. -/
  | decide {w : Walk} {ts : TokenStream} {d alt : Nat} : (n.state w.state).decision = some d →
      1 ≤ alt → alt ≤ (n.ways w.state).length →
      Moves n ⟨w, ts⟩ ⟨w.noting (.decision d w.state alt ts.index), ts⟩
  /-- A transition is followed that consumes nothing and calls nothing. -/
  | pass {w : Walk} {ts : TokenStream} {t : Transition} : ¬ n.isStop w.state →
      t ∈ n.ways w.state → t.isFree → (∀ s, t.onto s = s) → Moves n ⟨w, ts⟩ ⟨w.moveTo t.target, ts⟩
  /-- A rule is called. -/
  | call {w : Walk} {ts : TokenStream} {target rule follow : Nat} {level : Int} :
      ¬ n.isStop w.state → .call target rule level follow ∈ n.ways w.state →
      Moves n ⟨w, ts⟩ ⟨⟨target, w.running ++ [.called rule w.state level],
        .enterRule rule ts.index :: w.done⟩, ts⟩
  /-- A token is matched. -/
  | eat {w : Walk} {ts : TokenStream} {t : Transition} : ¬ n.isStop w.state → t ∈ n.ways w.state →
      t.consumes n.minSymbol n.maxSymbol ts.peek →
      Moves n ⟨w, ts⟩ ⟨(w.noting (.token ts.peek ts.index)).moveTo t.target,
        if ts.peek = endOfInput then ts else ts.consume⟩
  /-- A rule that was called ends. -/
  | leave {w : Walk} {ts : TokenStream} {calls : List Invocation} {frame : Invocation}
      {caller follow : Nat} : n.isStop w.state → w.running = calls ++ [frame] →
      frame.caller = some caller → n.follow caller = .ok follow →
      Moves n ⟨w, ts⟩ ⟨⟨follow, calls, .exitRule frame.rule ts.index :: w.done⟩, ts⟩

/-- A walk is over where a rule ends that nobody called. -/
structure Ends (n : Network) (a : Stage) (frame : Invocation) : Prop where
  stop : n.isStop a.walk.state
  innermost : a.walk.running.getLast? = some frame
  uncalled : frame.caller = none

/-- A session over a network, with a stream that is placed at a token. -/
structure Ready (n : Network) (s : Session σ) : Prop where
  network : s.predictor.network = n
  placed : s.stream.Placed

variable {hooks : ParserHooks σ} {w w' : Walk} {s s' : Session σ}

/-- A guard that is required changes nothing but the author's state. -/
theorem require_ok {running : List Invocation} {rule : Nat} {g : Guard} {u : Unit}
    (h : require hooks running rule g s = (.ok u, s')) :
    s'.predictor = s.predictor ∧ s'.stream = s.stream := by
  obtain ⟨predictor, stream, author⟩ := s
  unfold require at h
  dsimp only at h
  split at h
  · cases h
    exact ⟨rfl, rfl⟩
  · cases h

theorem moves_matchToken {t : Transition} (hs : s.Ready n) (hstop : ¬ n.isStop w.state)
    (ht : t ∈ n.ways w.state) (h : matchToken w t s = (.ok w', s')) :
    Moves n ⟨w, s.stream⟩ ⟨w', s'.stream⟩ ∧ s'.Ready n := by
  obtain ⟨rfl, hplaced⟩ := hs
  obtain ⟨_, _, hget, h⟩ := Run.exists_of_bind h
  cases hget
  dsimp only at h
  split at h
  · next hconsumes =>
    have hmove : Moves s.predictor.network ⟨w, s.stream⟩ ⟨_, _⟩ := .eat hstop ht hconsumes
    split at h
    · next hmore =>
      rw [if_neg hmore] at hmove
      cases h
      exact ⟨hmove, rfl, hplaced.consume⟩
    · next hend =>
      rw [if_pos (not_not.mp hend)] at hmove
      cases h
      exact ⟨hmove, rfl, hplaced⟩
  · cases h

/-- Going along a transition is one move. -/
theorem moves_take {t : Transition} (hs : s.Ready n) (hstop : ¬ n.isStop w.state)
    (ht : t ∈ n.ways w.state) (h : take hooks w t s = (.ok w', s')) :
    Moves n ⟨w, s.stream⟩ ⟨w', s'.stream⟩ ∧ s'.Ready n := by
  cases t with
  | symbol | range | set | notSet | wildcard => exact moves_matchToken hs hstop ht h
  | epsilon | ret =>
    cases h
    exact ⟨.pass hstop ht rfl fun _ => rfl, hs⟩
  | call =>
    cases h
    exact ⟨.call hstop ht, hs⟩
  | action =>
    cases h
    exact ⟨.pass hstop ht rfl fun _ => rfl, hs.network, hs.placed⟩
  | predicate target rule index contextual =>
    obtain ⟨u, _, hreq, h⟩ := Run.exists_of_bind h
    obtain ⟨hp, hstream⟩ := require_ok hreq
    cases h
    rw [hstream]
    exact ⟨.pass hstop ht rfl fun _ => rfl, hp ▸ hs.network, hstream ▸ hs.placed⟩
  | precedence target level =>
    obtain ⟨_, _, hget, h⟩ := Run.exists_of_bind h
    cases hget
    obtain ⟨u, _, hreq, h⟩ := Run.exists_of_bind h
    obtain ⟨hp, hstream⟩ := require_ok hreq
    cases h
    rw [hstream]
    exact ⟨.pass hstop ht rfl fun _ => rfl, hp ▸ hs.network, hstream ▸ hs.placed⟩

/-- Choosing an alternative notes it where there is a decision, and leaves the stream as it was. -/
theorem choose_ok {u : State} {alt : Nat} (hs : s.Ready n)
    (h : choose hooks w u s = (.ok (alt, w'), s')) : s'.Ready n ∧ s'.stream = s.stream ∧
      (w' = w ∨ ∃ d, u.decision = some d ∧ w' = w.noting (.decision d w.state alt s.stream.index)) := by
  by_cases hcase : ∃ d t t' ts, u.decision = some d ∧ u.transitions = t :: t' :: ts
  · obtain ⟨d, t, t', ts, hd, ht⟩ := hcase
    simp only [choose, hd, ht] at h
    obtain ⟨_, _, hget, h⟩ := Run.exists_of_bind h
    cases hget
    obtain ⟨a, s₁, hpredict, h⟩ := Run.exists_of_bind h
    cases h
    have hstream := Predictor.stream_predict hooks w.running d hs.placed
    have hframe := Predictor.leaves_predict hooks w.running d s
    rw [hpredict] at hstream hframe
    refine ⟨⟨?_, hstream ▸ hs.placed⟩, hstream, .inr ⟨d, hd, rfl⟩⟩
    exact (congrArg (fun f => f.1.1) hframe).trans hs.network
  · have hone : choose hooks w u = pure (1, w) := by
      unfold choose
      split
      · next d t t' ts hd ht => exact absurd ⟨d, t, t', ts, hd, ht⟩ hcase
      · rfl
    rw [hone] at h
    cases h
    exact ⟨hs, rfl, .inl rfl⟩

/-- The end of a rule leads behind the call, or ends the walk if there was none. -/
theorem leave_ok {o : Trace ⊕ Walk} (h : leave w s = (.ok o, s')) : s' = s ∧
    ∃ frame, w.running.getLast? = some frame ∧
      (frame.caller = none ∧ o = .inl (w.noting (.exitRule frame.rule s.stream.index)).trace ∨
        ∃ caller follow, frame.caller = some caller ∧
          s.predictor.network.follow caller = .ok follow ∧
          o = .inr ⟨follow, w.running.dropLast, .exitRule frame.rule s.stream.index :: w.done⟩) := by
  unfold leave at h
  cases hlast : w.running.getLast? with
  | none =>
    rw [hlast] at h
    cases h
  | some frame =>
    rw [hlast] at h
    obtain ⟨_, _, hget, h⟩ := Run.exists_of_bind h
    cases hget
    cases hcaller : frame.caller with
    | none =>
      rw [hcaller] at h
      cases h
      exact ⟨rfl, frame, rfl, .inl ⟨hcaller, rfl⟩⟩
    | some caller =>
      rw [hcaller] at h
      dsimp only at h
      cases hfollow : s.predictor.network.follow caller with
      | error e =>
        rw [hfollow] at h
        cases h
      | ok follow =>
        rw [hfollow] at h
        cases h
        exact ⟨rfl, frame, rfl, .inr ⟨caller, follow, hcaller, hfollow, rfl⟩⟩

/-- A step leaves a rule at its end, and else chooses a transition and takes it. -/
theorem step_ok {o : Trace ⊕ Walk} (h : step hooks w s = (.ok o, s')) :
    ∃ u, s.predictor.network.state? w.state = .ok u ∧ (u.isStop ∧ leave w s = (.ok o, s') ∨
      ¬ u.isStop ∧ ∃ alt w₁ s₁ t w₂, choose hooks w u s = (.ok (alt, w₁), s₁) ∧
        u.alternative? alt = some t ∧ take hooks w₁ t s₁ = (.ok w₂, s') ∧ o = .inr w₂) := by
  obtain ⟨_, _, hget, h⟩ := Run.exists_of_bind h
  cases hget
  cases hu : s.predictor.network.state? w.state with
  | error e =>
    rw [hu] at h
    cases h
  | ok u =>
    rw [hu] at h
    refine ⟨u, rfl, ?_⟩
    by_cases hstop : u.isStop
    · exact .inl ⟨hstop, by simpa only [if_pos hstop] using h⟩
    · simp only [if_neg hstop] at h
      obtain ⟨⟨alt, w₁⟩, s₁, hchoose, h⟩ := Run.exists_of_bind h
      dsimp only at h
      cases ht : u.alternative? alt with
      | none =>
        rw [ht] at h
        cases h
      | some t =>
        rw [ht] at h
        obtain ⟨w₂, s₂, htake, h⟩ := Run.exists_of_bind (k := fun w => pure (Sum.inr w)) h
        cases h
        exact .inr ⟨hstop, alt, w₁, s₁, t, w₂, hchoose, ht, htake, rfl⟩

/-- A step that goes on is one move or two. -/
theorem moves_step (hs : s.Ready n) (h : step hooks w s = (.ok (.inr w'), s')) :
    Relation.ReflTransGen (Moves n) ⟨w, s.stream⟩ ⟨w', s'.stream⟩ ∧ s'.Ready n := by
  obtain ⟨u, hu, ⟨hstop, h⟩ | ⟨hstop, alt, w₁, s₁, t, w₂, hchoose, ht, htake, he⟩⟩ := step_ok h
  · rw [hs.network] at hu
    have hstop' : n.isStop w.state := by rwa [Network.isStop, Network.state_of_state? hu]
    obtain ⟨rfl, frame, hlast, ⟨-, he⟩ | ⟨caller, follow, hcaller, hfollow, he⟩⟩ := leave_ok h
    · cases he
    · cases he
      have hsplit := (List.dropLast_append_getLast? frame hlast).symm
      rw [hs.network] at hfollow
      exact ⟨.single (.leave hstop' hsplit hcaller hfollow), hs⟩
  · cases he
    rw [hs.network] at hu
    have hstate := Network.state_of_state? hu
    have hstop' : ¬ n.isStop w.state := by rwa [Network.isStop, hstate]
    obtain ⟨hs₁, hstream, hnoted⟩ := choose_ok hs hchoose
    obtain ⟨hlo, hhi, ht⟩ := State.alternative?_eq_some ht
    have hmem : t ∈ n.ways w.state := by
      rw [Network.ways, hstate]
      exact List.mem_of_getElem? ht
    rcases hnoted with rfl | ⟨d, hd, rfl⟩
    · obtain ⟨hmove, hs₂⟩ := moves_take hs₁ hstop' hmem htake
      exact ⟨.single (hstream ▸ hmove), hs₂⟩
    · obtain ⟨hmove, hs₂⟩ := moves_take hs₁ (w := w.noting _) hstop' hmem htake
      rw [hstream] at hmove
      refine ⟨.head (.decide (by rw [hstate, hd]) hlo ?_) (.single hmove), hs₂⟩
      rwa [Network.ways, hstate]

/-- A step that ends the walk is where a rule ends that nobody called. -/
theorem ends_step {t : Trace} (hs : s.Ready n) (h : step hooks w s = (.ok (.inl t), s')) :
    s' = s ∧ ∃ frame, Ends n ⟨w, s.stream⟩ frame ∧
      t = (w.noting (.exitRule frame.rule s.stream.index)).trace := by
  obtain ⟨u, hu, ⟨hstop, h⟩ | ⟨-, _, _, _, _, _, -, -, -, he⟩⟩ := step_ok h
  · rw [hs.network] at hu
    have hstop' : n.isStop w.state := by rwa [Network.isStop, Network.state_of_state? hu]
    obtain ⟨rfl, frame, hlast, ⟨hcaller, he⟩ | ⟨_, _, -, -, he⟩⟩ := leave_ok h
    · cases he
      exact ⟨rfl, frame, ⟨hstop', hlast, hcaller⟩, rfl⟩
    · cases he
  · cases he

/-- A walk that returns a trace moves to where a rule ends that nobody called. -/
theorem moves_walk {t : Trace} (fuel : Nat) (hs : s.Ready n)
    (h : walk hooks fuel w s = (.ok t, s')) : ∃ w' frame,
      Relation.ReflTransGen (Moves n) ⟨w, s.stream⟩ ⟨w', s'.stream⟩ ∧ Ends n ⟨w', s'.stream⟩ frame ∧
        t = (w'.noting (.exitRule frame.rule s'.stream.index)).trace := by
  induction fuel generalizing w s with
  | zero => cases h
  | succ fuel ih =>
    rw [walk] at h
    obtain ⟨o, s₁, hstep, h⟩ := Run.exists_of_bind h
    cases o with
    | inl trace =>
      cases h
      obtain ⟨rfl, frame, hends, rfl⟩ := ends_step hs hstep
      exact ⟨w, frame, .refl, hends, rfl⟩
    | inr w₁ =>
      obtain ⟨hmoves, hs₁⟩ := moves_step hs hstep
      obtain ⟨w', frame, hrest, hends, ht⟩ := ih hs₁ h
      exact ⟨w', frame, hmoves.trans hrest, hends, ht⟩

/-- A parse that returns a trace moves from the start of the rule to where a rule ends that nobody
called. -/
theorem moves_of_parse {rule : Nat} {t : Trace} (hs : s.Ready n)
    (h : parse hooks rule s = (.ok t, s')) : n.kind = .parser ∧ ∃ start w frame,
      n.ruleStarts[rule]? = some start ∧
      Relation.ReflTransGen (Moves n) ⟨.start start rule s.stream.index, s.stream⟩ ⟨w, s'.stream⟩ ∧
      Ends n ⟨w, s'.stream⟩ frame ∧
      t = (w.noting (.exitRule frame.rule s'.stream.index)).trace := by
  obtain ⟨_, _, hget, h⟩ := Run.exists_of_bind h
  cases hget
  rw [hs.network] at h
  by_cases hkind : n.kind ≠ .parser
  · rw [if_pos hkind] at h
    cases h
  · rw [if_neg hkind] at h
    cases hstart : n.ruleStarts[rule]? with
    | none =>
      rw [hstart] at h
      cases h
    | some start =>
      rw [hstart] at h
      obtain ⟨w, frame, hmoves, hends, ht⟩ := moves_walk _ hs h
      exact ⟨not_not.mp hkind, start, w, frame, rfl, hmoves, hends, ht⟩

/-! ## What a parse keeps

A parse goes on in the stream, changes the author's state, and predicts.  What these keep of a session
is kept however the parse ends. -/

section
open Run
variable {I : Session σ → Prop}

theorem preserves_require (hauthor : ∀ s author, I s → I { s with author }) (running : List Invocation)
    (rule : Nat) (g : Guard) : Preserves I (require hooks running rule g) := by
  intro s hs
  unfold require
  dsimp only
  split
  · exact hauthor s _ hs
  · exact hauthor s _ hs

theorem preserves_matchToken (hconsume : ∀ s, I s → I { s with stream := s.stream.consume }) (w : Walk)
    (t : Transition) : Preserves I (matchToken w t) := by
  intro s hs
  rw [matchToken, Run.bind_apply, Run.get_apply]
  dsimp only
  by_cases hx : t.consumes s.predictor.network.minSymbol s.predictor.network.maxSymbol s.stream.peek
  · rw [if_pos hx]
    by_cases hend : s.stream.peek ≠ endOfInput
    · rw [if_pos hend]
      exact hconsume s hs
    · rw [if_neg hend]
      exact hs
  · rw [if_neg hx]
    exact hs

theorem preserves_leave (w : Walk) : Preserves I (leave w) := by
  unfold leave
  split
  · exact .throw _
  · refine Preserves.get.bind fun s => ?_
    dsimp only
    split
    · exact .pure _
    · split
      · exact .pure _
      · exact .throw _

variable (hconsume : ∀ s, I s → I { s with stream := s.stream.consume })
  (hauthor : ∀ s author, I s → I { s with author })
include hconsume hauthor

theorem preserves_take (w : Walk) (t : Transition) : Preserves I (take hooks w t) := by
  cases t with
  | epsilon | ret => exact .pure _
  | call => exact Preserves.get.bind fun _ => .pure _
  | predicate => exact (preserves_require hauthor _ _ _).bind fun _ => .pure _
  | precedence =>
    exact Preserves.get.bind fun _ => (preserves_require hauthor _ _ _).bind fun _ => .pure _
  | action => exact (Preserves.modify fun s hs => hauthor s _ hs).bind fun _ => .pure _
  | symbol | range | set | notSet | wildcard => exact preserves_matchToken hconsume w _

variable (hpredict : ∀ outer decision, Preserves I (Predictor.predict hooks outer decision))
include hpredict

theorem preserves_step (w : Walk) : Preserves I (step hooks w) := by
  have hchoose : ∀ u, Preserves I (choose hooks w u) := by
    intro u
    unfold choose
    split
    · exact Preserves.get.bind fun _ => (hpredict _ _).bind fun _ => .pure _
    · exact .pure _
  refine Preserves.get.bind fun s => ?_
  split
  · exact .throw _
  · refine .ite (preserves_leave w) ((hchoose _).bind ?_)
    rintro ⟨alt, w₁⟩
    dsimp only
    split
    · rw [map_eq_pure_bind]
      exact (preserves_take hconsume hauthor _ _).bind fun _ => .pure _
    · exact .throw _

theorem preserves_walk (fuel : Nat) (w : Walk) : Preserves I (walk hooks fuel w) := by
  induction fuel generalizing w with
  | zero => exact .throw _
  | succ fuel ih =>
    refine (preserves_step hconsume hauthor hpredict w).bind fun o => ?_
    cases o with
    | inl t => exact .pure _
    | inr w' => exact ih w'

theorem preserves_parse (rule : Nat) : Preserves I (parse hooks rule) := by
  refine Preserves.get.bind fun s => .ite (.throw _) ?_
  split
  · exact .throw _
  · exact preserves_walk hconsume hauthor hpredict _ _

end

end Session
end AdaptiveLL

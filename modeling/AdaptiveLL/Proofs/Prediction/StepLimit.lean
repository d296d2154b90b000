import Mathlib
import AdaptiveLL.Proofs.Prediction.Reports

/-! # The limit on steps

A prediction may be limited to so many steps.  The limit is compared with the rounds of both its runs together,
so what is looked at twice, first by the automaton and then over the caller's stack, counts twice.
`Predictor.predict_limited` says what a limit does: nothing if there are at most so many rounds, and otherwise
the prediction fails for it.

Nothing but the count of steps looks at the limit.  Everything else is blind to it (`Run.Blind`), so the
limited run and the free one go the same way until the limit is hit (`Predictor.cut_readLoop`).
-/
namespace AdaptiveLL

/-- A predictor with a limit on the steps of a prediction. -/
def Predictor.limit (maxSteps : Nat) (p : Predictor) : Predictor :=
  { p with settings := { p.settings with maxSteps } }

/-- A session with a limit on the steps of a prediction. -/
def Session.limit {σ : Type} (maxSteps : Nat) : Session σ → Session σ :=
  Session.onPredictor (Predictor.limit maxSteps)

namespace Predictor
open Run
variable {limit : Nat}

/-! ## What is blind to the limit -/

theorem blind_automatonState (decision : Nat) (source : Target) :
    Blind (Predictor.limit limit) (automatonState decision source) := by
  refine .get_bind (fun _ => rfl) fun p => ?_
  split
  · exact .pure _
  · exact .throw _
  · exact .throw _

theorem blind_withStacksOnly {α : Type} (act : Run (Workspace Unit) α) :
    Blind (Predictor.limit limit) (withStacksOnly act) := fun _ => rfl

theorem blind_storeEdge (decision : Nat) (source : Target) (x : Symbol) (t : Target) :
    Blind (Predictor.limit limit) (storeEdge decision source x t) :=
  .get_bind (fun _ => rfl) fun _ => .ite (.modify fun _ => rfl) (.pure _)

theorem blind_step (decision : Nat) (source : Target) (x : Symbol) :
    Blind (Predictor.limit limit) (step decision source x) := by
  have hcount : ∀ f, Blind (Predictor.limit limit) (count f) := fun f => .modify fun _ => rfl
  have hcompute : Blind (Predictor.limit limit) (computeEdge decision source x) := by
    refine (blind_automatonState decision source).bind fun s => .get_bind (fun _ => rfl) fun p =>
      (blind_withStacksOnly _).bind fun o => ?_
    cases o with
    | none => exact (blind_storeEdge _ _ _ _).bind fun _ => .pure _
    | some reached =>
      refine Blind.bind (.modifyGet fun _ => rfl) fun made => Blind.bind (.modifyGet fun _ => rfl) fun t => ?_
      exact (blind_storeEdge _ _ _ _).bind fun _ => .pure _
  refine .get_bind (fun _ => rfl) fun p => ?_
  split
  · exact (hcount _).bind fun _ => .pure _
  · exact (hcount _).bind fun _ => hcompute

variable {σ : Type} (q : Question σ)

theorem blind_inSession {α : Type} {act : Run Predictor α} (h : Blind (Predictor.limit limit) act) :
    Blind (Session.limit limit) (inSession act : Run (Session σ) α) := by
  intro s
  rw [inSession_apply, inSession_apply]
  show ((act (s.predictor.limit limit)).1,
    ({ s with predictor := (act (s.predictor.limit limit)).2 } : Session σ)) = _
  rw [h]
  rfl

theorem blind_withSessionStacks {α : Type} (act : Run (Workspace σ) α) :
    Blind (Session.limit limit) (withSessionStacks act) := fun _ => rfl

theorem blind_countSll : Blind (Session.limit limit) (countSll : Run (Session σ) Unit) :=
  blind_inSession (.modify fun _ => rfl)

theorem blind_report (d : Diagnostic) : Blind (Session.limit limit) (report d : Run (Session σ) Unit) := by
  refine .modify fun s => ?_
  show (if s.predictor.listening then _ else _) = _
  split <;> rfl

theorem blind_giveUp (configs : ConfigSet) (x : Symbol) :
    Blind (Session.limit limit) (giveUp q configs x) := by
  refine .get_bind (fun _ => rfl) fun _ => (blind_seek _).bind fun _ => Blind.bind ?_ fun alt => ?_
  · exact (blind_splitByGuard q _).bind fun _ => .get_bind (fun _ => rfl) fun _ => .pure _
  · cases alt with
    | none => exact .throw _
    | some alt => exact .pure _

theorem blind_accept (t : Target) (u : AutomatonState) (x : Symbol) :
    Blind (Session.limit limit) (accept q t u x) := by
  unfold accept
  split
  · refine blind_countSll.bind fun _ => ?_
    split
    · exact .pure _
    · exact .throw _
  · refine .get_bind (fun _ => rfl) fun _ => (blind_seek _).bind fun _ => (blind_admitted q _).bind fun alts =>
      blind_countSll.bind fun _ => ?_
    split
    · exact .pure _
    · exact .throw _

theorem blind_startState : Blind (Session.limit limit) (startState q) := by
  refine .get_bind (fun _ => rfl) fun s => ?_
  dsimp only
  split
  · exact .pure _
  · refine (blind_withSessionStacks _).bind fun _ => Blind.bind (blind_inSession (.modifyGet fun _ => rfl)) fun t => ?_
    exact Blind.bind (blind_inSession (.modify fun _ => rfl)) fun _ => .pure _

theorem blind_lookAtState (steps : Nat) (previous : Target) (x : Symbol) :
    Blind (Session.limit limit) (lookAtState q steps previous x) := by
  have hstate : ∀ t, Blind (Session.limit limit) (inSession (automatonState q.decision t) : Run (Session σ) _) :=
    fun t => blind_inSession (blind_automatonState q.decision t)
  refine (blind_inSession (blind_step _ _ _)).bind fun t => .ite ?_ ?_
  · exact (hstate _).bind fun _ => .pure _
  · refine (hstate _).bind fun u => .get_bind (fun _ => rfl) fun s => ?_
    split <;> exact .pure _

theorem blind_lookAtConfigs (env : Surroundings σ) (previous : ConfigSet) (x : Symbol) :
    Blind (Session.limit limit) (lookAtConfigs q env previous x) := by
  refine (blind_withSessionStacks _).bind fun o => ?_
  cases o with
  | none => exact (blind_giveUp q _ _).bind fun _ => .pure _
  | some r =>
    refine .get_bind (fun _ => rfl) fun s => ?_
    dsimp only
    split
    · exact .get_bind (fun _ => rfl) fun _ => (blind_report _).bind fun _ => .pure _
    · exact .pure _

theorem blind_settleByGuards (u : AutomatonState) : Blind (Session.limit limit) (settleByGuards q u) := by
  have hannounce : ∀ alts, Blind (Session.limit limit) (announceCaller q alts u.configs) := fun _ =>
    .get_bind (fun _ => rfl) fun _ => (blind_report _).bind fun _ => blind_inSession (.modify fun _ => rfl)
  unfold settleByGuards
  split
  · exact (hannounce _).bind fun _ => .pure _
  · refine .get_bind (fun _ => rfl) fun _ => (blind_seek _).bind fun _ => (blind_admitted q _).bind fun alts => ?_
    split
    · exact blind_countSll.bind fun _ => .pure _
    · exact (blind_seek _).bind fun _ => (hannounce _).bind fun _ => .pure _

theorem blind_beginOverCaller : Blind (Session.limit limit) (beginOverCaller q) :=
  .get_bind (fun _ => rfl) fun _ => (blind_withSessionStacks _).bind fun _ => (blind_seek _).bind fun _ => .pure _

/-! ## What the limit does -/

/-- A run that takes so many steps, and what becomes of it under a limit: nothing else if it keeps to the limit,
and that it fails for the limit if it does not. -/
structure Cut {α : Type} (limit used : Nat) (r r' : Ending (Session σ) α) : Prop where
  within : used ≤ limit → r' = (r.1, r.2.limit limit)
  beyond : limit < used → r'.1 = .error (.stepLimitExceeded q.decision limit)

variable {q}

theorem Cut.of_within {α : Type} {used : Nat} {r r' : Ending (Session σ) α} (hused : used ≤ limit)
    (h : r' = (r.1, r.2.limit limit)) : Cut q limit used r r' :=
  ⟨fun _ => h, fun hlt => absurd hused (Nat.not_le.mpr hlt)⟩

theorem Cut.of_beyond {α : Type} {used : Nat} {r r' : Ending (Session σ) α} (hused : limit < used)
    (h : r'.1 = .error (.stepLimitExceeded q.decision limit)) : Cut q limit used r r' :=
  ⟨fun hle => absurd hused (Nat.not_lt.mpr hle), fun _ => h⟩

variable (q)

/-- Without a limit every step is counted. -/
theorem countStep_free {s : Session σ} (hfree : s.predictor.settings.maxSteps = 0) (steps : Nat) :
    countStep q steps s = (.ok (), s) := by
  unfold countStep
  rw [bind_apply, get_apply]
  dsimp only
  rw [hfree, if_neg (by simp)]
  rfl

/-- With one, as many as it allows. -/
theorem countStep_limit (hpos : 0 < limit) (s : Session σ) (steps : Nat) :
    countStep q steps (s.limit limit) =
      if steps < limit then (.ok (), s.limit limit)
      else (.error (.stepLimitExceeded q.decision limit), s.limit limit) := by
  unfold countStep
  rw [bind_apply, get_apply]
  dsimp only
  show (if (decide (0 < limit) && decide (limit ≤ steps)) = true then
    (throw (.stepLimitExceeded q.decision limit) : Run (Session σ) PUnit) else pure ⟨⟩) (s.limit limit) = _
  by_cases hlt : steps < limit
  · rw [if_neg (by simp [hpos, hlt]), if_pos hlt]
    rfl
  · rw [if_pos (by simp [hpos, Nat.not_lt.mp hlt]), if_neg hlt]
    rfl

/-- Under a limit, a loop goes on as without until it has taken as many steps. -/
theorem cut_readLoop {α β : Type} {look : Nat → β → Symbol → Run (Session σ) (α ⊕ β)}
    (htimely : ∀ steps b x, Fails RecognitionError.IsTimely (look steps b x))
    (hframe : ∀ steps b x, Leaves Session.frame (look steps b x))
    (hblind : ∀ steps b x, Blind (Session.limit limit) (look steps b x)) (hpos : 0 < limit) (fuel : Nat) :
    ∀ (steps : Nat) (b : β) (x : Symbol) (s : Session σ), s.predictor.settings.maxSteps = 0 → steps ≤ limit →
      Cut q limit (steps + (pauses (fun fuel => readLoop q look fuel steps b x) fuel s).length)
        (readLoop q look fuel steps b x s) (readLoop q look fuel steps b x (s.limit limit)) := by
  induction fuel with
  | zero => exact fun steps b x s _ hle => .of_within hle rfl
  | succ fuel ih =>
    intro steps b x s hfree hle
    have hfirst : readLoop q look 0 steps b x s = (.error .outOfFuel, s) := rfl
    have hlimited := countStep_limit q hpos s steps
    rcases Nat.eq_or_lt_of_le hle with heq | hlt
    · -- the limit is reached, so the step is not allowed
      refine .of_beyond ?_ ?_
      · have hone := pauses_length_pos (m := fun fuel => readLoop q look fuel steps b x) hfirst fuel
        omega
      · rw [if_neg (by omega)] at hlimited
        rw [readLoop, bind_apply, hlimited]
    · rw [if_pos hlt] at hlimited
      have hrun := readLoop_of_counted q look (countStep_free q hfree steps) b x
      have hrun' := readLoop_of_counted q look hlimited b x fuel
      rw [bind_apply, hblind] at hrun'
      rcases hlook : look steps b x s with ⟨e | a | b', t⟩ <;> rw [hlook] at hrun'
      · have hends : ∀ fuel, readLoop q look (fuel + 1) steps b x s = (.error e, t) := fun fuel => by
          rw [hrun, bind_apply, hlook]
        have htimely : e ≠ .outOfFuel := htimely _ _ _ hlook
        rw [pauses_of_ends hfirst (fun he => htimely (Except.error.inj he)) hends, hends]
        exact .of_within hlt hrun'
      · have hends : ∀ fuel, readLoop q look (fuel + 1) steps b x s = (.ok a, t) := fun fuel => by
          rw [hrun, bind_apply, hlook]
          rfl
        rw [pauses_of_ends hfirst (by simp) hends, hends]
        exact .of_within hlt hrun'
      · obtain ⟨next, t', hread⟩ : ∃ next t', readOn x t = (.ok next, t') := by
          rw [readOn_apply]
          split <;> exact ⟨_, _, rfl⟩
        have hread' : readOn x (t.limit limit) = ((readOn x t).1, (readOn x t).2.limit limit) :=
          blind_readOn x t
        rw [hread] at hread'
        have hstep : ∀ fuel, readLoop q look (fuel + 1) steps b x s =
            readLoop q look fuel (steps + 1) b' next t' := fun fuel => by
          rw [hrun, bind_apply, hlook]
          dsimp only
          rw [bind_apply, hread]
        have hstep' : readLoop q look (fuel + 1) steps b x (s.limit limit) =
            readLoop q look fuel (steps + 1) b' next (t'.limit limit) := by
          rw [hrun']
          dsimp only
          rw [bind_apply, hread']
        have hfree' : t'.predictor.settings.maxSteps = 0 := by
          have hlooked := hframe steps b x s
          have hreads := (leaves_readOn (σ := σ) x).frame t
          rw [hlook] at hlooked
          rw [hread] at hreads
          have hsame : t'.frame = s.frame := hreads.trans hlooked
          exact (congrArg (fun f => f.1.2.maxSteps) hsame).trans hfree
        rw [pauses_of_step hfirst hstep, List.length_cons, hstep, hstep', Nat.add_comm _ 1, ← Nat.add_assoc]
        exact ih (steps + 1) b' next t' hfree' hlt

theorem frame_lookAtState (steps : Nat) (previous : Target) (x : Symbol) :
    Leaves Session.frame (lookAtState q steps previous x) := by
  have hstate : ∀ t, Leaves Session.frame (inSession (automatonState q.decision t) : Run (Session σ) _) :=
    fun t => leaves_inSession (leaves_automatonState q.decision t).predictorFrame
  refine (leaves_inSession (leaves_step _ _ _)).bind fun t => .ite ?_ ?_
  · exact (hstate _).bind fun _ => .pure _
  · refine (hstate _).bind fun u => Leaves.get.bind fun s => ?_
    split <;> exact .pure _

theorem frame_lookAtConfigs (env : Surroundings σ) (previous : ConfigSet) (x : Symbol) :
    Leaves Session.frame (lookAtConfigs q env previous x) := by
  refine (leaves_withSessionStacks _).frame.bind fun o => ?_
  cases o with
  | none => exact (leaves_giveUp q _ _).frame.bind fun _ => .pure _
  | some r =>
    refine Leaves.get.bind fun s => ?_
    dsimp only
    split
    · exact Leaves.get.bind fun _ => (leaves_report _).frame.bind fun _ => .pure _
    · exact .pure _

section
variable (hpos : 0 < limit) {s : Session σ} (hfree : s.predictor.settings.maxSteps = 0)
include hpos hfree

/-- The automaton is stopped if it looks at more tokens than the limit allows. -/
theorem cut_lookAhead :
    Cut q limit (nearLooks q s).length (lookAhead q s) (lookAhead q (s.limit limit)) := by
  have hframe := leaves_startState q s
  have hlimited := (blind_startState q : Blind (Session.limit limit) _) s
  unfold nearLooks
  rcases hstart : startState q s with ⟨e | start, t⟩ <;> rw [hstart] at hframe hlimited
  · have hfails : lookAhead q s = (.error e, t) := by
      rw [lookAhead, bind_apply, hstart]
    have hfails' : lookAhead q (s.limit limit) = (.error e, t.limit limit) := by
      rw [lookAhead, bind_apply, hlimited]
    rw [hfails, hfails']
    exact .of_within (Nat.zero_le _) rfl
  · have hfree' : t.predictor.settings.maxSteps = 0 :=
      (congrArg (fun f => f.1.2.maxSteps) hframe).trans hfree
    have hcut := cut_readLoop q (timely_lookAtState q) (frame_lookAtState q) (blind_lookAtState q) hpos
      (t.stream.size + 2) 0 start t.stream.peek t hfree' (Nat.zero_le _)
    simp only [← runAutomaton_eq, Nat.zero_add] at hcut
    rw [lookAhead_of_startState q hstart, lookAhead_of_startState q hlimited]
    exact hcut

/-- Over the caller's stack, the steps that the automaton took count too. -/
theorem cut_overCaller {steps : Nat} (hsteps : steps ≤ limit) {env : Surroundings σ} {start : ConfigSet}
    {t : Session σ} (hbegin : beginOverCaller q s = (.ok (env, start), t)) :
    Cut q limit (steps + (pauses (fun fuel => runFullContext q env fuel steps start t.stream.peek)
        (t.stream.size + 3) t).length)
      (overCaller q steps s) (overCaller q steps (s.limit limit)) := by
  have hframe := leaves_beginOverCaller q s
  have hlimited := (blind_beginOverCaller q : Blind (Session.limit limit) _) s
  rw [hbegin] at hframe hlimited
  have hfree' : t.predictor.settings.maxSteps = 0 :=
    (congrArg (fun f => f.1.1.2.maxSteps) hframe).trans hfree
  have hcut := cut_readLoop q (fun _ => timely_lookAtConfigs q env) (fun _ => frame_lookAtConfigs q env)
    (fun _ => blind_lookAtConfigs q env) hpos (t.stream.size + 3) steps start t.stream.peek t hfree' hsteps
  simp only [← runFullContext_eq] at hcut
  rw [overCaller_of_begin q steps hbegin, overCaller_of_begin q steps hlimited]
  exact hcut

/-- Settling a conflict, after so many steps of the automaton. -/
theorem cut_settleConflict {steps : Nat} (hsteps : steps ≤ limit) (u : AutomatonState) :
    Cut q limit (steps + (conflictLooks q steps u s).length) (settleConflict q steps u s)
      (settleConflict q steps u (s.limit limit)) := by
  have hframe := leaves_settleByGuards q u s
  have hlimited := (blind_settleByGuards q u : Blind (Session.limit limit) _) s
  rw [settleConflict_eq, bind_apply, bind_apply, hlimited]
  unfold conflictLooks
  rcases hguards : settleByGuards q u s with ⟨e | _ | alt, t⟩ <;> rw [hguards] at hframe
  · exact .of_within hsteps rfl
  · have hfree' : t.predictor.settings.maxSteps = 0 :=
      (congrArg (fun f => f.1.1.2.maxSteps) hframe).trans hfree
    have hagain := (blind_beginOverCaller q : Blind (Session.limit limit) _) t
    dsimp only
    rcases hbegin : beginOverCaller q t with ⟨e | ⟨env, start⟩, t'⟩ <;> rw [hbegin] at hagain
    · have hfails : overCaller q steps t = (.error e, t') := by
        rw [overCaller_eq, bind_apply, hbegin]
      have hfails' : overCaller q steps (t.limit limit) = (.error e, t'.limit limit) := by
        rw [overCaller_eq, bind_apply, hagain]
      rw [hfails, hfails']
      exact .of_within hsteps rfl
    · exact cut_overCaller q hpos hfree' hsteps hbegin
  · exact .of_within hsteps rfl

/-- Choosing an alternative takes as many steps as tokens are looked at in both runs. -/
theorem cut_choose : Cut q limit ((nearLooks q s).length + (farLooks q s).length) (choose q s)
    (choose q (s.limit limit)) := by
  have hcut := cut_lookAhead q hpos hfree
  have hframe := leaves_lookAhead q s
  -- If the limit falls within the first look, the second is never begun.
  rcases Nat.lt_or_ge limit (nearLooks q s).length with hlt | hle
  · have hstopped := hcut.beyond hlt
    refine .of_beyond (by omega) ?_
    unfold choose
    rw [bind_apply]
    rcases hahead : lookAhead q (s.limit limit) with ⟨e | a, t⟩ <;> rw [hahead] at hstopped
    · exact congrArg Except.error (Except.error.inj hstopped)
    · cases hstopped
  · have hlimited := hcut.within hle
    rcases hahead : lookAhead q s with ⟨e | a, t⟩ <;> rw [hahead] at hlimited hframe
    · have hnone : farLooks q s = [] := by simp only [farLooks, hahead]
      have hfails : choose q s = (.error e, t) := by
        rw [choose, bind_apply, hahead]
      have hfails' : choose q (s.limit limit) = (.error e, t.limit limit) := by
        rw [choose, bind_apply, hlimited]
      rw [hnone, hfails, hfails']
      exact .of_within hle rfl
    · have hgoes : choose q s = conclude q a t := by
        rw [choose, bind_apply, hahead]
      have hgoes' : choose q (s.limit limit) = conclude q a (t.limit limit) := by
        rw [choose, bind_apply, hlimited]
      have hfree' : t.predictor.settings.maxSteps = 0 :=
        (congrArg (fun f => f.1.2.maxSteps) hframe).trans hfree
      rw [hgoes, hgoes']
      cases a with
      | stranded configs x =>
        have hnone : farLooks q s = [] := by simp only [farLooks, hahead]
        rw [hnone]
        exact .of_within hle (blind_giveUp q configs x t)
      | accepting v u x =>
        have hnone : farLooks q s = [] := by simp only [farLooks, hahead]
        rw [hnone]
        exact .of_within hle (blind_accept q v u x t)
      | contested steps u =>
        obtain rfl := steps_of_contested q hahead
        have hfar : farLooks q s = conflictLooks q (nearLooks q s).length u t := by
          simp only [farLooks, hahead]
        rw [hfar]
        exact cut_settleConflict q hpos hfree' hle u

end

/-- **A limit on steps.**  Let a prediction be made without a limit, and let `near` and `far` be the sessions in
which its two runs look at a token, the automaton and the configurations over the caller's stack if it is
asked.  Each run looks at the tokens ahead one after another, the automaton at no more than there are with the
end of the input, the other at that end at most twice.  With a limit the result and everything else is the
same if the two runs look no more often than it allows, taken together.  If they look more often, the
prediction fails for the limit.  So a prediction that does not ask for the caller's stack fails if and only if
it needs more tokens than the limit says. -/
theorem predict_limited {s : Session σ} (hcache : s.predictor.cache.Served s.predictor.network)
    (hstream : s.stream.Used) (hooks : ParserHooks σ) (outer : List Invocation) {decision : Nat}
    (hd : decision < s.predictor.network.decisions.size) (hfree : s.predictor.settings.maxSteps = 0)
    (hpos : 0 < limit) :
    let q : Question σ := ⟨hooks, outer, decision, s.stream.index⟩
    let near := nearLooks q s
    let far := farLooks q s
    (near.map (·.stream) = List.iterate TokenStream.consume s.stream near.length ∧
      far.map (·.stream) = List.iterate TokenStream.consume s.stream far.length) ∧
    (near.length ≤ s.stream.remaining.length ∧ far.length ≤ s.stream.remaining.length + 1) ∧
    (near.length + far.length ≤ limit → predict hooks outer decision (s.limit limit) =
      ((predict hooks outer decision s).1, (predict hooks outer decision s).2.limit limit)) ∧
    (limit < near.length + far.length → (predict hooks outer decision (s.limit limit)).1 =
      .error (.stepLimitExceeded decision limit)) := by
  intro q near far
  have hplaced := hstream.placed
  have hsane : s.predictor.Sane s.predictor.network fun _ => True := ⟨rfl, trivial, hcache.faithful⟩
  have hcut := cut_choose q hpos hfree
  have hd' : decision < (s.limit limit).predictor.network.decisions.size := hd
  refine ⟨⟨streams_nearLooks q hplaced, streams_farLooks q hplaced rfl⟩,
    ⟨length_nearLooks_le q hd hsane hplaced, length_farLooks_le q hplaced rfl⟩, fun hle => ?_, fun hlt => ?_⟩
  · have hsame : choose q (s.limit limit) = ((choose q s).1, (choose q s).2.limit limit) := hcut.within hle
    rw [predict_of_choose hooks outer hd' hsame, predict_of_choose hooks outer hd rfl]
    rfl
  · have hstopped : (choose q (s.limit limit)).1 = .error (.stepLimitExceeded decision limit) := hcut.beyond hlt
    rw [predict_of_choose hooks outer hd' rfl]
    exact hstopped

/-- Two readings of the same two tokens are told apart at neither, so both are looked at twice.  A limit of two
steps is too low, though no third token is looked at. -/
theorem predict_limited_vague :
    let q : Question Unit := ⟨ParserHooks.none, [.root 0], 0, 0⟩
    ((nearLooks q vagueSession).length, (farLooks q vagueSession).length) = (2, 2) ∧
      (predict ParserHooks.none [.root 0] 0 vagueSession).1 = .ok 1 ∧
      (predict ParserHooks.none [.root 0] 0 (vagueSession.limit 2)).1 = .error (.stepLimitExceeded 0 2) ∧
      (predict ParserHooks.none [.root 0] 0 (vagueSession.limit 4)).1 = .ok 1 := by
  intro q
  obtain ⟨hlooks, hfree, hd⟩ :
      ((nearLooks q vagueSession).length, (farLooks q vagueSession).length) = (2, 2) ∧
        (predict ParserHooks.none [.root 0] 0 vagueSession).1 = .ok 1 ∧
        0 < vagueSession.predictor.network.decisions.size := by
    cbv
  have hserved : vagueSession.predictor.cache.Served vagueSession.predictor.network := .fresh
  have hused : vagueSession.stream.Used := .ofTokens _ _
  have hlimited {limit : Nat} (hpos : 0 < limit) :=
    (predict_limited hserved hused ParserHooks.none [.root 0] hd rfl hpos).2.2
  have hsum : (nearLooks q vagueSession).length + (farLooks q vagueSession).length = 4 := by
    rw [Prod.mk.injEq] at hlooks
    rw [hlooks.1, hlooks.2]
  refine ⟨hlooks, hfree, (hlimited (by decide)).2 ?_, ?_⟩
  · exact lt_of_lt_of_eq (by decide) hsum.symm
  · rw [(hlimited (by decide)).1 (le_of_eq hsum)]
    exact hfree

end Predictor
end AdaptiveLL

import Mathlib
import AdaptiveLL.Proofs.Prediction.Termination

/-! # Where a prediction looks

Both runs of a prediction go round: count a step, look at a token, and read on unless that settled it.
`Predictor.readLoop` is this loop, with what is done at a token as a parameter, and the two runs are instances
(`Predictor.runAutomaton_eq`, `Predictor.runFullContext_eq`).

A run that is given too little fuel stops before the round for which there is none left.  So the states in
which it stops when it is given fuel for no round, for one, for two and so on, are those before its rounds
(`Run.pauses`), and the tokens there are those that it looks at.  They are the tokens ahead, one after
another (`Predictor.streams_readLoop`).
-/
namespace AdaptiveLL

/-- An error for what hit a limit, or for a table that was read outside its bounds. -/
def RecognitionError.IsBreakdown (e : RecognitionError) : Prop :=
  e.IsLimit ∨ ∃ table index, e = .badIndex table index

theorem RecognitionError.IsBreakdown.timely {e : RecognitionError} (h : e.IsBreakdown) : e.IsTimely := by
  rcases h with h | ⟨table, index, rfl⟩
  · exact h.timely
  · exact fun he => nomatch he

/-! ## The states before the rounds of a run -/

/-- The states in which a run stops for want of fuel when it is given more and more, up to a bound. -/
def Run.pauses {σ α : Type} : (Nat → Run σ α) → Nat → σ → List σ
  | _, 0, _ => []
  | m, bound + 1, s =>
    match m 0 s with
    | (.error .outOfFuel, t) => t :: pauses (fun fuel => m (fuel + 1)) bound s
    | _ => []

namespace Run
variable {σ α : Type} {m m' : Nat → Run σ α} {s s' : σ}

theorem pauses_congr (h : ∀ fuel, m fuel s = m' fuel s') (bound : Nat) :
    pauses m bound s = pauses m' bound s' := by
  induction bound generalizing m m' with
  | zero => rfl
  | succ bound ih =>
    have hrest : pauses (fun fuel => m (fuel + 1)) bound s = pauses (fun fuel => m' (fuel + 1)) bound s' :=
      ih fun fuel => h (fuel + 1)
    rw [pauses, pauses, h 0, hrest]

/-- A run that ends in its first round pauses before it. -/
theorem pauses_of_ends {r : Ending σ α} (hfirst : m 0 s = (.error .outOfFuel, s)) (hr : r.1 ≠ .error .outOfFuel)
    (h : ∀ fuel, m (fuel + 1) s = r) (bound : Nat) : pauses m (bound + 1) s = [s] := by
  rw [pauses, hfirst]
  dsimp only
  congr 1
  cases bound with
  | zero => rfl
  | succ bound =>
    rw [pauses, h 0]
    obtain ⟨e | a, t⟩ := r
    · cases e with
      | outOfFuel => exact absurd rfl hr
      | _ => rfl
    · rfl

/-- A run that takes a round pauses before it and then where it pauses from there. -/
theorem pauses_of_step (hfirst : m 0 s = (.error .outOfFuel, s)) (h : ∀ fuel, m (fuel + 1) s = m' fuel s')
    (bound : Nat) : pauses m (bound + 1) s = s :: pauses m' bound s' := by
  rw [pauses, hfirst]
  exact congrArg (s :: ·) (pauses_congr h bound)

theorem pauses_length_pos (hfirst : m 0 s = (.error .outOfFuel, s)) (bound : Nat) :
    0 < (pauses m (bound + 1) s).length := by
  rw [pauses, hfirst]
  exact Nat.succ_pos _

theorem outOfFuel_of_lt_pauses {j bound : Nat} (h : j < (pauses m bound s).length) :
    (m j s).1 = .error .outOfFuel := by
  induction bound generalizing m j with
  | zero => cases h
  | succ bound ih =>
    rw [pauses] at h
    split at h
    · next t hfirst =>
      cases j with
      | zero => rw [hfirst]
      | succ j => exact ih (m := fun fuel => m (fuel + 1)) (Nat.lt_of_succ_lt_succ h)
    · cases h

/-- A run that settles within so many rounds pauses before no more. -/
theorem SettlesBy.length_pauses_le {k : Nat} (h : SettlesBy m k s) (bound : Nat) :
    (pauses m bound s).length ≤ k := by
  by_contra hlt
  exact h.fuel_left le_rfl (outOfFuel_of_lt_pauses (Nat.lt_of_not_le hlt))

end Run

/-- A session where a prediction that began at a place leaves it: merges are forgotten, and the stream goes
back. -/
def Session.depart {σ : Type} (start : Nat) (s : Session σ) : Session σ :=
  ⟨{ s.predictor with cache := { s.predictor.cache with graph := s.predictor.cache.graph.forgetMerges } },
    s.stream.seek start, s.author⟩

namespace Predictor
open Run
variable {σ α β : Type} (q : Question σ)

/-! ## The loop of a run -/

/-- Going round with something at hand: counting a step, looking at a token, and reading on unless that was
the last. -/
def readLoop (look : Nat → β → Symbol → Run (Session σ) (α ⊕ β)) :
    (fuel steps : Nat) → β → Symbol → Run (Session σ) α
  | 0, _, _, _ => throw .outOfFuel
  | fuel + 1, steps, b, x => do
    countStep q steps
    match ← look steps b x with
    | .inl a => pure a
    | .inr b' => do
      let next ← readOn x
      readLoop look fuel (steps + 1) b' next

/-- Looking at a token with a state of the automaton: how the run ends, or the next state. -/
def lookAtState (steps : Nat) (previous : Target) (x : Symbol) : Run (Session σ) (Halt ⊕ Target) := do
  let t ← inSession (step q.decision previous x)
  if t.isError then do
    let s ← inSession (automatonState q.decision previous)
    pure (.inl (.stranded s.configs x))
  else do
    let s ← inSession (automatonState q.decision t)
    match haltAt? (← get).predictor.settings.mode steps t s x with
    | some halt => pure (.inl halt)
    | none => pure (.inr t)

/-- Looking at a token with configurations over the caller's stack: the alternative taken, or the next
configurations. -/
def lookAtConfigs (env : Surroundings σ) (previous : ConfigSet) (x : Symbol) :
    Run (Session σ) (Nat ⊕ ConfigSet) := do
  match ← withSessionStacks (env.reach true x previous) with
  | none => do
    let alt ← giveUp q previous x
    pure (.inl alt)
  | some r => do
    match settles? ((← get).predictor.settings.mode = .exactAmbiguity) x previous r.marked with
    | some (alt, certain) => do
      let stop := (← get).stream.index
      report (settled q stop alt certain r.marked)
      pure (.inl alt)
    | none => pure (.inr r.marked)

theorem runAutomaton_eq (fuel : Nat) : ∀ (steps : Nat) (previous : Target) (x : Symbol),
    runAutomaton q fuel steps previous x = readLoop q (lookAtState q) fuel steps previous x := by
  induction fuel with
  | zero => exact fun _ _ _ => rfl
  | succ fuel ih =>
    intro steps previous x
    rw [runAutomaton, readLoop, lookAtState]
    simp only [bind_assoc]
    refine bind_congr fun _ => bind_congr fun t => ?_
    split
    · simp only [bind_assoc, pure_bind]
    · simp only [bind_assoc]
      refine bind_congr fun u => bind_congr fun s => ?_
      cases haltAt? s.predictor.settings.mode steps t u x with
      | some halt => simp only [pure_bind]
      | none => simp only [pure_bind, ih]

theorem runFullContext_eq (env : Surroundings σ) (fuel : Nat) :
    ∀ (steps : Nat) (previous : ConfigSet) (x : Symbol), runFullContext q env fuel steps previous x =
      readLoop q (fun _ => lookAtConfigs q env) fuel steps previous x := by
  induction fuel with
  | zero => exact fun _ _ _ => rfl
  | succ fuel ih =>
    intro steps previous x
    rw [runFullContext, readLoop, lookAtConfigs]
    simp only [bind_assoc]
    refine bind_congr fun _ => bind_congr fun o => ?_
    cases o with
    | none => simp only [bind_assoc, pure_bind, bind_pure]
    | some r =>
      simp only [bind_assoc]
      refine bind_congr fun s => ?_
      show goOnFull q env fuel steps (s.predictor.settings.mode = .exactAmbiguity) previous x r = _
      rw [goOnFull]
      cases settles? (s.predictor.settings.mode = .exactAmbiguity) x previous r.marked with
      | some found => simp only [bind_assoc, pure_bind]
      | none => simp only [pure_bind, ih]

/-- What looking at a token and reading on keep, the loop keeps. -/
theorem preserves_readLoop {look : Nat → β → Symbol → Run (Session σ) (α ⊕ β)} {inv : Session σ → Prop}
    (hlook : ∀ steps b x, Preserves inv (look steps b x)) (hread : ∀ x, Preserves inv (readOn x))
    (fuel : Nat) : ∀ (steps : Nat) (b : β) (x : Symbol), Preserves inv (readLoop q look fuel steps b x) := by
  induction fuel with
  | zero => exact fun _ _ _ => .throw _
  | succ fuel ih =>
    intro steps b x
    have hcount : Preserves inv (countStep q steps) := Preserves.get.bind fun _ => .ite (.throw _) (.pure _)
    rw [readLoop]
    refine hcount.bind fun _ => (hlook steps b x).bind fun o => ?_
    cases o with
    | inl a => exact .pure a
    | inr b' => exact (hread x).bind fun next => ih _ _ _

theorem leaves_readLoop {γ : Type} {part : Session σ → γ}
    {look : Nat → β → Symbol → Run (Session σ) (α ⊕ β)} (hlook : ∀ steps b x, Leaves part (look steps b x))
    (hread : ∀ x, Leaves part (readOn x)) (fuel steps : Nat) (b : β) (x : Symbol) :
    Leaves part (readLoop q look fuel steps b x) := by
  intro s
  have hkeep : Preserves (fun t => part t = part s) (readLoop q look fuel steps b x) :=
    preserves_readLoop q (fun steps b x t ht => (hlook steps b x t).trans ht)
      (fun x t ht => (hread x t).trans ht) fuel steps b x
  exact hkeep s rfl

/-- The loop fails as looking does, or because it has gone round too often. -/
theorem fails_readLoop {look : Nat → β → Symbol → Run (Session σ) (α ⊕ β)} {bad : RecognitionError → Prop}
    (hlook : ∀ steps b x, Fails bad (look steps b x)) (hfuel : bad .outOfFuel)
    (hlimit : ∀ limit, bad (.stepLimitExceeded q.decision limit)) (fuel : Nat) :
    ∀ (steps : Nat) (b : β) (x : Symbol), Fails bad (readLoop q look fuel steps b x) := by
  induction fuel with
  | zero => exact fun _ _ _ => .throw hfuel
  | succ fuel ih =>
    intro steps b x
    have hcount : Fails bad (countStep q steps) := Fails.get.bind fun _ => .ite (.throw (hlimit _)) (.pure _)
    rw [readLoop]
    refine hcount.bind fun _ => (hlook steps b x).bind fun o => ?_
    cases o with
    | inl a => exact .pure a
    | inr b' => exact (fails_readOn x).bind fun next => ih _ _ _

/-! ## What it looks at -/

/-- Looking at a token that does not settle the run leaves the stream where it is. -/
def Stays (look : Nat → β → Symbol → Run (Session σ) (α ⊕ β)) : Prop :=
  ∀ ⦃steps b x s b' t⦄, look steps b x s = (.ok (.inr b'), t) → t.stream = s.stream

/-- A step that is within the limit looks at a token. -/
theorem readLoop_of_counted (look : Nat → β → Symbol → Run (Session σ) (α ⊕ β)) {steps : Nat} {s : Session σ}
    (hcount : countStep q steps s = (.ok (), s)) (b : β) (x : Symbol) (fuel : Nat) :
    readLoop q look (fuel + 1) steps b x s =
      (look steps b x >>= fun o =>
        match o with
        | .inl a => pure a
        | .inr b' => readOn x >>= readLoop q look fuel (steps + 1) b') s := by
  rw [readLoop, bind_apply, hcount]

/-- One round: it ends the run, or is followed by another at the next token. -/
theorem readLoop_cases {look : Nat → β → Symbol → Run (Session σ) (α ⊕ β)}
    (htimely : ∀ steps b x, Fails RecognitionError.IsTimely (look steps b x)) (steps : Nat) (b : β) (x : Symbol)
    (s : Session σ) :
    (∃ r : Ending (Session σ) α, r.1 ≠ .error .outOfFuel ∧
      ∀ fuel, readLoop q look (fuel + 1) steps b x s = r) ∨
    ∃ b' t, look steps b x s = (.ok (.inr b'), t) ∧ ∀ fuel, readLoop q look (fuel + 1) steps b x s =
      (readOn x >>= readLoop q look fuel (steps + 1) b') t := by
  rcases countStep_cases q steps s with hcount | hcount
  · refine .inl ⟨(.error (.stepLimitExceeded q.decision s.predictor.settings.maxSteps), s), (by simp),
      fun fuel => ?_⟩
    rw [readLoop, bind_apply, hcount]
  · have hrun := readLoop_of_counted q look hcount b x
    rcases hlook : look steps b x s with ⟨e | a | b', t⟩
    · refine .inl ⟨(.error e, t), fun he => htimely _ _ _ hlook (Except.error.inj he), fun fuel => ?_⟩
      rw [hrun, bind_apply, hlook]
    · refine .inl ⟨(.ok a, t), (by simp), fun fuel => ?_⟩
      rw [hrun, bind_apply, hlook]
      rfl
    · refine .inr ⟨b', t, rfl, fun fuel => ?_⟩
      rw [hrun, bind_apply, hlook]

/-- A run that ends with a result found it in its first round, or goes on after that. -/
theorem readLoop_ok_cases {look : Nat → β → Symbol → Run (Session σ) (α ⊕ β)} {fuel steps : Nat} {b : β}
    {x : Symbol} {s t : Session σ} {a : α} (h : readLoop q look (fuel + 1) steps b x s = (.ok a, t)) :
    let looks := pauses (fun fuel => readLoop q look fuel steps b x) (fuel + 1) s
    countStep q steps s = (.ok (), s) ∧ ((look steps b x s = (.ok (.inl a), t) ∧ looks = [s]) ∨
      ∃ b' u next u', look steps b x s = (.ok (.inr b'), u) ∧ readOn x u = (.ok next, u') ∧
        readLoop q look fuel (steps + 1) b' next u' = (.ok a, t) ∧
        looks = s :: pauses (fun fuel => readLoop q look fuel (steps + 1) b' next) fuel u') := by
  intro looks
  have hfirst : readLoop q look 0 steps b x s = (.error .outOfFuel, s) := rfl
  rcases countStep_cases q steps s with hcount | hcount
  · rw [readLoop, bind_apply, hcount] at h
    cases h
  · have hrun := readLoop_of_counted q look hcount b x
    refine ⟨hcount, ?_⟩
    rcases hlook : look steps b x s with ⟨e | a' | b', u⟩
    · rw [hrun, bind_apply, hlook] at h
      cases h
    · have hends : ∀ fuel, readLoop q look (fuel + 1) steps b x s = (.ok a', u) := fun fuel => by
        rw [hrun, bind_apply, hlook]
        rfl
      rw [hends] at h
      cases h
      exact .inl ⟨rfl, pauses_of_ends hfirst (by simp) hends _⟩
    · obtain ⟨next, u', hread⟩ : ∃ next u', readOn x u = (.ok next, u') := by
        rw [readOn_apply]
        split <;> exact ⟨_, _, rfl⟩
      have hstep : ∀ fuel, readLoop q look (fuel + 1) steps b x s =
          readLoop q look fuel (steps + 1) b' next u' := fun fuel => by
        rw [hrun, bind_apply, hlook]
        dsimp only
        rw [bind_apply, hread]
      rw [hstep] at h
      exact .inr ⟨b', u, next, u', rfl, hread, h, pauses_of_step hfirst hstep _⟩

/-- A run that ends with a result found it in the last of its rounds. -/
theorem ends_readLoop {look : Nat → β → Symbol → Run (Session σ) (α ⊕ β)} {a : α} {t : Session σ} (fuel : Nat) :
    ∀ {steps : Nat} {b : β} {x : Symbol} {s : Session σ}, readLoop q look fuel steps b x s = (.ok a, t) →
      ∃ last b' x' s', look last b' x' s' = (.ok (.inl a), t) ∧
        last + 1 = steps + (pauses (fun fuel => readLoop q look fuel steps b x) fuel s).length := by
  induction fuel with
  | zero => exact fun h => nomatch h
  | succ fuel ih =>
    intro steps b x s h
    obtain ⟨-, ⟨hlast, hone⟩ | ⟨b', u, next, u', -, -, hrest, hmore⟩⟩ := readLoop_ok_cases q h
    · exact ⟨steps, b, x, s, hlast, by rw [hone, List.length_singleton]⟩
    · obtain ⟨last, b'', x', s', hlast, hcount⟩ := ih hrest
      refine ⟨last, b'', x', s', hlast, ?_⟩
      rw [hmore, List.length_cons, hcount]
      omega

/-- Reading on goes past a token.  At the end of the input, staying there is as good as going past it. -/
theorem readOn_peek {s : Session σ} {st : TokenStream} (hst : st.Placed) (hs : s.stream = st) :
    readOn st.peek s = (.ok st.consume.peek, { s with stream := st.consume }) := by
  rw [readOn_apply]
  split
  · next hend => rw [hst.consume_of_end hend, hend, ← hs]
  · rw [hs]

/-- The tokens that a run looks at are those ahead, one after another. -/
theorem streams_readLoop {look : Nat → β → Symbol → Run (Session σ) (α ⊕ β)}
    (htimely : ∀ steps b x, Fails RecognitionError.IsTimely (look steps b x)) (hstays : Stays look)
    (bound : Nat) : ∀ (steps : Nat) (b : β) (s : Session σ), s.stream.Placed →
      let l := pauses (fun fuel => readLoop q look fuel steps b s.stream.peek) bound s
      l.map (·.stream) = List.iterate TokenStream.consume s.stream l.length := by
  induction bound with
  | zero => exact fun _ _ _ _ => rfl
  | succ bound ih =>
    intro steps b s hs
    have hfirst : readLoop q look 0 steps b s.stream.peek s = (.error .outOfFuel, s) := rfl
    rcases readLoop_cases q htimely steps b s.stream.peek s with ⟨r, hr, hrun⟩ | ⟨b', t, hlook, hrun⟩
    · rw [pauses_of_ends hfirst hr hrun]
      rfl
    · have hread : readOn s.stream.peek t =
          (.ok s.stream.consume.peek, { t with stream := s.stream.consume }) := readOn_peek hs (hstays hlook)
      have hstep : ∀ fuel, readLoop q look (fuel + 1) steps b s.stream.peek s =
          readLoop q look fuel (steps + 1) b' s.stream.consume.peek { t with stream := s.stream.consume } := by
        intro fuel
        rw [hrun, bind_apply, hread]
      intro l
      have hl : l = s :: pauses (fun fuel => readLoop q look fuel (steps + 1) b' s.stream.consume.peek) bound
          { t with stream := s.stream.consume } := pauses_of_step hfirst hstep bound
      rw [hl, List.map_cons, List.length_cons, List.iterate]
      exact congrArg (s.stream :: ·) (ih (steps + 1) b' { t with stream := s.stream.consume } hs.consume)

/-! ## The two runs -/

theorem fails_automatonState (decision : Nat) (source : Target) :
    Fails RecognitionError.IsBreakdown (automatonState decision source) := by
  refine Fails.get.bind fun p => ?_
  split
  · exact .pure _
  · exact .throw (.inr ⟨_, _, rfl⟩)
  · exact .throw (.inr ⟨_, _, rfl⟩)

/-- Following an edge fails for a limit, or because the automaton has no such state. -/
theorem fails_step (decision : Nat) (source : Target) (x : Symbol) :
    Fails RecognitionError.IsBreakdown (step decision source x) := by
  have hstore : ∀ t, Fails RecognitionError.IsBreakdown (storeEdge decision source x t) :=
    fun _ => Fails.get.bind fun _ => .ite (.modify _) (.pure _)
  have hwork : ∀ {α : Type} {act : Run (Workspace Unit) α}, Fails RecognitionError.IsLimit act →
      Fails RecognitionError.IsBreakdown (withStacksOnly act) := by
    intro α act h p e t hr
    rw [withStacksOnly_apply, Prod.mk.injEq] at hr
    exact .inl (h (Prod.ext hr.1 rfl))
  have hcompute : Fails RecognitionError.IsBreakdown (computeEdge decision source x) := by
    refine (fails_automatonState _ _).bind fun s => Fails.get.bind fun p =>
      (hwork (Surroundings.fails_reach _ _ _ _)).bind fun o => ?_
    cases o with
    | none => exact (hstore _).bind fun _ => .pure _
    | some reached =>
      refine Fails.bind (.modifyGet _) fun made => Fails.bind (.modifyGet _) fun t => ?_
      exact (hstore _).bind fun _ => .pure _
  refine Fails.get.bind fun p => ?_
  split
  · exact Fails.bind (.modify _) fun _ => .pure _
  · exact Fails.bind (.modify _) fun _ => hcompute

theorem fails_lookAtState (steps : Nat) (previous : Target) (x : Symbol) :
    Fails RecognitionError.IsBreakdown (lookAtState q steps previous x) := by
  refine (fails_inSession (fails_step _ _ _)).bind fun t => .ite ?_ ?_
  · exact (fails_inSession (fails_automatonState _ _)).bind fun _ => .pure _
  · refine (fails_inSession (fails_automatonState _ _)).bind fun u => Fails.get.bind fun s => ?_
    split <;> exact .pure _

theorem timely_lookAtState (steps : Nat) (previous : Target) (x : Symbol) :
    Fails RecognitionError.IsTimely (lookAtState q steps previous x) :=
  (fails_lookAtState q steps previous x).imp fun _ h => h.timely

theorem timely_lookAtConfigs (env : Surroundings σ) (previous : ConfigSet) (x : Symbol) :
    Fails RecognitionError.IsTimely (lookAtConfigs q env previous x) := by
  refine (fails_withSessionStacks (env.timely_reach _ _ _)).bind fun o => ?_
  cases o with
  | none => exact (timely_giveUp q previous x).bind fun _ => .pure _
  | some r =>
    refine Fails.get.bind fun s => ?_
    dsimp only
    split
    · exact Fails.get.bind fun _ => Fails.bind (.modify _) fun _ => .pure _
    · exact .pure _

/-- Looking at a token with the automaton only changes the predictor. -/
theorem aside_lookAtState (steps : Nat) (previous : Target) (x : Symbol) :
    Leaves (fun s : Session σ => (s.stream, s.author)) (lookAtState q steps previous x) := by
  have hstep : ∀ {α : Type} (act : Run Predictor α),
      Leaves (fun s : Session σ => (s.stream, s.author)) (inSession act) := fun _ _ => rfl
  refine (hstep _).bind fun t => .ite ?_ ?_
  · exact (hstep _).bind fun _ => .pure _
  · refine (hstep _).bind fun u => Leaves.get.bind fun s => ?_
    split <;> exact .pure _

theorem stays_lookAtState : Stays (lookAtState q : Nat → Target → Symbol → Run (Session σ) _) := by
  intro steps previous x s t s' hr
  have hs := aside_lookAtState q steps previous x s
  rw [hr] at hs
  exact congrArg Prod.fst hs

theorem stays_lookAtConfigs (env : Surroundings σ) : Stays fun _ => lookAtConfigs q env := by
  intro steps previous x s b t hr
  obtain ⟨o, s', hreach, hrest⟩ := exists_of_bind hr
  have hstream : s'.stream = s.stream := by
    rw [withSessionStacks_apply, Prod.mk.injEq] at hreach
    rw [← hreach.2]
  cases o with
  | none =>
    obtain ⟨alt, u, -, hpure⟩ := exists_of_bind hrest
    cases hpure
  | some r =>
    dsimp only at hrest
    rw [bind_apply, get_apply] at hrest
    dsimp only at hrest
    cases hsettles : settles? (s'.predictor.settings.mode = .exactAmbiguity) x previous r.marked with
    | some found =>
      rw [hsettles] at hrest
      obtain ⟨-, u, -, hrest⟩ := exists_of_bind hrest
      obtain ⟨-, u, -, hrest⟩ := exists_of_bind hrest
      cases hrest
    | none =>
      rw [hsettles] at hrest
      cases hrest
      exact hstream

/-! ## Predictions -/

/-- The sessions in which the automaton of a question looks at a token. -/
def nearLooks (s : Session σ) : List (Session σ) :=
  match startState q s with
  | (.ok start, t) =>
    pauses (fun fuel => runAutomaton q fuel 0 start t.stream.peek) (t.stream.size + 2) t
  | _ => []

theorem lookAhead_of_startState {s t : Session σ} {start : Target} (h : startState q s = (.ok start, t)) :
    lookAhead q s = runAutomaton q (t.stream.size + 2) 0 start t.stream.peek t := by
  rw [lookAhead, bind_apply, h]
  dsimp only
  rw [bind_apply, get_apply]

/-- Looking ahead never finds that there is no viable alternative. -/
theorem fails_lookAhead : Fails (fun e => e.IsBreakdown ∨ e = .outOfFuel) (lookAhead q) := by
  have hstart : Fails RecognitionError.IsBreakdown (startState q) := by
    refine Fails.get.bind fun s => ?_
    dsimp only
    split
    · exact .pure _
    · refine (fails_withSessionStacks ?_).bind fun _ => ?_
      · exact (Surroundings.fails_startConfigs _ rfl _ _).imp fun _ h => .inl h
      · exact (fails_inSession (.modifyGet _)).bind fun t => (fails_inSession (.modify _)).bind fun _ => .pure _
  refine (hstart.imp fun _ h => .inl h).bind fun start => Fails.get.bind fun stream => ?_
  rw [runAutomaton_eq]
  exact fails_readLoop q (fun steps b x => (fails_lookAtState q steps b x).imp fun _ h => .inl h) (.inr rfl)
    (fun limit => .inl (.inl (.inr ⟨_, limit, rfl⟩))) _ _ _ _

/-- Reports that the caller's stack is asked, and counts it. -/
def announceCaller (conflicting : AltSet) (configs : ConfigSet) : Run (Session σ) Unit := do
  let stop := (← get).stream.index
  report (.fullContext q.decision q.start stop conflicting configs)
  inSession (count fun c => { c with llPredictions := c.llPredictions + 1 })

/-- Settles a conflict by guards, if they leave one alternative.  If not, the caller's stack is going to be
asked. -/
def settleByGuards (u : AutomatonState) : Run (Session σ) (Option Nat) := do
  match u.guardedAlts with
  | none => do
    announceCaller q (u.configs.conflictingAlts.getD AltSet.empty) u.configs
    pure none
  | some pairs => do
    let here := (← get).stream.index
    seek q.start
    let alts ← admitted q pairs
    match alts.toList with
    | [alt] => do
      countSll
      pure (some alt)
    | _ => do
      seek here
      announceCaller q alts u.configs
      pure none

/-- Begins again over the caller's stack, with configurations and what their closure depends on. -/
def beginOverCaller : Run (Session σ) (Surroundings σ × ConfigSet) := do
  let p := (← get).predictor
  let env := p.surroundings true (some fun g => g.eval q.hooks q.outer)
  let start ← withSessionStacks (env.startConfigs (p.cache.automaton q.decision).netState q.outer)
  seek q.start
  pure (env, start)

theorem overCaller_eq (steps : Nat) : overCaller q steps = (do
    let (env, start) ← beginOverCaller q
    let stream := (← get).stream
    runFullContext q env (stream.size + 3) steps start stream.peek : Run (Session σ) Nat) := by
  unfold overCaller beginOverCaller
  simp only [bind_assoc, pure_bind]

theorem overCaller_of_begin (steps : Nat) {s t : Session σ} {env : Surroundings σ} {start : ConfigSet}
    (h : beginOverCaller q s = (.ok (env, start), t)) :
    overCaller q steps s = runFullContext q env (t.stream.size + 3) steps start t.stream.peek t := by
  rw [overCaller_eq, bind_apply, h]
  dsimp only
  rw [bind_apply, get_apply]

theorem startFullContext_eq_announceCaller (steps : Nat) (conflicting : AltSet) (configs : ConfigSet) :
    startFullContext q steps conflicting configs =
      (announceCaller q conflicting configs >>= fun _ => overCaller q steps : Run (Session σ) Nat) := by
  rw [startFullContext_eq, announceCaller]
  simp only [bind_assoc]

theorem settleConflict_eq (steps : Nat) (u : AutomatonState) : settleConflict q steps u = (do
    match ← settleByGuards q u with
    | some alt => pure alt
    | none => overCaller q steps : Run (Session σ) Nat) := by
  unfold settleConflict settleByGuards
  cases u.guardedAlts with
  | none =>
    simp only [startFullContext_eq_announceCaller, bind_assoc, pure_bind]
  | some pairs =>
    simp only [bind_assoc]
    refine bind_congr fun s => bind_congr fun _ => bind_congr fun alts => ?_
    rcases alts.toList with _ | ⟨alt, _ | ⟨alt', rest⟩⟩
    · simp only [startFullContext_eq_announceCaller, bind_assoc, pure_bind]
    · simp only [bind_assoc, pure_bind]
    · simp only [startFullContext_eq_announceCaller, bind_assoc, pure_bind]

theorem leaves_settleByGuards (u : AutomatonState) : Leaves Session.outline (settleByGuards q u) := by
  have hannounce : ∀ alts, Leaves Session.outline (announceCaller q alts u.configs) := fun _ =>
    Leaves.get.bind fun _ => (leaves_report _).bind fun _ => leaves_inSession_outline (leaves_count _)
  unfold settleByGuards
  split
  · exact (hannounce _).bind fun _ => .pure _
  · refine Leaves.get.bind fun _ => (leaves_seek _).bind fun _ => (leaves_admitted q _).bind fun alts => ?_
    split
    · exact leaves_countSll.bind fun _ => .pure _
    · exact (leaves_seek _).bind fun _ => (hannounce _).bind fun _ => .pure _

theorem leaves_beginOverCaller : Leaves Session.outline (beginOverCaller q) :=
  Leaves.get.bind fun _ => (leaves_withSessionStacks _).bind fun _ => (leaves_seek _).bind fun _ => .pure _

/-- The sessions in which configurations over the caller's stack look at a token to settle a conflict. -/
def conflictLooks (steps : Nat) (u : AutomatonState) (s : Session σ) : List (Session σ) :=
  match settleByGuards q u s with
  | (.ok none, t) =>
    match beginOverCaller q t with
    | (.ok (env, start), t) =>
      pauses (fun fuel => runFullContext q env fuel steps start t.stream.peek) (t.stream.size + 3) t
    | _ => []
  | _ => []

/-- The sessions in which the configurations over the caller's stack look at a token, if it is asked. -/
def farLooks (s : Session σ) : List (Session σ) :=
  match lookAhead q s with
  | (.ok (.contested steps u), t) => conflictLooks q steps u t
  | _ => []

theorem predict_of_choose (hooks : ParserHooks σ) (outer : List Invocation) {decision : Nat} {s : Session σ}
    (hd : decision < s.predictor.network.decisions.size) {r : Except RecognitionError Nat} {t : Session σ}
    (h : choose ⟨hooks, outer, decision, s.stream.index⟩ s = (r, t)) :
    predict hooks outer decision s = (r, t.depart s.stream.index) := by
  unfold predict
  rw [if_neg (Nat.not_le.mpr hd)]
  dsimp only
  rw [h]
  rfl

/-! ## The steps they take -/

/-- Where a state asks for the caller's stack, the automaton has counted its looks. -/
theorem steps_of_contested {s t : Session σ} {steps : Nat} {u : AutomatonState}
    (h : lookAhead q s = (.ok (.contested steps u), t)) : steps = (nearLooks q s).length := by
  obtain ⟨start, s', hstart, hrest⟩ := exists_of_bind h
  rw [bind_apply, get_apply] at hrest
  dsimp only at hrest
  unfold nearLooks
  rw [hstart]
  dsimp only
  simp only [runAutomaton_eq] at hrest ⊢
  obtain ⟨last, previous, x, s'', hlast, hcount⟩ := ends_readLoop q _ hrest
  have hsteps : steps = last + 1 := by
    obtain ⟨v, s₁, -, hrest⟩ := exists_of_bind hlast
    split at hrest
    · obtain ⟨w, s₂, -, hrest⟩ := exists_of_bind hrest
      cases hrest
    · obtain ⟨w, s₂, -, hrest⟩ := exists_of_bind hrest
      rw [bind_apply, get_apply] at hrest
      dsimp only at hrest
      cases hhalt : haltAt? s₂.predictor.settings.mode last v w x with
      | none =>
        rw [hhalt] at hrest
        cases hrest
      | some a =>
        rw [hhalt] at hrest
        cases hrest
        unfold haltAt? at hhalt
        split at hhalt
        · cases hhalt
          rfl
        · split at hhalt <;> cases hhalt
  rw [hsteps, hcount, Nat.zero_add]

/-! ## The tokens at which they are -/

theorem stream_startState : Leaves (fun s : Session σ => s.stream) (startState q) := by
  refine Leaves.get.bind fun s => ?_
  dsimp only
  split
  · exact .pure _
  · have hwork : ∀ {α : Type} (act : Run (Workspace σ) α),
        Leaves (fun s : Session σ => s.stream) (withSessionStacks act) := fun _ _ => rfl
    have hcache : ∀ {α : Type} (act : Run Predictor α),
        Leaves (fun s : Session σ => s.stream) (inSession act) := fun _ _ => rfl
    exact (hwork _).bind fun _ => (hcache _).bind fun t => (hcache _).bind fun _ => .pure _

/-- The automaton looks at the tokens ahead, one after another. -/
theorem streams_nearLooks {s : Session σ} (hs : s.stream.Placed) :
    (nearLooks q s).map (·.stream) = List.iterate TokenStream.consume s.stream (nearLooks q s).length := by
  have hstream := stream_startState q s
  unfold nearLooks
  rcases hr : startState q s with ⟨e | start, t⟩
  · rfl
  · have ht : t.stream = s.stream := by
      rwa [hr] at hstream
    rw [← ht] at hs ⊢
    simp only [runAutomaton_eq]
    exact streams_readLoop q (timely_lookAtState q) (stays_lookAtState q) _ _ _ _ hs

theorem beginOverCaller_ends {s t : Session σ} {env : Surroundings σ} {start : ConfigSet}
    (h : beginOverCaller q s = (.ok (env, start), t)) :
    env.fullContext = true ∧ (∀ c ∈ start.toList, c.Inside) ∧ t.stream = s.stream.seek q.start := by
  unfold beginOverCaller at h
  rw [bind_apply, get_apply] at h
  obtain ⟨start', u, hstart, hrest⟩ := exists_of_bind h
  cases hrest
  rw [withSessionStacks_apply, Prod.mk.injEq] at hstart
  refine ⟨rfl, (Surroundings.overCaller_startConfigs rfl (Prod.ext hstart.1 rfl)).inside, ?_⟩
  rw [← hstart.2]

/-- If the caller's stack is asked, its run begins where the prediction did. -/
theorem farLooks_cases {s : Session σ} (hs : s.stream.Placed) (hstart : q.start = s.stream.index) :
    farLooks q s = [] ∨ ∃ env start steps t, env.fullContext = true ∧ (∀ c ∈ start.toList, c.Inside) ∧
      t.stream = s.stream ∧
      farLooks q s =
        pauses (fun fuel => runFullContext q env fuel steps start s.stream.peek) (s.stream.size + 3) t := by
  have hahead := leaves_lookAhead q s
  unfold farLooks
  generalize lookAhead q s = ahead at hahead ⊢
  obtain ⟨e | _ | ⟨steps, u⟩ | _, t₁⟩ := ahead
  · exact .inl rfl
  · exact .inl rfl
  · have hguards := (leaves_settleByGuards q u).frame t₁
    dsimp only
    unfold conflictLooks
    generalize settleByGuards q u t₁ = settled at hguards ⊢
    obtain ⟨e | _ | alt, t₂⟩ := settled
    · exact .inl rfl
    · dsimp only
      rcases hbegin : beginOverCaller q t₂ with ⟨e | ⟨env, start⟩, t₃⟩
      · exact .inl rfl
      · obtain ⟨hfull, hinside, hstream⟩ := beginOverCaller_ends q hbegin
        have hframe : t₂.frame = s.frame := hguards.trans hahead
        simp only [Session.frame, Prod.mk.injEq] at hframe
        have hback : t₃.stream = s.stream := by
          rw [hstream, hstart]
          exact hs.seek_index hframe.2.1 hframe.2.2
        refine .inr ⟨env, start, steps, t₃, hfull, hinside, hback, ?_⟩
        dsimp only
        rw [hback]
    · exact .inl rfl
  · exact .inl rfl

/-- Over the caller's stack the tokens ahead are looked at again, one after another. -/
theorem streams_farLooks {s : Session σ} (hs : s.stream.Placed) (hstart : q.start = s.stream.index) :
    (farLooks q s).map (·.stream) = List.iterate TokenStream.consume s.stream (farLooks q s).length := by
  rcases farLooks_cases q hs hstart with hnone | ⟨env, start, steps, t, -, -, ht, hfar⟩
  · rw [hnone]
    rfl
  · rw [hfar, ← ht]
    rw [← ht] at hs
    simp only [runFullContext_eq]
    exact streams_readLoop q (fun _ => timely_lookAtConfigs q env) (stays_lookAtConfigs q env) _ _ _ _ hs

/-- The end of the input is looked at twice at most. -/
theorem length_farLooks_le {s : Session σ} (hs : s.stream.Placed) (hstart : q.start = s.stream.index) :
    (farLooks q s).length ≤ s.stream.remaining.length + 1 := by
  rw [TokenStream.remaining, List.length_append, List.length_singleton]
  rcases farLooks_cases q hs hstart with hnone | ⟨env, start, steps, t, hfull, hinside, ht, hfar⟩
  · rw [hnone]
    exact Nat.zero_le _
  · rw [hfar, ← ht]
    rw [← ht] at hs
    exact (runFullContext_settlesBy q hfull hinside hs steps).length_pauses_le _

/-- The automaton looks no further than to the end of the input. -/
theorem length_nearLooks_le {n : Network} {allowed : Settings → Prop} (hd : q.decision < n.decisions.size)
    {s : Session σ} (h : s.predictor.Sane n allowed) (hs : s.stream.Placed) :
    (nearLooks q s).length ≤ s.stream.remaining.length := by
  have hends := startState_ends q s h hd
  unfold nearLooks
  generalize startState q s = r at hends ⊢
  obtain ⟨e | start, t⟩ := r
  · exact Nat.zero_le _
  · obtain ⟨hruns, e, he, -⟩ := hends
    rw [TokenStream.remaining, List.length_append, List.length_singleton, ← hruns.stream]
    rw [← hruns.stream] at hs
    exact (runAutomaton_settlesBy q hd 0 hruns.predictor.sane hs he).length_pauses_le _

end Predictor
end AdaptiveLL

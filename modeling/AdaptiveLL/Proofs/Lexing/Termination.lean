import Mathlib
import AdaptiveLL.Grammar.Layout
import AdaptiveLL.Proofs.Fuel
import AdaptiveLL.Proofs.Lexing.Positions
import AdaptiveLL.Proofs.Lexing.Thread
import AdaptiveLL.Proofs.Network.Machine

/-! # Matches end

A match takes one step for each character, and at the end of the input it goes on as long as configurations
are left, without anything being read.  In a network in which nothing consumes the end of the input none
is left there, so a match ends after at most one step more than there are characters ahead
(`Scan.munch_settlesBy`), whatever the automata hold and however predicates are answered.

Where the end of the input can be consumed over and over, as in `(EOF)* 'a'`, a match does not end, whatever
it is given (`Scan.next_circles`).
-/
namespace AdaptiveLL
open Run (Leaves Fails SettlesBy)

/-- Nothing consumes the end of the input. -/
def Network.SparesEnd (n : Network) : Prop :=
  ∀ q, ∀ t ∈ (n.state q).transitions, t.consumes minCodePoint maxCodePoint endOfInput = false

theorem Network.sparesEnd_of_states {n : Network}
    (h : ∀ s ∈ n.states.toList, ∀ t ∈ s.transitions, t.consumes minCodePoint maxCodePoint endOfInput = false) :
    n.SparesEnd := by
  intro q t ht
  rw [Network.state] at ht
  by_cases hq : q < n.states.size
  · rw [Array.getElem?_eq_getElem hq, Option.getD_some] at ht
    exact h _ (Array.getElem_mem_toList hq) t ht
  · rw [Array.getElem?_eq_none (Nat.le_of_not_lt hq)] at ht
    exact absurd ht List.not_mem_nil

/-! ## What closures fail with -/

namespace Outlook
variable {σ : Type} (env : Outlook σ)

theorem timely_lookUp {τ : Type} (n : Network) (id : Nat) :
    Fails RecognitionError.IsTimely (lookUp n id : Run τ State) := by
  unfold lookUp Network.state?
  split
  · exact .pure _
  · next h =>
    split at h
    · cases h
    · cases h
      exact .throw (by simp)

theorem timely_moveTo {τ : Type} (n : Network) (c : Config) (target : Nat) :
    Fails RecognitionError.IsTimely (moveTo n c target : Run τ Config) :=
  (timely_lookUp n target).bind fun _ => .pure _

theorem timely_finish (c : Config) : Fails RecognitionError.IsTimely (finish c : Run (Progress σ) Unit) :=
  (Fails.modify _).bind fun _ => .modify _

theorem timely_arrive (c : Config) : Fails RecognitionError.IsTimely (arrive env c) := by
  unfold arrive
  refine (timely_lookUp _ _).bind fun s => .ite (.ite ?_ ?_) ?_
  · exact (timely_finish c).bind fun _ => .pure _
  · refine Fails.get.bind fun p => .ite ?_ ?_
    · exact (timely_finish _).bind fun _ => Fails.get.bind fun _ => .pure _
    · exact Fails.get.bind fun _ => .pure _
  · refine (Fails.modifyGet _).bind fun fresh => .ite ?_ (.pure _)
    refine Fails.get.bind fun p => .ite ?_ (.pure _)
    exact (Fails.modify _).bind fun _ => .pure _

theorem timely_target? (c : Config) (t : Transition) :
    Fails RecognitionError.IsTimely (target? env c t) := by
  have hmove : ∀ target, Fails RecognitionError.IsTimely
      (some <$> moveTo env.network c target : Run (Progress σ) (Option Config)) := fun target =>
    (timely_moveTo _ c target).bind fun _ => .pure _
  unfold target?
  split
  · exact (Fails.modifyGet _).bind fun _ => (timely_moveTo _ _ _).bind fun _ => .pure _
  · exact (Fails.modifyGet _).bind fun _ => .ite (hmove _) (.pure _)
  · exact (timely_moveTo _ _ _).bind fun _ => Fails.get.bind fun _ => .pure _
  · exact hmove _
  · exact hmove _
  · exact .ite (hmove _) (.pure _)
  · exact .ite (hmove _) (.pure _)
  · exact .ite (hmove _) (.pure _)
  all_goals exact .pure _

theorem timely_visit (i : Item) : Fails RecognitionError.IsTimely (visit env i) := by
  cases i with
  | arrive c => exact timely_arrive env c
  | pop c f =>
    show Fails RecognitionError.IsTimely (pop env c f)
    unfold pop
    split
    · exact timely_arrive env _
    · exact .pure _
  | follow c t =>
    refine (timely_target? env c t).bind fun o => ?_
    cases o with
    | none => exact .pure _
    | some d => exact timely_arrive env d

theorem timely_close (finished : Bool) (out : ConfigSet) (c : Config) :
    Fails RecognitionError.IsTimely (close env finished out c) := by
  rintro ⟨graph, author, closures⟩ e w h
  unfold close at h
  dsimp only at h
  split at h
  · cases h
  · next hr =>
    cases h
    have hdeep : (RecognitionError.closureDepthExceeded (env.maxDepth + 1) env.maxDepth).IsTimely := by simp
    exact DepthFirst.run_fails (timely_visit env) hdeep hr

theorem timely_reachFrom (offset : Nat) (finished : Bool) (c : Config) (out : ConfigSet)
    (ts : List Transition) : Fails RecognitionError.IsTimely (reachFrom env offset finished c out ts) := by
  induction ts generalizing out with
  | nil => exact .pure _
  | cons t rest ih =>
    refine ((timely_moveTo _ _ _).bind fun _ => .pure _).bind fun d => (timely_close env _ _ _).bind fun r => ?_
    rcases r with ⟨_ | _, out⟩
    · exact ih out
    · exact .pure _

theorem timely_reachAll (offset : Nat) (x : Symbol) (done : Option Nat) (out : ConfigSet)
    (cs : List Config) : Fails RecognitionError.IsTimely (reachAll env offset x done out cs) := by
  induction cs generalizing done out with
  | nil => exact .pure _
  | cons c rest ih =>
    unfold reachAll
    refine .ite (ih _ _) ?_
    exact (timely_lookUp _ _).bind fun s => (timely_reachFrom env _ _ _ _ _).bind fun r => ih _ _

theorem timely_startConfigs (state : Nat) : Fails RecognitionError.IsTimely (startConfigs env state) := by
  have hfrom : ∀ (ts : List Transition) (alt : Nat) (out : ConfigSet),
      Fails RecognitionError.IsTimely (startFrom env alt out ts) := by
    intro ts
    induction ts with
    | nil => exact fun _ _ => .pure _
    | cons t rest ih => exact fun alt out => (timely_close env _ _ _).bind fun r => ih (alt + 1) r.2
  exact (timely_lookUp _ _).bind fun s => hfrom s.transitions 1 _

/-- Where nothing consumes the end of the input, nothing is reached over it. -/
theorem reach_end (h : env.network.SparesEnd) (offset : Nat) (configs : ConfigSet) {w w' : Workspace σ}
    {out : ConfigSet} (hrun : reach env offset endOfInput configs w = (.ok out, w')) :
    out = ConfigSet.emptyOrdered := by
  have hall : ∀ (cs : List Config) (done : Option Nat) (out' : ConfigSet) (u : Workspace σ),
      reachAll env offset endOfInput done out' cs u = (.ok out, w') → out = out' := by
    intro cs
    induction cs with
    | nil =>
      intro done out' u hr
      cases hr
      rfl
    | cons c rest ih =>
      intro done out' u hr
      unfold reachAll at hr
      dsimp only at hr
      split at hr
      · exact ih _ _ _ hr
      · obtain ⟨s, u₁, hs, hr⟩ := Run.exists_of_bind hr
        have hnone : s.transitions.filter (Transition.consumes minCodePoint maxCodePoint endOfInput) = [] := by
          rw [Thread.lookUp_apply, Prod.mk.injEq] at hs
          rw [List.filter_eq_nil_iff]
          intro t ht
          rw [← Network.state_of_state? hs.1] at ht
          rw [h _ t ht]
          exact Bool.false_ne_true
        rw [hnone] at hr
        exact ih _ _ _ hr
  exact hall configs.toList none _ w hrun

end Outlook

namespace Scan
variable {σ : Type} (hooks : LexerHooks σ) (d : Nat)

/-! ## One step -/

theorem timely_check {τ α : Type} {r : Except RecognitionError α} (h : ∀ e, r = .error e → e.IsTimely) :
    Fails RecognitionError.IsTimely (check r : Run τ α) := by
  cases r with
  | ok a => exact .pure a
  | error e => exact .throw (h e rfl)

theorem timely_withStacks {α : Type} {act : Run (Workspace σ) α} (h : Fails RecognitionError.IsTimely act) :
    Fails RecognitionError.IsTimely (withStacks act) := by
  rintro s e t hr
  have hact := (Prod.mk.inj hr).1
  exact h (Prod.ext hact rfl)

theorem timely_automatonState (t : Target) :
    Fails RecognitionError.IsTimely (automatonState d t : Run (Scan σ) AutomatonState) := by
  refine Fails.get.bind fun s => ?_
  split
  · exact .pure _
  · exact .throw (by simp)
  · exact .throw (by simp)

theorem timely_addState (configs : ConfigSet) :
    Fails RecognitionError.IsTimely (addState d configs : Run (Scan σ) Target) := by
  refine Fails.get.bind fun s => (timely_check fun e he => ?_).bind fun _ => .modifyGet _
  have hrecognised : ∀ cs : List Config, Matcher.recognised? s.matcher.network cs = .error e → e.IsTimely := by
    intro cs
    induction cs with
    | nil => exact fun h => by cases h
    | cons c rest ih =>
      intro hr
      unfold Matcher.recognised? Network.state? at hr
      split at hr
      · next h =>
        split at h
        · cases h
        · cases h
          cases hr
          simp
      · split at hr
        · split at hr
          · cases hr
          · cases hr
            simp
        · exact ih hr
  unfold Matcher.classify at he
  split at he
  · next h =>
    cases he
    exact hrecognised _ h
  · cases he
  · cases he

theorem timely_startState (mode : Nat) : Fails RecognitionError.IsTimely (startState hooks mode d) := by
  refine Fails.get.bind fun s => ?_
  split
  · exact .pure _
  · refine (timely_withStacks (Outlook.timely_startConfigs _ _)).bind fun configs =>
      (timely_addState d _).bind fun t => ?_
    exact .ite (Fails.bind (.modify _) fun _ => .pure t) (.pure t)

theorem timely_step (source : Target) (x : Symbol) :
    Fails RecognitionError.IsTimely (step hooks d source x) := by
  refine Fails.get.bind fun s => ?_
  dsimp only
  split
  · exact Fails.bind (.modify _) fun _ => .pure _
  · refine Fails.bind (.modify _) fun _ => (timely_automatonState d source).bind fun u =>
      Fails.get.bind fun s => (timely_withStacks (Outlook.timely_reachAll _ _ _ _ _ _)).bind fun configs => ?_
    have hstore : ∀ t : Target, Fails RecognitionError.IsTimely (do
        if !configs.hasGuards && Matcher.isStored x then
          changeAutomaton d (·.setEdge source x t)
        pure t : Run (Scan σ) Target) := fun t =>
      .ite (Fails.bind (.modify _) fun _ => .pure t) (.pure t)
    exact .ite ((Fails.pure _).bind hstore) ((timely_addState d _).bind hstore)

theorem timely_checkpoint? (t : Target) :
    Fails RecognitionError.IsTimely (checkpoint? d t : Run (Scan σ) (Option Checkpoint)) :=
  (timely_automatonState d t).bind fun _ => Fails.get.bind fun _ => .pure _

variable {s : Scan σ}

/-- The network of a scan. -/
abbrev network (s : Scan σ) : Network := s.matcher.network

/-- Where nothing consumes the end of the input, no edge leads on over it. -/
theorem computeEdge_end (h : s.network.SparesEnd) {source t : Target} {s' : Scan σ}
    (hrun : computeEdge hooks d source endOfInput s = (.ok t, s')) : t.isError := by
  unfold computeEdge at hrun
  obtain ⟨u, s₁, hstate, hrun⟩ := Run.exists_of_bind hrun
  obtain ⟨s₂, s₃, hget, hrun⟩ := Run.exists_of_bind hrun
  cases hget
  obtain ⟨configs, s₄, hreach, hrun⟩ := Run.exists_of_bind hrun
  have hnet : (automatonState d source s).2.network = s.network := leaves_automatonState d source s
  have hspares : s₁.network.SparesEnd := by
    rw [hstate] at hnet
    rw [show s₁.network = s.network from hnet]
    exact h
  obtain rfl : configs = ConfigSet.emptyOrdered :=
    Outlook.reach_end _ hspares _ _ (Prod.ext (Prod.mk.inj hreach).1 rfl)
  obtain ⟨t', s₅, ht, hrun⟩ := Run.exists_of_bind hrun
  cases ht
  split at hrun
  · cases hrun
    rfl
  · cases hrun
    rfl

theorem step_end (h : s.network.SparesEnd) {source t : Target} {s' : Scan σ}
    (hrun : step hooks d source endOfInput s = (.ok t, s')) : t.isError := by
  unfold step at hrun
  obtain ⟨s₀, s₁, hget, hrun⟩ := Run.exists_of_bind hrun
  cases hget
  obtain ⟨_, s₂, hcount, hrun⟩ := Run.exists_of_bind hrun
  cases hcount
  exact computeEdge_end hooks d (s := { s with matcher := { s.matcher with
    counters := { s.matcher.counters with misses := s.matcher.counters.misses + 1 } } }) h hrun

/-- Looking for a token where a state was reached changes nothing. -/
theorem checkpoint?_cases (t : Target) (s : Scan σ) :
    (∃ e : RecognitionError, e.IsTimely ∧ checkpoint? d t s = (.error e, s)) ∨
      ∃ here, checkpoint? d t s = (.ok here, s) := by
  have hsame : ∀ r : Ending (Scan σ) AutomatonState, automatonState d t s = r → r.2 = s := by
    intro r hr
    subst hr
    unfold automatonState
    rw [Run.bind_apply, Run.get_apply]
    dsimp only
    rcases (s.matcher.cache.automaton d).state? t with _ | u
    · cases t <;> rfl
    · rfl
  rcases hstate : automatonState d t s with ⟨e | u, s'⟩
  · obtain rfl : s' = s := hsame _ hstate
    refine .inl ⟨e, timely_automatonState d t hstate, ?_⟩
    rw [checkpoint?, Run.bind_apply, hstate]
  · obtain rfl : s' = s := hsame _ hstate
    refine .inr ⟨if u.isAccept then some ⟨s'.stream.index, s'.matcher.position, t⟩ else none, ?_⟩
    rw [checkpoint?, Run.bind_apply, hstate]
    rfl

/-- One step of a match: it ends, or leads to a state and goes on behind the character. -/
theorem munch_cases (last : Option Checkpoint) (source : Target) (x : Symbol) (s : Scan σ) :
    (∃ r : Ending (Scan σ) (Option Checkpoint × Symbol), r.1 ≠ .error .outOfFuel ∧
      ∀ fuel, munch hooks d (fuel + 1) last source x s = r) ∨
    ∃ t s₁ last', step hooks d source x s = (.ok t, s₁) ∧ t.isError = false ∧
      let s₂ := if x = endOfInput then s₁ else s₁.consume
      ∀ fuel, munch hooks d (fuel + 1) last source x s = munch hooks d fuel last' t s₂.stream.peek s₂ := by
  rcases hstep : step hooks d source x s with ⟨e | t, s₁⟩
  · refine .inl ⟨(.error e, s₁), fun he => timely_step hooks d source x hstep (Except.error.inj he), fun fuel => ?_⟩
    rw [munch, Run.bind_apply, hstep]
  · by_cases herr : t.isError
    · refine .inl ⟨(.ok (last, x), s₁), (by simp), fun fuel => ?_⟩
      rw [munch, Run.bind_apply, hstep]
      dsimp only
      rw [if_pos herr]
      rfl
    · -- the fuel is only handed on, so what comes before the recursive call is the same for any
      have hrun : ∀ fuel, munch hooks d (fuel + 1) last source x s = (do
          if x ≠ endOfInput then modify consume
          let here ← checkpoint? d t
          if x = endOfInput && here.isSome then pure (here, x)
          else munch hooks d fuel (here <|> last) t (← get).stream.peek) s₁ := by
        intro fuel
        rw [munch, Run.bind_apply, hstep]
        dsimp only
        rw [if_neg herr]
      have hmoved : ∀ fuel, munch hooks d (fuel + 1) last source x s = (do
          let here ← checkpoint? d t
          if x = endOfInput && here.isSome then pure (here, x)
          else munch hooks d fuel (here <|> last) t (← get).stream.peek)
          (if x = endOfInput then s₁ else s₁.consume) := by
        intro fuel
        rw [hrun]
        by_cases hx : x = endOfInput
        · rw [if_pos hx, if_neg (not_not.mpr hx)]
        · rw [if_neg hx, if_pos hx]
          rfl
      rcases checkpoint?_cases d t (if x = endOfInput then s₁ else s₁.consume) with ⟨e, he, hhere⟩ | ⟨here, hhere⟩
      · refine .inl ⟨(.error e, if x = endOfInput then s₁ else s₁.consume),
          fun hend => he (Except.error.inj hend), fun fuel => ?_⟩
        rw [hmoved, Run.bind_apply, hhere]
      · by_cases hend : (x = endOfInput && here.isSome) = true
        · refine .inl ⟨(.ok (here, x), if x = endOfInput then s₁ else s₁.consume), (by simp), fun fuel => ?_⟩
          rw [hmoved, Run.bind_apply, hhere]
          dsimp only
          rw [if_pos hend]
          rfl
        · refine .inr ⟨t, s₁, here <|> last, rfl, Bool.eq_false_iff.mpr herr, fun fuel => ?_⟩
          rw [hmoved, Run.bind_apply, hhere]
          dsimp only
          rw [if_neg hend]
          rfl

/-- How many characters are ahead. -/
def ahead (s : Scan σ) : Nat := s.stream.chars.size - s.stream.index

theorem peek_eq_end_of_ahead {s : Scan σ} (h : s.ahead = 0) : s.stream.peek = endOfInput :=
  CharStream.peek_eq_end_iff.mpr (Nat.le_of_sub_eq_zero h)

theorem ahead_consume {s : Scan σ} (h : s.stream.peek ≠ endOfInput) : s.ahead = s.consume.ahead + 1 := by
  have hlt : s.stream.index < s.stream.chars.size :=
    Nat.lt_of_not_le fun hle => h (CharStream.peek_eq_end_iff.mpr hle)
  have hmoved : s.consume.stream = { s.stream with index := s.stream.index + 1 } := if_pos hlt
  rw [ahead, ahead, hmoved]
  dsimp only
  omega

/-- A match settles within one step more than there are characters ahead: each step goes past one, and over
the end of the input no state is left. -/
theorem munch_settlesBy (h : s.network.SparesEnd) (last : Option Checkpoint) (source : Target) :
    SettlesBy (fun fuel => munch hooks d fuel last source s.stream.peek) (s.ahead + 1) s := by
  induction hk : s.ahead generalizing s last source with
  | zero =>
    rcases munch_cases hooks d last source s.stream.peek s with ⟨r, hr, hall⟩ | ⟨t, s₁, last', hstep, herr, -⟩
    · exact .one hr hall
    · rw [peek_eq_end_of_ahead hk] at hstep
      have hend := step_end hooks d h hstep
      rw [herr] at hend
      exact absurd hend Bool.false_ne_true
  | succ k ih =>
    rcases munch_cases hooks d last source s.stream.peek s with ⟨r, hr, hall⟩ | ⟨t, s₁, last', hstep, herr, hall⟩
    · exact .one hr hall
    · have hmore : s.stream.peek ≠ endOfInput := by
        intro hend
        rw [hend] at hstep
        have := step_end hooks d h hstep
        rw [herr] at this
        exact absurd this Bool.false_ne_true
      have hframe := leaves_step hooks d source s.stream.peek s
      rw [hstep] at hframe
      have hstream : s₁.stream = s.stream := congrArg (fun f => f.1.1.stream) hframe
      have hnet : s₁.network = s.network := congrArg (fun f => f.2.1) hframe
      dsimp only at hall
      rw [if_neg hmore] at hall
      refine SettlesBy.succ (ih (s := s₁.consume) ?_ last' t ?_) hall
      · have hkept : s₁.consume.network = s.network := hnet
        rw [hkept]
        exact h
      · have hahead : s₁.ahead = s.ahead := by rw [ahead, ahead, hstream]
        have hgone := ahead_consume (s := s₁) (by rw [hstream]; exact hmore)
        omega

/-! ## A whole match -/

/-- A scan stands at the beginning of a match, in a network in which the end of the input is spared. -/
def Poised (stream : CharStream) (s : Scan σ) : Prop := s.network.SparesEnd ∧ s.stream = stream

theorem meets_poised {α : Type} {m : Run (Scan σ) α} {stream : CharStream} (hframe : Leaves frame m)
    (hfails : Fails RecognitionError.IsTimely m) :
    Run.Meets (Poised stream) m (fun _ => Poised stream) fun e _ => e.IsTimely := by
  intro s hs
  have hkept : Poised stream (m s).2 := by
    have hsame : (m s).2.network = s.network := congrArg (fun f => f.2.1) (hframe s)
    refine ⟨?_, (congrArg (fun f => f.1.1.stream) (hframe s)).trans hs.2⟩
    rw [hsame]
    exact hs.1
  rcases hr : m s with ⟨e | a, t⟩ <;> rw [hr] at hkept
  · exact hfails hr
  · exact hkept

theorem timely_modeDecision {m : Matcher} {mode : Nat} {e : RecognitionError}
    (h : m.modeDecision mode = .error e) : e.IsTimely := by
  unfold Matcher.modeDecision Network.state? at h
  split at h
  · cases h
    simp
  · split at h
    · cases h
      simp
    · split at h
      · next hstate =>
        split at hstate
        · cases hstate
        · cases hstate
          cases h
          simp
      · split at h
        · split at h
          · cases h
          · cases h
            simp
        · cases h
          simp

theorem timely_settle (mode : Nat) (begin : Scan σ) (r : Option Checkpoint × Symbol) :
    Fails RecognitionError.IsTimely (settle mode d begin r) := by
  rcases r with ⟨_ | place, x⟩
  · refine Fails.get.bind fun s => .ite (.pure _) (.throw (by simp))
  · exact Fails.bind (.modify _) fun _ => (timely_automatonState d _).bind fun _ => .pure _

/-- Where nothing consumes the end of the input every match ends before its fuel does, as soon as it is
given a step for each symbol of the input. -/
theorem next_isTimely {s : Scan σ} (h : s.network.SparesEnd) (hpatience : 0 < s.matcher.settings.patience)
    (mode : Nat) : (next hooks mode s).1 ≠ .error .outOfFuel := by
  -- The fuel is enough for a step past each character, and one over the end.
  have hfuel : ∀ s' : Scan σ, s'.stream = s.stream →
      s'.ahead + 1 ≤ s.matcher.settings.fuel s.stream.size := by
    intro s' hs'
    have hle : s.stream.size + 1 ≤ (s.stream.size + 1) * s.matcher.settings.patience :=
      Nat.le_mul_of_pos_right _ hpatience
    rw [ahead, hs', Settings.fuel]
    unfold CharStream.size at *
    omega
  have hrest : ∀ decision, Run.Meets (Poised s.stream) (matchFrom hooks mode decision s.begun)
      (fun _ _ => True) fun e _ => e.IsTimely := by
    intro decision
    refine (meets_poised (leaves_startState hooks mode decision)
      (timely_startState hooks decision mode)).bind fun start => ?_
    refine (meets_poised (leaves_checkpoint? decision start)
      (timely_checkpoint? decision start)).bind fun first => ?_
    have hmunch : Run.Meets (Poised s.stream)
        (munch hooks decision (s.matcher.settings.fuel s.stream.size) first start s.stream.peek)
        (fun _ _ => True) fun e _ => e.IsTimely := by
      intro s' hs'
      have hleft := (munch_settlesBy hooks decision hs'.1 first start).fuel_left (hfuel s' hs'.2)
      rw [hs'.2] at hleft
      rcases hr : munch hooks decision (s.matcher.settings.fuel s.stream.size) first start
        s.stream.peek s' with ⟨e | r, t⟩ <;> rw [hr] at hleft
      · exact fun he => hleft (congrArg Except.error he)
      · trivial
    refine hmunch.bind fun r s' _ => ?_
    have htimely := timely_settle decision mode s.begun r
    rcases hr : settle mode decision s.begun r s' with ⟨e | t, s''⟩
    · exact htimely hr
    · trivial
  rw [next_eq]
  cases hdecision : s.matcher.modeDecision mode with
  | error e => exact fun he => timely_modeDecision hdecision (Except.error.inj he)
  | ok decision => exact (hrest decision).ne_outOfFuel ⟨h, rfl⟩

/-- The network of a token `'a'+`. -/
def repeating : Network where
  kind := .lexer
  maxSymbol := maxCodePoint
  states := #[
    { id := 0, rule := 0, kind := .tokensStart, transitions := [.epsilon 1], freeOnly := true, decision := some 0 },
    { id := 1, rule := 0, kind := .ruleStart, transitions := [.epsilon 3], freeOnly := true },
    { id := 2, rule := 0, kind := .ruleStop },
    { id := 3, rule := 0, kind := .plusBlockStart, transitions := [.epsilon 5], freeOnly := true },
    { id := 4, rule := 0, kind := .blockEnd, transitions := [.epsilon 7], freeOnly := true },
    { id := 5, rule := 0, kind := .basic, transitions := [.symbol 6 97] },
    { id := 6, rule := 0, kind := .basic, transitions := [.epsilon 4], freeOnly := true },
    { id := 7, rule := 0, kind := .plusLoopBack, transitions := [.epsilon 3, .epsilon 8], freeOnly := true,
      decision := some 1 },
    { id := 8, rule := 0, kind := .loopEnd, transitions := [.epsilon 2], freeOnly := true }]
  decisions := #[0, 7]
  ruleStarts := #[1]
  ruleStops := #[2]
  ruleNames := #["T"]
  tokenTypes := #[1]
  modeStarts := #[0]
  modeNames := #["DEFAULT_MODE"]

theorem next_isTimely_repeating :
    (Grammar.lexer.token "T" 1 (.plus (.char 'a') true)).layout = .ok repeating ∧
      (next .none 0 ⟨Matcher.ofNetwork repeating {}, .ofText "aa", ()⟩).1 ≠ .error .outOfFuel :=
  have hspares : repeating.SparesEnd := Network.sparesEnd_of_states (by decide)
  ⟨by cbv, next_isTimely (s := ⟨Matcher.ofNetwork repeating {}, .ofText "aa", ()⟩) .none hspares (by decide) 0⟩

/-- The network of a token `(EOF)* 'a'`. -/
def circling : Network where
  kind := .lexer
  maxSymbol := maxCodePoint
  states := #[
    { id := 0, rule := 0, kind := .tokensStart, transitions := [.epsilon 1], freeOnly := true, decision := some 0 },
    { id := 1, rule := 0, kind := .ruleStart, transitions := [.epsilon 3], freeOnly := true },
    { id := 2, rule := 0, kind := .ruleStop },
    { id := 3, rule := 0, kind := .starLoopEntry, transitions := [.epsilon 4, .epsilon 9], freeOnly := true,
      decision := some 1 },
    { id := 4, rule := 0, kind := .starBlockStart, transitions := [.epsilon 6], freeOnly := true },
    { id := 5, rule := 0, kind := .blockEnd, transitions := [.epsilon 8], freeOnly := true },
    { id := 6, rule := 0, kind := .basic, transitions := [.symbol 7 endOfInput] },
    { id := 7, rule := 0, kind := .basic, transitions := [.epsilon 5], freeOnly := true },
    { id := 8, rule := 0, kind := .starLoopBack, transitions := [.epsilon 3], freeOnly := true },
    { id := 9, rule := 0, kind := .loopEnd, transitions := [.epsilon 10], freeOnly := true },
    { id := 10, rule := 0, kind := .basic, transitions := [.symbol 11 97] },
    { id := 11, rule := 0, kind := .basic, transitions := [.epsilon 2], freeOnly := true }]
  decisions := #[0, 3]
  ruleStarts := #[1]
  ruleStops := #[2]
  ruleNames := #["T"]
  tokenTypes := #[1]
  modeStarts := #[0]
  modeNames := #["DEFAULT_MODE"]

theorem layout_circling :
    (Grammar.lexer.token "T" 1 (.seq [.star .endOfInput true, .char 'a'])).layout = .ok circling := by
  cbv

/-- Before the end of an empty input, in the loop of `circling`, with what was counted so far. -/
def inLoop (patience : Nat) (counters : Counters) : Scan Unit where
  matcher := {
    network := circling
    cache := {
      automata := #[
        { decision := 0
          netState := 0
          start := some (.state 0)
          states := #[.ofConfigs { ConfigSet.emptyOrdered with
            configs := #[{ state := 6, alt := 1, stack := .bottom }, { state := 10, alt := 1, stack := .bottom }]
            sealed := 2 }] },
        { decision := 1, netState := 3 }] }
    settings := { patience }
    counters }
  stream := .ofText ""
  author := ()

theorem startState_circling (patience : Nat) :
    startState .none 0 0 (begun ⟨Matcher.ofNetwork circling { patience }, .ofText "", ()⟩) =
      (.ok (.state 0), inLoop patience { closures := 1 }) := by
  cbv

/-- Over the end of the input the loop leads to where it began. -/
theorem step_inLoop (patience : Nat) (c : Counters) :
    step .none 0 (.state 0) endOfInput (inLoop patience c) =
      (.ok (.state 0), inLoop patience { c with misses := c.misses + 1, closures := c.closures + 1 }) := by
  cbv

theorem checkpoint?_inLoop (patience : Nat) (c : Counters) :
    checkpoint? 0 (.state 0) (inLoop patience c) = (.ok none, inLoop patience c) := rfl

theorem munch_inLoop (patience : Nat) (c : Counters) (fuel : Nat) :
    (munch .none 0 fuel none (.state 0) endOfInput (inLoop patience c)).1 = .error .outOfFuel := by
  induction fuel generalizing c with
  | zero => rfl
  | succ fuel ih =>
    rw [munch, Run.bind_apply, step_inLoop]
    exact ih _

/-- A match does not end where the end of the input can be consumed over and over: whatever it is given, it
uses it up. -/
theorem next_circles (patience : Nat) :
    (next .none 0 ⟨Matcher.ofNetwork circling { patience }, .ofText "", ()⟩).1 = .error .outOfFuel := by
  change ((do
    let start ← startState .none 0 0
    let first ← checkpoint? 0 start
    let reached ← munch .none 0 ((0 + 1) * patience) first start endOfInput
    settle 0 0 (begun ⟨Matcher.ofNetwork circling { patience }, .ofText "", ()⟩) reached :
      Run (Scan Unit) TokenMatch) (begun ⟨Matcher.ofNetwork circling { patience }, .ofText "", ()⟩)).1 = _
  rw [Run.bind_apply, startState_circling]
  dsimp only
  rw [Run.bind_apply, checkpoint?_inLoop]
  dsimp only
  rw [Run.bind_apply]
  have hout := munch_inLoop patience { closures := 1 } ((0 + 1) * patience)
  rcases hr : munch .none 0 ((0 + 1) * patience) none (.state 0) endOfInput
    (inLoop patience { closures := 1 }) with ⟨e | r, s⟩ <;> rw [hr] at hout
  · exact congrArg Except.error (Except.error.inj hout)
  · cases hout

end Scan
end AdaptiveLL

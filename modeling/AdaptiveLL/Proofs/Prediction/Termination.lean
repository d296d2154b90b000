import Mathlib
import AdaptiveLL.Proofs.Fuel
import AdaptiveLL.Proofs.Prediction.AtEnd
import AdaptiveLL.Proofs.Prediction.LowestViable

/-! # Predictions end

Both runs of a prediction take one step for each token ahead.  At the end of the input they stay where
they are and step on, so it has to be seen that they do not step on forever.  The run of the automaton
ends at its first step there, since the state that it comes to recognises something.  The run with the
caller's stack ends at its second step there at the latest: the first leads to the ends of rules, and the
second leads to the same set again, which settles it.

How many steps a run may take is its fuel, and both are shown to settle with so much (`Run.SettlesBy`).
-/
namespace AdaptiveLL

theorem RecognitionError.IsLimit.timely {e : RecognitionError} (h : e.IsLimit) : e.IsTimely := by
  rintro rfl
  rcases h with ⟨depth, limit, h⟩ | ⟨decision, limit, h⟩
  · cases h
  · cases h

/-! ## What the parts of a prediction fail with -/

theorem StackGraph.timely_pushInvocations {n : Network} {g g' : StackGraph} {outer : List Invocation}
    {e : RecognitionError} (h : g.pushInvocations n outer = (.error e, g')) : e.IsTimely := by
  have hgo : ∀ (outer : List Invocation) (below : StackRef) (g : StackGraph),
      pushInvocations.go n below g outer = (.error e, g') → e.IsTimely := by
    intro outer
    induction outer with
    | nil => exact fun below g h => by cases h
    | cons frame outer ih =>
      intro below g h
      rw [pushInvocations.go] at h
      cases hcaller : frame.caller with
      | none =>
        rw [hcaller] at h
        exact ih _ _ h
      | some caller =>
        rw [hcaller] at h
        dsimp only at h
        unfold Network.follow at h
        split at h
        · next e' hfollow =>
          split at hfollow
          · cases hfollow
          · cases hfollow
            cases h
            simp
        · exact ih _ _ h
  exact hgo outer _ g h

namespace Surroundings
variable {σ : Type} (env : Surroundings σ)

theorem timely_reach (settle : Bool) (x : Symbol) (configs : ConfigSet) :
    Run.Fails RecognitionError.IsTimely (env.reach settle x configs) :=
  (env.fails_reach settle x configs).imp fun _ h => h.timely

theorem timely_startConfigs (state : Nat) (outer : List Invocation) :
    Run.Fails RecognitionError.IsTimely (env.startConfigs state outer) := by
  have hclose : ∀ stack, Run.Fails RecognitionError.IsTimely
      (Closure.closeAll env true (env.firstConfigs state stack)) := fun stack =>
    (Closure.fails_closeAll _ _).imp fun _ h => h.timely
  intro w e w' h
  unfold startConfigs at h
  cases hf : env.fullContext with
  | false =>
    rw [hf] at h
    exact hclose _ h
  | true =>
    rw [hf, if_pos rfl] at h
    rcases hpush : w.graph.pushInvocations env.network outer with ⟨e' | r, g⟩
    · simp only [Run.bind_apply, Run.modifyGet_apply, Run.mk_apply, hpush] at h
      cases h
      exact StackGraph.timely_pushInvocations hpush
    · simp only [Run.bind_apply, Run.modifyGet_apply, Run.mk_apply, hpush] at h
      exact hclose r h

end Surroundings

namespace Predictor
open Run
variable {σ : Type} (q : Question σ)

theorem fails_inSession {α : Type} {bad : RecognitionError → Prop} {act : Run Predictor α}
    (h : Fails bad act) : Fails bad (inSession act : Run (Session σ) α) := by
  intro s e t hr
  rw [inSession_apply, Prod.mk.injEq] at hr
  exact h (Prod.ext hr.1 rfl)

theorem fails_withSessionStacks {α : Type} {bad : RecognitionError → Prop} {act : Run (Workspace σ) α}
    (h : Fails bad act) : Fails bad (withSessionStacks act) := by
  intro s e t hr
  rw [withSessionStacks_apply, Prod.mk.injEq] at hr
  exact h (Prod.ext hr.1 rfl)

theorem fails_readOn {bad : RecognitionError → Prop} (x : Symbol) :
    Fails bad (readOn x : Run (Session σ) Symbol) :=
  .ite (.pure _) ((Fails.modify _).bind fun _ => Fails.get.bind fun _ => .pure _)

theorem fails_passes {bad : RecognitionError → Prop} (g : Guard) : Fails bad (passes q g) :=
  .ite (.pure _) (.modifyGet _)

theorem fails_admitted {bad : RecognitionError → Prop} (pairs : List GuardedAlt) :
    Fails bad (admitted q pairs) := by
  induction pairs with
  | nil => exact .pure _
  | cons pair rest ih => exact (fails_passes q pair.guard).bind fun _ => ih.bind fun _ => .pure _

theorem fails_splitByGuard {bad : RecognitionError → Prop} (cs : List Config) :
    Fails bad (splitByGuard q cs) := by
  induction cs with
  | nil => exact .pure _
  | cons c rest ih => exact (fails_passes q c.guard).bind fun _ => ih.bind fun _ => .pure _

theorem timely_giveUp (configs : ConfigSet) (x : Symbol) : Fails RecognitionError.IsTimely (giveUp q configs x) := by
  unfold giveUp
  refine Fails.get.bind fun s => (Fails.modify _).bind fun _ => Fails.bind ?_ fun o => ?_
  · exact (fails_splitByGuard q _).bind fun _ => Fails.get.bind fun _ => .pure _
  · cases o with
    | some alt => exact .pure _
    | none => exact .throw (by simp)

theorem timely_accept (t : Target) (u : AutomatonState) (x : Symbol) :
    Fails RecognitionError.IsTimely (accept q t u x) := by
  have hcount : Fails RecognitionError.IsTimely (countSll : Run (Session σ) Unit) :=
    fails_inSession (.modify _)
  unfold accept
  split
  · refine hcount.bind fun _ => ?_
    split
    · exact .pure _
    · exact .throw (by simp)
  · refine Fails.get.bind fun s => (Fails.modify _).bind fun _ => (fails_admitted q _).bind fun alts => ?_
    refine hcount.bind fun _ => ?_
    split
    · exact .pure _
    · exact .throw (by simp)

/-! ## The run of the automaton -/

section Automaton
variable {n : Network} {allowed : Settings → Prop} {s : Session σ}

/-- One step of the run of an automaton: it ends, or it comes to a state where there is nothing to halt
for, and reads on. -/
theorem runAutomaton_cases (hd : q.decision < n.decisions.size) (steps : Nat)
    (h : s.predictor.Sane n allowed) {t : Target} {e : AutomatonState}
    (ht : Automaton.Names (s.predictor.cache.automaton q.decision) t (some e)) (x : Symbol) :
    (∃ r : Ending (Session σ) Halt, r.1 ≠ .error .outOfFuel ∧
      ∀ fuel, runAutomaton q (fuel + 1) steps t x s = r) ∨
    ∃ p u f, p.Sane n allowed ∧ Automaton.Names (p.cache.automaton q.decision) u (some f) ∧
      EveryEdge n allowed (n.alternatives q.decision) p.cache.graph e x (some f) ∧ f.isAccept = false ∧
      ∀ fuel, runAutomaton q (fuel + 1) steps t x s =
        (readOn x >>= runAutomaton q fuel (steps + 1) u) { s with predictor := p } := by
  rcases countStep_cases q steps s with hcount | hcount
  · refine .inl ⟨(.error (.stepLimitExceeded q.decision s.predictor.settings.maxSteps), s), (by simp),
      fun fuel => ?_⟩
    rw [runAutomaton, Run.bind_apply, hcount]
  · have hstep := step_ends h hd ht x
    rcases hr : step q.decision t x s.predictor with ⟨err | u, p⟩
    · rw [hr] at hstep
      obtain ⟨-, g, hedge⟩ := hstep
      refine .inl ⟨(.error err, { s with predictor := p }), ?_, fun fuel => ?_⟩
      · have herr : err.IsTimely := by
          unfold edgeResult at hedge
          split at hedge
          · next hreach =>
            cases hedge
            exact Surroundings.timely_reach _ _ _ _ hreach
          · cases hedge
          · cases hedge
        exact fun he => herr (Except.error.inj he)
      · rw [runAutomaton, Run.bind_apply, hcount]
        dsimp only
        rw [Run.bind_apply, inSession_apply, hr]
    · rw [hr] at hstep
      obtain ⟨hadv, o, hu, hedge⟩ := hstep
      have hrun : ∀ fuel, runAutomaton q (fuel + 1) steps t x s =
          (if u.isError then do
            let f ← inSession (automatonState q.decision t)
            pure (.stranded f.configs x)
          else inSession (automatonState q.decision u) >>= goOn q fuel steps u x)
            { s with predictor := p } := by
        intro fuel
        rw [runAutomaton, Run.bind_apply, hcount]
        dsimp only
        rw [Run.bind_apply, inSession_apply, hr]
        rfl
      cases hu with
      | error =>
        -- no configuration is left
        obtain ⟨f, hf, -⟩ := automatonState_ends (ht.mono hadv.automaton)
        refine .inl ⟨(.ok (.stranded f.configs x), { s with predictor := p }), (by simp), fun fuel => ?_⟩
        rw [hrun, if_pos (show Target.error.isError = true from rfl), Run.bind_apply, inSession_apply, hf]
        rfl
      | @state i f hi =>
        have hn : Automaton.Names (p.cache.automaton q.decision) (.state i) (some f.bare) := .state hi
        obtain ⟨f', hf', hbare⟩ := automatonState_ends hn
        have hgo : ∀ fuel, runAutomaton q (fuel + 1) steps t x s =
            goOn q fuel steps (.state i) x f' { s with predictor := p } := by
          intro fuel
          rw [hrun, if_neg (by exact Bool.false_ne_true), Run.bind_apply, inSession_apply, hf']
        cases ha : haltAt? p.settings.mode steps (.state i) f' x with
        | some a =>
          refine .inl ⟨(.ok a, { s with predictor := p }), (by simp), fun fuel => ?_⟩
          rw [hgo, goOn, Run.bind_apply, Run.get_apply]
          dsimp only
          rw [ha]
          rfl
        | none =>
          have hacc : f'.isAccept = false := by
            unfold haltAt? at ha
            split at ha
            · cases ha
            · split at ha
              · cases ha
              · next hacc => exact Bool.not_eq_true _ ▸ hacc
          refine .inr ⟨p, .state i, f.bare, hadv.sane, hn, hedge, ?_, fun fuel => ?_⟩
          · rw [← hbare]
            exact hacc
          · rw [hgo, goOn, Run.bind_apply, Run.get_apply]
            dsimp only
            rw [ha]

/-- The run of an automaton ends after at most one step more than there are tokens ahead. -/
theorem runAutomaton_settlesBy (hd : q.decision < n.decisions.size) (steps : Nat)
    (h : s.predictor.Sane n allowed) (hs : s.stream.Placed) {t : Target} {e : AutomatonState}
    (ht : Automaton.Names (s.predictor.cache.automaton q.decision) t (some e)) :
    SettlesBy (fun fuel => runAutomaton q fuel steps t s.stream.peek) (s.stream.upcoming.length + 1) s := by
  generalize hword : s.stream.upcoming = word
  induction word generalizing s steps t e with
  | nil =>
    obtain ⟨hend, -⟩ | ⟨-, hcons⟩ := hs.upcoming_cases
    · rw [hend]
      rcases runAutomaton_cases q hd steps h ht endOfInput with ⟨r, hr, hrun⟩ | ⟨p, u, f, -, -, hedge, hacc, -⟩
      · exact .one hr hrun
      · -- at the end of the input there is always something to halt for
        rw [hedge.isAccept_of_end] at hacc
        cases hacc
    · rw [hword] at hcons
      cases hcons
  | cons x word ih =>
    obtain ⟨-, hnil, -⟩ | ⟨hmore, hcons⟩ := hs.upcoming_cases
    · rw [hword] at hnil
      cases hnil
    · rw [hword, List.cons.injEq] at hcons
      rcases runAutomaton_cases q hd steps h ht s.stream.peek with ⟨r, hr, hrun⟩ | ⟨p, u, f, hp, hu, -, -, hrun⟩
      · exact .one hr hrun
      · refine .succ (ih (s := ⟨p, s.stream.consume, s.author⟩) (steps + 1) hp hs.consume hu hcons.2.symm)
          fun fuel => ?_
        rw [hrun, Run.bind_apply, readOn_apply, if_neg hmore]

end Automaton

/-! ## The run with the caller's stack -/

section Full
variable {env : Surroundings σ} {previous : ConfigSet} {s : Session σ}

/-- A step that is within the limits asks what the configurations reach. -/
theorem runFullContext_of_counted (env : Surroundings σ) {steps : Nat} (previous : ConfigSet) (x : Symbol)
    (hcount : countStep q steps s = (.ok (), s)) (fuel : Nat) :
    runFullContext q env (fuel + 1) steps previous x s =
      (withSessionStacks (env.reach true x previous) >>= fun o =>
        match o with
        | none => giveUp q previous x
        | some r => do
          let exact := (← get).predictor.settings.mode = .exactAmbiguity
          goOnFull q env fuel steps exact previous x r) s := by
  rw [runFullContext, Run.bind_apply, hcount]
  rfl

/-- One step of the run with the caller's stack: it ends, or what was reached does not settle it, and it
reads on. -/
theorem runFullContext_cases (env : Surroundings σ) (steps : Nat) (previous : ConfigSet) (x : Symbol)
    (s : Session σ) :
    (∃ r : Ending (Session σ) Nat, r.1 ≠ .error .outOfFuel ∧
      ∀ fuel, runFullContext q env (fuel + 1) steps previous x s = r) ∨
    ∃ r w, env.reach true x previous ⟨s.predictor.cache.graph, s.author, 0⟩ = (.ok (some r), w) ∧
      settles? (s.predictor.settings.mode = .exactAmbiguity) x previous r.marked = none ∧
      ∀ fuel, runFullContext q env (fuel + 1) steps previous x s =
        (readOn x >>= runFullContext q env fuel (steps + 1) r.marked)
          ⟨s.predictor.afterWork w, s.stream, w.author⟩ := by
  rcases countStep_cases q steps s with hcount | hcount
  · refine .inl ⟨(.error (.stepLimitExceeded q.decision s.predictor.settings.maxSteps), s), (by simp),
      fun fuel => ?_⟩
    rw [runFullContext, Run.bind_apply, hcount]
  · -- once the step is counted, the fuel is only handed on
    have hrun := runFullContext_of_counted q env previous x hcount
    rcases hr : env.reach true x previous ⟨s.predictor.cache.graph, s.author, 0⟩ with ⟨e | _ | r, w⟩
    · refine .inl ⟨(.error e, ⟨s.predictor.afterWork w, s.stream, w.author⟩), ?_, fun fuel => ?_⟩
      · exact fun he => env.timely_reach _ _ _ hr (Except.error.inj he)
      · rw [hrun, Run.bind_apply, withSessionStacks_apply, hr]
    · refine .inl ⟨giveUp q previous x ⟨s.predictor.afterWork w, s.stream, w.author⟩,
        (timely_giveUp q previous x).ne_outOfFuel _, fun fuel => ?_⟩
      rw [hrun, Run.bind_apply, withSessionStacks_apply, hr]
    · have hgo : ∀ fuel, runFullContext q env (fuel + 1) steps previous x s =
          goOnFull q env fuel steps (s.predictor.settings.mode = .exactAmbiguity) previous x r
            ⟨s.predictor.afterWork w, s.stream, w.author⟩ := by
        intro fuel
        rw [hrun, Run.bind_apply, withSessionStacks_apply, hr]
        rfl
      cases hsettles : settles? (s.predictor.settings.mode = .exactAmbiguity) x previous r.marked with
      | some found =>
        obtain ⟨alt, certain⟩ := found
        obtain ⟨reports, hreport⟩ := report_apply (settled q s.stream.index alt certain r.marked)
          ⟨s.predictor.afterWork w, s.stream, w.author⟩
        refine .inl ⟨(.ok alt, ⟨{ s.predictor.afterWork w with reports := reports }, s.stream, w.author⟩),
          (by simp), fun fuel => ?_⟩
        rw [hgo, goOnFull, hsettles]
        dsimp only
        rw [Run.bind_apply, Run.get_apply]
        dsimp only
        rw [Run.bind_apply, hreport]
        rfl
      | none =>
        refine .inr ⟨r, w, rfl, hsettles, fun fuel => ?_⟩
        rw [hgo, goOnFull, hsettles]

/-- A set that counts as the one before settles the run at the end of the input. -/
theorem settles?_of_same {exact : Bool} {r : ConfigSet} (hne : r.isEmpty = false)
    (hsame : r.marked.same previous) :
    settles? exact endOfInput previous r.marked ≠ none := by
  obtain ⟨c, hc⟩ : ∃ c, c ∈ r.toList := List.exists_mem_of_ne_nil _ fun hnil => by
    rw [ConfigSet.isEmpty, Array.isEmpty_eq_false_iff] at hne
    exact hne (Array.toList_eq_nil_iff.mp hnil)
  obtain ⟨m, hm⟩ := AltSet.exists_min? (ConfigSet.mem_alts.mpr ⟨c, hc, rfl⟩)
  have hm' : r.marked.alts.min? = some m := hm
  intro hnone
  unfold settles? at hnone
  simp [hsame, hm'] at hnone

/-- The run with the caller's stack ends after at most two steps more than there are tokens ahead. -/
theorem runFullContext_settlesBy (hf : env.fullContext = true) (hin : ∀ c ∈ previous.toList, c.Inside)
    (hs : s.stream.Placed) (steps : Nat) :
    SettlesBy (fun fuel => runFullContext q env fuel steps previous s.stream.peek)
      (s.stream.upcoming.length + 2) s := by
  generalize hword : s.stream.upcoming = word
  induction word generalizing s steps previous with
  | nil =>
    obtain ⟨hend, -⟩ | ⟨-, hcons⟩ := hs.upcoming_cases
    · rw [hend]
      rcases runFullContext_cases q env steps previous endOfInput s with ⟨r, hr, hrun⟩ | ⟨r, w, hreach, -, hrun⟩
      · exact .one hr hrun
      · -- the second step leads to the same set
        have hover := Surroundings.overCaller_reach hf hin hreach
        have hagain : ∀ u, env.reach true endOfInput r.marked u = (.ok (some r), u) :=
          Surroundings.reach_again hf hover (Surroundings.allStop_of_reach_end hreach)
            (Surroundings.isEmpty_of_reach hreach) rfl
        have hsecond : SettlesBy (fun fuel => runFullContext q env fuel (steps + 1) r.marked endOfInput) 1
            ⟨s.predictor.afterWork w, s.stream, w.author⟩ := by
          rcases runFullContext_cases q env (steps + 1) r.marked endOfInput
            ⟨s.predictor.afterWork w, s.stream, w.author⟩ with ⟨r', hr, hrun⟩ | ⟨r', w', hreach', hnone, -⟩
          · exact .one hr hrun
          · rw [hagain, Prod.mk.injEq, Except.ok.injEq, Option.some.injEq] at hreach'
            obtain ⟨rfl, -⟩ := hreach'
            exact absurd hnone (settles?_of_same (Surroundings.isEmpty_of_reach hreach) (ConfigSet.same_refl _))
        refine hsecond.succ fun fuel => ?_
        rw [hrun, Run.bind_apply, readOn_apply, if_pos rfl]
    · rw [hword] at hcons
      cases hcons
  | cons x word ih =>
    obtain ⟨-, hnil, -⟩ | ⟨hmore, hcons⟩ := hs.upcoming_cases
    · rw [hword] at hnil
      cases hnil
    · rw [hword, List.cons.injEq] at hcons
      rcases runFullContext_cases q env steps previous s.stream.peek s with ⟨r, hr, hrun⟩ | ⟨r, w, hreach, -, hrun⟩
      · exact .one hr hrun
      · have hover := Surroundings.overCaller_reach hf hin hreach
        have hin' : ∀ c ∈ r.marked.toList, c.Inside := hover.inside
        refine .succ (ih (s := ⟨s.predictor.afterWork w, s.stream.consume, w.author⟩) hin' hs.consume
          (steps + 1) hcons.2.symm) fun fuel => ?_
        rw [hrun, Run.bind_apply, readOn_apply, if_neg hmore]

end Full

/-! ## Predictions -/

/-- Whether a session looks at the tokens of a stream, wherever it is in it. -/
def LooksAt (st : TokenStream) (s : Session σ) : Prop :=
  s.stream.tokens = st.tokens ∧ s.stream.channel = st.channel

/-- A run does not use up its fuel while it looks at a stream. -/
abbrev EndsAt (st : TokenStream) {α : Type} (m : Run (Session σ) α) : Prop :=
  Meets (LooksAt st) m (fun _ => LooksAt st) fun e _ => e.IsTimely

variable {st : TokenStream}

/-- A run that leaves the stream's tokens alone and does not use up its fuel. -/
theorem meets_of_leaves {α : Type} {m : Run (Session σ) α} {pre : Session σ → Prop}
    (hm : Leaves Session.frame m) (hpre : ∀ s, pre s → LooksAt st s)
    (h : ∀ s, pre s → (m s).1 ≠ .error .outOfFuel) :
    Meets pre m (fun _ => LooksAt st) fun e _ => e.IsTimely := by
  intro s hs
  have hframe := hm s
  have hends := h s hs
  rcases hr : m s with ⟨e | a, t⟩
  · rw [hr] at hends
    exact fun he => hends (congrArg Except.error he)
  · rw [hr] at hframe
    simp only [Session.frame, Prod.mk.injEq] at hframe
    exact ⟨hframe.2.1.trans (hpre s hs).1, hframe.2.2.trans (hpre s hs).2⟩

theorem endsAt_of_fails {α : Type} {m : Run (Session σ) α} (hm : Leaves Session.frame m)
    (h : Fails RecognitionError.IsTimely m) : EndsAt st m :=
  meets_of_leaves hm (fun _ hs => hs) fun s _ => h.ne_outOfFuel s

/-- There is fuel for more steps than there are tokens ahead. -/
theorem upcoming_lt_size (st : TokenStream) : st.upcoming.length + 1 ≤ st.size + 1 := by
  have hle := st.length_remaining_le
  rwa [TokenStream.remaining, List.length_append, List.length_singleton] at hle

section
variable (hst : st.Placed) (hstart : q.start = st.index)
include hst hstart

theorem endsAt_overCaller (steps : Nat) : EndsAt st (overCaller q steps) := by
  have hleaves : Leaves Session.frame (overCaller q steps : Run (Session σ) Nat) :=
    Leaves.get.bind fun _ => (leaves_withSessionStacks _).frame.bind fun _ =>
      (leaves_seek _).frame.bind fun _ => Leaves.get.bind fun _ => (leaves_runFullContext q _ _ _ _ _).frame
  refine meets_of_leaves hleaves (fun _ hs => hs) fun s hs => ?_
  have hseek : s.stream.seek q.start = st := by
    rw [hstart]
    exact hst.seek_index hs.1 hs.2
  rw [overCaller_apply]
  dsimp only
  rcases hr : (s.predictor.surroundings true (some fun g => g.eval q.hooks q.outer)).startConfigs
    (s.predictor.cache.automaton q.decision).netState q.outer ⟨s.predictor.cache.graph, s.author, 0⟩
    with ⟨e | start, w⟩
  · exact fun he => Surroundings.timely_startConfigs _ _ _ hr (Except.error.inj he)
  · have hin := (Surroundings.overCaller_startConfigs rfl hr).inside
    dsimp only
    rw [hseek]
    refine (runFullContext_settlesBy (s := ⟨s.predictor.afterWork w, st, w.author⟩) q rfl hin hst steps).fuel_left
      ?_
    have hle := upcoming_lt_size st
    show st.upcoming.length + 2 ≤ st.size + 3
    omega

theorem endsAt_startFullContext (steps : Nat) (conflicting : AltSet) (configs : ConfigSet) :
    EndsAt st (startFullContext q steps conflicting configs) := by
  rw [startFullContext_eq]
  refine (endsAt_of_fails .get .get).bind fun s => ?_
  refine (endsAt_of_fails (leaves_report _).frame (.modify _)).bind fun _ => ?_
  refine (endsAt_of_fails (leaves_inSession_outline (leaves_count _)).frame
    (fails_inSession (.modify _))).bind fun _ => ?_
  exact endsAt_overCaller q hst hstart steps

theorem endsAt_conclude (a : Halt) : EndsAt st (conclude q a) := by
  cases a with
  | stranded configs x => exact endsAt_of_fails (leaves_giveUp q configs x).frame (timely_giveUp q configs x)
  | accepting t u x => exact endsAt_of_fails (leaves_accept q t u x).frame (timely_accept q t u x)
  | contested steps u =>
    unfold conclude settleConflict
    have hseek : ∀ i, EndsAt st (seek i : Run (Session σ) Unit) := fun i =>
      endsAt_of_fails (leaves_seek i).frame (.modify _)
    dsimp only
    split
    · exact endsAt_startFullContext q hst hstart _ _ _
    · next pairs _ =>
      refine (endsAt_of_fails .get .get).bind fun s => (hseek _).bind fun _ => ?_
      refine (endsAt_of_fails (leaves_admitted q pairs).frame (fails_admitted q pairs)).bind fun alts => ?_
      split
      · refine (endsAt_of_fails leaves_countSll.frame (fails_inSession (.modify _))).bind fun _ => ?_
        exact endsAt_of_fails (.pure _) (.pure _)
      · exact (hseek _).bind fun _ => endsAt_startFullContext q hst hstart _ _ _

omit hstart in
theorem endsAt_lookAhead {n : Network} {allowed : Settings → Prop} (hd : q.decision < n.decisions.size) :
    Meets (fun s : Session σ => s.predictor.Sane n allowed ∧ s.stream = st) (lookAhead q)
      (fun _ => LooksAt st) fun e _ => e.IsTimely := by
  have hbegin : Meets (fun s : Session σ => s.predictor.Sane n allowed ∧ s.stream = st) (startState q)
      (fun t s => (s.predictor.Sane n allowed ∧ s.stream = st) ∧
        ∃ e, Automaton.Names (s.predictor.cache.automaton q.decision) t (some e))
      fun e _ => e.IsTimely := by
    rintro s ⟨h, hs⟩
    have hends := startState_ends q s h hd
    generalize startState q s = r at hends ⊢
    obtain ⟨e | t, s'⟩ := r
    · obtain ⟨-, w, hrun⟩ := hends
      exact Surroundings.timely_startConfigs _ _ _ hrun
    · obtain ⟨hruns, e, hn, -⟩ := hends
      exact ⟨⟨hruns.predictor.sane, hruns.stream.trans hs⟩, e, hn⟩
  refine hbegin.bind fun t => ?_
  have hget : Meets (fun s : Session σ => (s.predictor.Sane n allowed ∧ s.stream = st) ∧
        ∃ e, Automaton.Names (s.predictor.cache.automaton q.decision) t (some e)) get
      (fun p s => p = s ∧ (s.predictor.Sane n allowed ∧ s.stream = st) ∧
        ∃ e, Automaton.Names (s.predictor.cache.automaton q.decision) t (some e))
      fun e _ => e.IsTimely := .get fun s hs => ⟨rfl, hs⟩
  refine hget.bind fun p => ?_
  refine meets_of_leaves (leaves_runAutomaton q _ 0 t _) ?_ ?_
  · rintro s ⟨-, ⟨-, rfl⟩, -⟩
    exact ⟨rfl, rfl⟩
  · rintro s ⟨rfl, ⟨h, rfl⟩, e, ht⟩
    have hle : p.stream.upcoming.length + 1 ≤ p.stream.size + 2 :=
      (upcoming_lt_size p.stream).trans (Nat.le_succ _)
    exact (runAutomaton_settlesBy q hd 0 h hst ht).fuel_left hle

end

/-- A prediction does not use up its fuel. -/
theorem predict_timely {n : Network} {allowed : Settings → Prop} (hooks : ParserHooks σ)
    (outer : List Invocation) (decision : Nat) {s : Session σ} (h : s.predictor.Sane n allowed)
    (hs : s.stream.Placed) : (predict hooks outer decision s).1 ≠ .error .outOfFuel := by
  unfold predict
  split
  · simp
  · next hd =>
    rw [h.network, Nat.not_le] at hd
    have hchoose : Meets (fun t : Session σ => t.predictor.Sane n allowed ∧ t.stream = s.stream)
        (choose ⟨hooks, outer, decision, s.stream.index⟩) (fun _ => LooksAt s.stream) fun e _ => e.IsTimely :=
      (endsAt_lookAhead ⟨hooks, outer, decision, s.stream.index⟩ hs hd).bind
        (endsAt_conclude ⟨hooks, outer, decision, s.stream.index⟩ hs rfl)
    have hends := hchoose s ⟨h, rfl⟩
    dsimp only
    generalize choose ⟨hooks, outer, decision, s.stream.index⟩ s = r at hends ⊢
    obtain ⟨e | alt, p, stream, author⟩ := r
    · exact fun he => hends (Except.error.inj he)
    · simp

end Predictor

/-! ## Caches in use -/

/-- Whatever two agreeing runs end with, the states that they end in are later ones. -/
theorem Coupling.Agree.later {σ τ α β : Type} {C : Coupling σ τ} {s : σ} {t : τ}
    {R : StackGraph → StackGraph → α → β → Prop} {a : Ending σ α} {b : Ending τ β}
    (h : C.Agree s t R a b) : C.Later s t a.2 b.2 := by
  cases h with
  | ok h => exact h.1
  | error _ h => exact h

namespace Predictor
variable {n : Network} {allowed : Settings → Prop} {p : Predictor}

/-- Closures keep the cache faithful, whatever they end with. -/
theorem withStacksOnly_sane {α : Type} {R : StackGraph → StackGraph → α → α → Prop}
    {act : Run (Workspace Unit) α} (h : p.Sane n allowed)
    (hact : (Workspace.coupling fun _ _ => True).Agree ⟨p.cache.graph, (), 0⟩ ⟨p.cache.graph, (), 0⟩ R
      (act ⟨p.cache.graph, (), 0⟩) (act ⟨p.cache.graph, (), 0⟩)) :
    (withStacksOnly act p).2.Sane n allowed :=
  (Advances.afterWork (d := 0) h hact.later.related.left hact.later.paired.leftGrows).sane

theorem surroundings_self (p : Predictor) (fullContext : Bool) :
    let env : Surroundings Unit := p.surroundings fullContext none
    env.Alike (fun _ _ => True) env :=
  ⟨rfl, rfl, rfl, rfl, fun _ => .none⟩

theorem startConfigs_sane (h : p.Sane n allowed) (decision : Nat) (outer : List Invocation)
    (fullContext : Bool) : (startConfigs decision outer fullContext p).2.Sane n allowed :=
  withStacksOnly_sane h (Surroundings.startConfigs_agree (p.surroundings_self fullContext)
    ⟨h.cache.graph, h.cache.graph, trivial⟩ _ outer)

theorem closure_sane (h : p.Sane n allowed) {configs : ConfigSet}
    (hk : ∀ c ∈ configs.toList, p.cache.graph.knows c.stack) (fullContext : Bool) :
    (closure configs fullContext p).2.Sane n allowed := by
  have halike : List.Forall₂ (Config.Alike true p.cache.graph p.cache.graph) configs.toList configs.toList :=
    List.forall₂_same.mpr fun c hc => .refl (hk c hc)
  exact withStacksOnly_sane h (Closure.closeAll_agree (p.surroundings_self fullContext)
    ⟨h.cache.graph, h.cache.graph, trivial⟩ halike false)

theorem reach_sane (h : p.Sane n allowed) {configs : ConfigSet}
    (hk : ∀ c ∈ configs.toList, p.cache.graph.knows c.stack) (x : Symbol) (fullContext : Bool) :
    (reach configs x fullContext p).2.Sane n allowed := by
  have halike : ConfigSet.Alike true p.cache.graph p.cache.graph configs configs := .refl hk
  exact withStacksOnly_sane h (Surroundings.reach_agree (p.surroundings_self fullContext)
    ⟨h.cache.graph, h.cache.graph, trivial⟩ halike false x)

end Predictor

/-- The caches that predictors for a network leave behind, each under its own settings, whatever they were
asked for and in any order. -/
inductive Cache.Served (n : Network) : Cache → Prop
  /-- Nothing was done yet. -/
  | fresh : Served n (Cache.ofNetwork n)
  /-- After a prediction, whatever its result was. -/
  | predict {σ : Type} {s : Session σ} (hooks : ParserHooks σ) (outer : List Invocation)
      (decision : Nat) : s.predictor.network = n → Served n s.predictor.cache →
      Served n (Predictor.predict hooks outer decision s).2.predictor.cache
  /-- After an edge was followed or worked out. -/
  | step {p : Predictor} (decision : Nat) (source : Target) (x : Symbol) : p.network = n →
      Served n p.cache → Served n (Predictor.step decision source x p).2.cache
  /-- After the configurations with which a decision begins were worked out. -/
  | startConfigs {p : Predictor} (decision : Nat) (outer : List Invocation) (fullContext : Bool) :
      p.network = n → Served n p.cache →
      Served n (Predictor.startConfigs decision outer fullContext p).2.cache
  /-- After configurations over its stacks were closed. -/
  | closure {p : Predictor} {configs : ConfigSet} (fullContext : Bool) : p.network = n →
      (∀ c ∈ configs.toList, p.cache.graph.knows c.stack) → Served n p.cache →
      Served n (Predictor.closure configs fullContext p).2.cache
  /-- After configurations over its stacks were moved. -/
  | reach {p : Predictor} {configs : ConfigSet} (x : Symbol) (fullContext : Bool) : p.network = n →
      (∀ c ∈ configs.toList, p.cache.graph.knows c.stack) → Served n p.cache →
      Served n (Predictor.reach configs x fullContext p).2.cache
  /-- After a decision's automaton was cleared, or all of them. -/
  | clear {c : Cache} (decision : Option Nat) : Served n c → Served n (c.clear decision)

theorem Cache.Served.faithful {n : Network} {c : Cache} (h : c.Served n) : c.Faithful n fun _ => True := by
  induction h with
  | fresh => exact faithful_ofNetwork n _
  | predict hooks outer decision hn _ ih =>
    exact (Predictor.predict_sane hooks outer decision ⟨hn, trivial, ih⟩).cache
  | step decision source x hn _ ih => exact (Predictor.step_sane ⟨hn, trivial, ih⟩ decision source x).cache
  | startConfigs decision outer fullContext hn _ ih =>
    exact (Predictor.startConfigs_sane ⟨hn, trivial, ih⟩ decision outer fullContext).cache
  | closure fullContext hn hk _ ih => exact (Predictor.closure_sane ⟨hn, trivial, ih⟩ hk fullContext).cache
  | reach x fullContext hn hk _ ih => exact (Predictor.reach_sane ⟨hn, trivial, ih⟩ hk x fullContext).cache
  | clear decision _ ih => exact ih.clear decision

namespace Predictor

/-- A prediction ends, whatever the network, the tokens, the caller's stack, the author's callbacks, the
settings and earlier predictions are.  With `r` tokens before the end of the input, the automaton of the
decision is run for at most `r + 1` steps, the run with the caller's stack takes at most `r + 2`, and the
prediction itself always grants them enough. -/
theorem predict_terminates {σ : Type} {s : Session σ} (hcache : s.predictor.cache.Served s.predictor.network)
    (hstream : s.stream.Used) (hooks : ParserHooks σ) (outer : List Invocation) {decision : Nat}
    (hd : decision < s.predictor.network.decisions.size) :
    let q : Question σ := ⟨hooks, outer, decision, s.stream.index⟩
    let r := s.stream.upcoming.length
    (∀ t s', startState q s = (.ok t, s') →
      Run.SettlesBy (fun fuel => runAutomaton q fuel 0 t s'.stream.peek) (r + 1) s') ∧
    (∀ (env : Surroundings σ) (state steps : Nat) (start : ConfigSet) (w w' : Workspace σ) (s' : Session σ),
      env.fullContext = true → env.startConfigs state outer w = (.ok start, w') → s'.stream = s.stream →
      Run.SettlesBy (fun fuel => runFullContext q env fuel steps start s'.stream.peek) (r + 2) s') ∧
    (predict hooks outer decision s).1 ≠ .error .outOfFuel := by
  intro q r
  have h : s.predictor.Sane s.predictor.network fun _ => True := ⟨rfl, trivial, hcache.faithful⟩
  have hplaced := hstream.placed
  refine ⟨fun t s' ht => ?_, fun env state steps start w w' s' hf hstart hs' => ?_, ?_⟩
  · have hends := startState_ends q s h hd
    rw [ht] at hends
    obtain ⟨hruns, e, hn, -⟩ := hends
    have hsettles := runAutomaton_settlesBy q hd 0 hruns.predictor.sane (hruns.stream ▸ hplaced) hn
    rwa [hruns.stream] at hsettles ⊢
  · have hin := (Surroundings.overCaller_startConfigs hf hstart).inside
    have hsettles := runFullContext_settlesBy (s := s') q hf hin (hs' ▸ hplaced) steps
    rwa [hs'] at hsettles ⊢
  · exact predict_timely hooks outer decision h hplaced

theorem predict_terminates_fork :
    warmFork.cache.Served warmFork.network ∧
      (predict ParserHooks.none [] 0 ⟨warmFork, TokenStream.ofTypes [2, 1], ()⟩).1 ≠ .error .outOfFuel :=
  have hserved : warmFork.cache.Served warmFork.network := .predict ParserHooks.none [] 0 rfl .fresh
  have hused : (TokenStream.ofTypes [2, 1]).Used := .ofTokens _ _
  ⟨hserved, (predict_terminates (s := ⟨warmFork, TokenStream.ofTypes [2, 1], ()⟩) hserved hused
    ParserHooks.none [] (by decide)).2.2⟩

end Predictor
end AdaptiveLL

import Mathlib
import AdaptiveLL.Proofs.Prediction.Retaining

/-! # Predictions made again

A prediction that did not ask for the caller's stack left in the automaton all that it needs: where to begin, and
an edge for each token that it looked at, also where the edge leads nowhere.  What is stored stays, so whatever
is predicted in between, the same prediction made again only follows edges (`Predictor.predict_again`).

The two runs are compared round by round (`Predictor.readLoop_again`).  They follow the same edges into states
that differ in their edges at most (`Halt.bare`), and which of these there are has no bearing on how a
prediction ends.
-/
namespace AdaptiveLL

namespace Predictor
open Run

/-- How a run ended, without the edges of the state where it did. -/
def Halt.bare : Halt → Halt
  | .stranded configs x => .stranded configs x
  | .contested steps u => .contested steps u.bare
  | .accepting t u x => .accepting t u.bare x

theorem haltAt?_bare (mode : PredictionMode) (steps : Nat) (t : Target) (u : AutomatonState) (x : Symbol) :
    haltAt? mode steps t u.bare x = (haltAt? mode steps t u x).map Halt.bare := by
  show (if u.needsFullContext && mode ≠ .sll then some (Halt.contested (steps + 1) u.bare)
    else if u.isAccept then some (.accepting t u.bare x) else none) = _
  unfold haltAt?
  rw [apply_ite (Option.map Halt.bare), apply_ite (Option.map Halt.bare)]
  rfl

/-- A predictor that found so many more edges stored. -/
def hit (k : Nat) (p : Predictor) : Predictor :=
  { p with counters := { p.counters with hits := p.counters.hits + k } }

theorem hit_hit (j k : Nat) (p : Predictor) : (p.hit j).hit k = p.hit (j + k) := by
  simp only [hit, Nat.add_assoc]

/-! ## Looking at a token -/

/-- What looking at a token finds in an automaton, once it is known where the edge leads. -/
inductive Finds (mode : PredictionMode) (steps : Nat) (previous : Target) (x : Symbol) (a : Automaton) :
    Target → Halt ⊕ Target → Prop
  /-- The edge leads nowhere. -/
  | nowhere {u : AutomatonState} : a.state? previous = some u →
      Finds mode steps previous x a .error (.inl (.stranded u.configs x))
  /-- The run ends in the state to which it leads. -/
  | ending {t : Target} {u : AutomatonState} {halt : Halt} : a.state? t = some u →
      haltAt? mode steps t u x = some halt → Finds mode steps previous x a t (.inl halt)
  /-- The run goes on there. -/
  | goingOn {t : Target} {u : AutomatonState} : a.state? t = some u → haltAt? mode steps t u x = none →
      Finds mode steps previous x a t (.inr t)

/-- With more edges the same is found. -/
theorem Finds.again {mode : PredictionMode} {steps : Nat} {previous t : Target} {x : Symbol} {a b : Automaton}
    {o : Halt ⊕ Target} (h : Finds mode steps previous x a t o) (hab : a.Extends b) :
    ∃ o', Finds mode steps previous x b t o' ∧ o'.map Halt.bare id = o.map Halt.bare id := by
  have hstate : ∀ {t : Target} {u : AutomatonState}, a.state? t = some u →
      ∃ u', b.state? t = some u' ∧ u'.bare = u.bare := by
    intro t u hu
    cases t with
    | error => cases hu
    | state i => exact hab hu
  have hhalt : ∀ {t : Target} {u u' : AutomatonState}, u'.bare = u.bare →
      (haltAt? mode steps t u' x).map Halt.bare = (haltAt? mode steps t u x).map Halt.bare := by
    intro t u u' hbare
    rw [← haltAt?_bare, ← haltAt?_bare, hbare]
  cases h with
  | nowhere hu =>
    obtain ⟨u', hu', hbare⟩ := hstate hu
    refine ⟨_, .nowhere hu', ?_⟩
    rw [← AutomatonState.configs_bare u', hbare, AutomatonState.configs_bare]
  | ending hu hend =>
    obtain ⟨u', hu', hbare⟩ := hstate hu
    have hsame := hhalt (t := t) hbare
    rw [hend, Option.map_some, Option.map_eq_some_iff] at hsame
    obtain ⟨halt', hend', hhalt'⟩ := hsame
    exact ⟨_, .ending hu' hend', congrArg Sum.inl hhalt'⟩
  | goingOn hu hgo =>
    obtain ⟨u', hu', hbare⟩ := hstate hu
    have hsame := hhalt (t := t) hbare
    rw [hgo, Option.map_none, Option.map_eq_none_iff] at hsame
    exact ⟨_, .goingOn hu' hsame, rfl⟩

theorem automatonState_ok_iff {d : Nat} {t : Target} {p p' : Predictor} {u : AutomatonState} :
    automatonState d t p = (.ok u, p') ↔ (p.cache.automaton d).state? t = some u ∧ p' = p := by
  constructor
  · intro h
    rcases automatonState_cases d t p with ⟨u', hu, hstate⟩ | ⟨e, hstate⟩ <;> rw [hstate] at h <;> cases h
    exact ⟨hu, rfl⟩
  · rintro ⟨hu, rfl⟩
    unfold automatonState
    rw [bind_apply, get_apply]
    dsimp only
    rw [hu]
    rfl

variable {σ : Type} (q : Question σ)

/-- What is looked up in the automaton at a token, once it is known where the edge leads. -/
def lookUp (steps : Nat) (previous : Target) (x : Symbol) (t : Target) : Run (Session σ) (Halt ⊕ Target) :=
  if t.isError then do
    let s ← inSession (automatonState q.decision previous)
    pure (.inl (.stranded s.configs x))
  else do
    let s ← inSession (automatonState q.decision t)
    match haltAt? (← get).predictor.settings.mode steps t s x with
    | some halt => pure (.inl halt)
    | none => pure (.inr t)

theorem lookAtState_eq (steps : Nat) (previous : Target) (x : Symbol) :
    lookAtState q steps previous x =
      (inSession (step q.decision previous x) >>= lookUp q steps previous x : Run (Session σ) _) := rfl

theorem lookUp_ok_iff {steps : Nat} {previous target : Target} {x : Symbol} {s t : Session σ}
    {o : Halt ⊕ Target} : lookUp q steps previous x target s = (.ok o, t) ↔
      Finds s.predictor.settings.mode steps previous x (s.predictor.cache.automaton q.decision) target o ∧
        t = s := by
  have hstate : ∀ (source : Target) (u : AutomatonState) (t : Session σ),
      inSession (automatonState q.decision source) s = (.ok u, t) ↔
        (s.predictor.cache.automaton q.decision).state? source = some u ∧ t = s := by
    intro source u t
    rw [inSession_apply, Prod.mk.injEq]
    constructor
    · rintro ⟨hu, rfl⟩
      obtain ⟨hfound, hsame⟩ := automatonState_ok_iff.mp (Prod.ext hu rfl)
      exact ⟨hfound, congrArg (fun p => { s with predictor := p }) hsame⟩
    · rintro ⟨hu, rfl⟩
      rw [automatonState_ok_iff.mpr ⟨hu, rfl⟩]
      exact ⟨rfl, rfl⟩
  constructor
  · intro h
    unfold lookUp at h
    split at h
    · next herror =>
      obtain ⟨u, s', hu, hend⟩ := exists_of_bind h
      obtain ⟨hfound, rfl⟩ := (hstate _ _ _).mp hu
      cases hend
      cases target with
      | error => exact ⟨.nowhere hfound, rfl⟩
      | state i => cases herror
    · obtain ⟨u, s', hu, hend⟩ := exists_of_bind h
      obtain ⟨hfound, rfl⟩ := (hstate _ _ _).mp hu
      rw [bind_apply, get_apply] at hend
      dsimp only at hend
      cases hhalt : haltAt? s'.predictor.settings.mode steps target u x <;> rw [hhalt] at hend <;> cases hend
      · exact ⟨.goingOn hfound hhalt, rfl⟩
      · exact ⟨.ending hfound hhalt, rfl⟩
  · -- where the target is a state, that state alone decides how the look ends
    have hreached : ∀ {u : AutomatonState}, (s.predictor.cache.automaton q.decision).state? target = some u →
        lookUp q steps previous x target s =
          (match haltAt? s.predictor.settings.mode steps target u x with
            | some halt => (pure (.inl halt) : Run (Session σ) (Halt ⊕ Target))
            | none => pure (.inr target)) s := by
      intro u hu
      have hnotError : ¬ target.isError := by
        cases target with
        | error => cases hu
        | state i => exact Bool.false_ne_true
      rw [lookUp, if_neg hnotError, bind_apply, (hstate _ _ _).mpr ⟨hu, rfl⟩]
      dsimp only
      rw [bind_apply, get_apply]
    rintro ⟨hfound, rfl⟩
    cases hfound with
    | nowhere hu =>
      rw [lookUp, if_pos (by rfl), bind_apply, (hstate _ _ _).mpr ⟨hu, rfl⟩]
      rfl
    | ending hu hhalt =>
      rw [hreached hu, hhalt]
      rfl
    | goingOn hu hgo =>
      rw [hreached hu, hgo]
      rfl

/-! ## Looking again -/

/-- An edge that was followed is found where everything is retained. -/
theorem step_again {d : Nat} {source t : Target} {x : Symbol} {p p' v : Predictor}
    (h : step d source x p = (.ok t, p')) (hx : p.network.Stores x) (hretains : p'.cache.Retains v.cache) :
    step d source x v = (.ok t, v.hit 1) := by
  have hstored := (stores_step d source x p).stored t
  rw [h] at hstored
  have hedge : (v.cache.automaton d).edge? source x = some t := (hretains d).edges _ _ _ (hstored rfl hx)
  rw [step, bind_apply, get_apply]
  dsimp only
  rw [hedge]
  rfl

/-- The network and the settings are apart from what a prediction works out. -/
theorem apart_place : Apart fun p => (p.network, p.settings) := ⟨fun _ _ => rfl, fun _ _ _ _ _ => rfl⟩

/-- Looking at a token again, when all that was found then is retained. -/
theorem lookAtState_again {steps : Nat} {previous : Target} {x : Symbol} {s t v : Session σ} {o : Halt ⊕ Target}
    (h : lookAtState q steps previous x s = (.ok o, t)) (hx : s.predictor.network.Stores x)
    (hretains : t.predictor.cache.Retains v.predictor.cache)
    (hmode : v.predictor.settings.mode = s.predictor.settings.mode) :
    ∃ o', lookAtState q steps previous x v = (.ok o', { v with predictor := v.predictor.hit 1 }) ∧
      o'.map Halt.bare id = o.map Halt.bare id := by
  rw [lookAtState_eq] at h
  obtain ⟨target, s', hstep, hrest⟩ := exists_of_bind h
  obtain ⟨hfound, rfl⟩ := (lookUp_ok_iff q).mp hrest
  rw [inSession_apply, Prod.mk.injEq] at hstep
  obtain ⟨htarget, rfl⟩ := hstep
  have hsettings : (step q.decision previous x s.predictor).2.settings = s.predictor.settings :=
    congrArg Prod.snd (apart_place.step q.decision previous x s.predictor)
  obtain ⟨o', hagain, hsame⟩ := hfound.again (hretains q.decision).states
  refine ⟨o', ?_, hsame⟩
  rw [lookAtState_eq, bind_apply, inSession_apply, step_again (Prod.ext htarget rfl) hx hretains]
  refine (lookUp_ok_iff q).mpr ⟨?_, rfl⟩
  show Finds v.predictor.settings.mode steps previous x (v.predictor.cache.automaton q.decision) target o'
  rw [hmode, ← hsettings]
  exact hagain

theorem countStep_again {steps : Nat} {s v : Session σ} (h : countStep q steps s = (.ok (), s))
    (hlimit : v.predictor.settings.maxSteps = s.predictor.settings.maxSteps) :
    countStep q steps v = (.ok (), v) := by
  rw [countStep_apply] at h ⊢
  dsimp only at h ⊢
  rw [hlimit]
  split at h
  · cases h
  · next hfree => rw [if_neg hfree]

/-- The automaton goes the same way again, if the edges that it followed are retained: it finds each of them,
and ends where it did. -/
theorem readLoop_again (fuel : Nat) : ∀ {steps : Nat} {previous : Target} {s t v : Session σ} {a : Halt},
    readLoop q (lookAtState q) fuel steps previous s.stream.peek s = (.ok a, t) → s.stream.Placed →
    let looks := pauses (fun fuel => readLoop q (lookAtState q) fuel steps previous s.stream.peek) fuel s
    (∀ u ∈ looks, s.predictor.network.Stores u.stream.peek) → t.predictor.cache.Retains v.predictor.cache →
    v.predictor.settings = s.predictor.settings → v.stream = s.stream →
    ∃ a', readLoop q (lookAtState q) fuel steps previous s.stream.peek v =
      (.ok a', ⟨v.predictor.hit looks.length, t.stream, v.author⟩) ∧ a'.bare = a.bare := by
  induction fuel with
  | zero => exact fun h => nomatch h
  | succ fuel ih =>
    intro steps previous s t v a h hs looks hstores hretains hsettings hv
    obtain ⟨hcount, hround⟩ := readLoop_ok_cases q h
    have hrun := readLoop_of_counted q (lookAtState q)
      (countStep_again q hcount (congrArg Settings.maxSteps hsettings)) previous s.stream.peek fuel
    have hmode : v.predictor.settings.mode = s.predictor.settings.mode := congrArg Settings.mode hsettings
    -- Either this look ends the loop, or it leads to a state and a token is read.
    rcases hround with ⟨hlook, hone⟩ | ⟨target, u, x, u', hlook, hread, hrest, hmore⟩
    · have hlooks : looks = [s] := hone
      have hx := hstores s (hlooks ▸ List.mem_singleton_self s)
      obtain ⟨o', hagain, hsame⟩ := lookAtState_again q hlook hx hretains hmode
      have ht : t.stream = s.stream := by
        have hleaves := aside_lookAtState q steps previous s.stream.peek s
        rw [hlook] at hleaves
        exact congrArg Prod.fst hleaves
      cases o' with
      | inr target => cases hsame
      | inl a' =>
        refine ⟨a', ?_, Sum.inl.inj hsame⟩
        rw [hrun, bind_apply, hagain, hlooks, ht, ← hv]
        rfl
    · have hlooks : looks = s :: _ := hmore
      have hx := hstores s (hlooks ▸ List.mem_cons_self)
      have hgrows : u'.predictor.cache.Retains t.predictor.cache := by
        have hkeep := preserves_readLoop q (retains_lookAtState q) (fun x => retains_of_outline (leaves_readOn x))
          fuel (steps + 1) target x u' (.refl u'.predictor.cache)
        rwa [hrest] at hkeep
      rw [readOn_peek hs (stays_lookAtState q hlook)] at hread
      cases hread
      obtain ⟨o', hagain, hsame⟩ := lookAtState_again q hlook hx (hgrows.trans hretains) hmode
      cases o' with
      | inl a' => cases hsame
      | inr target' =>
        obtain rfl : target' = target := Sum.inr.inj hsame
        have hsame : (u.predictor.network, u.predictor.settings) = (s.predictor.network, s.predictor.settings) := by
          have hleaves := apart_place.lookAtState q steps previous s.stream.peek s
          rwa [hlook] at hleaves
        rw [Prod.mk.injEq] at hsame
        obtain ⟨a', hagain', hbare⟩ := ih (s := { u with stream := s.stream.consume })
          (v := { v with predictor := v.predictor.hit 1, stream := s.stream.consume }) hrest hs.consume
          (fun w hw => hsame.1 ▸ hstores w (hlooks ▸ List.mem_cons_of_mem s hw)) hretains
          (hsettings.trans hsame.2.symm) rfl
        refine ⟨a', ?_, hbare⟩
        rw [hrun, bind_apply, hagain]
        dsimp only
        have hread : readOn s.stream.peek { v with predictor := v.predictor.hit 1 } = _ := readOn_peek hs hv
        rw [bind_apply, hread]
        dsimp only
        rw [hagain', hlooks, List.length_cons, hit_hit, Nat.add_comm 1]

/-- Where to begin is stored once it is known. -/
theorem startState_stored {n : Network} {allowed : Settings → Prop} {s t : Session σ} {start : Target}
    (h : s.predictor.Sane n allowed) (hd : q.decision < n.decisions.size)
    (hstart : startState q s = (.ok start, t)) :
    (t.predictor.cache.automaton q.decision).start = some start := by
  have hends := startState_ends q s h hd
  rw [hstart] at hends
  obtain ⟨hruns, -⟩ := hends
  have hfits : t.predictor.cache.fits n := hruns.predictor.sane.cache.fits
  unfold startState at hstart
  rw [bind_apply, get_apply] at hstart
  dsimp only at hstart
  cases hfound : (s.predictor.cache.automaton q.decision).start with
  | some u =>
    rw [hfound] at hstart
    cases hstart
    exact hfound
  | none =>
    rw [hfound] at hstart
    obtain ⟨configs, s₁, -, hrest⟩ := exists_of_bind hstart
    obtain ⟨u, s₂, -, hrest⟩ := exists_of_bind hrest
    obtain ⟨_, s₃, hset, hrest⟩ := exists_of_bind hrest
    cases hrest
    cases hset
    show (((s₂.predictor.cache.change q.decision (·.setStart start)).automaton q.decision)).start = some start
    rw [Cache.automaton_change_of_fits hfits hd]
    rfl

/-- Looking ahead again, when all that was found then is retained. -/
theorem lookAhead_again {n : Network} {allowed : Settings → Prop} {s t v : Session σ} {a : Halt}
    (h : s.predictor.Sane n allowed) (hd : q.decision < n.decisions.size) (hs : s.stream.Placed)
    (hahead : lookAhead q s = (.ok a, t)) (hstores : ∀ u ∈ nearLooks q s, n.Stores u.stream.peek)
    (hretains : t.predictor.cache.Retains v.predictor.cache)
    (hsettings : v.predictor.settings = s.predictor.settings) (hv : v.stream = s.stream) :
    ∃ a', lookAhead q v = (.ok a', ⟨v.predictor.hit (nearLooks q s).length, t.stream, v.author⟩) ∧
      a'.bare = a.bare := by
  obtain ⟨start, s', hstart, -⟩ := exists_of_bind hahead
  have hends := startState_ends q s h hd
  rw [hstart] at hends
  obtain ⟨hruns, -⟩ := hends
  have hlooks : nearLooks q s =
      pauses (fun fuel => readLoop q (lookAtState q) fuel 0 start s'.stream.peek) (s'.stream.size + 2) s' := by
    unfold nearLooks
    rw [hstart]
    simp only [runAutomaton_eq]
  rw [lookAhead_of_startState q hstart, runAutomaton_eq] at hahead
  have hgrows : s'.predictor.cache.Retains t.predictor.cache := by
    have hkeep := preserves_readLoop q (retains_lookAtState q) (fun x => retains_of_outline (leaves_readOn x))
      (s'.stream.size + 2) 0 start s'.stream.peek s' (.refl s'.predictor.cache)
    rwa [hahead] at hkeep
  have hbegin : startState q v = (.ok start, v) := by
    have hstored := ((hgrows.trans hretains) q.decision).start start (startState_stored q h hd hstart)
    unfold startState
    rw [bind_apply, get_apply]
    dsimp only
    rw [hstored]
    rfl
  rw [lookAhead_of_startState q hbegin, runAutomaton_eq, hv, ← hruns.stream, hlooks]
  rw [hlooks] at hstores
  refine readLoop_again q _ hahead (hruns.stream ▸ hs) ?_ hretains (hsettings.trans hruns.predictor.settings.symm)
    (hv.trans hruns.stream.symm)
  rw [hruns.predictor.sane.network]
  exact hstores

/-! ## Concluding again -/

/-- What a predictor has worked out, and how often it closed configurations, found an edge and missed one. -/
def stock (p : Predictor) : Cache × Nat × Nat × Nat :=
  (p.cache, p.counters.closures, p.counters.hits, p.counters.misses)

theorem stock_countSll : Leaves (fun s : Session σ => s.predictor.stock) countSll := .modify fun _ => rfl

theorem stock_accept (t : Target) (u : AutomatonState) (x : Symbol) :
    Leaves (fun s : Session σ => s.predictor.stock) (accept q t u x) := by
  unfold accept
  split
  · refine stock_countSll.bind fun _ => ?_
    split
    · exact .pure _
    · exact .throw _
  · refine Leaves.get.bind fun _ => ((predictor_seek _).map stock).bind fun _ =>
      ((predictor_admitted q _).map stock).bind fun alts => stock_countSll.bind fun _ => ?_
    split
    · exact .pure _
    · exact .throw _

/-- Nothing of a prediction but its start counts that the caller's stack is asked. -/
theorem apart_llPredictions : Apart fun p => p.counters.llPredictions := ⟨fun _ _ => rfl, fun _ _ _ _ _ => rfl⟩

theorem llPredictions_overCaller (steps : Nat) :
    Leaves (fun s : Session σ => s.predictor.counters.llPredictions) (overCaller q steps) := by
  have hreport : ∀ d, Leaves (fun s : Session σ => s.predictor.counters.llPredictions)
      (report d : Run (Session σ) Unit) := by
    refine fun d => .modify fun s => ?_
    split <;> rfl
  have hbegin : Leaves (fun s : Session σ => s.predictor.counters.llPredictions) (beginOverCaller q) :=
    Leaves.get.bind fun _ => (apart_llPredictions.withSessionStacks _).bind fun _ =>
      ((predictor_seek _).map fun p => p.counters.llPredictions).bind fun _ => .pure _
  rw [overCaller_eq]
  refine hbegin.bind fun begun => Leaves.get.bind fun s => ?_
  dsimp only
  rw [runFullContext_eq]
  refine leaves_readLoop q (fun _ previous x => ?_)
    (fun x => (predictor_readOn x).map fun p => p.counters.llPredictions) _ _ _ _
  refine (apart_llPredictions.withSessionStacks _).bind fun o => ?_
  cases o with
  | none =>
    exact ((predictor_giveUp q _ _).map fun p => p.counters.llPredictions).bind fun _ => .pure _
  | some r =>
    refine Leaves.get.bind fun s => ?_
    dsimp only
    split
    · exact Leaves.get.bind fun _ => (hreport _).bind fun _ => .pure _
    · exact .pure _

theorem announceCaller_ends (conflicting : AltSet) (configs : ConfigSet) (s : Session σ) :
    ∃ t, announceCaller q conflicting configs s = (.ok (), t) ∧
      t.predictor.counters.llPredictions = s.predictor.counters.llPredictions + 1 := by
  refine ⟨_, rfl, ?_⟩
  show (Session.predictor (if s.predictor.listening then _ else s)).counters.llPredictions + 1 = _
  split <;> rfl

/-- What becomes of a conflict found at a place, once it is known which alternatives guards admit. -/
def settleAdmitted (u : AutomatonState) (place : Nat) (alts : AltSet) : Run (Session σ) (Option Nat) :=
  match alts.toList with
  | [alt] => do
    countSll
    pure (some alt)
  | _ => do
    seek place
    announceCaller q alts u.configs
    pure none

theorem settleByGuards_of_pairs {u : AutomatonState} {pairs : List GuardedAlt} (hu : u.guardedAlts = some pairs)
    {s t : Session σ} {alts : AltSet}
    (hadmitted : admitted q pairs { s with stream := s.stream.seek q.start } = (.ok alts, t)) :
    settleByGuards q u s = settleAdmitted q u s.stream.index alts t := by
  unfold settleByGuards
  rw [hu]
  dsimp only
  rw [bind_apply, get_apply]
  dsimp only
  rw [bind_apply]
  show (admitted q pairs >>= settleAdmitted q u s.stream.index) { s with stream := s.stream.seek q.start } = _
  rw [bind_apply, hadmitted]

/-- Guards settle a conflict, or it is counted that the caller's stack is asked.  Where guards settle it, they do
so again for the same tokens and callbacks, and nothing is worked out. -/
theorem settleByGuards_cases (u : AutomatonState) (s : Session σ) :
    (∃ alt t, settleByGuards q u s = (.ok (some alt), t) ∧ ∀ (u' : AutomatonState) (s' : Session σ),
      u'.guardedAlts = u.guardedAlts → s'.stream = s.stream → s'.author = s.author →
      ∃ t', settleByGuards q u' s' = (.ok (some alt), t') ∧ t'.predictor.stock = s'.predictor.stock) ∨
    ∃ t, settleByGuards q u s = (.ok none, t) ∧
      t.predictor.counters.llPredictions = s.predictor.counters.llPredictions + 1 := by
  cases hu : u.guardedAlts with
  | none =>
    obtain ⟨t, hannounce, hcount⟩ := announceCaller_ends q (u.configs.conflictingAlts.getD AltSet.empty) u.configs s
    refine .inr ⟨t, ?_, hcount⟩
    unfold settleByGuards
    rw [hu]
    dsimp only
    rw [bind_apply, hannounce]
    rfl
  | some pairs =>
    have hpredictor := predictor_admitted q pairs { s with stream := s.stream.seek q.start }
    rcases hadmitted : admitted q pairs { s with stream := s.stream.seek q.start } with ⟨e | alts, t⟩
    · have hnever : Fails (fun _ => False) (admitted q pairs) := fails_admitted q pairs
      exact (hnever hadmitted).elim
    · rw [hadmitted] at hpredictor
      have hsettles := settleByGuards_of_pairs q hu hadmitted
      have hnone : (∀ alt, alts.toList ≠ [alt]) → ∃ t', settleByGuards q u s = (.ok none, t') ∧
          t'.predictor.counters.llPredictions = s.predictor.counters.llPredictions + 1 := by
        intro hmany
        obtain ⟨t', hannounce, hcount⟩ :=
          announceCaller_ends q alts u.configs { t with stream := t.stream.seek s.stream.index }
        refine ⟨t', ?_, hcount.trans (congrArg (fun p => p.counters.llPredictions + 1) hpredictor)⟩
        have hasks : settleAdmitted q u s.stream.index alts =
            (seek s.stream.index >>= fun _ => announceCaller q alts u.configs >>= fun _ => pure none :
              Run (Session σ) (Option Nat)) := by
          unfold settleAdmitted
          split
          · next alt hone => exact absurd hone (hmany alt)
          · rfl
        rw [hsettles, hasks, bind_apply]
        show (announceCaller q alts u.configs >>= fun _ => pure none : Run (Session σ) (Option Nat))
          { t with stream := t.stream.seek s.stream.index } = _
        rw [bind_apply, hannounce]
        exact pure_apply _ _
      by_cases hone : ∃ alt, alts.toList = [alt]
      · obtain ⟨alt, hone⟩ := hone
        have hcounts : ∀ (u : AutomatonState) (place : Nat), settleAdmitted q u place alts =
            (countSll >>= fun _ => pure (some alt) : Run (Session σ) (Option Nat)) := fun u place => by
          unfold settleAdmitted
          simp only [hone]
        rw [hcounts] at hsettles
        refine .inl ⟨alt, _, hsettles, fun u' s' hu' hstream hauthor => ?_⟩
        -- guards do not notice that another predictor is at work
        have hagain : admitted q pairs { s' with stream := s'.stream.seek q.start } =
            (.ok alts, { t with predictor := s'.predictor }) := by
          have hblind := (blind_admitted (f := fun _ => s'.predictor) q pairs)
            { s with stream := s.stream.seek q.start }
          rw [hadmitted] at hblind
          rw [hstream, hauthor]
          exact hblind
        have hsettles' := settleByGuards_of_pairs q hu' hagain
        rw [hcounts] at hsettles'
        exact ⟨_, hsettles', rfl⟩
      · exact .inr (hnone fun alt hone' => hone ⟨alt, hone'⟩)

/-- Concluding again without asking for the caller's stack works nothing out. -/
theorem conclude_again {a a' : Halt} {s v : Session σ} (hbare : a'.bare = a.bare) (hstream : v.stream = s.stream)
    (hauthor : v.author = s.author)
    (hcalm : (conclude q a s).2.predictor.counters.llPredictions = s.predictor.counters.llPredictions) :
    (conclude q a' v).2.predictor.stock = v.predictor.stock := by
  cases a with
  | stranded configs x =>
    cases a' with
    | stranded configs' x' => exact (predictor_giveUp q configs' x').map stock v
    | contested steps u => cases hbare
    | accepting t u x => cases hbare
  | accepting t u x =>
    cases a' with
    | stranded configs x => cases hbare
    | contested steps u => cases hbare
    | accepting t' u' x' => exact stock_accept q t' u' x' v
  | contested steps u =>
    cases a' with
    | stranded configs x => cases hbare
    | accepting t u x => cases hbare
    | contested steps' u' =>
      have hu : u'.bare = u.bare := (Halt.contested.inj hbare).2
      show (settleConflict q steps' u' v).2.predictor.stock = _
      rw [show conclude q (.contested steps u) = settleConflict q steps u from rfl, settleConflict_eq,
        bind_apply] at hcalm
      rw [settleConflict_eq, bind_apply]
      rcases settleByGuards_cases q u s with ⟨alt, t, -, hagain⟩ | ⟨t, hasks, hcount⟩
      · have hguards : u'.bare.guardedAlts = u.bare.guardedAlts := congrArg AutomatonState.guardedAlts hu
        obtain ⟨t', hsettles, hstock⟩ := hagain u' v hguards hstream hauthor
        rw [hsettles]
        exact hstock
      · rw [hasks] at hcalm
        have hleaves : (overCaller q steps t).2.predictor.counters.llPredictions =
            t.predictor.counters.llPredictions := llPredictions_overCaller q steps t
        dsimp only at hcalm
        omega

/-! ## Predicting again -/

/-- Looking ahead asks the author nothing. -/
theorem author_lookAhead {n : Network} {allowed : Settings → Prop} {s : Session σ} (h : s.predictor.Sane n allowed)
    (hd : q.decision < n.decisions.size) : (lookAhead q s).2.author = s.author := by
  have hlook : ∀ steps previous x, Leaves Session.author (lookAtState q steps previous x) :=
    fun steps previous x => (aside_lookAtState q steps previous x).map Prod.snd
  have hread : ∀ x, Leaves Session.author (readOn x : Run (Session σ) Symbol) := fun x =>
    .ite (.pure _) (Leaves.bind (.modify fun _ => rfl) fun _ => Leaves.get.bind fun _ => .pure _)
  have hends := startState_ends q s h hd
  rcases hstart : startState q s with ⟨e | start, t⟩ <;> rw [hstart] at hends
  · rw [lookAhead, bind_apply, hstart]
    exact hends.1.author
  · rw [lookAhead_of_startState q hstart, runAutomaton_eq]
    exact (leaves_readLoop q hlook hread _ _ _ _ t).trans hends.1.author

/-- A prediction with an alternative, or without a viable one, concluded it from where looking ahead ended. -/
theorem lookAhead_of_answered {s u : Session σ} {r : Except RecognitionError Nat} (h : choose q s = (r, u))
    (hr : (∃ alt, r = .ok alt) ∨ ∃ d start offending x, r = .error (.noViableAlt d start offending x)) :
    ∃ a t, lookAhead q s = (.ok a, t) ∧ conclude q a t = (r, u) := by
  rw [choose, bind_apply] at h
  rcases hahead : lookAhead q s with ⟨e | a, t⟩ <;> rw [hahead] at h
  · cases h
    rcases hr with ⟨alt, hr⟩ | ⟨d, start, offending, x, hr⟩ <;> cases hr
    rcases fails_lookAhead q hahead with ((⟨depth, limit, he⟩ | ⟨d', limit, he⟩) | ⟨table, index, he⟩) | he <;>
      cases he
  · exact ⟨a, t, rfl, h⟩

/-- **A prediction made again looks everything up.**  Let a prediction end with an alternative or find that there
is none, without asking for the caller's stack, where edges are stored for every token that it looked at.  Then
after any number of other predictions the same prediction, with the same settings, finds an edge for each of
these tokens.  It closes no configurations and misses no edge, and leaves the automata and the stack graph as
they are, but for the merges that every prediction forgets. -/
theorem predict_again {s v t : Session σ} (hcache : s.predictor.cache.Served s.predictor.network)
    (hstream : s.stream.Used) (hooks : ParserHooks σ) (outer : List Invocation) {decision : Nat}
    (hd : decision < s.predictor.network.decisions.size) {result : Except RecognitionError Nat}
    (hfirst : predict hooks outer decision s = (result, t))
    (hresult : (∃ alt, result = .ok alt) ∨ ∃ d start offending x, result = .error (.noViableAlt d start offending x))
    (hcalm : t.predictor.counters.llPredictions = s.predictor.counters.llPredictions)
    (hlooks : ∀ u ∈ nearLooks ⟨hooks, outer, decision, s.stream.index⟩ s,
      s.predictor.network.Stores u.stream.peek)
    (hlater : Cache.Later s.predictor.network t.predictor.cache v.predictor.cache)
    (hnetwork : v.predictor.network = s.predictor.network)
    (hsettings : v.predictor.settings = s.predictor.settings) (hstream' : v.stream = s.stream)
    (hauthor : v.author = s.author) :
    let p := v.predictor
    let p' := (predict hooks outer decision v).2.predictor
    p'.counters.closures = p.counters.closures ∧ p'.counters.misses = p.counters.misses ∧
      p'.counters.hits =
        p.counters.hits + (nearLooks ⟨hooks, outer, decision, s.stream.index⟩ s).length ∧
      p'.cache = { p.cache with graph := p.cache.graph.forgetMerges } := by
  generalize hq : (⟨hooks, outer, decision, s.stream.index⟩ : Question σ) = q at hlooks ⊢
  have hdecision : q.decision = decision := by rw [← hq]
  have hsane : s.predictor.Sane s.predictor.network fun _ => True := ⟨rfl, trivial, hcache.faithful⟩
  have hd' : q.decision < s.predictor.network.decisions.size := hdecision ▸ hd
  rcases hchoose : choose q s with ⟨r, u⟩
  have hfirst' : predict hooks outer decision s = (r, u.depart s.stream.index) :=
    predict_of_choose hooks outer hd (hq ▸ hchoose)
  rw [hfirst', Prod.mk.injEq] at hfirst
  obtain ⟨rfl, rfl⟩ := hfirst
  obtain ⟨a, w, hahead, hconclude⟩ := lookAhead_of_answered q hchoose hresult
  have hw : w.author = s.author := by
    have hleaves := author_lookAhead q hsane hd'
    rwa [hahead] at hleaves
  have hretains : w.predictor.cache.Retains v.predictor.cache := by
    have hkeep := retains_of_outline (leaves_conclude q a) w (.refl w.predictor.cache)
    rw [hconclude] at hkeep
    exact (hkeep.trans (.of_automata rfl)).trans hlater.retains
  obtain ⟨a', hagain, hbare⟩ :=
    lookAhead_again q hsane hd' hstream.placed hahead hlooks hretains hsettings hstream'
  have hcalm' : (conclude q a w).2.predictor.counters.llPredictions = w.predictor.counters.llPredictions := by
    have hleaves := apart_llPredictions.lookAhead q s
    rw [hahead] at hleaves
    rw [hconclude]
    exact hcalm.trans hleaves.symm
  have hstock := conclude_again q hbare (s := w)
    (v := ⟨v.predictor.hit (nearLooks q s).length, w.stream, v.author⟩) rfl (hauthor.trans hw.symm) hcalm'
  have hchoose' : choose q v =
      conclude q a' ⟨v.predictor.hit (nearLooks q s).length, w.stream, v.author⟩ := by
    rw [choose, bind_apply, hagain]
  rw [← hchoose'] at hstock
  have hpredict : predict hooks outer decision v =
      ((choose q v).1, (choose q v).2.depart s.stream.index) := by
    rw [← hstream', ← hq, ← hstream']
    exact predict_of_choose hooks outer (by rw [hnetwork]; exact hd) rfl
  rw [hpredict]
  simp only [stock, Prod.mk.injEq] at hstock
  obtain ⟨hcache', hclosures, hhits, hmisses⟩ := hstock
  refine ⟨hclosures, hmisses, hhits, ?_⟩
  exact congrArg (fun c => { c with graph := c.graph.forgetMerges }) hcache'

/-- A network with the largest symbol of 32 bits. -/
def widestNetwork : Network :=
  ((Grammar.parser 2147483647).rule "widest" (.alt [.symbol 2147483647, .symbol 1])).layout.toOption.getD
    { kind := .parser, maxSymbol := 2147483647 }

/-- The largest symbol has no edge, so what it leads to is worked out again each time. -/
example :
    let p := (predict ParserHooks.none [] 0
      (⟨ofNetwork widestNetwork {}, .ofTypes [2147483647], ()⟩ : Session Unit)).2.predictor
    let p' := (predict ParserHooks.none [] 0 (⟨p, .ofTypes [2147483647], ()⟩ : Session Unit)).2.predictor
    (p.counters.misses, p'.counters.misses, p'.counters.hits) = (1, 2, 0) := by
  cbv

/-- A session at the end of the input. -/
def atEnd (p : Predictor) : Session Unit := ⟨p, .ofTypes [], ()⟩

/-- A predictor for one of two tokens, after it was asked at the end of the input. -/
def strandedEither : Predictor :=
  (predict ParserHooks.none [] 0 (atEnd (ofNetwork eitherNetwork {}))).2.predictor

/-- After it was asked before the first token as well. -/
def busyEither : Predictor :=
  (predict ParserHooks.none [] 0 (⟨strandedEither, .ofTypes [1], ()⟩ : Session Unit)).2.predictor

/-- At the end of the input neither of two tokens comes, and that is stored as well.  Another prediction in between
does not come in the way of finding it. -/
theorem predict_again_either :
    (predict ParserHooks.none [] 0 (atEnd (ofNetwork eitherNetwork {}))).1 =
        .error (.noViableAlt 0 0 0 endOfInput) ∧
      (predict ParserHooks.none [] 0 (atEnd busyEither)).2.predictor.counters.misses =
        busyEither.counters.misses ∧
      (predict ParserHooks.none [] 0 (atEnd busyEither)).2.predictor.counters.hits =
        busyEither.counters.hits + 1 := by
  obtain ⟨hresult, hlooks, hcalm, hd, hmax⟩ :
      (predict ParserHooks.none [] 0 (atEnd (ofNetwork eitherNetwork {}))).1 =
          .error (.noViableAlt 0 0 0 endOfInput) ∧
        (nearLooks ⟨ParserHooks.none, [], 0, (atEnd (ofNetwork eitherNetwork {})).stream.index⟩
          (atEnd (ofNetwork eitherNetwork {}))).map (·.stream.peek) = [endOfInput] ∧
        strandedEither.counters.llPredictions = (ofNetwork eitherNetwork {}).counters.llPredictions ∧
        0 < eitherNetwork.decisions.size ∧ endOfInput ≤ eitherNetwork.maxSymbol := by
    cbv
  obtain ⟨hnetwork, hbusyNetwork, hbusySettings⟩ : strandedEither.network = eitherNetwork ∧
      busyEither.network = eitherNetwork ∧ busyEither.settings = {} := by
    cbv
  have hstores : ∀ u ∈ nearLooks ⟨ParserHooks.none, [], 0, (atEnd (ofNetwork eitherNetwork {})).stream.index⟩
      (atEnd (ofNetwork eitherNetwork {})), eitherNetwork.Stores u.stream.peek := by
    intro u hu
    have hpeek : u.stream.peek ∈ [endOfInput] := hlooks ▸ List.mem_map_of_mem hu
    rw [List.mem_singleton.mp hpeek]
    exact ⟨le_rfl, hmax, rfl⟩
  have hlater : Cache.Later eitherNetwork strandedEither.cache busyEither.cache :=
    .predict (s := ⟨strandedEither, .ofTypes [1], ()⟩) ParserHooks.none [] 0 hnetwork .refl
  obtain ⟨-, hmisses, hhits, -⟩ := predict_again (s := atEnd (ofNetwork eitherNetwork {}))
    (v := atEnd busyEither) .fresh (.ofTokens _ _) ParserHooks.none [] hd (Prod.ext hresult rfl)
    (.inr ⟨_, _, _, _, rfl⟩) hcalm hstores hlater hbusyNetwork hbusySettings rfl rfl
  refine ⟨hresult, hmisses, ?_⟩
  have hone := congrArg List.length hlooks
  rw [List.length_map, List.length_singleton] at hone
  rw [← hone]
  exact hhits

end Predictor
end AdaptiveLL

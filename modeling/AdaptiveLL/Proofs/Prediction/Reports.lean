import Mathlib
import AdaptiveLL.Proofs.Prediction.Apart
import AdaptiveLL.Proofs.Prediction.InRange

/-! # What a prediction reports

Whoever listens to a prediction hears of it only when the caller's stack is asked: first that it is going to be
asked, and then perhaps what came of it, either that one alternative was left or that several were.  In the
first case that alternative is the answer, in the second the lowest.  `Diagnostic.Announces` is this protocol,
and `Predictor.predict_announces` says that every prediction keeps to it, whatever the automata hold.

Only asking for the caller's stack and the run that uses it report anything.  Everything else leaves the
reports alone (`Session.audience`), so what is heard of a whole prediction can be followed back from its end
to its beginning (`Session.Tells`).  That no report names a place before the beginning rests on
`Predictor.LooksFrom`, which reading on maintains.
-/
namespace AdaptiveLL

/-! ## The protocol -/

/-- What may be reported of the run with the caller's stack, about a decision from a place on, under a mode and
with a result. -/
inductive Diagnostic.Concludes (mode : PredictionMode) (decision start : Nat)
    (result : Except RecognitionError Nat) : List Diagnostic → Prop
  /-- Nothing, if the run was not settled. -/
  | silent : Concludes mode decision start result []
  /-- One alternative was left, which is the answer. -/
  | sensitivity {stop alt : Nat} {configs : ConfigSet} : start ≤ stop → configs.findUniqueAlt = some alt →
      result = .ok alt →
      Concludes mode decision start result [.contextSensitivity decision start stop alt configs]
  /-- Several were left, the lowest of which is the answer. -/
  | ambiguity {stop alt : Nat} {exact : Bool} {alts : AltSet} {configs : ConfigSet} : start ≤ stop →
      alts = configs.alts → 2 ≤ alts.size → alts.min? = some alt → result = .ok alt →
      (exact = true → mode = .exactAmbiguity) →
      Concludes mode decision start result [.ambiguity decision start stop exact alts configs]

/-- What may be reported of a prediction, about a decision from a place on, under a mode and with a result. -/
inductive Diagnostic.Announces (mode : PredictionMode) (decision start : Nat)
    (result : Except RecognitionError Nat) : List Diagnostic → Prop
  /-- Nothing, if the caller's stack was not asked. -/
  | silent : Announces mode decision start result []
  /-- That the caller's stack is going to be asked, and what came of it. -/
  | attempt {stop : Nat} {conflicting : AltSet} {configs : ConfigSet} {events : List Diagnostic} :
      mode ≠ .sll → start ≤ stop → Concludes mode decision start result events →
      Announces mode decision start result (.fullContext decision start stop conflicting configs :: events)

/-! ## What is heard -/

/-- Whether somebody listens, and what was reported so far. -/
def Predictor.audience (p : Predictor) : Bool × List Diagnostic := (p.listening, p.reports)

/-- Whether somebody listens, and what was reported so far. -/
def Session.audience {σ : Type} (s : Session σ) : Bool × List Diagnostic := s.predictor.audience

/-- From one session to the next so much was reported, if somebody listens. -/
structure Session.Hears {σ : Type} (s t : Session σ) (events : List Diagnostic) : Prop where
  listening : t.predictor.listening = s.predictor.listening
  reports : t.predictor.reports = s.predictor.reports ++ if s.predictor.listening then events else []

namespace Session.Hears
variable {σ : Type} {s t u : Session σ} {events events' : List Diagnostic}

theorem of_audience (h : t.audience = s.audience) : s.Hears t [] where
  listening := congrArg Prod.fst h
  reports := by
    rw [ite_self, List.append_nil]
    exact congrArg Prod.snd h

theorem trans (h : s.Hears t events) (h' : t.Hears u events') : s.Hears u (events ++ events') where
  listening := h'.listening.trans h.listening
  reports := by
    rw [h'.reports, h.reports, h.listening, List.append_assoc]
    split
    · rfl
    · rfl

/-- Nothing is heard before something is. -/
theorem after (h : t.audience = s.audience) (h' : t.Hears u events) : s.Hears u events :=
  (of_audience h).trans h'

end Session.Hears

/-- From a session, a run that ends so reported what fits its result. -/
def Session.Tells {σ : Type} (s : Session σ) (fits : Except RecognitionError Nat → List Diagnostic → Prop)
    (r : Ending (Session σ) Nat) : Prop :=
  ∃ events, s.Hears r.2 events ∧ fits r.1 events

namespace Session.Tells
variable {σ : Type} {s t : Session σ} {fits : Except RecognitionError Nat → List Diagnostic → Prop}
  {r : Ending (Session σ) Nat}

theorem silent (h : r.2.audience = s.audience) (hfits : fits r.1 []) : s.Tells fits r :=
  ⟨[], .of_audience h, hfits⟩

theorem after (h : t.audience = s.audience) (ht : t.Tells fits r) : s.Tells fits r := by
  obtain ⟨events, hevents, hfits⟩ := ht
  exact ⟨events, hevents.after h, hfits⟩

end Session.Tells

namespace Predictor
open Run

/-- Nobody hears of the cache or of the counts. -/
theorem apart_audience : Apart audience := ⟨fun _ _ => rfl, fun _ _ _ _ _ => rfl⟩

end Predictor

/-! ## Where it is reported -/

/-- Going past a token leads on, or at the end of the input nowhere. -/
theorem TokenStream.Placed.index_le_consume {s : TokenStream} (h : s.Placed) : s.index ≤ s.consume.index := by
  by_cases hend : s.peek = endOfInput
  · rw [h.consume_of_end hend]
  · exact (Nat.le_succ _).trans (h.firstSeen_consume hend).le

namespace Predictor
open Run
variable {σ : Type} (q : Question σ)

/-- Looking from a place on, in a mode. -/
structure LooksFrom (mode : PredictionMode) (start : Nat) (s : Session σ) : Prop where
  mode : s.predictor.settings.mode = mode
  placed : s.stream.Placed
  from_start : start ≤ s.stream.index

/-- Where a run ended, it asks for the caller's stack only in a mode that uses it. -/
def Halt.Permitted (mode : PredictionMode) : Halt → Prop
  | .contested _ _ => mode ≠ .sll
  | _ => True

theorem permitted_of_haltAt? {mode : PredictionMode} {steps : Nat} {t : Target} {u : AutomatonState}
    {x : Symbol} {a : Halt} (h : haltAt? mode steps t u x = some a) : a.Permitted mode := by
  unfold haltAt? at h
  split at h
  · next hfull =>
    cases h
    rw [Bool.and_eq_true] at hfull
    show mode ≠ .sll
    exact of_decide_eq_true hfull.2
  · split at h
    · cases h
      trivial
    · cases h

section
variable {mode : PredictionMode} {start : Nat}

/-- What only touches the cache. -/
theorem looksFrom_inSession {α : Type} {act : Run Predictor α} (h : Leaves Predictor.frame act) :
    Keeps (LooksFrom mode start) (fun _ => True) (inSession act : Run (Session σ) α) := by
  intro s a t hr hs
  rw [inSession_apply, Prod.mk.injEq] at hr
  obtain ⟨-, rfl⟩ := hr
  exact ⟨⟨(congrArg (fun f => f.2.mode) (h s.predictor)).trans hs.mode, hs.placed, hs.from_start⟩, trivial⟩

theorem looksFrom_readOn (x : Symbol) :
    Keeps (LooksFrom mode start) (fun _ => True) (readOn x : Run (Session σ) Symbol) := by
  intro s a t hr hs
  rw [readOn_apply] at hr
  split at hr
  · cases hr
    exact ⟨hs, trivial⟩
  · cases hr
    exact ⟨⟨hs.mode, hs.placed.consume, hs.from_start.trans hs.placed.index_le_consume⟩, trivial⟩

theorem looksFrom_runAutomaton (fuel : Nat) :
    ∀ (steps : Nat) (previous : Target) (x : Symbol),
      Keeps (LooksFrom mode start) (Halt.Permitted mode) (runAutomaton q fuel steps previous x) := by
  induction fuel with
  | zero => exact fun _ _ _ _ _ _ h => nomatch h
  | succ fuel ih =>
    intro steps previous x
    have hcount : Keeps (LooksFrom mode start) (fun _ => True) (countStep q steps) := by
      intro s a t hr hs
      rcases countStep_cases q steps s with h | h
      · rw [h] at hr
        cases hr
      · rw [h] at hr
        cases hr
        exact ⟨hs, trivial⟩
    have hstate : ∀ t, Keeps (LooksFrom mode start) (fun _ => True)
        (inSession (automatonState q.decision t) : Run (Session σ) _) :=
      fun t => looksFrom_inSession (leaves_automatonState q.decision t).predictorFrame
    rw [runAutomaton]
    refine hcount.andThen fun _ => (looksFrom_inSession (leaves_step _ _ _)).andThen fun t => .ite ?_ ?_
    · exact (hstate previous).andThen fun _ => .pure trivial
    · refine (hstate t).andThen fun u => (Keeps.get fun _ hs => hs.mode).bind fun s hmode => ?_
      split
      · next a ha => exact .pure (permitted_of_haltAt? (hmode ▸ ha))
      · exact (looksFrom_readOn x).andThen fun next => ih _ _ _

theorem looksFrom_lookAhead : Keeps (LooksFrom mode start) (Halt.Permitted mode) (lookAhead q) := by
  have hstart : Keeps (LooksFrom mode start) (fun _ => True) (startState q) := by
    refine Keeps.andThen (.get fun _ _ => trivial) fun s => ?_
    dsimp only
    split
    · exact .pure trivial
    · have hwork : Keeps (LooksFrom mode start) (fun _ => True) (withSessionStacks
          ((s.predictor.surroundings false (some fun g => g.eval q.hooks q.outer)).startConfigs
            (s.predictor.cache.automaton q.decision).netState [])) := by
        intro s a t hr hs
        rw [withSessionStacks_apply, Prod.mk.injEq] at hr
        obtain ⟨-, rfl⟩ := hr
        exact ⟨⟨hs.mode, hs.placed, hs.from_start⟩, trivial⟩
      refine hwork.andThen fun _ => (looksFrom_inSession (.modifyGet fun _ => rfl)).andThen fun t => ?_
      have hset : Keeps (LooksFrom mode start) (fun _ => True)
          (inSession (changeAutomaton q.decision (·.setStart t)) : Run (Session σ) Unit) :=
        looksFrom_inSession (.modify fun _ => rfl)
      exact hset.andThen fun _ => .pure trivial
  exact hstart.andThen fun t => (Keeps.get fun _ _ => trivial).andThen fun _ => looksFrom_runAutomaton q _ _ _ _

end

/-! ## What is reported -/

theorem hears_report (d : Diagnostic) (s : Session σ) : s.Hears (report d s).2 [d] := by
  unfold report
  rw [modify_apply]
  cases hlistening : s.predictor.listening with
  | false =>
    rw [if_neg Bool.false_ne_true]
    exact ⟨rfl, by rw [hlistening, if_neg Bool.false_ne_true, List.append_nil]⟩
  | true =>
    rw [if_pos rfl]
    exact ⟨rfl, by rw [hlistening, if_pos rfl]⟩

/-- How the run with the caller's stack is settled: by the only alternative left, or by the lowest. -/
theorem settles?_cases {exact certain : Bool} {x : Symbol} {previous r : ConfigSet} {alt : Nat}
    (h : settles? exact x previous r.marked = some (alt, certain)) :
    r.findUniqueAlt = some alt ∨
      r.findUniqueAlt = none ∧ r.alts.min? = some alt ∧ (certain = true → exact = true) := by
  -- the alternative that is lowest at every place is the lowest of all
  have hviable : ∀ {a : Nat}, Conflict.singleViable? r.conflictSubsets = some a → r.alts.min? = some a := by
    intro a ha
    refine AltSet.min?_eq_some_iff.mpr ⟨?_, fun b hb => ?_⟩
    · obtain ⟨alts, halts, hmem⟩ := Conflict.exists_of_singleViable? ha
      obtain ⟨state, stack, hiff⟩ := ConfigSet.mem_of_conflictSubset halts
      obtain ⟨c, hc, -, -, hca⟩ := (hiff a).mp hmem
      exact ConfigSet.mem_alts.mpr ⟨c, hc, hca⟩
    · obtain ⟨c, hc, rfl⟩ := ConfigSet.mem_alts.mp hb
      obtain ⟨alts, halts, hiff⟩ := ConfigSet.exists_conflictSubset hc
      have hmem := (hiff c.alt).mpr ⟨c, hc, rfl, rfl, rfl⟩
      exact (AltSet.min?_eq_some_iff.mp (Conflict.min?_of_singleViable? ha halts hmem)).2 _ hmem
  cases hunique : r.findUniqueAlt with
  | some a =>
    rw [settles?_of_findUniqueAlt hunique] at h
    cases h
    exact .inl rfl
  | none =>
    have hmarked : r.marked.uniqueAlt = none := hunique
    refine .inr ⟨rfl, ?_⟩
    unfold settles? at h
    rw [Option.orElse_eq_orElse, Option.orElse_eq_or, Option.or_eq_some_iff, hmarked] at h
    rcases h with h | ⟨-, h⟩
    · dsimp only at h
      split at h
      · obtain ⟨a, ha, he⟩ := Option.map_eq_some_iff.mp h
        cases he
        exact ⟨hviable ha, nofun⟩
      · next hexact =>
        split at h
        · obtain ⟨a, ha, he⟩ := Option.map_eq_some_iff.mp h
          cases he
          exact ⟨hviable ha, fun _ => by simpa using hexact⟩
        · cases h
    · split at h
      · obtain ⟨a, ha, he⟩ := Option.map_eq_some_iff.mp h
        cases he
        exact ⟨ha, nofun⟩
      · cases h

/-- What is reported where the run with the caller's stack is settled. -/
theorem concludes_settled {mode : PredictionMode} {certain : Bool} {x : Symbol} {previous r : ConfigSet}
    {alt stop : Nat} (hstop : q.start ≤ stop)
    (h : settles? (mode = .exactAmbiguity) x previous r.marked = some (alt, certain)) :
    Diagnostic.Concludes mode q.decision q.start (.ok alt) [settled q stop alt certain r.marked] := by
  have hmarked : r.marked.uniqueAlt = r.findUniqueAlt := rfl
  unfold settled
  rw [hmarked]
  rcases settles?_cases h with hunique | ⟨hnone, hmin, hexact⟩
  · rw [hunique, if_pos (show (some alt).isSome = true from rfl)]
    exact .sensitivity hstop hunique rfl
  · rw [hnone, if_neg (show ¬ (none : Option Nat).isSome = true from Bool.false_ne_true)]
    have hsize : 2 ≤ r.alts.size := by
      have hone := ConfigSet.size_alts_ne_one hnone
      have hpos : 0 < r.alts.size := List.length_pos_of_mem (AltSet.min?_eq_some_iff.mp hmin).1
      omega
    exact .ambiguity hstop rfl hsize hmin rfl fun hc => of_decide_eq_true (hexact hc)

/-- The run with the caller's stack reports at most how it was settled. -/
theorem tells_runFullContext (env : Surroundings σ) {mode : PredictionMode} (fuel : Nat) :
    ∀ (steps : Nat) (previous : ConfigSet) (x : Symbol) (s : Session σ), LooksFrom mode q.start s →
      s.Tells (Diagnostic.Concludes mode q.decision q.start)
        (runFullContext q env fuel steps previous x s) := by
  induction fuel with
  | zero => exact fun _ _ _ s _ => .silent rfl .silent
  | succ fuel ih =>
    intro steps previous x s hs
    rcases countStep_cases q steps s with hcount | hcount
    · rw [runFullContext, bind_apply, hcount]
      exact .silent rfl .silent
    · rw [runFullContext_of_counted q env previous x hcount, bind_apply, withSessionStacks_apply]
      -- Only a run that settles here reports; failing and giving up are silent.
      rcases hr : env.reach true x previous ⟨s.predictor.cache.graph, s.author, 0⟩ with ⟨e | _ | r, w⟩
      · exact .silent rfl .silent
      · exact .silent ((predictor_giveUp q previous x).map audience _) .silent
      · generalize ht : (⟨s.predictor.afterWork w, s.stream, w.author⟩ : Session σ) = t
        have hlooks : LooksFrom mode q.start t := by
          rw [← ht]
          exact ⟨hs.mode, hs.placed, hs.from_start⟩
        have haudience : t.audience = s.audience := by
          rw [← ht]
          rfl
        refine .after haudience ?_
        show t.Tells _ (goOnFull q env fuel steps (s.predictor.settings.mode = .exactAmbiguity) previous x r
          ⟨s.predictor.afterWork w, s.stream, w.author⟩)
        rw [ht, hs.mode, goOnFull]
        cases hsettles : settles? (mode = .exactAmbiguity) x previous r.marked with
        | some found =>
          refine ⟨[settled q t.stream.index found.1 found.2 r.marked], ?_, ?_⟩
          · exact hears_report _ t
          · exact concludes_settled q hlooks.from_start hsettles
        | none =>
          obtain ⟨next, t', hread⟩ : ∃ next t', readOn x t = (.ok next, t') := by
            rw [readOn_apply]
            split <;> exact ⟨_, _, rfl⟩
          have hunheard : t'.audience = t.audience := by
            have hreads := (predictor_readOn x).map audience t
            rwa [hread] at hreads
          dsimp only
          rw [bind_apply, hread]
          exact .after hunheard (ih _ _ _ _ (looksFrom_readOn x hread hlooks).1)

/-! ## Predictions -/

section
variable {mode : PredictionMode} {st : TokenStream} (hst : st.Placed) (hstart : q.start = st.index)
include hst hstart

/-- Looking at the tokens again, with the caller's stack, reports at most how it was settled. -/
theorem tells_overCaller (steps : Nat) {s : Session σ} (hmode : s.predictor.settings.mode = mode)
    (hlooks : LooksAt st s) :
    s.Tells (Diagnostic.Concludes mode q.decision q.start) (overCaller q steps s) := by
  have hseek : s.stream.seek q.start = st := by
    rw [hstart]
    exact hst.seek_index hlooks.1 hlooks.2
  rw [overCaller_apply]
  dsimp only
  rcases (s.predictor.surroundings true (some fun g => g.eval q.hooks q.outer)).startConfigs
    (s.predictor.cache.automaton q.decision).netState q.outer ⟨s.predictor.cache.graph, s.author, 0⟩
    with ⟨e | start, w⟩
  · exact .silent rfl .silent
  · refine .after (t := ⟨s.predictor.afterWork w, st, w.author⟩) rfl ?_
    dsimp only
    rw [hseek]
    exact tells_runFullContext q _ _ _ _ _ _ ⟨hmode, hst, hstart.le⟩

/-- Asking the caller's stack is reported first. -/
theorem tells_startFullContext (hne : mode ≠ .sll) (steps : Nat) (conflicting : AltSet) (configs : ConfigSet)
    {s : Session σ} (hlooks : LooksFrom mode q.start s) (hat : LooksAt st s) :
    s.Tells (Diagnostic.Announces mode q.decision q.start)
      (startFullContext q steps conflicting configs s) := by
  rw [startFullContext_eq, bind_apply, get_apply]
  dsimp only
  generalize hd : Diagnostic.fullContext q.decision q.start s.stream.index conflicting configs = d
  have hhears := hears_report d s
  obtain ⟨reports, hreport⟩ := report_apply d s
  rw [hreport] at hhears
  rw [bind_apply, hreport]
  dsimp only
  rw [bind_apply, inSession_apply, count_apply]
  dsimp only
  generalize ht : ({ s with
    predictor := { s.predictor with
      reports
      counters := { s.predictor.counters with
        llPredictions := s.predictor.counters.llPredictions + 1 } } } : Session σ) = t
  have hmode : t.predictor.settings.mode = mode := by
    rw [← ht]
    exact hlooks.mode
  have hat' : LooksAt st t := by
    rw [← ht]
    exact hat
  have htells := tells_overCaller q hst hstart steps hmode hat'
  generalize overCaller q steps t = r at htells ⊢
  obtain ⟨events, hevents, hconcludes⟩ := htells
  refine ⟨d :: events, ?_, ?_⟩
  · exact hhears.trans (hevents.after (by rw [← ht]; rfl))
  · rw [← hd]
    exact .attempt hne hlooks.from_start hconcludes

/-- Settling a conflict reports nothing, or first that the caller's stack is asked. -/
theorem tells_settleConflict (hne : mode ≠ .sll) (steps : Nat) (u : AutomatonState) {s : Session σ}
    (hlooks : LooksFrom mode q.start s) (hat : LooksAt st s) :
    s.Tells (Diagnostic.Announces mode q.decision q.start) (settleConflict q steps u s) := by
  unfold settleConflict
  cases u.guardedAlts with
  | none => exact tells_startFullContext q hst hstart hne steps _ _ hlooks hat
  | some pairs =>
    dsimp only
    rw [bind_apply, get_apply]
    dsimp only
    rw [bind_apply]
    show s.Tells _ ((admitted q pairs >>= _) { s with stream := s.stream.seek q.start })
    have hunheard := (predictor_admitted q pairs).map audience { s with stream := s.stream.seek q.start }
    have hleaves := leaves_admitted q pairs { s with stream := s.stream.seek q.start }
    rw [bind_apply]
    generalize admitted q pairs { s with stream := s.stream.seek q.start } = r at hunheard hleaves ⊢
    obtain ⟨e | alts, t⟩ := r
    · exact .silent hunheard .silent
    · simp only [Session.outline, Session.frame, Predictor.frame, Prod.mk.injEq] at hleaves
      have hfull : s.Tells (Diagnostic.Announces mode q.decision q.start)
          ((seek s.stream.index >>= fun _ => startFullContext q steps alts u.configs) t) := by
        -- going back leads to where the conflict was found
        have hback : t.stream.seek s.stream.index = s.stream :=
          hlooks.placed.seek_index hleaves.1.2.1 hleaves.1.2.2
        have hmode : t.predictor.settings.mode = mode :=
          (congrArg Settings.mode hleaves.1.1.2).trans hlooks.mode
        refine .after (t := { t with stream := s.stream }) hunheard ?_
        rw [bind_apply]
        show Session.Tells _ _ (startFullContext q steps alts u.configs
          { t with stream := t.stream.seek s.stream.index })
        rw [hback]
        exact tells_startFullContext q hst hstart hne steps _ _ ⟨hmode, hlooks.placed, hlooks.from_start⟩ hat
      dsimp only
      rcases alts.toList with _ | ⟨alt, _ | ⟨alt', rest⟩⟩
      · exact hfull
      · exact .silent hunheard .silent
      · exact hfull

theorem tells_conclude {a : Halt} (ha : a.Permitted mode) {s : Session σ}
    (hlooks : LooksFrom mode q.start s) (hat : LooksAt st s) :
    s.Tells (Diagnostic.Announces mode q.decision q.start) (conclude q a s) := by
  cases a with
  | stranded configs x => exact .silent ((predictor_giveUp q configs x).map audience s) .silent
  | contested steps u => exact tells_settleConflict q hst hstart ha steps u hlooks hat
  | accepting t u x => exact .silent (apart_audience.accept q t u x s) .silent

end

/-- Choosing an alternative keeps to the protocol. -/
theorem tells_choose {s : Session σ} (hs : s.stream.Placed) (hstart : q.start = s.stream.index) :
    s.Tells (Diagnostic.Announces s.predictor.settings.mode q.decision q.start) (choose q s) := by
  have hunheard := apart_audience.lookAhead q s
  have hleaves := leaves_lookAhead q s
  have hlooks : Keeps (LooksFrom s.predictor.settings.mode q.start)
      (Halt.Permitted s.predictor.settings.mode) (lookAhead q) := looksFrom_lookAhead q
  unfold choose
  rw [bind_apply]
  rcases hr : lookAhead q s with ⟨e | a, t⟩
  · rw [hr] at hunheard
    exact .silent hunheard .silent
  · rw [hr] at hunheard hleaves
    simp only [Session.frame, Prod.mk.injEq] at hleaves
    obtain ⟨ht, ha⟩ := hlooks hr ⟨rfl, hs, hstart.le⟩
    exact .after hunheard (tells_conclude q hs hstart ha ht hleaves.2)

/-- **Reports follow a protocol.**  Whatever the network, the tokens, the author's callbacks, the mode and the
limits are, and whatever the cache was used for before, a prediction reports nothing, or that the caller's
stack is asked, or this and what came of it.  Without the caller's stack it reports nothing.  What is
reported names the decision, the place where the prediction began and one not before it.  If one alternative
was left with the caller's stack it is the answer.  If more were, the answer is the lowest of those that are
reported, and that they are all viable is certain only in the mode that asks for it.  Whoever does not listen
hears nothing. -/
theorem predict_announces {s : Session σ} (hs : s.stream.Used) (hooks : ParserHooks σ)
    (outer : List Invocation) (decision : Nat) :
    ∃ events, Diagnostic.Announces s.predictor.settings.mode decision s.stream.index
        (predict hooks outer decision s).1 events ∧
      (predict hooks outer decision s).2.predictor.reports =
        s.predictor.reports ++ if s.predictor.listening then events else [] := by
  unfold predict
  split
  · refine ⟨[], .silent, ?_⟩
    rw [ite_self, List.append_nil]
  · obtain ⟨events, hhears, hannounces⟩ :=
      tells_choose ⟨hooks, outer, decision, s.stream.index⟩ hs.placed rfl
    exact ⟨events, hannounces, hhears.reports⟩

/-- A choice between two readings of the same two tokens. -/
def vagueNetwork : Network :=
  ((Grammar.parser 2).rule "vague" (.alt [.seq [.symbol 1, .symbol 2],
    .seq [.symbol 1, .symbol 2]])).layout.toOption.getD { kind := .parser, maxSymbol := 2 }

/-- A session before the two tokens, with somebody listening. -/
def vagueSession : Session Unit where
  predictor := { ofNetwork vagueNetwork {} with listening := true }
  stream := .ofTypes [1, 2]
  author := ()

theorem predict_announces_vague : vagueSession.stream.Used ∧
    ∃ events, events.length = 2 ∧ Diagnostic.Announces .ll 0 0 (.ok 1) events ∧
      (predict ParserHooks.none [.root 0] 0 vagueSession).2.predictor.reports = events := by
  have hused : vagueSession.stream.Used := .ofTokens _ _
  obtain ⟨hresult, hlength⟩ : (predict ParserHooks.none [.root 0] 0 vagueSession).1 = .ok 1 ∧
      (predict ParserHooks.none [.root 0] 0 vagueSession).2.predictor.reports.length = 2 := by
    cbv
  obtain ⟨events, hannounces, hreports⟩ := predict_announces hused ParserHooks.none [.root 0] 0
  rw [hresult] at hannounces
  have hall : (predict ParserHooks.none [.root 0] 0 vagueSession).2.predictor.reports = events := hreports
  exact ⟨hused, events, by rw [← hall, hlength], hannounces, hall⟩

end Predictor
end AdaptiveLL

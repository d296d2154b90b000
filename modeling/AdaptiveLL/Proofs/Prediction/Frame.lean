import AdaptiveLL.Proofs.Input.TokenStream
import AdaptiveLL.Proofs.Run
import AdaptiveLL.Prediction.Predictor

/-! # What a prediction leaves alone

Whatever the automata hold and however a prediction ends, the network and the settings stay as they
are, and of the stream at most the place changes (`Session.frame`).  Once the automaton has halted, the
automata stay as they are too (`Session.outline`).  At the end the place is restored
(`Predictor.stream_predict`).
-/
namespace AdaptiveLL

/-- What no prediction changes of a predictor. -/
def Predictor.frame (p : Predictor) : Network × Settings := (p.network, p.settings)

/-- What no step of a prediction changes of a session. -/
def Session.frame {σ : Type} (s : Session σ) : (Network × Settings) × Array Token × Int :=
  (s.predictor.frame, s.stream.tokens, s.stream.channel)

/-- What only growing an automaton changes of a predictor. -/
def Predictor.outline (p : Predictor) : (Network × Settings) × Array Automaton :=
  (p.frame, p.cache.automata)

/-- What only growing an automaton changes of a session. -/
def Session.outline {σ : Type} (s : Session σ) :
    ((Network × Settings) × Array Token × Int) × Array Automaton :=
  (s.frame, s.predictor.cache.automata)

theorem Run.Leaves.frame {σ α : Type} {m : Run (Session σ) α} (h : Leaves Session.outline m) :
    Leaves Session.frame m := h.map Prod.fst

theorem Run.Leaves.predictorFrame {α : Type} {m : Run Predictor α} (h : Leaves Predictor.outline m) :
    Leaves Predictor.frame m := h.map Prod.fst

namespace Predictor
open Run

/-! ## The automaton of a decision -/

theorem leaves_withStacksOnly {α : Type} (act : Run (Workspace Unit) α) :
    Leaves outline (withStacksOnly act) := fun _ => rfl

theorem leaves_automatonState (decision : Nat) (source : Target) :
    Leaves outline (automatonState decision source) := by
  refine Leaves.get.bind fun p => ?_
  split
  · exact .pure _
  · exact .throw _
  · exact .throw _

theorem leaves_count (f : Counters → Counters) : Leaves outline (count f) := .modify fun _ => rfl

theorem leaves_storeEdge (decision : Nat) (source : Target) (x : Symbol) (t : Target) :
    Leaves frame (storeEdge decision source x t) :=
  Leaves.get.bind fun _ => .ite (.modify fun _ => rfl) (.pure _)

theorem leaves_computeEdge (decision : Nat) (source : Target) (x : Symbol) :
    Leaves frame (computeEdge decision source x) := by
  refine (leaves_automatonState decision source).predictorFrame.bind fun s => Leaves.get.bind fun p =>
    (leaves_withStacksOnly _).predictorFrame.bind fun reached => ?_
  cases reached with
  | none => exact (leaves_storeEdge decision source x .error).bind fun _ => .pure _
  | some reached =>
    refine Leaves.bind (.modifyGet fun _ => rfl) fun made => Leaves.bind (.modifyGet fun _ => rfl) ?_
    exact fun t => (leaves_storeEdge decision source x t).bind fun _ => .pure _

theorem leaves_step (decision : Nat) (source : Target) (x : Symbol) :
    Leaves frame (step decision source x) := by
  refine Leaves.get.bind fun p => ?_
  split
  · exact (leaves_count _).predictorFrame.bind fun _ => .pure _
  · exact (leaves_count _).predictorFrame.bind fun _ => leaves_computeEdge decision source x

/-! ## Predictions -/

variable {σ : Type}

theorem leaves_inSession {α : Type} {act : Run Predictor α} (h : Leaves frame act) :
    Leaves Session.frame (inSession act : Run (Session σ) α) := fun s =>
  congrArg (·, s.stream.tokens, s.stream.channel) (h s.predictor)

theorem leaves_inSession_outline {α : Type} {act : Run Predictor α} (h : Leaves outline act) :
    Leaves Session.outline (inSession act : Run (Session σ) α) := fun s =>
  congrArg (fun o => ((o.1, s.stream.tokens, s.stream.channel), o.2)) (h s.predictor)

theorem leaves_withSessionStacks {α : Type} (act : Run (Workspace σ) α) :
    Leaves Session.outline (withSessionStacks act) := fun _ => rfl

theorem leaves_seek (index : Nat) : Leaves Session.outline (seek index : Run (Session σ) Unit) :=
  .modify fun _ => rfl

theorem leaves_report (d : Diagnostic) : Leaves Session.outline (report d : Run (Session σ) Unit) :=
  .modify fun s => by
    dsimp only
    split <;> rfl

theorem leaves_passes (q : Question σ) (g : Guard) : Leaves Session.outline (passes q g) :=
  .ite (.pure _) (.modifyGet fun _ => rfl)

theorem leaves_admitted (q : Question σ) (pairs : List GuardedAlt) :
    Leaves Session.outline (admitted q pairs) := by
  induction pairs with
  | nil => exact .pure _
  | cons pair pairs ih => exact (leaves_passes q pair.guard).bind fun _ => ih.bind fun _ => .pure _

theorem leaves_splitByGuard (q : Question σ) (cs : List Config) :
    Leaves Session.outline (splitByGuard q cs) := by
  induction cs with
  | nil => exact .pure _
  | cons c cs ih => exact (leaves_passes q c.guard).bind fun _ => ih.bind fun _ => .pure _

theorem leaves_giveUp (q : Question σ) (configs : ConfigSet) (x : Symbol) :
    Leaves Session.outline (giveUp q configs x) := by
  have hfallback : Leaves Session.outline (fallback? q configs) :=
    (leaves_splitByGuard q configs.toList).bind fun _ => Leaves.get.bind fun _ => .pure _
  refine Leaves.get.bind fun _ => (leaves_seek q.start).bind fun _ => hfallback.bind fun alt => ?_
  cases alt with
  | none => exact .throw _
  | some alt => exact .pure _

theorem leaves_countStep (q : Question σ) (steps : Nat) : Leaves Session.outline (countStep q steps) :=
  Leaves.get.bind fun _ => .ite (.throw _) (.pure _)

theorem leaves_readOn (x : Symbol) : Leaves Session.outline (readOn x : Run (Session σ) Symbol) := by
  refine .ite (.pure _) (Leaves.bind (.modify fun s => ?_) fun _ => Leaves.get.bind fun _ => .pure _)
  simp only [Session.outline, Session.frame, TokenStream.tokens_consume, TokenStream.channel_consume]

theorem leaves_runFullContext (q : Question σ) (env : Surroundings σ) (fuel : Nat) :
    ∀ (steps : Nat) (previous : ConfigSet) (x : Symbol),
      Leaves Session.outline (runFullContext q env fuel steps previous x) := by
  induction fuel with
  | zero => exact fun _ _ _ => .throw _
  | succ fuel ih =>
    intro steps previous x
    rw [runFullContext]
    refine (leaves_countStep q steps).bind fun _ => (leaves_withSessionStacks _).bind fun reached => ?_
    cases reached with
    | none => exact leaves_giveUp q previous x
    | some reached =>
      refine Leaves.get.bind fun s => ?_
      dsimp only
      split
      · exact Leaves.get.bind fun _ => (leaves_report _).bind fun _ => .pure _
      · exact (leaves_readOn x).bind fun next => ih _ _ _

theorem leaves_startFullContext (q : Question σ) (steps : Nat) (conflicting : AltSet)
    (configs : ConfigSet) : Leaves Session.outline (startFullContext q steps conflicting configs) := by
  unfold startFullContext
  refine Leaves.get.bind fun _ => (leaves_report _).bind fun _ => ?_
  refine (leaves_inSession_outline (leaves_count _)).bind fun _ => Leaves.get.bind fun _ => ?_
  refine (leaves_withSessionStacks _).bind fun _ => (leaves_seek _).bind fun _ => Leaves.get.bind ?_
  exact fun _ => leaves_runFullContext q _ _ _ _ _

theorem leaves_countSll : Leaves Session.outline (countSll : Run (Session σ) Unit) :=
  leaves_inSession_outline (leaves_count _)

theorem leaves_settleConflict (q : Question σ) (steps : Nat) (s : AutomatonState) :
    Leaves Session.outline (settleConflict q steps s) := by
  unfold settleConflict
  split
  · exact leaves_startFullContext q steps _ _
  · refine Leaves.get.bind fun _ => (leaves_seek _).bind fun _ => (leaves_admitted q _).bind fun alts => ?_
    split
    · exact leaves_countSll.bind fun _ => .pure _
    · exact (leaves_seek _).bind fun _ => leaves_startFullContext q steps _ _

theorem leaves_accept (q : Question σ) (t : Target) (s : AutomatonState) (x : Symbol) :
    Leaves Session.outline (accept q t s x) := by
  unfold accept
  split
  · refine leaves_countSll.bind fun _ => ?_
    split
    · exact .pure _
    · exact .throw _
  · refine Leaves.get.bind fun _ => (leaves_seek _).bind fun _ => (leaves_admitted q _).bind fun alts =>
      leaves_countSll.bind fun _ => ?_
    split
    · exact .pure _
    · exact .throw _

/-- Once the automaton has halted, the automata stay as they are. -/
theorem leaves_conclude (q : Question σ) (a : Halt) : Leaves Session.outline (conclude q a) := by
  cases a with
  | stranded configs x => exact leaves_giveUp q configs x
  | contested steps s => exact leaves_settleConflict q steps s
  | accepting t s x => exact leaves_accept q t s x

theorem leaves_runAutomaton (q : Question σ) (fuel : Nat) :
    ∀ (steps : Nat) (previous : Target) (x : Symbol),
      Leaves Session.frame (runAutomaton q fuel steps previous x) := by
  induction fuel with
  | zero => exact fun _ _ _ => .throw _
  | succ fuel ih =>
    intro steps previous x
    rw [runAutomaton]
    have hstate : ∀ t, Leaves Session.frame (inSession (automatonState q.decision t) : Run (Session σ) _) :=
      fun t => leaves_inSession (leaves_automatonState q.decision t).predictorFrame
    refine (leaves_countStep q steps).frame.bind fun _ => (leaves_inSession (leaves_step _ _ _)).bind fun t =>
      .ite ?_ ?_
    · exact (hstate previous).bind fun _ => .pure _
    · refine (hstate t).bind fun s => Leaves.get.bind fun _ => ?_
      split
      · exact .pure _
      · exact (leaves_readOn x).frame.bind fun next => ih _ _ _

theorem leaves_startState (q : Question σ) : Leaves Session.frame (startState q) := by
  refine Leaves.get.bind fun s => ?_
  dsimp only
  split
  · exact .pure _
  · refine (leaves_withSessionStacks _).frame.bind fun _ => ?_
    refine Leaves.bind (leaves_inSession (.modifyGet fun _ => rfl)) fun t => ?_
    exact Leaves.bind (leaves_inSession (.modify fun _ => rfl)) fun _ => .pure _

theorem leaves_lookAhead (q : Question σ) : Leaves Session.frame (lookAhead q) :=
  (leaves_startState q).bind fun _ => Leaves.get.bind fun _ => leaves_runAutomaton q _ _ _ _

theorem leaves_choose (q : Question σ) : Leaves Session.frame (choose q) :=
  (leaves_lookAhead q).bind fun halt => (leaves_conclude q halt).frame

/-- A prediction changes neither the network nor the settings, and no token. -/
theorem leaves_predict (hooks : ParserHooks σ) (outer : List Invocation) (decision : Nat) :
    Leaves Session.frame (predict hooks outer decision) := by
  intro s
  have hchoose := leaves_choose ⟨hooks, outer, decision, s.stream.index⟩ s
  unfold predict
  split
  · rfl
  · exact hchoose

/-- A prediction leaves the stream as it was. -/
theorem stream_predict (hooks : ParserHooks σ) (outer : List Invocation) (decision : Nat)
    {s : Session σ} (hs : s.stream.Placed) :
    (predict hooks outer decision s).2.stream = s.stream := by
  have hchoose := leaves_choose ⟨hooks, outer, decision, s.stream.index⟩ s
  unfold predict
  split
  · rfl
  · rw [Session.frame, Session.frame, Prod.mk.injEq] at hchoose
    exact hs.seek_index (congrArg Prod.fst hchoose.2) (congrArg Prod.snd hchoose.2)

/-- However a stream was made and moved, its place is at a token of the channel or at an end of the input.
Looking ahead finds what going past the tokens in between would find.  Going past a token leads further,
unless it ends the input, and a place can be returned to from anywhere, as around the evaluation of a guard.
So a prediction leaves the stream as it was, whatever its outcome. -/
theorem stream_restored {s : TokenStream} (h : s.Used) :
    (∃ t, s.get? s.index = some t ∧ (t.channel = s.channel ∨ t.isEnd) ∧
      (t.isEnd → s.consume = s) ∧ (¬ t.isEnd → s.index < s.consume.index)) ∧
    (∀ k, 1 ≤ k → s.tokenAhead k = (TokenStream.consume^[k - 1] s).tokenAhead 1 ∧
      s.lookahead k = (TokenStream.consume^[k - 1] s).peek) ∧
    (s.seek s.index = s ∧ ∀ i, (s.seek i).seek s.index = s) ∧
    ∀ {σ : Type} (hooks : ParserHooks σ) (outer : List Invocation) (decision : Nat) (session : Session σ),
      session.stream = s → (predict hooks outer decision session).2.stream = s := by
  have hplaced := h.placed
  refine ⟨?_, fun k _ => ⟨s.tokenAhead_eq_iterate k, s.lookahead_eq_iterate k⟩,
    ⟨hplaced.seek_index rfl rfl, fun i => hplaced.seek_index rfl rfl⟩, ?_⟩
  · obtain ⟨t, ht, hsees, hpeek⟩ := hplaced.exists_next
    have hend : t.isEnd ↔ s.peek = endOfInput := by rw [hpeek, Token.isEnd, decide_eq_true_eq]
    refine ⟨t, ht, ?_, fun htend => hplaced.consume_of_end (hend.mp htend), fun htmore => ?_⟩
    · rwa [TokenStream.sees, Bool.or_eq_true, decide_eq_true_eq] at hsees
    · exact (hplaced.firstSeen_consume fun he => htmore (hend.mpr he)).le
  · rintro σ hooks outer decision session rfl
    exact stream_predict hooks outer decision hplaced

/-- Tokens on two channels, with an end of the input among them on a third. -/
def mixedTokens : List Token :=
  [{ Token.ofText 1 "a" with channel := 1 }, Token.ofText 2 "b", { Token.ofText endOfInput "" with channel := 2 },
    Token.ofText 3 "c"]

theorem stream_restored_mixed :
    let s := (TokenStream.ofTokens mixedTokens 0).consume.seek 0
    s.Used ∧ s.index = 1 ∧ s.tokenAhead 5 = (TokenStream.consume^[4] s).tokenAhead 1 ∧ s.seek s.index = s := by
  intro s
  have hused : s.Used := ((TokenStream.Used.ofTokens mixedTokens 0).consume).seek 0
  obtain ⟨-, hahead, ⟨hseek, -⟩, -⟩ := stream_restored hused
  exact ⟨hused, by cbv, (hahead 5 (by decide)).1, hseek⟩

end Predictor
end AdaptiveLL

import AdaptiveLL.Proofs.Guard
import AdaptiveLL.Proofs.Parsing.TwoStage

/-! # Where a parser goes

Of a parser at some place it is said which trace it ends with, and in how many steps, unless a limit is hit
(`Session.Yields`); and of two places, that it gets from one to the other (`Session.Goes`).  For each kind of
transition one lemma says where the parser goes along it.
-/
namespace AdaptiveLL

namespace Session
open Run

/-- How far a parser is. -/
structure Place where
  /-- The walk. -/
  walk : Walk
  /-- The position of the next token. -/
  index : Nat
  /-- The symbols ahead. -/
  ahead : List Symbol

variable {σ : Type} {n : Network} {hooks : ParserHooks σ} {s : Session σ} {p p' p'' : Place}

/-- A session over a network, with a cache that holds nothing wrong, at a place in a stream of which every token is
seen. -/
structure Stands (n : Network) (p : Place) (s : Session σ) : Prop where
  sane : s.predictor.Sane n fun _ => True
  placed : s.stream.Placed
  seen : ∀ t ∈ s.stream.tokens.toList, s.stream.sees t
  index : s.stream.index = p.index
  ahead : s.stream.remaining = p.ahead

/-- A walk from a place ends with a trace within so many steps, unless a limit is hit. -/
def Yields (n : Network) (hooks : ParserHooks σ) (t : Trace) (steps : Nat) (p : Place) : Prop :=
  ∀ s : Session σ, s.Stands n p → ∀ fuel, steps ≤ fuel → Limited (fun t' _ => t' = t) (walk hooks fuel p.walk s)

/-- A walk gets from one place to another in so many steps, unless a limit is hit. -/
def Goes (n : Network) (hooks : ParserHooks σ) (steps : Nat) (p p' : Place) : Prop :=
  ∀ t more, Yields n hooks t more p' → Yields n hooks t (steps + more) p

namespace Stands
variable {x : Symbol} {w : List Symbol} (h : s.Stands n p)
include h

theorem network : s.predictor.network = n := h.sane.network

/-- The next symbol is the first one ahead. -/
theorem peek (hahead : p.ahead = x :: w) : s.stream.peek = x := by
  obtain ⟨v, hv, -⟩ := h.placed.remaining_cases
  rw [h.ahead, hahead] at hv
  exact (List.cons.inj hv).1.symm

/-- Behind a token the next one is read. -/
theorem consume (hahead : p.ahead = x :: w) (hx : x ≠ endOfInput) (walk : Walk) :
    Stands n ⟨walk, p.index + 1, w⟩ { s with stream := s.stream.consume } := by
  have hpeek := h.peek hahead
  obtain ⟨v, hv, -, hmore⟩ := h.placed.remaining_cases
  rw [hpeek] at hv hmore
  rw [h.ahead, hahead] at hv
  have hseen : ∀ t ∈ s.stream.consume.tokens.toList, s.stream.consume.sees t := fun t ht => by
    rw [s.stream.tokens_consume] at ht
    have := h.seen t ht
    rwa [TokenStream.sees, s.stream.channel_consume]
  refine ⟨h.sane, h.placed.consume, hseen, ?_, (hmore hx).symm.trans (List.cons.inj hv).2.symm⟩
  have hfirst := h.placed.firstSeen_consume (hpeek ▸ hx)
  have hlt : s.stream.index + 1 < s.stream.tokens.size :=
    lt_of_le_of_lt hfirst.le (s.stream.tokens_consume ▸ h.placed.consume.index_lt)
  rw [← h.index]
  exact hfirst.eq_self ⟨_, Array.getElem?_eq_getElem hlt, h.seen _ (Array.mem_toList_iff.mpr (Array.getElem_mem hlt))⟩

/-- Predicting leaves the session where it is. -/
theorem predict (hooks : ParserHooks σ) (outer : List Invocation) (decision : Nat) :
    (Predictor.predict hooks outer decision s).2.Stands n p := by
  have hstream := Predictor.stream_predict hooks outer decision h.placed
  exact ⟨Predictor.predict_sane hooks outer decision h.sane, hstream ▸ h.placed, hstream ▸ h.seen, hstream ▸ h.index,
    hstream ▸ h.ahead⟩

end Stands

namespace Goes
variable {steps steps' : Nat}

theorem trans (h : Goes n hooks steps p p') (h' : Goes n hooks steps' p' p'') : Goes n hooks (steps + steps') p p'' :=
  fun t more hyields => Nat.add_assoc .. ▸ h t _ (h' t more hyields)

/-- A step that leads to a place, unless a limit is hit. -/
theorem of_step (h : ∀ s : Session σ, s.Stands n p →
    Limited (fun o s' => o = .inr p'.walk ∧ s'.Stands n p') (step hooks p.walk s)) : Goes n hooks 1 p p' := by
  intro t more hyields s hs fuel hfuel
  obtain ⟨fuel, rfl⟩ : ∃ f, fuel = f + 1 := ⟨fuel - 1, by omega⟩
  rw [walk]
  refine (h s hs).bind ?_
  rintro _ s' ⟨rfl, hs'⟩
  exact hyields s' hs' fuel (by omega)

end Goes

/-! ## One step -/

/-- Where there is one way on, it is taken. -/
theorem step_of_one {w : Walk} {t : Transition} (hs : s.predictor.network = n) (hq : ¬ n.isStop w.state)
    (hways : n.ways w.state = [t]) : step hooks w s = (Sum.inr <$> take hooks w t : Run _ _) s := by
  have hmem : t ∈ n.ways w.state := hways ▸ List.mem_singleton_self t
  have hone : (n.state w.state).transitions = [t] := hways
  rw [step, Run.bind_apply, Run.get_apply]
  dsimp only
  rw [hs, Network.state?_eq (Layout.lt_of_mem_ways hmem)]
  dsimp only
  rw [if_neg (show ¬ (n.state w.state).isStop from hq), choose_of_one (by simp [hone]), Run.bind_apply,
    Run.pure_apply]
  dsimp only
  rw [State.alternative?, if_neg Nat.one_ne_zero, hone]
  rfl

/-- Where there are several ways on, the predicted one is taken. -/
theorem step_of_many {w : Walk} {d : Nat} (hs : s.predictor.network = n) (hq : ¬ n.isStop w.state)
    (hd : (n.state w.state).decision = some d) (hmany : 1 < (n.ways w.state).length) : step hooks w s = (do
      let alt ← Predictor.predict hooks w.running d
      match (n.state w.state).alternative? alt with
      | some t => .inr <$> take hooks (w.noting (.decision d w.state alt s.stream.index)) t
      | none => throw (.internal (.noAlternative w.state alt)) : Run _ _) s := by
  have hlt : w.state < n.states.size := by
    obtain ⟨t, ht⟩ := List.exists_mem_of_length_pos (Nat.zero_lt_of_lt hmany)
    exact Layout.lt_of_mem_ways ht
  rw [step, Run.bind_apply, Run.get_apply]
  dsimp only
  rw [hs, Network.state?_eq hlt]
  dsimp only
  rw [if_neg (show ¬ (n.state w.state).isStop from hq), Run.bind_apply, choose_of_many hd hmany, Run.bind_apply,
    Run.bind_apply]
  rcases Predictor.predict hooks w.running d s with ⟨e | alt, s'⟩
  · rfl
  · rfl

/-- At the end of a rule it is left. -/
theorem step_of_isStop {w : Walk} (hs : s.predictor.network = n) (hq : n.isStop w.state) :
    step hooks w s = leave w s := by
  rw [step, Run.bind_apply, Run.get_apply]
  dsimp only
  rw [hs, Network.state?_eq (Network.lt_of_isStop hq)]
  dsimp only
  rw [if_pos (show (n.state w.state).isStop from hq)]

/-! ## Going along a transition -/

namespace Goes
variable {q z i : Nat} {running : List Invocation} {done : List TraceEvent} {ahead : List Symbol}

/-- A transition that is the only way on leads to a place if whoever takes it gets there. -/
theorem along {t : Transition} {w : Walk} (hq : ¬ n.isStop q) (hways : n.ways q = [t])
    (h : ∀ s : Session σ, s.Stands n ⟨⟨q, running, done⟩, i, ahead⟩ →
      ∃ s', take hooks ⟨q, running, done⟩ t s = (.ok w, s') ∧ s'.Stands n ⟨w, p.index, p.ahead⟩) :
    Goes n hooks 1 ⟨⟨q, running, done⟩, i, ahead⟩ ⟨w, p.index, p.ahead⟩ := by
  refine of_step fun s hs => ?_
  obtain ⟨s', htake, hs'⟩ := h s hs
  rw [step_of_one hs.network hq hways, map_eq_pure_bind, Run.bind_apply, htake]
  exact .ok ⟨rfl, hs'⟩

/-- Along a free transition. -/
theorem epsilon (hq : ¬ n.isStop q) (hways : n.ways q = [.epsilon z]) :
    Goes n hooks 1 ⟨⟨q, running, done⟩, i, ahead⟩ ⟨⟨z, running, done⟩, i, ahead⟩ :=
  along (p := ⟨⟨z, running, done⟩, i, ahead⟩) hq hways fun s hs => ⟨s, rfl, { hs with }⟩

/-- Into a rule. -/
theorem call {rule follow : Nat} {level : Int} (hq : ¬ n.isStop q) (hways : n.ways q = [.call z rule level follow]) :
    Goes n hooks 1 ⟨⟨q, running, done⟩, i, ahead⟩
      ⟨⟨z, running ++ [.called rule q level], .enterRule rule i :: done⟩, i, ahead⟩ := by
  refine along (p := ⟨⟨z, running, done⟩, i, ahead⟩) hq hways fun s hs => ⟨s, ?_, { hs with }⟩
  have hindex : s.stream.index = i := hs.index
  simp only [take, Run.bind_apply, Run.get_apply, hindex]
  rfl

/-- Over a token. -/
theorem token {x : Symbol} (hq : ¬ n.isStop q) (hways : n.ways q = [.symbol z x]) (hx : x ≠ endOfInput) :
    Goes n hooks 1 ⟨⟨q, running, done⟩, i, x :: ahead⟩ ⟨⟨z, running, .token x i :: done⟩, i + 1, ahead⟩ := by
  refine along (p := ⟨⟨z, running, done⟩, i + 1, ahead⟩) hq hways fun s hs => ?_
  have hpeek : s.stream.peek = x := hs.peek rfl
  have hindex : s.stream.index = i := hs.index
  have htake : take hooks ⟨q, running, done⟩ (.symbol z x) s = _ := take_eat hs.network (decide_eq_true hpeek.symm)
  rw [hpeek, hindex, if_neg hx] at htake
  exact ⟨_, htake, hs.consume rfl hx _⟩

/-- Over the end of the input, where the stream stays. -/
theorem atEnd (hq : ¬ n.isStop q) (hways : n.ways q = [.symbol z endOfInput]) :
    Goes n hooks 1 ⟨⟨q, running, done⟩, i, endOfInput :: ahead⟩
      ⟨⟨z, running, .token endOfInput i :: done⟩, i, endOfInput :: ahead⟩ := by
  refine along (p := ⟨⟨z, running, done⟩, i, endOfInput :: ahead⟩) hq hways fun s hs => ?_
  have hpeek : s.stream.peek = endOfInput := hs.peek rfl
  have hindex : s.stream.index = i := hs.index
  have htake : take hooks ⟨q, running, done⟩ (.symbol z endOfInput) s = _ :=
    take_eat hs.network (decide_eq_true hpeek.symm)
  rw [hpeek, hindex, if_pos rfl] at htake
  exact ⟨_, htake, { hs with }⟩

/-- Past a level that is allowed. -/
theorem precedence {level : Int} (hq : ¬ n.isStop q) (hways : n.ways q = [.precedence z level])
    (hlevel : ∀ author, (Guard.precedence level).Holds hooks running author) :
    Goes n hooks 1 ⟨⟨q, running, done⟩, i, ahead⟩ ⟨⟨z, running, done⟩, i, ahead⟩ := by
  refine along (p := ⟨⟨z, running, done⟩, i, ahead⟩) hq hways fun s hs => ?_
  have hholds := hlevel s.author
  rw [Guard.Holds] at hholds
  refine ⟨{ s with author := ((Guard.precedence level).eval hooks running s.author).2 }, ?_, { hs with }⟩
  simp only [take, Run.bind_apply, Run.get_apply, require]
  rcases heval : (Guard.precedence level).eval hooks running s.author with ⟨b, author⟩
  rw [heval] at hholds
  obtain rfl : b = true := hholds
  rfl

/-- Along the alternative that is predicted. -/
theorem decision {d alt : Nat} (hq : ¬ n.isStop q) (hd : (n.state q).decision = some d)
    (hmany : 1 < (n.ways q).length)
    (halt : (n.state q).alternative? alt = some (.epsilon z))
    (hpredict : ∀ s : Session σ, s.Stands n ⟨⟨q, running, done⟩, i, ahead⟩ →
      Limited (fun alt' _ => alt' = alt) (Predictor.predict hooks running d s)) :
    Goes n hooks 1 ⟨⟨q, running, done⟩, i, ahead⟩ ⟨⟨z, running, .decision d q alt i :: done⟩, i, ahead⟩ := by
  refine of_step fun s hs => ?_
  have hpredict := hpredict s hs
  have hstands := hs.predict hooks running d
  have hindex : s.stream.index = i := hs.index
  rw [step_of_many hs.network hq hd hmany, Run.bind_apply]
  generalize Predictor.predict hooks running d s = r at hpredict hstands ⊢
  cases hpredict with
  | limit he => exact .limit he
  | ok halt' =>
    dsimp only
    rw [halt', halt, hindex]
    exact .ok ⟨rfl, { hstands with }⟩

/-- Out of a rule, behind its call. -/
theorem leave {frame : Invocation} {caller follow : Nat} (hq : n.isStop q) (hcaller : frame.caller = some caller)
    (hfollow : n.follow caller = .ok follow) :
    Goes n hooks 1 ⟨⟨q, running ++ [frame], done⟩, i, ahead⟩
      ⟨⟨follow, running, .exitRule frame.rule i :: done⟩, i, ahead⟩ := by
  refine of_step fun s hs => ?_
  have hindex : s.stream.index = i := hs.index
  have hleave : Session.leave ⟨q, running ++ [frame], done⟩ s =
      (.ok (.inr ⟨follow, running, .exitRule frame.rule i :: done⟩), s) := by
    unfold Session.leave
    simp only [List.getLast?_concat, Run.bind_apply, Run.get_apply, hcaller, hs.network, hfollow, Walk.noting,
      List.dropLast_concat, hindex]
    rfl
  rw [step_of_isStop hs.network hq, hleave]
  exact .ok ⟨rfl, { hs with }⟩

end Goes

/-- Out of the rule that nobody called, which ends the walk. -/
theorem yields_of_isStop {q i : Nat} {running : List Invocation} {done : List TraceEvent} {ahead : List Symbol}
    {frame : Invocation} (hq : n.isStop q) (hlast : running.getLast? = some frame) (hcaller : frame.caller = none) :
    Yields n hooks ⟨(.exitRule frame.rule i :: done).reverse⟩ 1 ⟨⟨q, running, done⟩, i, ahead⟩ := by
  intro s hs fuel hfuel
  obtain ⟨fuel, rfl⟩ : ∃ f, fuel = f + 1 := ⟨fuel - 1, by omega⟩
  have hindex : s.stream.index = i := hs.index
  have hleave : leave ⟨q, running, done⟩ s = (.ok (.inl ⟨(.exitRule frame.rule i :: done).reverse⟩), s) := by
    unfold leave
    simp only [hlast, Run.bind_apply, Run.get_apply, hcaller, hindex]
    rfl
  rw [walk, Run.bind_apply, step_of_isStop hs.network hq, hleave]
  exact .ok rfl

end Session
end AdaptiveLL

import Mathlib
import AdaptiveLL.Proofs.Lexing.Course
import AdaptiveLL.Proofs.Lexing.Inside

/-! # Where a text leads

In a network without predicates in which the end of the input is not consumed (`Network.Textual`) the threads of
a match need not stand at every spot at which the machine can rest: a decision that prefers to leave drops some
of them.  But they stand nowhere else.  Each is at rest at a spot that the text read so far leads to
(`Thread.Reads`), which closing and consuming keep up (`Thread.reads_starts`, `Thread.reads_reach`).

So no thread is left beyond the end of the input, and a match fails only where a closure is too deep.  Otherwise
it gets to a place in the text where no thread is left, and whatever its steps keep true holds there
(`Course.Munches.arrives`).
-/
namespace AdaptiveLL

namespace Thread
variable {n : Network} {env : Outlook Unit} {start : Nat} {w : List Symbol} {t : Thread}

/-! ## Closing and consuming -/

/-- What a closure collects is at rest where the machine comes to freely. -/
theorem rests_of_trace (hn : env.network.Textual) {finished : Bool} {p : Progress}
    (h : trace env finished t = .ok p) {u : Thread} (hu : u ∈ p.collected) :
    env.network.Rests u.spot ∧ Relation.ReflTransGen env.network.Free t.spot u.spot := by
  have hkept : Kept env fun u => Relation.ReflTransGen env.network.Free t.spot u.spot := {
    pop := fun {v x below} hv hstop hstack => by
      have hpop : env.network.Free v.spot ⟨x, below⟩ := by
        rw [spot, hstack]
        exact .pop hstop
      exact hv.tail hpop
    along := fun {v tr s} hv hstop htr hfree =>
      hv.tail (free_along hn hstop htr ((isFree_iff hn htr).mp hfree) s) }
  exact (trace_keeps hkept .refl h u hu).symm

/-- A thread is at rest where a text leads from one of the ways out of a state. -/
structure Reads (n : Network) (start : Nat) (w : List Symbol) (t : Thread) : Prop where
  rests : n.Rests t.spot
  reads : ∃ tr ∈ n.ways start, n.Reads minCodePoint maxCodePoint ⟨tr.target, []⟩ w t.spot

theorem Tracks.reads {ts : List Thread} (h : Tracks n start w ts) (ht : t ∈ ts) : t.Reads n start w := by
  obtain ⟨hrests, tr, htr, hreads⟩ := (h.shows t.alt t.spot).mp ⟨t, ht, rfl, rfl⟩
  exact ⟨hrests, tr, List.mem_of_getElem? (State.alternative?_eq_some htr).2.2, hreads⟩

/-- Where a thread stands is told by the outline of a list. -/
theorem reads_of_outline {ts us : List Thread} (h : outline ts = outline us)
    (hus : ∀ u ∈ us, u.Reads n start w) : ∀ t ∈ ts, t.Reads n start w := by
  intro t ht
  obtain ⟨u, hu, he⟩ := mem_unplaced_of_outline h ht
  have hspot : u.spot = t.spot := by rw [← spot_unplaced u, he, spot_unplaced]
  obtain ⟨hrests, hreads⟩ := hus u hu
  rw [hspot] at hrests hreads
  exact ⟨hrests, hreads⟩

/-- The threads of a beginning have read nothing. -/
theorem reads_starts (hn : env.network.Textual) {s : Sweep} (h : starts env start = .ok s) :
    ∀ t ∈ s.threads, t.Reads env.network start [] := by
  intro t ht
  obtain ⟨tr, htr, i, p, hp, ht⟩ := mem_starts h ht
  obtain ⟨hrests, hfree⟩ := rests_of_trace hn hp ht
  exact ⟨hrests, tr, htr, .of_free hfree⟩

/-- What threads lead to over a character has read the character too. -/
theorem reads_reach (hn : env.network.Textual) {offset : Nat} {x : Symbol} {ts : List Thread} {s : Sweep}
    (hts : ∀ t ∈ ts, t.Reads env.network start w) (h : reach env offset x ts = .ok s) :
    ∀ u ∈ s.threads, u.Reads env.network start (w ++ [x]) := by
  intro u hu
  obtain ⟨t, ht, f, r, hr, hu⟩ := (mem_reachAll h hu).resolve_left List.not_mem_nil
  obtain ⟨tr, htr, hx, d, p, hd, hp, hu⟩ := mem_yield hr hu
  obtain ⟨hrests, hfree⟩ := rests_of_trace hn hp hu
  obtain ⟨tr₀, htr₀, hreads⟩ := (hts t ht).reads
  -- From the end of a rule nothing is consumed.
  have hstop : ¬ env.network.isStop t.state := by
    intro hstop
    have hnone := hn.stops hstop htr
    rw [consumes_not_isFree hx] at hnone
    cases hnone
  rw [(eq_of_cross hd).1] at hfree
  exact ⟨hrests, tr₀, htr₀, hreads.append (.eat (.along hstop htr hx) (.of_free hfree))⟩

/-- A thread that a text leads to is inside the network. -/
theorem Reads.inside (h : t.Reads n start w) (hclosed : n.Closed) : t.Inside n := by
  obtain ⟨-, tr, htr, hreads⟩ := h
  obtain ⟨s, hs, hstate⟩ := exists_state (Layout.lt_of_mem_ways htr)
  rw [Network.ways, Network.state_of_state? hstate] at htr
  exact hreads.inside hclosed ⟨(hclosed.transitions hs tr htr).1, fun q hq => absurd hq List.not_mem_nil⟩

/-- Nothing leads over the end of the input. -/
theorem not_reads_end (hn : n.Textual) : ¬ t.Reads n start (w ++ [endOfInput]) := by
  rintro ⟨-, tr, -, hreads⟩
  obtain ⟨y, -, hend⟩ := hreads.exists_of_append
  obtain ⟨y', z, -, heats, -⟩ := hend.exists_of_cons
  cases heats with
  | along _ htr hx =>
    rw [hn.sparesEnd _ _ htr] at hx
    cases hx

theorem eq_nil_of_reads_end (hn : n.Textual) {ts : List Thread}
    (h : ∀ t ∈ ts, t.Reads n start (w ++ [endOfInput])) : ts = [] :=
  List.eq_nil_iff_forall_not_mem.mpr fun t ht => not_reads_end hn (h t ht)

end Thread

/-- A lexer's network has a token for each of its rules. -/
theorem Grammar.LaidOut.rule_lt_tokenTypes {g : Grammar} {p : Plan} {lazy : Prop} {n : Network}
    (h : g.LaidOut p lazy n) (hg : g.kind = .lexer) {q : Nat} (hq : n.isStop q) :
    (n.state q).rule < n.tokenTypes.size := by
  obtain ⟨i, hi, rfl⟩ := h.isStop_iff.mp hq
  have htypes := congrArg List.length (h.toTables.tokenTypes hg)
  rw [List.take_length, List.length_map, Array.length_toList] at htypes
  rw [(h.inRule_stop hi).1, htypes]
  exact hi

/-- The characters ahead of a place. -/
def CharStream.ahead (s : CharStream) : List Symbol := (s.chars.toList.drop s.index).map Symbol.ofChar

theorem CharStream.length_ahead (s : CharStream) : s.ahead.length = s.chars.size - s.index := by
  rw [ahead, List.length_map, List.length_drop, Array.length_toList]

/-- The character at a place is the next one ahead. -/
theorem CharStream.take_succ_ahead {s : CharStream} {k : Nat} (hk : s.index + k < s.chars.size) :
    s.ahead.take (k + 1) = s.ahead.take k ++ [(⟨s.chars, s.index + k⟩ : CharStream).peek] := by
  have hpeek : (⟨s.chars, s.index + k⟩ : CharStream).peek = Symbol.ofChar s.chars[s.index + k] := by
    simp [CharStream.peek, CharStream.lookahead, hk]
  rw [List.take_add_one, hpeek, ahead, List.getElem?_map, List.getElem?_drop,
    List.getElem?_eq_getElem (by simpa using hk)]
  rfl

/-! ## A whole match -/

namespace Course
variable {c : Course} {start : Nat} {w : List Symbol} {p : Standpoint} {x : Symbol} {ts ts' : List Thread}

/-- Whatever a step of a match leads to has read the symbol too. -/
theorem Moves.reads (hn : c.network.Textual) (h : c.Moves p x ts ts')
    (hts : ∀ t ∈ ts, t.Reads c.network start w) : ∀ t ∈ ts', t.Reads c.network start (w ++ [x]) := by
  obtain ⟨-, settings, -, sweep, hreach, heq⟩ := h
  have hview : (c.view settings p x).network = c.network := rfl
  rw [← hview] at hn hts ⊢
  exact Thread.reads_of_outline heq (Thread.reads_reach hn hts hreach)

/-- A step of a match fails only where a closure is too deep. -/
theorem Fails.tooDeep (hn : c.network.Textual) (hclosed : c.network.Closed)
    (htypes : ∀ {q}, c.network.isStop q → (c.network.state q).rule < c.network.tokenTypes.size)
    (hts : ∀ t ∈ ts, t.Reads c.network start w) {e : RecognitionError} (h : c.Fails p x ts e) :
    Thread.TooDeep c.settings.maxDepth e := by
  have hview : (c.view c.settings p x).network = c.network := rfl
  rcases h with h | ⟨sweep, hreach, h⟩
  · have hfails : Thread.FailsWith (Thread.TooDeep c.settings.maxDepth)
        (Thread.reach (c.view c.settings p x) 0 x ts) :=
      Thread.failsWith_reach hclosed 0 x fun t ht => (hts t ht).inside hclosed
    exact hfails e h
  · rw [← hview] at hn hts
    have hreads := Thread.reads_reach hn hts hreach
    exact Thread.failsWith_recognised? (fun t ht => (hreads t ht).inside hclosed) (fun t _ => htypes) e h

/-- A match that fails before anything is read does so because a closure is too deep. -/
theorem tooDeep_of_starts (hn : c.network.Textual) (hclosed : c.network.Closed)
    (htypes : ∀ {q}, c.network.isStop q → (c.network.state q).rule < c.network.tokenTypes.size)
    (hstart : start < c.network.states.size) {e : RecognitionError}
    (h : Thread.starts (c.sight c.settings p false) start = .error e ∨
      ∃ sweep, Thread.starts (c.sight c.settings p false) start = .ok sweep ∧
        Thread.recognised? c.network sweep.threads = .error e) : Thread.TooDeep c.settings.maxDepth e := by
  have hsight : (c.sight c.settings p false).network = c.network := rfl
  rcases h with h | ⟨sweep, hstarts, h⟩
  · have hfails : Thread.FailsWith (Thread.TooDeep c.settings.maxDepth)
        (Thread.starts (c.sight c.settings p false) start) := Thread.failsWith_starts hclosed hstart
    exact hfails e h
  · rw [← hsight] at hn
    have hreads := Thread.reads_starts hn hstarts
    exact Thread.failsWith_recognised? (fun t ht => (hreads t ht).inside hclosed) (fun t _ => htypes) e h

/-- **What a match keeps true holds where it gets to.**  From threads that the first `k` characters lead to, a
match fails only where a closure is too deep or the fuel runs out.  Otherwise it gets to a place in the text
where no thread is left, and what holds of the characters read, the threads and the last mark, and is kept by
each step over a character, holds there. -/
theorem Munches.arrives (hn : c.network.Textual) (hclosed : c.network.Closed)
    (htypes : ∀ {q}, c.network.isStop q → (c.network.state q).rule < c.network.tokenTypes.size)
    {s : CharStream} {I : Nat → List Thread → Option Mark → Prop}
    (hstep : ∀ {k : Nat} {p q : Standpoint} {x : Symbol} {ts ts' : List Thread} {last : Option Mark}
      {o : Option (Int × Option (List Command))}, s.index + k < s.chars.size → I k ts last → c.Moves p x ts ts' →
      s.ahead.take (k + 1) = s.ahead.take k ++ [x] → Thread.recognised? c.network ts' = .ok o →
      q.stream = ⟨s.chars, s.index + (k + 1)⟩ → I (k + 1) ts' (q.mark o <|> last))
    {fuel : Nat} {last : Option Mark} {q : Standpoint} {r : Except RecognitionError (Option Mark × Symbol)}
    (h : c.Munches fuel last ts x p r q) {k : Nat} (hk : s.index + k ≤ s.chars.size)
    (hp : p.stream = ⟨s.chars, s.index + k⟩) (hx : x = p.stream.peek)
    (hts : ∀ t ∈ ts, t.Reads c.network start (s.ahead.take k)) (hholds : I k ts last) :
    (∃ e, r = .error e ∧ (e = .outOfFuel ∨ Thread.TooDeep c.settings.maxDepth e)) ∨
      ∃ last' k' ts', r = .ok (last', q.stream.peek) ∧ s.index + k' ≤ s.chars.size ∧
        q.stream = ⟨s.chars, s.index + k'⟩ ∧ I k' ts' last' ∧ c.Moves q q.stream.peek ts' [] := by
  induction h generalizing k with
  | outOfFuel => exact .inl ⟨_, rfl, .inl rfl⟩
  | fails he => exact .inl ⟨_, rfl, .inr (he.tooDeep hn hclosed htypes hts)⟩
  | @stuck fuel last ts x p hmoves =>
    subst hx
    exact .inr ⟨last, k, ts, rfl, hk, hp, hholds, hmoves⟩
  | ends hmoves hne _ => exact absurd (Thread.eq_nil_of_reads_end hn (hmoves.reads hn hts)) hne
  | @on fuel last ts ts' x p q o r q' hmoves hne hrec _ hq _ ih =>
    -- Threads are left, so the symbol is a character of the text.
    have hmore : x ≠ endOfInput := by
      rintro rfl
      exact hne (Thread.eq_nil_of_reads_end hn (hmoves.reads hn hts))
    have hless : s.index + k < s.chars.size := by
      refine Nat.lt_of_le_of_ne hk fun hend => hmore ?_
      rw [hx, CharStream.peek_eq_end_iff, hp]
      exact hend.ge
    have hstream : q.stream = ⟨s.chars, s.index + (k + 1)⟩ := by
      rw [hq, Standpoint.after, if_neg hmore, Standpoint.past, hp, CharStream.consume]
      exact if_pos hless
    have hnext : s.ahead.take (k + 1) = s.ahead.take k ++ [x] := by
      rw [CharStream.take_succ_ahead hless, hx, hp]
    refine ih (k := k + 1) hless hstream rfl ?_ (hstep hless hholds hmoves hnext hrec hstream)
    rw [hnext]
    exact hmoves.reads hn hts

/-- What a match without a mark comes to: at the end of the input the end itself, and elsewhere an error. -/
theorem outcome_of_none {q : Standpoint} {y : Symbol} {k mode : Nat} (hk : p.stream.index + k ≤ p.stream.chars.size)
    (hq : q.stream = ⟨p.stream.chars, p.stream.index + k⟩)
    (hend : y = endOfInput ↔ p.stream.index + k = p.stream.chars.size) :
    (p.stream.index = p.stream.chars.size ∧ outcome mode p q (.ok (none, y)) = .ok (endOfInput, none) ∧
      q.stream = p.stream) ∨
    (p.stream.index < p.stream.chars.size ∧ ∃ index line column, outcome mode p q (.ok (none, y)) =
      .error (.lexerNoViableAlt mode p.stream.index index line column)) := by
  have hindex : q.stream.index = p.stream.index + k := by rw [hq]
  unfold outcome
  dsimp only
  by_cases hat : p.stream.index = p.stream.chars.size
  · obtain rfl : k = 0 := by omega
    have hy : y = endOfInput := hend.mpr hat
    rw [if_pos (by simp [hy, hindex])]
    exact .inl ⟨hat, rfl, hq⟩
  · have hmore : ¬ (y = endOfInput && q.stream.index = p.stream.index) = true := by
      intro hboth
      rw [Bool.and_eq_true, decide_eq_true_iff, decide_eq_true_iff, hindex] at hboth
      have := hend.mp hboth.1
      omega
    rw [if_neg hmore]
    exact .inr ⟨by omega, _, _, _, rfl⟩

end Course
end AdaptiveLL

import Mathlib
import AdaptiveLL.Proofs.Lexing.History
import AdaptiveLL.Proofs.Lexing.Textual

/-! # The longest match

A token is the longest text that a token rule of the mode stands for, and of several rules that stand for it
the first one declared makes the token.  Where only characters decide (`Grammar.Greedy`) a match finds it,
whatever the automaton of the mode holds (`Course.Munches.longest`).

The threads of a match are ordered by their alternatives, which are the token rules in order, so the first
thread at the end of a rule tells the rule (`Thread.Tracks.verdict`).  A match goes on as long as there are
threads, and where there are none left no longer text is a token (`Thread.Tracks.not_reads`).
-/
namespace AdaptiveLL

namespace Grammar

/-- A text is a word of a token rule of a mode.  What fragments stand for is part of the rules that call
them. -/
structure Matches (g : Grammar) (mode : Nat) (w : List Symbol) (i : Nat) (r : Rule) : Prop where
  rule : g.rules[i]? = some r
  inMode : r.mode = mode
  token : r.isFragment = false
  derives : r.body.Derives g minCodePoint maxCodePoint w

/-- A text is a word of no token rule of a mode. -/
def Unmatched (g : Grammar) (mode : Nat) (w : List Symbol) : Prop := ∀ i r, ¬ g.Matches mode w i r

/-- The first token rule of a mode that a text is a word of. -/
def First (g : Grammar) (mode : Nat) (w : List Symbol) (r : Rule) : Prop :=
  ∃ i, g.Matches mode w i r ∧ ∀ j s, g.Matches mode w j s → i ≤ j

/-- The longest beginning of a text that is a word of a token rule of a mode, and the first such rule. -/
structure Longest (g : Grammar) (mode : Nat) (text : List Symbol) (k : Nat) (r : Rule) : Prop where
  le : k ≤ text.length
  first : g.First mode (text.take k) r
  longest : ∀ j, k < j → j ≤ text.length → g.Unmatched mode (text.take j)

end Grammar

/-! ## Reading a token rule -/

namespace Grammar.LaidOut
variable {g : Grammar} {p : Plan} {lazy : Prop} {n : Network} {mode : Nat} {w : List Symbol}

/-- Reading keeps a stack chained. -/
theorem chained_of_reads (h : g.LaidOut p lazy n) {top : Option Nat} {lo hi : Int} {s t : Spot}
    (hr : n.Reads lo hi s w t) (hc : n.Chained top s.state s.stack) : n.Chained top t.state t.stack := by
  induction hr with
  | refl => exact hc
  | free hf _ ih =>
    apply ih
    cases hf with
    | @pass q stack tr hstop htr hplain =>
      have halong := h.chained_along hc hstop htr
      have honto : tr.onto stack = stack := by
        cases tr <;> first | rfl | cases hplain
      rwa [honto] at halong
    | call hstop htr => exact h.chained_along hc hstop htr
    | pop hstop => exact hc.2.2
  | eat he _ ih => exact ih (h.chained_of_eats he hc)

/-- A rule that is run with an empty stack ends in its own stop. -/
theorem eq_stop_of_reads (h : g.LaidOut p lazy n) {i z : Nat} (hi : i < g.rules.length) {lo hi' : Int}
    (hr : n.Reads lo hi' ⟨p.start i, []⟩ w ⟨z, []⟩) (hz : n.isStop z) : z = p.stop i := by
  have hstart : n.Chained (some i) (p.start i) [] := fun rule hrule => by
    obtain rfl := Option.mem_some.mp hrule
    exact h.inRule_start hi
  have hend : n.InRule i z := h.chained_of_reads hr hstart i rfl
  obtain ⟨j, hj, rfl⟩ := h.isStop_iff.mp hz
  have hsame : j = i := (h.inRule_stop hj).1.symm.trans hend.1
  rw [hsame]

theorem reads_iff (h : g.LaidOut p lazy n) (hl : g.layout = .ok n) {i : Nat} {r : Rule}
    (hr : g.rules[i]? = some r) (lo hi : Int) (w : List Symbol) :
    n.Reads lo hi ⟨p.start i, []⟩ w ⟨p.stop i, []⟩ ↔ r.body.Derives g lo hi w := by
  obtain ⟨start, stop, hstart, hstop, hreads⟩ := Grammar.reads_iff_derives hl hr lo hi
  have hi := (List.getElem?_eq_some_iff.mp hr).1
  rw [h.toTables.ruleStart hi] at hstart
  rw [h.toTables.ruleStop hi] at hstop
  cases hstart
  cases hstop
  exact hreads w

/-- What is read from an alternative of a mode to the end of a rule is a word of the rule. -/
theorem matches_of_reads (h : g.LaidOut p lazy n) (hl : g.layout = .ok n) (hm : mode < p.modes)
    {alt z : Nat} {tr : Transition} (htr : (n.state mode).alternative? alt = some tr)
    (hr : n.Reads minCodePoint maxCodePoint ⟨tr.target, []⟩ w ⟨z, []⟩) (hz : n.isStop z) :
    ∃ i r, g.Matches mode w i r ∧ tr = .epsilon (p.start i) ∧ z = p.stop i := by
  obtain ⟨i, r, hrule, hmode, htoken, rfl⟩ := h.rule_of_alternative hm htr
  obtain rfl := h.eq_stop_of_reads (List.getElem?_eq_some_iff.mp hrule).1 hr hz
  exact ⟨i, r, ⟨hrule, hmode, htoken, (h.reads_iff hl hrule _ _ w).mp hr⟩, rfl, rfl⟩

/-- A word of a token rule of a mode is read from an alternative of the mode. -/
theorem reads_of_matches (h : g.LaidOut p lazy n) (hl : g.layout = .ok n) (hm : mode < p.modes)
    {i : Nat} {r : Rule} (hw : g.Matches mode w i r) :
    ∃ alt, (n.state mode).alternative? alt = some (.epsilon (p.start i)) ∧ n.isStop (p.stop i) ∧
      n.Reads minCodePoint maxCodePoint ⟨p.start i, []⟩ w ⟨p.stop i, []⟩ := by
  obtain ⟨alt, halt⟩ := h.exists_alternative hm hw.rule hw.inMode hw.token
  exact ⟨alt, halt, h.isStop_stop (List.getElem?_eq_some_iff.mp hw.rule).1,
    (h.reads_iff hl hw.rule _ _ w).mpr hw.derives⟩

end Grammar.LaidOut

/-! ## The rule that a match tells -/

namespace Thread
variable {n : Network} {ts : List Thread}

theorem recognised?_cons_of_isStop {t : Thread} {rest : List Thread} (hstop : n.isStop t.state)
    {o : Option (Int × Option (List Command))} (h : recognised? n (t :: rest) = .ok o) :
    ∃ type, n.tokenTypes[(n.state t.state).rule]? = some type ∧ o = some (type, t.commands) := by
  unfold recognised? at h
  split at h
  · cases h
  · next s hs =>
    rw [Network.isStop, Network.state_of_state? hs] at hstop
    rw [if_pos hstop] at h
    rw [Network.state_of_state? hs]
    split at h
    · next type htype =>
      cases h
      exact ⟨type, htype, rfl⟩
    · cases h

theorem recognised?_cons_of_not_isStop {t : Thread} {rest : List Thread} (hstop : ¬ n.isStop t.state)
    {o : Option (Int × Option (List Command))} (h : recognised? n (t :: rest) = .ok o) :
    recognised? n rest = .ok o := by
  unfold recognised? at h
  split at h
  · cases h
  · next s hs =>
    rw [Network.isStop, Network.state_of_state? hs] at hstop
    rwa [if_neg hstop] at h

/-- Nothing is recognised where no thread is at the end of a rule. -/
theorem recognised?_none (h : recognised? n ts = .ok none) : ∀ u ∈ ts, ¬ n.isStop u.state := by
  induction ts with
  | nil => exact fun u hu => absurd hu List.not_mem_nil
  | cons t rest ih =>
    by_cases hstop : n.isStop t.state
    · obtain ⟨type, -, he⟩ := recognised?_cons_of_isStop hstop h
      cases he
    · intro u hu
      rcases List.mem_cons.mp hu with rfl | hu
      · exact hstop
      · exact ih (recognised?_cons_of_not_isStop hstop h) u hu

/-- What is recognised is the token of the lowest alternative that is at the end of a rule. -/
theorem recognised?_some (hs : Sorted ts) {v : Int × Option (List Command)}
    (h : recognised? n ts = .ok (some v)) : ∃ u ∈ ts, n.isStop u.state ∧
      n.tokenTypes[(n.state u.state).rule]? = some v.1 ∧ ∀ u' ∈ ts, n.isStop u'.state → u.alt ≤ u'.alt := by
  induction ts with
  | nil => cases h
  | cons t rest ih =>
    obtain ⟨hle, hrest⟩ := List.pairwise_cons.mp hs
    by_cases hstop : n.isStop t.state
    · obtain ⟨type, htype, he⟩ := recognised?_cons_of_isStop hstop h
      cases he
      refine ⟨t, List.mem_cons_self, hstop, htype, fun u' hu' _ => ?_⟩
      rcases List.mem_cons.mp hu' with rfl | hu'
      · exact le_rfl
      · exact hle u' hu'
    · obtain ⟨u, hu, hustop, htype, hfirst⟩ := ih hrest (recognised?_cons_of_not_isStop hstop h)
      refine ⟨u, List.mem_cons_of_mem t hu, hustop, htype, fun u' hu' hu'stop => ?_⟩
      rcases List.mem_cons.mp hu' with rfl | hu'
      · exact absurd hu'stop hstop
      · exact hfirst u' hu' hu'stop

/-- What was recognised after reading a text: the token of the first rule that the text is a word of. -/
structure Verdict (g : Grammar) (mode : Nat) (w : List Symbol)
    (o : Option (Int × Option (List Command))) : Prop where
  unmatched : o = none → g.Unmatched mode w
  first : ∀ v, o = some v → ∃ r, g.First mode w r ∧ r.tokenType = v.1

theorem Tracks.verdict {g : Grammar} {p : Plan} {mode : Nat} {w : List Symbol} (h : Tracks n mode w ts)
    (hlaid : g.LaidOut p False n) (hl : g.layout = .ok n) (hg : g.Greedy) (hm : mode < p.modes)
    {o : Option (Int × Option (List Command))} (ho : recognised? n ts = .ok o) : Verdict g mode w o := by
  -- A rule that matches has a thread at its end.
  have hthread : ∀ {i r}, g.Matches mode w i r → ∃ u ∈ ts, n.isStop u.state ∧
      (n.state mode).alternative? u.alt = some (.epsilon (p.start i)) := by
    intro i r hw
    obtain ⟨alt, halt, hstop, hreads⟩ := hlaid.reads_of_matches hl hm hw
    obtain ⟨u, hu, rfl, hspot⟩ := (h.shows alt ⟨p.stop i, []⟩).mpr ⟨.inl ⟨hstop, rfl⟩, _, halt, hreads⟩
    obtain ⟨hstate, -⟩ := Spot.mk.inj hspot
    exact ⟨u, hu, hstate ▸ hstop, halt⟩
  refine ⟨?_, ?_⟩
  · rintro rfl i r hw
    obtain ⟨u, hu, hstop, -⟩ := hthread hw
    exact recognised?_none ho u hu hstop
  · rintro v rfl
    obtain ⟨u, hu, hstop, htype, hfirst⟩ := recognised?_some h.sorted ho
    obtain ⟨hrests, tr, htr, hreads⟩ := (h.shows u.alt u.spot).mp ⟨u, hu, rfl, rfl⟩
    have hstack : u.stack = [] := by
      rcases hrests with ⟨-, hnil⟩ | ⟨hnot, -⟩
      · exact hnil
      · exact absurd hstop hnot
    rw [spot, hstack] at hreads
    obtain ⟨i, r, hw, rfl, hz⟩ := hlaid.matches_of_reads hl hm htr hreads hstop
    refine ⟨r, ⟨i, hw, fun j s hs => ?_⟩, ?_⟩
    · obtain ⟨u', hu', hstop', halt'⟩ := hthread hs
      exact hlaid.alternative_mono hm htr halt' (hfirst u' hu' hstop')
    · have hi := (List.getElem?_eq_some_iff.mp hw.rule).1
      have hrule : (n.state (p.stop i)).rule = i := (hlaid.inRule_stop hi).1
      rw [hz, hrule] at htype
      have htypes := hlaid.toTables.tokenTypes hg.lexer
      rw [List.take_length] at htypes
      have hget : n.tokenTypes[i]? = some r.tokenType := by
        rw [← Array.getElem?_toList, htypes, List.getElem?_map, hw.rule]
        rfl
      rw [hget] at htype
      exact Option.some.inj htype

end Thread

/-! ## A whole match -/

/-- The place that a match would go back to: that behind the longest of the first `k` beginnings of a text
that is a word of a token rule, with the type of the first such rule. -/
def Grammar.Best (g : Grammar) (mode : Nat) (text : List Symbol) (origin k : Nat) : Option Mark → Prop
  | none => ∀ j ≤ k, g.Unmatched mode (text.take j)
  | some m => ∃ j ≤ k, m.index = origin + j ∧
      (∃ r, g.First mode (text.take j) r ∧ r.tokenType = m.type) ∧
      ∀ j', j < j' → j' ≤ k → g.Unmatched mode (text.take j')

namespace Grammar.Best
variable {g : Grammar} {mode origin k : Nat} {text : List Symbol} {last : Option Mark}

/-- No longer beginnings are words. -/
theorem extend (h : g.Best mode text origin k last) {k' : Nat} (hle : k ≤ k')
    (hnone : ∀ j, k < j → j ≤ k' → g.Unmatched mode (text.take j)) : g.Best mode text origin k' last := by
  have hbeyond : ∀ j, j ≤ k' → (k < j ∨ j ≤ k) := fun j _ => Nat.lt_or_ge k j
  cases last with
  | none =>
    intro j hj
    exact (hbeyond j hj).elim (fun hlt => hnone j hlt hj) (h j)
  | some m =>
    obtain ⟨j, hj, hindex, hfirst, hlongest⟩ := h
    refine ⟨j, hj.trans hle, hindex, hfirst, fun j' hlt hj' => ?_⟩
    exact (hbeyond j' hj').elim (fun hlt' => hnone j' hlt' hj') (hlongest j' hlt)

/-- A place is remembered where a token is recognised. -/
theorem mark {o : Option (Int × Option (List Command))} (ho : Thread.Verdict g mode (text.take k) o)
    {p : Standpoint} (hp : p.stream.index = origin + k)
    (hlast : o = none → g.Best mode text origin k last) : g.Best mode text origin k (p.mark o <|> last) := by
  cases o with
  | none => exact hlast rfl
  | some v =>
    obtain ⟨r, hr, htype⟩ := ho.first v rfl
    exact ⟨k, le_rfl, hp, ⟨r, hr, htype⟩, fun j' hlt hj' => absurd hlt (Nat.not_lt_of_le hj')⟩

end Grammar.Best

namespace Course
variable {c : Course} {g : Grammar} {pl : Plan} {mode : Nat} {s : CharStream}

/-- A step of a match keeps up with the machine. -/
theorem Moves.tracks (hn : c.network.Greedy) {p : Standpoint} {x : Symbol} {ts ts' : List Thread}
    (h : c.Moves p x ts ts') {start : Nat} {w : List Symbol} (hts : Thread.Tracks c.network start w ts) :
    Thread.Tracks c.network start (w ++ [x]) ts' := by
  obtain ⟨hsorted, settings, -, sweep, hreach, heq⟩ := h
  have hview : (c.view settings p x).network = c.network := rfl
  rw [← hview] at hn hts
  exact hts.reach hn hreach hsorted heq

/-- A step of a match over a character remembers the longest word so far. -/
theorem Moves.best (hn : c.network.Greedy) (hlaid : g.LaidOut pl False c.network) (hl : g.layout = .ok c.network)
    (hg : g.Greedy) (hm : mode < pl.modes) {p q : Standpoint} {x : Symbol} {ts ts' : List Thread}
    (h : c.Moves p x ts ts') {k : Nat} {last : Option Mark} {o : Option (Int × Option (List Command))}
    (hts : Thread.Tracks c.network mode (s.ahead.take k) ts) (hbest : g.Best mode s.ahead s.index k last)
    (hnext : s.ahead.take (k + 1) = s.ahead.take k ++ [x]) (hrec : Thread.recognised? c.network ts' = .ok o)
    (hq : q.stream = ⟨s.chars, s.index + (k + 1)⟩) : Thread.Tracks c.network mode (s.ahead.take (k + 1)) ts' ∧
      g.Best mode s.ahead s.index (k + 1) (q.mark o <|> last) := by
  have htracks := h.tracks hn hts
  rw [← hnext] at htracks
  have hverdict := htracks.verdict hlaid hl hg hm hrec
  refine ⟨htracks, Grammar.Best.mark hverdict (by rw [hq]) fun hnone => ?_⟩
  refine hbest.extend k.le_succ fun j hlt hj => ?_
  obtain rfl : j = k + 1 := by omega
  exact hverdict.unmatched hnone

/-- A match that does not run out of fuel and in which no closure fails comes to the longest match. -/
theorem Munches.longest (hn : c.network.Greedy) (hclosed : c.network.Closed) (hlaid : g.LaidOut pl False c.network)
    (hl : g.layout = .ok c.network) (hg : g.Greedy) (hm : mode < pl.modes) {fuel : Nat}
    {last : Option Mark} {ts : List Thread} {x : Symbol} {p q : Standpoint}
    {r : Except RecognitionError (Option Mark × Symbol)} (h : c.Munches fuel last ts x p r q) {k : Nat}
    (hk : s.index + k ≤ s.chars.size) (hp : p.stream = ⟨s.chars, s.index + k⟩) (hx : x = p.stream.peek)
    (hts : Thread.Tracks c.network mode (s.ahead.take k) ts)
    (hbest : g.Best mode s.ahead s.index k last) :
    (∃ e, r = .error e ∧ (e = .outOfFuel ∨ Thread.TooDeep c.settings.maxDepth e)) ∨
      ∃ last' y k', r = .ok (last', y) ∧ g.Best mode s.ahead s.index s.ahead.length last' ∧
        s.index + k' ≤ s.chars.size ∧ q.stream = ⟨s.chars, s.index + k'⟩ ∧
        (y = endOfInput ↔ s.index + k' = s.chars.size) := by
  have hlength := s.length_ahead
  have hend := h.arrives hn.textual hclosed (hlaid.rule_lt_tokenTypes hg.lexer)
    (I := fun k ts last => Thread.Tracks c.network mode (s.ahead.take k) ts ∧ g.Best mode s.ahead s.index k last)
    (fun _ hI hmoves hnext hrec hq => hmoves.best hn hlaid hl hg hm hI.1 hI.2 hnext hrec hq)
    hk hp hx (fun t ht => hts.reads ht) ⟨hts, hbest⟩
  refine hend.imp_right ?_
  rintro ⟨last', k', ts', rfl, hk', hq, ⟨htracks, hbest'⟩, hmoves⟩
  refine ⟨last', _, k', rfl, hbest'.extend (by omega) fun j hlt hj i r hw => ?_, hk', hq, ?_⟩
  · -- No thread is left behind the next character, so no longer beginning is a word.
    have hless : s.index + k' < s.chars.size := by omega
    have hgone := hmoves.tracks hn htracks
    rw [hq, ← CharStream.take_succ_ahead hless] at hgone
    obtain ⟨alt, halt, hstop, hreads⟩ := hlaid.reads_of_matches hl hm hw
    have hsplit : s.ahead.take j = s.ahead.take (k' + 1) ++ (s.ahead.take j).drop (k' + 1) := by
      have htake : (s.ahead.take j).take (k' + 1) = s.ahead.take (k' + 1) := by
        rw [List.take_take, Nat.min_eq_left hlt]
      rw [← htake, List.take_append_drop]
    rw [hsplit] at hreads
    exact hgone.not_reads hn rfl halt hstop hreads
  · rw [CharStream.peek_eq_end_iff, hq]
    exact ⟨fun hle => Nat.le_antisymm hk' hle, Eq.ge⟩

/-- What a match comes to at a place, for the outcome and the place after it. -/
inductive Settles (g : Grammar) (mode maxDepth : Nat) (s : CharStream) (a : Outcome) (t : CharStream) : Prop
  /-- A closure is too deep, or the match runs out of fuel. -/
  | fails {e : RecognitionError} : a = .error e → e = .outOfFuel ∨ Thread.TooDeep maxDepth e →
    Settles g mode maxDepth s a t
  /-- The longest match is taken. -/
  | takes {k : Nat} {r : Rule} {v : Int × Option (List Command)} : g.Longest mode s.ahead k r → a = .ok v →
    v.1 = r.tokenType → t = ⟨s.chars, s.index + k⟩ → Settles g mode maxDepth s a t
  /-- At the end of the input, where not even the empty text is a token. -/
  | ends : g.Unmatched mode [] → s.ahead = [] → a = .ok (endOfInput, none) → t = s → Settles g mode maxDepth s a t
  /-- There is no token. -/
  | stuck {index line column : Nat} : (∀ k, g.Unmatched mode (s.ahead.take k)) → s.ahead ≠ [] →
    a = .error (.lexerNoViableAlt mode s.index index line column) → Settles g mode maxDepth s a t

/-- Where only characters decide, a match settles with the longest match. -/
theorem Takes.settles (hn : c.network.Greedy) (hclosed : c.network.Closed) (hlaid : g.LaidOut pl False c.network)
    (hl : g.layout = .ok c.network) (hg : g.Greedy) (hm : mode < pl.modes) {p q : Standpoint}
    (hs : p.stream.index ≤ p.stream.chars.size) {a : Outcome} (h : c.Takes mode mode p a q) :
    Settles g mode c.settings.maxDepth p.stream a q.stream := by
  have hsight : ∀ settings, (c.sight settings p false).network = c.network := fun _ => rfl
  cases h with
  | failsToStart he =>
    obtain ⟨u, hu, -⟩ := hlaid.mode mode hm
    have hlt : mode < c.network.states.size := (Array.getElem?_eq_some_iff.mp hu).1
    exact .fails rfl (.inr (tooDeep_of_starts hn.textual hclosed (hlaid.rule_lt_tokenTypes hg.lexer) hlt he))
  | @runs settings sweep ts o r q hallowed hstarts hsorted heq hrec hmunches =>
    -- The threads track the machine from the start of the mode, and so decide on the empty prefix.
    have htracks : Thread.Tracks c.network mode (p.stream.ahead.take 0) ts := by
      rw [← hsight settings] at hn ⊢
      exact Thread.tracks_starts hn hstarts hsorted heq
    have hverdict := htracks.verdict hlaid hl hg hm hrec
    have hbest : g.Best mode p.stream.ahead p.stream.index 0 (p.mark o) := by
      have hor : (p.mark o <|> none) = p.mark o := by cases p.mark o <;> rfl
      rw [← hor]
      refine Grammar.Best.mark hverdict rfl fun hnone j hj => ?_
      obtain rfl := Nat.le_zero.mp hj
      exact hverdict.unmatched hnone
    rcases hmunches.longest hn hclosed hlaid hl hg hm hs rfl rfl htracks hbest with
      ⟨e, rfl, he⟩ | ⟨last, y, k, rfl, hlast, hk, hq, hend⟩
    · exact .fails rfl he
    · have hlength := p.stream.length_ahead
      cases last with
      | some m =>
        obtain ⟨j, hj, hindex, ⟨rule, hfirst, htype⟩, hlongest⟩ := hlast
        refine .takes ⟨hj, hfirst, hlongest⟩ rfl htype.symm ?_
        show q.stream.seek m.index = _
        rw [hq, CharStream.seek, hindex]
        dsimp only
        rw [Nat.min_eq_left (by omega)]
      | none =>
        show Settles g mode c.settings.maxDepth p.stream (outcome mode p q (.ok (none, y))) q.stream
        obtain ⟨hat, ha, hq'⟩ | ⟨hless, _, _, _, ha⟩ := outcome_of_none hk hq hend
        · exact .ends (hlast 0 (Nat.zero_le _)) (List.eq_nil_of_length_eq_zero (by omega)) ha hq'
        · refine .stuck (fun j => ?_) (List.ne_nil_of_length_pos (by omega)) ha
          rcases Nat.le_total j p.stream.ahead.length with hj | hj
          · exact hlast j hj
          · have hall := hlast _ le_rfl
            rw [List.take_length] at hall
            rwa [List.take_of_length_le hj]

end Course
end AdaptiveLL

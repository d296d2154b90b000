import Mathlib
import AdaptiveLL.Proofs.Lexing.LongestMatch
import AdaptiveLL.Proofs.Lexing.Unasked

/-! # Maximal munch

A lexer whose grammar has no predicates, no reluctant elements and nothing that consumes the end of the
input takes the longest text that is a token, and makes of it the token of the first rule that it is a word
of, whatever its cache holds from earlier matches (`Scan.next_longest`).

What is left to do after `Course.Takes.settles` is to come by its assumptions: the cache is faithful because
the matches that filled it could as well have been made with callbacks that always accept, and the match
does not run out of fuel.
-/
namespace AdaptiveLL

/-- A cache that matches have filled, with any callbacks and settings, over a network. -/
inductive Cache.Matched (n : Network) : Cache → Prop
  /-- Nothing was matched yet. -/
  | fresh : Matched n (Cache.ofNetwork n)
  /-- After a match, whatever it came to. -/
  | next {σ : Type} {s : Scan σ} (hooks : LexerHooks σ) (mode : Nat) : s.matcher.network = n →
      Matched n s.matcher.cache → Matched n (Scan.next hooks mode s).2.matcher.cache
  /-- After a mode's automaton was cleared, or all of them. -/
  | clear {c : Cache} (decision : Option Nat) : Matched n c → Matched n (c.clear decision)

/-- Callbacks that accept every predicate. -/
def LexerHooks.accepting {σ : Type} (hooks : LexerHooks σ) : LexerHooks σ :=
  { hooks with predicate := fun _ _ _ s => (true, s) }

theorem LexerHooks.accepting_answers {σ : Type} (hooks : LexerHooks σ) :
    hooks.accepting.Answers fun _ _ _ => true := fun _ _ _ _ => rfl

/-- Where no predicate is asked the callbacks of earlier matches do not matter. -/
theorem Cache.Matched.lexed {n : Network} (hn : n.Unasked) {c : Cache} (h : c.Matched n) :
    c.Lexed n fun _ => True := by
  induction h with
  | fresh => exact .fresh
  | @next σ s hooks mode hnet _ ih =>
    have hsame : Scan.next hooks mode s = Scan.next hooks.accepting mode s :=
      Scan.next_unasked mode (by rwa [← hnet] at hn)
    rw [hsame]
    exact .next _ _ mode hooks.accepting_answers hnet trivial ih
  | clear decision _ ih => exact .clear decision ih

namespace Grammar
variable {g : Grammar} {n : Network}

/-- A lexer's network begins each of its modes at the state of the mode's number. -/
theorem LaidOut.modeStart {p : Plan} {lazy : Prop} (h : g.LaidOut p lazy n) {mode : Nat}
    (hm : mode < p.modes) : n.modeStarts[mode]? = some mode := by
  rw [← Array.getElem?_toList, h.toTables.modeStarts, List.getElem?_range hm]

/-- A mode of a lexer has its decision. -/
theorem LaidOut.modeDecision {p : Plan} {lazy : Prop} (h : g.LaidOut p lazy n) (hg : g.kind = .lexer)
    {mode : Nat} (hm : mode < p.modes) {m : Matcher} (hnet : m.network = n) : m.modeDecision mode = .ok mode := by
  obtain ⟨s, hs, -, -, -, hdecision⟩ := h.mode mode hm
  obtain ⟨rest, hrest⟩ := h.decisions
  have hlt : mode < n.decisions.size := by
    rw [← Array.length_toList, ← hrest, List.length_append, List.length_range]
    omega
  unfold Matcher.modeDecision
  rw [hnet, if_neg (not_not.mpr (h.toTables.kind.trans hg)), h.modeStart hm]
  dsimp only
  rw [Network.state?, hs]
  dsimp only
  rw [hdecision]
  dsimp only
  rw [if_pos hlt]

/-- The network of a lexer's grammar is closed. -/
theorem closed_of_layout (h : g.layout = .ok n) (hg : g.kind = .lexer) {p : Plan} {lazy : Prop}
    (hlaid : g.LaidOut p lazy n) : n.Closed := by
  obtain ⟨n₀, -, hlink⟩ := layout_eq_ok_iff.mp h
  exact Network.closed_of_link hlink (hlaid.toTables.kind.trans hg)

end Grammar

namespace Scan
variable {σ : Type}

/-- **The longest match wins, and of several rules that match equally far the first.**  A lexer of a grammar
in which only characters decide, whatever earlier matches left in its cache, finds at any place of any text
the longest beginning of what is ahead that is a word of a token rule of its mode, takes it, and gives it the
type of the first such rule.  Where no beginning is a word it says at the end of the input that this is the
end, and elsewhere that there is no token.  Nothing else can happen but a closure that is too deep. -/
theorem next_longest {g : Grammar} {n : Network} (hl : g.layout = .ok n) (hg : g.Greedy) {mode : Nat}
    (hm : mode < g.modes.length) (m : Matcher) (hnet : m.network = n) (hcache : m.cache.Matched n)
    (hpatience : 0 < m.settings.patience) (stream : CharStream) (hs : stream.index ≤ stream.chars.size)
    (hooks : LexerHooks σ) (author : σ) :
    let r := next hooks mode ⟨m, stream, author⟩
    r.1 = .error (.closureDepthExceeded (m.settings.maxDepth + 1) m.settings.maxDepth) ∨
      (∃ k rule commands, g.Longest mode stream.ahead k rule ∧
        r.1 = .ok ⟨rule.tokenType, commands⟩ ∧ r.2.stream = ⟨stream.chars, stream.index + k⟩) ∨
      (∀ k, g.Unmatched mode (stream.ahead.take k)) ∧
        if stream.ahead = [] then r.1 = .ok ⟨endOfInput, none⟩ ∧ r.2.stream = stream
        else ∃ index line column,
          r.1 = .error (.lexerNoViableAlt mode stream.index index line column) := by
  obtain ⟨p, hlaid⟩ : ∃ p, g.LaidOut p False n := Grammar.exists_laidOut hl fun _ => hg.eager
  have hgreedy : n.Greedy := hlaid.greedy hg
  have hclosed : n.Closed := Grammar.closed_of_layout hl hg.lexer hlaid
  have hmode : mode < p.modes := by rwa [hlaid.modes, if_pos hg.lexer]
  have hsame : next hooks mode ⟨m, stream, author⟩ = next hooks.accepting mode ⟨m, stream, author⟩ :=
    next_unasked mode (by
      show m.network.Unasked
      rw [hnet]
      exact hgreedy.unasked)
  rw [hsame]
  have hsane : Scan.Sane n (fun _ => True) (⟨m, stream, author⟩ : Scan σ) :=
    ⟨hnet, trivial, (hcache.lexed hgreedy.unasked).faithful (Network.modesApart_of_layout hl)⟩
  have hdecision : m.modeDecision mode = .ok mode := hlaid.modeDecision hg.lexer hmode hnet
  rcases next_takes hooks.accepting_answers (Network.modesApart_of_layout hl) hsane mode with
    ⟨e, he, -⟩ | ⟨d, start, -, hstart, hends⟩
  · rw [hdecision] at he
    cases he
  obtain rfl : start = mode := Option.some.inj (hstart.symm.trans (hlaid.modeStart hmode))
  have hfuel : (next hooks.accepting start ⟨m, stream, author⟩).1 ≠ .error .outOfFuel :=
    next_isTimely hooks.accepting (by rw [network, hnet]; exact hgreedy.sparesEnd) hpatience start
  have hcourse : ((⟨m, stream, author⟩ : Scan σ).begun.course (fun _ => True) fun _ _ _ => true).network = n := hnet
  rw [← hcourse] at hgreedy hclosed hlaid hl
  have hsettles := hends.takes.settles hgreedy hclosed hlaid hl hg hmode hs
  intro r
  cases hsettles with
  | fails he hwhy =>
    have hr := TokenMatch.eq_error_of_unplaced he
    rcases hwhy with rfl | rfl
    · exact absurd hr hfuel
    · exact .inl hr
  | takes hlongest ha htype ht =>
    obtain ⟨⟨type, commands⟩, hr, hv⟩ := TokenMatch.exists_of_unplaced ha
    obtain rfl : type = _ := (congrArg Prod.fst hv).trans htype
    exact .inr (.inl ⟨_, _, commands, hlongest, hr, ht⟩)
  | ends hnone hend ha ht =>
    refine .inr (.inr ⟨fun k => ?_, ?_⟩)
    · show g.Unmatched start (stream.ahead.take k)
      rw [show stream.ahead = [] from hend, List.take_nil]
      exact hnone
    · rw [if_pos (show stream.ahead = [] from hend)]
      exact ⟨TokenMatch.eq_of_unplaced ha, ht⟩
  | stuck hnone hmore ha =>
    refine .inr (.inr ⟨hnone, ?_⟩)
    rw [if_neg (show stream.ahead ≠ [] from hmore)]
    exact ⟨_, _, _, TokenMatch.eq_error_of_unplaced ha⟩

end Scan

/-- A keyword. -/
def keywordRule : Rule := ⟨"IF", .seq [.char 'i', .char 'f'], 1, 0, false⟩

/-- A name, which the keyword is as well. -/
def nameRule : Rule := ⟨"NAME", .plus (.call "LETTER" 0) true, 2, 0, false⟩

/-- What a name is made of. -/
def letterRule : Rule := ⟨"LETTER", .range 97 122, 0, 0, true⟩

/-- The lexer's grammar of keywords and names. -/
def keywordGrammar : Grammar := { Grammar.lexer with rules := [keywordRule, nameRule, letterRule] }

/-- Its network. -/
def keywordNetwork : Network := keywordGrammar.layout.toOption.getD { kind := .lexer, maxSymbol := 0 }

namespace Scan

/-- The place behind the first word of a text, which was matched as a keyword. -/
def behindKeyword : Scan Unit :=
  let s := (next .none 0 ⟨.ofNetwork keywordNetwork {}, .ofText "if ifi", ()⟩).2
  { s with stream := s.stream.consume }

theorem next_longest_name :
    let m := behindKeyword.matcher
    let stream := behindKeyword.stream
    keywordGrammar.layout = .ok keywordNetwork ∧ keywordGrammar.Greedy ∧ 0 < keywordGrammar.modes.length ∧
      m.network = keywordNetwork ∧ m.cache.Matched keywordNetwork ∧ 0 < m.settings.patience ∧
      stream.index ≤ stream.chars.size ∧
      let r := next .none 0 ⟨m, stream, ()⟩
      r.1 = .error (.closureDepthExceeded (m.settings.maxDepth + 1) m.settings.maxDepth) ∨
        (∃ k rule commands, keywordGrammar.Longest 0 stream.ahead k rule ∧
          r.1 = .ok ⟨rule.tokenType, commands⟩ ∧ r.2.stream = ⟨stream.chars, stream.index + k⟩) ∨
        (∀ k, keywordGrammar.Unmatched 0 (stream.ahead.take k)) ∧
          if stream.ahead = [] then r.1 = .ok ⟨endOfInput, none⟩ ∧ r.2.stream = stream
          else ∃ index line column,
            r.1 = .error (.lexerNoViableAlt 0 stream.index index line column) := by
  obtain ⟨hlayout, hnetwork, hpatience, hindex⟩ :
      keywordGrammar.layout = .ok keywordNetwork ∧ behindKeyword.matcher.network = keywordNetwork ∧
        0 < behindKeyword.matcher.settings.patience ∧
        behindKeyword.stream.index ≤ behindKeyword.stream.chars.size := by
    cbv
  have hgreedy : keywordGrammar.Greedy := ⟨rfl, by decide, by decide, by decide⟩
  have hmatched : behindKeyword.matcher.cache.Matched keywordNetwork := .next .none 0 rfl .fresh
  exact ⟨hlayout, hgreedy, by decide, hnetwork, hmatched, hpatience, hindex,
    next_longest hlayout hgreedy (by decide) behindKeyword.matcher hnetwork hmatched hpatience
      behindKeyword.stream hindex .none ()⟩

/-- The keyword is also a name; of the two the first rule makes the token.  A longer name is a name. -/
example :
    (next .none 0 ⟨.ofNetwork keywordNetwork {}, .ofText "if ifi", ()⟩).1 = .ok ⟨1, none⟩ ∧
      (next .none 0 behindKeyword).1 = .ok ⟨2, none⟩ := by
  cbv

end Scan
end AdaptiveLL

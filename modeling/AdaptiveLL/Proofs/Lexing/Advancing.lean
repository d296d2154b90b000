import Mathlib
import AdaptiveLL.Proofs.Lexing.MaximalMunch

/-! # Matches that get on

In a lexer's grammar without predicates, without elements that match the end of the input, and without a token
rule that the empty text is a word of (`Grammar.Advancing`), a match that gives a token goes past a character,
whichever elements prefer to leave and whatever the cache holds (`Scan.next_advances`).  For the threads that a
match begins with have read nothing, so none of them is at the end of a token rule, and a place that is
remembered lies behind a character (`Course.Munches.advances`).

Only at the end of the input the match is the end itself, and it fails there for no reason that the input is to
blame for.
-/
namespace AdaptiveLL

/-- A lexer's grammar in which only the text decides, and in which the empty text is a word of no token rule. -/
structure Grammar.Advancing (g : Grammar) : Prop extends g.Textual where
  nonempty : ∀ r ∈ g.rules, r.isFragment = false → ¬ r.body.Derives g minCodePoint maxCodePoint []

namespace Element
variable {g : Grammar} {lo hi : Int} {e : Element} {w : List Symbol} {greedy : Bool}

/-- A sequence stands for the empty text only if its first part does. -/
theorem Derives.head_of_nil {items : List Element} (h : Derives g lo hi (.seq (e :: items)) w) (hw : w = []) :
    Derives g lo hi e [] := by
  cases h with
  | one => cases hw
  | next hu _ =>
    obtain ⟨rfl, -⟩ := List.append_eq_nil_iff.mp hw
    exact hu

/-- A repetition stands for the empty text only if what is repeated does. -/
theorem Derives.body_of_nil (h : Derives g lo hi (.plus e greedy) w) (hw : w = []) : Derives g lo hi e [] := by
  cases h with
  | one => cases hw
  | more hu _ =>
    obtain ⟨rfl, -⟩ := List.append_eq_nil_iff.mp hw
    exact hu

end Element

namespace Thread
variable {g : Grammar} {pl : Plan} {lazy : Prop} {n : Network} {mode : Nat}

/-- A thread that has read nothing is not at the end of a rule. -/
theorem Reads.not_isStop (hlaid : g.LaidOut pl lazy n) (hl : g.layout = .ok n) (hg : g.Advancing)
    (hm : mode < pl.modes) {t : Thread} (h : t.Reads n mode []) : ¬ n.isStop t.state := by
  intro hstop
  obtain ⟨hrests, tr, htr, hreads⟩ := h
  have hstack : t.stack = [] := by
    rcases hrests with ⟨-, hstack⟩ | ⟨hnot, -⟩
    · exact hstack
    · exact absurd hstop hnot
  obtain ⟨alt, halt⟩ := State.exists_alternative htr
  rw [spot, hstack] at hreads
  obtain ⟨i, r, hw, -, -⟩ := hlaid.matches_of_reads hl hm halt hreads hstop
  exact hg.nonempty r (List.mem_of_getElem? hw.rule) hw.token hw.derives

/-- Before anything is read no token is recognised. -/
theorem eq_none_of_recognised? {ts : List Thread} (hsorted : Sorted ts) (h : ∀ t ∈ ts, ¬ n.isStop t.state)
    {o : Option (Int × Option (List Command))} (ho : recognised? n ts = .ok o) : o = none := by
  cases o with
  | none => rfl
  | some v =>
    obtain ⟨u, hu, hstop, -⟩ := recognised?_some hsorted ho
    exact absurd hstop (h u hu)

end Thread

namespace Course
variable {c : Course} {g : Grammar} {pl : Plan} {lazy : Prop} {mode : Nat} {s : CharStream}

/-- The place that was remembered last lies in the text, behind where the match began. -/
def Passed (s : CharStream) (last : Option Mark) : Prop := ∀ m ∈ last, s.index < m.index ∧ m.index ≤ s.chars.size

/-- A place that is remembered behind a character is passed. -/
theorem Passed.mark {last : Option Mark} (h : Passed s last) {q : Standpoint} {k : Nat}
    (hless : s.index + k < s.chars.size) (hq : q.stream = ⟨s.chars, s.index + (k + 1)⟩)
    (o : Option (Int × Option (List Command))) : Passed s (q.mark o <|> last) := by
  cases o with
  | none => exact h
  | some v =>
    intro m hmark
    obtain rfl : _ = m := Option.some.inj hmark
    have hindex : q.stream.index = s.index + (k + 1) := by rw [hq]
    show s.index < q.stream.index ∧ q.stream.index ≤ s.chars.size
    omega

/-- From threads that have read nothing and a place that is passed, or none, a match gets to such a place. -/
theorem Munches.advances (hn : c.network.Textual) (hclosed : c.network.Closed)
    (htypes : ∀ {q}, c.network.isStop q → (c.network.state q).rule < c.network.tokenTypes.size)
    {start fuel : Nat} {last : Option Mark} {ts : List Thread} {p q : Standpoint}
    {r : Except RecognitionError (Option Mark × Symbol)} (h : c.Munches fuel last ts p.stream.peek p r q)
    (hs : p.stream.index ≤ p.stream.chars.size) (hts : ∀ t ∈ ts, t.Reads c.network start [])
    (hlast : Passed p.stream last) :
    (∃ e, r = .error e ∧ (e = .outOfFuel ∨ Thread.TooDeep c.settings.maxDepth e)) ∨
      ∃ last' k, r = .ok (last', q.stream.peek) ∧ p.stream.index + k ≤ p.stream.chars.size ∧
        q.stream = ⟨p.stream.chars, p.stream.index + k⟩ ∧ Passed p.stream last' := by
  have hend := h.arrives hn hclosed htypes (I := fun _ _ last => Passed p.stream last)
    (fun hless hI _ _ _ hq => hI.mark hless hq _) (k := 0) hs rfl rfl hts hlast
  exact hend.imp_right fun ⟨last', k, _, hr, hk, hq, hI, _⟩ => ⟨last', k, hr, hk, hq, hI⟩

/-- What a match comes to at a place, for the outcome and the place after it: it goes past a character, or fails
where there is one, unless it is at the end of the input or a closure is too deep. -/
inductive Advances (maxDepth : Nat) (s : CharStream) (a : Outcome) (t : CharStream) : Prop
  /-- A closure is too deep, or the match runs out of fuel. -/
  | fails {e : RecognitionError} : a = .error e → e = .outOfFuel ∨ Thread.TooDeep maxDepth e →
    Advances maxDepth s a t
  /-- A token is matched. -/
  | takes {v : Int × Option (List Command)} : a = .ok v → s.index < t.index → Advances maxDepth s a t
  /-- At the end of the input. -/
  | ends : s.index = s.chars.size → a = .ok (endOfInput, none) → t = s → Advances maxDepth s a t
  /-- There is no token. -/
  | stuck {e : RecognitionError} : s.index < s.chars.size → a = .error e → e.isSyntaxError → Advances maxDepth s a t

theorem Takes.advances (hn : c.network.Textual) (hclosed : c.network.Closed) (hlaid : g.LaidOut pl lazy c.network)
    (hl : g.layout = .ok c.network) (hg : g.Advancing) (hm : mode < pl.modes) {p q : Standpoint}
    (hs : p.stream.index ≤ p.stream.chars.size) {a : Outcome} (h : c.Takes mode mode p a q) :
    Advances c.settings.maxDepth p.stream a q.stream := by
  have htypes : ∀ {q}, c.network.isStop q → (c.network.state q).rule < c.network.tokenTypes.size :=
    hlaid.rule_lt_tokenTypes hg.lexer
  cases h with
  | failsToStart he =>
    obtain ⟨u, hu, -⟩ := hlaid.mode mode hm
    have hlt : mode < c.network.states.size := (Array.getElem?_eq_some_iff.mp hu).1
    exact .fails rfl (.inr (tooDeep_of_starts hn hclosed htypes hlt he))
  | @runs settings sweep ts o r q hallowed hstarts hsorted heq hrec hmunches =>
    have hsight : (c.sight settings p false).network = c.network := rfl
    have hts : ∀ t ∈ ts, t.Reads c.network mode [] := by
      rw [← hsight] at hn ⊢
      exact Thread.reads_of_outline heq (Thread.reads_starts hn hstarts)
    obtain rfl : o = none :=
      Thread.eq_none_of_recognised? hsorted (fun t ht => (hts t ht).not_isStop hlaid hl hg hm) hrec
    rcases hmunches.advances hn hclosed htypes hs hts nofun with ⟨e, rfl, he⟩ | ⟨last, k, rfl, hk, hq, hlast⟩
    · exact .fails rfl he
    · cases last with
      | some m =>
        obtain ⟨hlt, hle⟩ := hlast m rfl
        refine .takes rfl ?_
        show p.stream.index < (q.stream.seek m.index).index
        rw [hq, CharStream.seek]
        exact lt_min hlt (hlt.trans_le hle)
      | none =>
        have hend : q.stream.peek = endOfInput ↔ p.stream.index + k = p.stream.chars.size := by
          rw [CharStream.peek_eq_end_iff, hq]
          exact ⟨fun hle => Nat.le_antisymm hk hle, Eq.ge⟩
        show Advances c.settings.maxDepth p.stream (outcome mode p q (.ok (none, q.stream.peek))) q.stream
        obtain ⟨hat, ha, hstays⟩ | ⟨hless, _, _, _, ha⟩ := outcome_of_none hk hq hend
        · exact .ends hat ha hstays
        · exact .stuck hless ha rfl

end Course

namespace Scan
variable {σ : Type}

/-- How a match in a mode ends, for its result and the place after it. -/
inductive Advances (maxDepth mode : Nat) (s : CharStream) (r : Except RecognitionError TokenMatch)
    (t : CharStream) : Prop
  /-- There is no such mode. -/
  | noMode : r = .error (.invalidNetwork (.noMode mode)) → Advances maxDepth mode s r t
  /-- A closure is too deep. -/
  | tooDeep : r = .error (.closureDepthExceeded (maxDepth + 1) maxDepth) → Advances maxDepth mode s r t
  /-- A token is matched. -/
  | takes {found : TokenMatch} : r = .ok found → s.index < t.index → Advances maxDepth mode s r t
  /-- At the end of the input. -/
  | ends : s.index = s.chars.size → r = .ok ⟨endOfInput, none⟩ → t = s → Advances maxDepth mode s r t
  /-- There is no token. -/
  | stuck {e : RecognitionError} : s.index < s.chars.size → r = .error e → e.isSyntaxError →
    Advances maxDepth mode s r t

/-- In a mode that is not there a match fails at once. -/
theorem next_noMode {s : Scan σ} {mode : Nat} (hkind : s.matcher.network.kind = .lexer)
    (hmode : s.matcher.network.modeStarts[mode]? = none) (hooks : LexerHooks σ) :
    next hooks mode s = (.error (.invalidNetwork (.noMode mode)), s) := by
  have hdecision : s.matcher.modeDecision mode = .error (.invalidNetwork (.noMode mode)) := by
    unfold Matcher.modeDecision
    rw [if_neg (not_not.mpr hkind), hmode]
  rw [next_eq, hdecision]

/-- **A match gets on.**  Where only the text decides and no token rule matches the empty text, a match in any
mode, with whatever earlier matches left in the cache, goes past a character; or it fails where there is one to
go past, and the input is to blame; or it is at the end of the input, and says so.  Nothing else can happen but
a mode that is not there and a closure that is too deep. -/
theorem next_advances {g : Grammar} {n : Network} (hl : g.layout = .ok n) (hg : g.Advancing) (mode : Nat) {m : Matcher}
    (hnet : m.network = n) (hcache : m.cache.Matched n) (hpatience : 0 < m.settings.patience) {stream : CharStream}
    (hs : stream.index ≤ stream.chars.size) (hooks : LexerHooks σ) (author : σ) :
    let r := next hooks mode ⟨m, stream, author⟩
    Advances m.settings.maxDepth mode stream r.1 r.2.stream ∧ r.2.matcher.network = n ∧ r.2.matcher.cache.Matched n := by
  obtain ⟨p, hlaid⟩ : ∃ p, g.LaidOut p True n := Grammar.exists_laidOut hl fun hfalse => absurd trivial hfalse
  have htextual : n.Textual := hlaid.textual hg.toTextual
  have hclosed : n.Closed := Grammar.closed_of_layout hl hg.lexer hlaid
  have hapart : n.ModesApart := Network.modesApart_of_layout hl
  -- Without predicates the hooks are never asked, so they might as well accept everything.
  have hsame : next hooks mode ⟨m, stream, author⟩ = next hooks.accepting mode ⟨m, stream, author⟩ :=
    next_unasked mode (by
      show m.network.Unasked
      rw [hnet]
      exact htextual.unasked)
  have hsane : Scan.Sane n (fun _ => True) (⟨m, stream, author⟩ : Scan σ) :=
    ⟨hnet, trivial, (hcache.lexed htextual.unasked).faithful hapart⟩
  have hkept := next_sane hooks.accepting_answers hapart hsane mode
  rw [← hsame] at hkept
  refine ⟨?_, hkept.network, .next hooks mode hnet hcache⟩
  by_cases hmode : mode < p.modes
  · rw [hsame]
    rcases next_takes hooks.accepting_answers hapart hsane mode with ⟨e, he, -⟩ | ⟨d, start, -, hstart, hends⟩
    · have hdecision : m.modeDecision mode = .ok mode := hlaid.modeDecision hg.lexer hmode hnet
      rw [hdecision] at he
      cases he
    obtain rfl : start = mode := Option.some.inj (hstart.symm.trans (hlaid.modeStart hmode))
    -- The fuel does not run out, so a match that fails to go on has met a closure that is too deep.
    have hfuel : (next hooks.accepting start ⟨m, stream, author⟩).1 ≠ .error .outOfFuel :=
      next_isTimely hooks.accepting (by rw [network, hnet]; exact htextual.sparesEnd) hpatience start
    have hcourse : ((⟨m, stream, author⟩ : Scan σ).begun.course (fun _ => True) fun _ _ _ => true).network = n := hnet
    rw [← hcourse] at htextual hclosed hlaid hl
    have hadvances := hends.takes.advances htextual hclosed hlaid hl hg hmode hs
    cases hadvances with
    | fails he hwhy =>
      have hr := TokenMatch.eq_error_of_unplaced he
      rcases hwhy with rfl | rfl
      · exact absurd hr hfuel
      · exact .tooDeep hr
    | takes ha hlt =>
      obtain ⟨found, hr, -⟩ := TokenMatch.exists_of_unplaced ha
      exact .takes hr hlt
    | ends hat ha ht => exact .ends hat (TokenMatch.eq_of_unplaced ha) ht
    | stuck hless ha he => exact .stuck hless (TokenMatch.eq_error_of_unplaced ha) he
  · have hnone : n.modeStarts[mode]? = none := by
      rw [← Array.getElem?_toList, hlaid.toTables.modeStarts, List.getElem?_eq_none]
      rw [List.length_range]
      omega
    rw [next_noMode (hnet ▸ hlaid.toTables.kind.trans hg.lexer) (hnet ▸ hnone)]
    exact .noMode rfl

end Scan
end AdaptiveLL

import Mathlib
import AdaptiveLL.Proofs.Lexing.Hearing

/-! # Where actions are run

A lexer makes a token of one match or several, and carries out the commands of each before the next
(`Lexer.Attempts`).  Pinned commands keep a distance, which a match counts from where it begins, and they are
carried out at that distance from where the token begins.  The two places are the same unless the token was
extended: they lie as many characters apart as earlier matches of the token made up (`Lexer.replay_apart`).

The calls that are made of an author's callbacks can be noted beside the author's state
(`LexerHooks.noting`), and whatever was noted in the course of a history was called for by one of its matches
(`Lexer.serve_notes`).  So it can be said what every call was told (`Lexer.calls_told`): the position goes with
the index, except where a predicate is asked beyond the end of the input and where an action is run away from
the end of its match.
-/
namespace AdaptiveLL

/-- A call of one of the author's callbacks, with what it was told. -/
inductive LexerCall where
  /-- A predicate of a rule was asked. -/
  | predicate (rule index : Nat) (cursor : Cursor)
  /-- An action of a rule was run. -/
  | action (rule index : Nat) (cursor : Cursor)
deriving DecidableEq, Repr

/-- The author's state after a call. -/
def LexerHooks.after {σ : Type} (hooks : LexerHooks σ) : LexerCall → σ → σ
  | .predicate rule index cursor, s => (hooks.predicate rule index cursor s).2
  | .action rule index cursor, s => hooks.action rule index cursor s

/-- An author's callbacks, with the calls that were made of them noted beside the author's state. -/
def LexerHooks.noting {σ : Type} (hooks : LexerHooks σ) : LexerHooks (σ × List LexerCall) where
  predicate rule index cursor s :=
    ((hooks.predicate rule index cursor s.1).1, (hooks.predicate rule index cursor s.1).2,
      s.2 ++ [.predicate rule index cursor])
  action rule index cursor s :=
    (hooks.action rule index cursor s.1, s.2 ++ [.action rule index cursor])

namespace Lexer
variable {σ : Type} {l l' a : Lexer σ} {chars : Array Char} {settings : Settings} {lo number k : Nat}

/-! ## One match and its commands -/

/-- Carrying out commands leaves the start of the token, the input and the matcher as they were. -/
theorem carryOut_stays (l₀ : Lexer σ) (hstop : l₀.scan.stream.index ≤ l₀.scan.stream.chars.size) (start : Nat)
    (found : TokenMatch) :
    Run.Meets (· = l₀) (carryOut start found)
      (fun _ l => l.draft.start = l₀.draft.start ∧ l.scan.stream = l₀.scan.stream ∧
        l.scan.matcher = l₀.scan.matcher)
      fun _ l => l.scan.stream = l₀.scan.stream ∧ l.scan.matcher = l₀.scan.matcher := by
  have hrest : Run.Meets (fun l => l.grip = l₀.grip ∧ l.scan.stream.index = l₀.scan.stream.index) (do
      modify fun l => if l.scan.stream.peek = endOfInput then { l with atEnd := true } else l
      pure ((← MonadState.get).draft.type.getD found.type) : Run (Lexer σ) Int)
      (fun _ l => l.draft.start = l₀.draft.start ∧ l.scan.stream = l₀.scan.stream ∧
        l.scan.matcher = l₀.scan.matcher)
      fun _ l => l.scan.stream = l₀.scan.stream ∧ l.scan.matcher = l₀.scan.matcher := by
    have hflag : Run.Meets (fun l => l.grip = l₀.grip ∧ l.scan.stream.index = l₀.scan.stream.index)
        (modify fun l => if l.scan.stream.peek = endOfInput then { l with atEnd := true } else l : Run (Lexer σ) PUnit)
        (fun _ l => l.draft.start = l₀.draft.start ∧ l.scan.stream = l₀.scan.stream ∧
          l.scan.matcher = l₀.scan.matcher)
        fun _ l => l.scan.stream = l₀.scan.stream ∧ l.scan.matcher = l₀.scan.matcher := .modify fun l hl => by
      have hstart : l.draft.start = l₀.draft.start := congrArg (fun g => g.2.2.2.2.1) hl.1
      have hplace := place_of_grip hl.1 hl.2
      split
      · exact ⟨hstart, hplace⟩
      · exact ⟨hstart, hplace⟩
    exact hflag.bind fun _ => Run.Meets.bind (.get fun _ hl => hl) fun _ => .pure fun _ hl => hl
  unfold carryOut
  cases found.commands with
  | none => exact fun l hl => hrest l (hl ▸ ⟨rfl, rfl⟩)
  | some commands =>
    refine Run.Meets.bind (((keep_grip l₀ hstop).runAll commands start).imp (fun l hl => hl ▸ ⟨rfl, rfl⟩)
      (fun _ _ h => h) fun _ _ hl => place_of_grip hl.1 hl.2) fun _ => hrest

/-- A match that is carried out extends the token in the making, or leaves it as it is. -/
theorem Drafts.extend (h : l.Drafts chars settings lo number) {type : Int} (he : extend l = (.ok type, l')) :
    l'.Drafts chars settings lo number ∧ l'.draft.start = l.draft.start ∧
      l.scan.stream.index ≤ l'.scan.stream.index := by
  have hdrafts := extend_drafts l h
  rw [he] at hdrafts
  refine ⟨hdrafts.1, ?_⟩
  have hstands := Scan.next_stands l.hooks l.mode l.scan (h.stands.scan.mono (Nat.le_refl _))
  rw [extend_eq] at he
  rcases hnext : Scan.next l.hooks l.mode l.scan with ⟨e | found, scan⟩ <;> rw [hnext] at he hstands
  · cases he
  · have hstop : scan.stream.index ≤ scan.stream.chars.size := by
      rw [hstands.chars_eq]
      exact hstands.index_le
    have hkept := carryOut_stays (l.behind scan) hstop l.draft.start found _ rfl
    dsimp only at he
    rw [he] at hkept
    exact ⟨hkept.1, hstands.le_index.trans_eq (congrArg CharStream.index hkept.2.1).symm⟩

/-! ## The matches of a history -/

/-- The matches that are made for a token asked of `l`, with the lexer as it is before each, and with the
number of characters of the token that were matched before. -/
inductive Attempts (l : Lexer σ) : Nat → Lexer σ → Prop
  /-- The first one begins a token. -/
  | first : l.atEnd = false → Attempts l 0 l.begin
  /-- Behind a match that is to be extended the token goes on. -/
  | extended {k : Nat} {a b : Lexer σ} {type : Int} : Attempts l k a → extend a = (.ok type, b) →
      type ≠ endOfInput → b.draft.fate = .more →
      Attempts l (k + (b.scan.stream.index - a.scan.stream.index)) b
  /-- Behind a match that is dropped a token begins. -/
  | dropped {k : Nat} {a b : Lexer σ} {type : Int} : Attempts l k a → extend a = (.ok type, b) →
      type ≠ endOfInput → b.draft.fate = .skip → b.atEnd = false → Attempts l 0 b.begin

/-- The matches that are made while requests are served. -/
def Attempted (l : Lexer σ) (requests : List Request) (k : Nat) (a : Lexer σ) : Prop :=
  ∃ earlier later, requests = earlier ++ .token :: later ∧ (serve earlier l).2.Attempts k a

/-- The token in the making began so many characters before the match. -/
theorem Attempts.drafts (hl : l.Stands chars settings lo number) (h : l.Attempts k a) :
    a.Drafts chars settings lo number ∧ a.draft.start + k = a.scan.stream.index := by
  induction h with
  | first => exact ⟨hl.begin, rfl⟩
  | extended _ he _ _ ih =>
    obtain ⟨hdrafts, hstart, hle⟩ := ih.1.extend he
    refine ⟨hdrafts, ?_⟩
    rw [hstart]
    have := ih.2
    omega
  | dropped _ he _ _ _ ih => exact ⟨(ih.1.extend he).1.stands_from.begin, rfl⟩

theorem Attempted.drafts {m : Matcher} {text : String} {hooks : LexerHooks σ} {author : σ}
    {requests : List Request} (h : (ofMatcher m text hooks author).Attempted requests k a) :
    ∃ lo number, a.Drafts text.toList.toArray m.settings lo number ∧
      a.draft.start + k = a.scan.stream.index := by
  obtain ⟨earlier, later, -, hattempts⟩ := h
  have hserved := (served_ofMatcher m text hooks author).serve earlier
  exact ⟨_, _, hattempts.drafts hserved.here⟩

/-! ## The calls that are made -/

/-- The calls that a match may make, in a text: predicates are asked in its course, and behind it the actions
among its commands are run. -/
inductive Makes (chars : Array Char) (a : Lexer σ) : LexerCall → Prop
  | predicate (rule index : Nat) {cursor : Cursor} : cursor.Asked chars a.scan.stream.index →
      Makes chars a (.predicate rule index cursor)
  | action {rule index : Nat} {found : TokenMatch} {scan : Scan σ} {c : Command} :
      Scan.next a.hooks a.mode a.scan = (.ok found, scan) → c ∈ found.commands.getD [] →
      c.core = .custom rule index →
      Makes chars a (.action rule index
        ⟨c.place chars.size a.draft.start scan.stream.index, scan.matcher.position, a.draft.start⟩)

/-- A lexer with certain callbacks, about whose author something is known. -/
structure Knows (hooks : LexerHooks σ) (I : σ → Prop) (l : Lexer σ) : Prop where
  hooks : l.hooks = hooks
  author : I l.scan.author

/-- Whatever a match calls for keeps what is known of the author's state. -/
def Spares (hooks : LexerHooks σ) (I : σ → Prop) (chars : Array Char) (a : Lexer σ) : Prop :=
  ∀ call, a.Makes chars call → ∀ s, I s → I (hooks.after call s)

variable {hooks : LexerHooks σ} {I : σ → Prop}

theorem carryOut_knows {l₀ : Lexer σ} (h : l₀.Knows hooks I) {start : Nat} {found : TokenMatch}
    (hstop : l₀.scan.stream.index ≤ l₀.scan.stream.chars.size)
    (hcommands : ∀ c ∈ found.commands.getD [],
      Allows I l₀ c (c.place l₀.scan.stream.chars.size start l₀.scan.stream.index)) :
    (carryOut start found l₀).2.Knows hooks I := by
  have hrest : Run.Preserves (Knows hooks I) (do
      modify fun l => if l.scan.stream.peek = endOfInput then { l with atEnd := true } else l
      pure ((← MonadState.get).draft.type.getD found.type) : Run (Lexer σ) Int) := by
    refine Run.Preserves.bind (.modify fun l hl => ?_) fun _ => Run.Preserves.get.bind fun _ => .pure _
    split
    · exact ⟨hl.hooks, hl.author⟩
    · exact hl
  unfold carryOut
  cases hlist : found.commands with
  | none => exact hrest l₀ h
  | some commands =>
    rw [hlist, Option.getD_some] at hcommands
    have hbegins : Holds I l₀ l₀ := ⟨rfl, rfl, h.author⟩
    have hholds := runFrom_holds hstop hcommands false l₀ ⟨hbegins, fun _ => rfl⟩
    change ((Command.runFrom start l₀.scan.stream.index false commands >>= fun _ => _) l₀).2.Knows hooks I
    rw [Run.bind_apply]
    rcases hr : Command.runFrom start l₀.scan.stream.index false commands l₀ with ⟨e | u, t⟩ <;>
      rw [hr] at hholds
    · exact ⟨hholds.hooks.trans h.hooks, hholds.author⟩
    · exact hrest t ⟨hholds.hooks.trans h.hooks, hholds.author⟩

/-- One match, with its commands. -/
theorem extend_knows (hl : l.Drafts chars settings lo number) (h : l.Knows hooks I)
    (hspares : Spares hooks I chars l) : (extend l).2.Knows hooks I := by
  have hheeds : l.hooks.Heeds I (Cursor.Asked chars l.scan.stream.index) := by
    intro rule index cursor s hcursor hs
    rw [h.hooks]
    exact hspares _ (.predicate rule index hcursor) s hs
  have hstands := Scan.next_stands l.hooks l.mode l.scan (hl.stands.scan.mono (Nat.le_refl _))
  have hhears := Scan.next_hears hheeds l.mode l.scan ⟨hl.stands.scan.mono (Nat.le_refl _), rfl, h.author⟩
  rw [extend_eq]
  rcases hnext : Scan.next l.hooks l.mode l.scan with ⟨e | found, scan⟩ <;> rw [hnext] at hstands hhears
  · exact ⟨h.hooks, hhears⟩
  · have hchars : (l.behind scan).scan.stream.chars = chars := hstands.chars_eq
    refine carryOut_knows (⟨h.hooks, hhears.2⟩ : (l.behind scan).Knows hooks I) ?_ fun c hc rule index s hcore hs => ?_
    · rw [hchars]
      exact hstands.index_le
    · rw [hchars]
      change I (l.hooks.action rule index _ s)
      rw [h.hooks]
      exact hspares _ (.action hnext hc hcore) s hs

/-- The matches that may still be made for a token. -/
def Awaits (l₀ : Lexer σ) (fresh : Bool) (l : Lexer σ) : Prop :=
  if fresh then l.atEnd = false → l₀.Attempts 0 l.begin else ∃ k, l₀.Attempts k l

/-- A token, match by match. -/
theorem produce_knows {l₀ : Lexer σ} (hspares : ∀ k a, l₀.Attempts k a → Spares hooks I chars a)
    (fuel : Nat) (fresh : Bool)
    (hl : if fresh then l.Stands chars settings lo number else l.Drafts chars settings lo number)
    (h : l.Knows hooks I) (hawaits : l₀.Awaits fresh l) : (produce fuel fresh l).2.Knows hooks I := by
  induction fuel generalizing l fresh with
  | zero => exact h
  | succ fuel ih =>
    -- Extending a draft keeps what is known, and its fate decides how the token is gone on with.
    have hextend : ∀ {k a}, a.Drafts chars settings lo number → a.Knows hooks I → l₀.Attempts k a →
        ((extend >>= afterMatch fuel) a).2.Knows hooks I := by
      intro k a ha hknows hattempts
      have hkept := extend_knows ha hknows (hspares k a hattempts)
      rw [Run.bind_apply]
      rcases he : extend a with ⟨e | type, b⟩ <;> rw [he] at hkept
      · exact hkept
      · have hb := (ha.extend he).1
        dsimp only
        unfold afterMatch
        rw [Run.bind_apply, Run.get_apply]
        dsimp only
        by_cases htype : type = endOfInput
        · rw [if_pos htype]
          exact hkept
        · rw [if_neg htype]
          cases hfate : b.draft.fate with
          | more => exact ih false hb hkept ⟨_, hattempts.extended he htype hfate⟩
          | skip => exact ih true hb.stands_from hkept fun hat => hattempts.dropped he htype hfate hat
          | emit => exact ⟨hkept.hooks, hkept.author⟩
    rw [produce_succ]
    cases fresh with
    | false =>
      obtain ⟨k, hattempts⟩ := hawaits
      exact hextend hl h hattempts
    | true =>
      by_cases hat : l.atEnd = true
      · rw [if_pos (by simpa using hat)]
        exact h
      · rw [if_neg (by simpa using hat)]
        have hattempts := hawaits (by simpa using hat)
        exact hextend (a := l.begin) (Stands.begin hl) ⟨h.hooks, h.author⟩ hattempts

/-- A history of requests. -/
theorem serve_knows (requests : List Request) (hl : l.Stands chars settings lo number) (h : l.Knows hooks I)
    (hspares : ∀ k a, l.Attempted requests k a → Spares hooks I chars a) :
    (serve requests l).2.Knows hooks I := by
  induction requests generalizing l number with
  | nil => exact h
  | cons request rest ih =>
    have hlater : ∀ l', (∀ earlier, (serve (request :: earlier) l).2 = (serve earlier l').2) →
        ∀ k a, l'.Attempted rest k a → Spares hooks I chars a := by
      rintro l' hserve k a ⟨earlier, later, rfl, hattempts⟩
      exact hspares k a ⟨request :: earlier, later, rfl, (hserve earlier).symm ▸ hattempts⟩
    cases request with
    | recovery =>
      refine ih hl.recover ?_ (hlater _ fun _ => rfl)
      unfold Lexer.recover
      split
      · exact h
      · exact ⟨h.hooks, h.author⟩
    | token =>
      have hnext := nextToken_meets l hl
      have hknows : (nextToken l).2.Knows hooks I := by
        have hfirst : ∀ k a, l.Attempts k a → Spares hooks I chars a := fun k a ha =>
          hspares k a ⟨[], rest, rfl, ha⟩
        exact produce_knows hfirst l.fuel true hl h Attempts.first
      have hlater' := hlater (nextToken l).2 fun _ => rfl
      change (serve rest (nextToken l).2).2.Knows hooks I
      rcases hr : nextToken l with ⟨e | t, l'⟩ <;> rw [hr] at hnext hknows hlater'
      · exact ih hnext hknows hlater'
      · exact ih hnext.stands hknows hlater'

/-- Whatever was noted in the course of a history, one of its matches called for it. -/
theorem serve_notes (m : Matcher) (text : String) (hooks : LexerHooks σ) (author : σ)
    (requests : List Request) :
    let l := ofMatcher m text hooks.noting (author, [])
    ∀ call ∈ (serve requests l).2.scan.author.2,
      ∃ k a, l.Attempted requests k a ∧ a.Makes text.toList.toArray call := by
  intro l
  let made : LexerCall → Prop := fun call =>
    ∃ k a, l.Attempted requests k a ∧ a.Makes text.toList.toArray call
  have hspares : ∀ k a, l.Attempted requests k a →
      Spares hooks.noting (fun s => ∀ call ∈ s.2, made call) text.toList.toArray a := by
    intro k a ha call hcall s hs
    have hnoted : (hooks.noting.after call s).2 = s.2 ++ [call] := by
      cases call with
      | predicate => rfl
      | action => rfl
    change ∀ other ∈ (hooks.noting.after call s).2, made other
    rw [hnoted]
    exact List.forall_mem_append.mpr ⟨hs, List.forall_mem_singleton.mpr ⟨k, a, ha, hcall⟩⟩
  have hknows : l.Knows hooks.noting fun s => ∀ call ∈ s.2, made call := ⟨rfl, fun _ h => nomatch h⟩
  exact (serve_knows requests (served_ofMatcher m text hooks.noting (author, [])).here hknows hspares).author

/-! ## Where distances are counted from -/

/-- **Actions are replayed from the start of the token.**  Whatever is asked of a lexer, its commands are
carried out with distances counted from where the token began, while the match that found them counted from
where it began itself.  The two are `k` characters apart, which is what earlier matches of the same token made
up: they are the same for a token that is not extended.  So an action that is pinned is run `k` characters
before the place that its match pinned it to, where places are 64-bit numbers and end with the text. -/
theorem replay_apart (m : Matcher) (text : String) (hooks : LexerHooks σ) (author : σ)
    (requests : List Request) :
    (∀ k a found scan, (ofMatcher m text hooks author).Attempted requests k a →
      Scan.next a.hooks a.mode a.scan = (.ok found, scan) →
        extend a = carryOut a.draft.start found (a.behind scan) ∧
        scan.matcher.tokenStart = a.scan.stream.index ∧ a.draft.start + k = a.scan.stream.index ∧
        (a.draft.start = a.scan.stream.index ↔ k = 0)) ∧
    let l := ofMatcher m text hooks.noting (author, [])
    ∀ rule index cursor, .action rule index cursor ∈ (serve requests l).2.scan.author.2 →
      ∃ k a found scan c, l.Attempted requests k a ∧
        Scan.next a.hooks a.mode a.scan = (.ok found, scan) ∧ c ∈ found.commands.getD [] ∧
        c.core = .custom rule index ∧
        ∀ offset inner, c = .pinned offset inner →
          cursor.index = min ((a.scan.stream.index + offset - k) % 2 ^ 64) text.toList.length := by
  refine ⟨fun k a found scan hattempted hnext => ?_, fun rule index cursor hcall => ?_⟩
  · obtain ⟨lo, number, hdrafts, hstart⟩ := hattempted.drafts
    have hheeds : a.hooks.Heeds (fun _ => True) (Cursor.Asked text.toList.toArray a.scan.stream.index) :=
      fun _ _ _ _ _ _ => trivial
    have hhears := Scan.next_hears hheeds a.mode a.scan ⟨hdrafts.stands.scan.mono (Nat.le_refl _), rfl, trivial⟩
    rw [hnext] at hhears
    refine ⟨?_, hhears.1, hstart, by omega⟩
    rw [extend_eq, hnext]
  · obtain ⟨k, a, hattempted, hmakes⟩ := serve_notes m text hooks author requests _ hcall
    obtain ⟨lo, number, -, hstart⟩ := hattempted.drafts
    cases hmakes with
    | @action _ _ found scan c hnext hc hcore =>
      refine ⟨k, a, found, scan, c, hattempted, hnext, hc, hcore, ?_⟩
      rintro offset inner rfl
      have hsum : a.draft.start + offset = a.scan.stream.index + offset - k := by omega
      change min (Command.replayIndex a.draft.start offset) text.toList.toArray.size = _
      rw [List.size_toArray, Command.replayIndex, hsum]
      rfl

/-- A lexer's grammar whose first rule is extended by the next match, and whose second has an action between
two characters. -/
def extendedGrammar : Grammar :=
  { Grammar.lexer with rules := [
      ⟨"A", .seq [.char 'a', .command .more], 1, 0, false⟩,
      ⟨"B", .seq [.char 'b', .action 0, .char 'c'], 2, 0, false⟩] }

/-- Its network. -/
def extendedNetwork : Network := extendedGrammar.layout.toOption.getD { kind := .lexer, maxSymbol := 0 }

/-- A lexer of it, at the start of a text, that notes the calls. -/
def extendedLexer : Lexer (Unit × List LexerCall) :=
  ofMatcher (.ofNetwork extendedNetwork {}) "abc" LexerHooks.none.noting ((), [])

/-- The lexer behind the first match, which is to be extended. -/
def extendedOnce : Lexer (Unit × List LexerCall) :=
  (extend extendedLexer.begin).2

/-- The action stands behind the second character, and is run behind the first. -/
theorem replay_apart_extended :
    extendedGrammar.layout = .ok extendedNetwork ∧ extendedLexer.Attempted [.token] 1 extendedOnce ∧
      extendedOnce.draft.start = 0 ∧
      (∃ found scan, Scan.next extendedOnce.hooks extendedOnce.mode extendedOnce.scan = (.ok found, scan) ∧
        found.commands = some [.pinned 1 (.custom 1 0)] ∧ scan.matcher.tokenStart = 1) ∧
      .action 1 0 ⟨1, ⟨1, 3⟩, 0⟩ ∈ (serve [.token] extendedLexer).2.scan.author.2 ∧
      ∃ k a found scan c, extendedLexer.Attempted [.token] k a ∧
        Scan.next a.hooks a.mode a.scan = (.ok found, scan) ∧ c ∈ found.commands.getD [] ∧
        c.core = .custom 1 0 ∧
        ∀ offset inner, c = .pinned offset inner →
          1 = min ((a.scan.stream.index + offset - k) % 2 ^ 64) 3 := by
  obtain ⟨hlayout, hfirst, hmore, hk, hnext, hnoted, hindex⟩ :
      extendedGrammar.layout = .ok extendedNetwork ∧ (extend extendedLexer.begin).1 = .ok 1 ∧
        extendedOnce.draft.fate = .more ∧
        0 + (extendedOnce.scan.stream.index - extendedLexer.begin.scan.stream.index) = 1 ∧
        (Scan.next extendedOnce.hooks extendedOnce.mode extendedOnce.scan).1 =
          .ok ⟨2, some [.pinned 1 (.custom 1 0)]⟩ ∧
        (serve [.token] extendedLexer).2.scan.author.2 = [.action 1 0 ⟨1, ⟨1, 3⟩, 0⟩] ∧
        extendedOnce.scan.stream.index = 1 := by
    cbv
  have hattempted : extendedLexer.Attempted [.token] 1 extendedOnce :=
    ⟨[], [], rfl, hk ▸ .extended (.first rfl) (Prod.ext hfirst rfl) (by decide) hmore⟩
  have hcall : LexerCall.action 1 0 ⟨1, ⟨1, 3⟩, 0⟩ ∈ (serve [.token] extendedLexer).2.scan.author.2 :=
    hnoted ▸ List.mem_singleton_self _
  have happart := replay_apart (.ofNetwork extendedNetwork {}) "abc" LexerHooks.none () [.token]
  have hbase := (replay_apart (.ofNetwork extendedNetwork {}) "abc" LexerHooks.none.noting ((), []) [.token]).1
  obtain ⟨-, hstart, hdraft, -⟩ := hbase 1 extendedOnce _ _ hattempted (Prod.ext hnext rfl)
  refine ⟨hlayout, hattempted, by omega, ⟨_, _, Prod.ext hnext rfl, rfl, hstart.trans hindex⟩, hcall, ?_⟩
  exact happart.2 1 0 _ hcall

end Lexer

/-- The position of a place goes with its index in a text. -/
def Cursor.Agrees (text : List Char) (c : Cursor) : Prop :=
  c.position.line = 1 + (text.take c.index).count '\n' ∧
    c.position.column = ((text.take c.index).rtakeWhile (· ≠ '\n')).length

theorem Cursor.agrees_of_behind {text : List Char} {c : Cursor} (h : c.position = .behind (text.take c.index)) :
    c.Agrees text := by
  rw [Position.behind_eq] at h
  exact ⟨congrArg Position.line h, congrArg Position.column h⟩

namespace Lexer
variable {σ : Type}

/-- What the call of a callback in a match, or behind it, is told.  A predicate is told a place behind some of
the characters, with its position, or the end of the input with a column that is one too high.  An action is
told the place at which it is run, with the position of the end of the match. -/
def Tells (text : List Char) (a : Lexer σ) : LexerCall → Prop
  | .predicate _ _ cursor =>
    cursor.tokenStart = a.scan.stream.index ∧ cursor.tokenStart ≤ cursor.index ∧ cursor.index ≤ text.length ∧
      (cursor.Agrees text ∨ cursor.index = text.length ∧ ∃ position, { cursor with position }.Agrees text ∧
        cursor.position = ⟨position.line, position.column + 1⟩)
  | .action rule index cursor =>
    ∃ found scan c, Scan.next a.hooks a.mode a.scan = (.ok found, scan) ∧ c ∈ found.commands.getD [] ∧
      c.core = .custom rule index ∧ cursor.tokenStart = a.draft.start ∧
      cursor.index = c.place text.length a.draft.start scan.stream.index ∧
      { cursor with index := scan.stream.index }.Agrees text

/-- **What callbacks are told.**  Whatever is asked of a lexer, each call of a callback belongs to one of the
matches that are made.  The position that it is told goes with the index, apart from two cases: a predicate
that is asked while the end of the input is being consumed is told a column one too high, and an action that is
pinned is told the position at which its match ended, wherever it is run. -/
theorem calls_told (m : Matcher) (text : String) (hooks : LexerHooks σ) (author : σ)
    (requests : List Request) :
    let l := ofMatcher m text hooks.noting (author, [])
    ∀ call ∈ (serve requests l).2.scan.author.2,
      ∃ k a, l.Attempted requests k a ∧ a.Tells text.toList call := by
  intro l call hcall
  obtain ⟨k, a, hattempted, hmakes⟩ := serve_notes m text hooks author requests call hcall
  refine ⟨k, a, hattempted, ?_⟩
  obtain ⟨lo, number, hdrafts, -⟩ := hattempted.drafts
  cases hmakes with
  | predicate rule index hasked =>
    cases hasked with
    | «at» hle hsize =>
      exact ⟨rfl, hle, hsize, .inl (Cursor.agrees_of_behind rfl)⟩
    | beyond hle =>
      refine ⟨rfl, hle, Nat.le_refl _, .inr ⟨rfl, .behind text.toList, ?_, rfl⟩⟩
      refine Cursor.agrees_of_behind ?_
      change Position.behind text.toList = .behind (text.toList.take text.toList.length)
      rw [List.take_length]
  | @action rule index found scan c hnext hc hcore =>
    have hstands := Scan.next_stands a.hooks a.mode a.scan (hdrafts.stands.scan.mono (Nat.le_refl _))
    rw [hnext] at hstands
    exact ⟨found, scan, c, hnext, hc, hcore, rfl, rfl, Cursor.agrees_of_behind hstands.position_eq⟩

/-- A lexer's grammar with an action between two characters, and with a predicate behind the end of the
input. -/
def toldGrammar : Grammar :=
  { Grammar.lexer with rules := [
      ⟨"A", .seq [.char 'a', .action 0, .char 'b'], 1, 0, false⟩,
      ⟨"B", .seq [.char 'c', .endOfInput, .predicate 0 false], 2, 0, false⟩] }

/-- Its network. -/
def toldNetwork : Network := toldGrammar.layout.toOption.getD { kind := .lexer, maxSymbol := 0 }

/-- A lexer of it, at the start of a text, that notes the calls. -/
def toldLexer (text : String) : Lexer (Unit × List LexerCall) :=
  ofMatcher (.ofNetwork toldNetwork {}) text LexerHooks.none.noting ((), [])

/-- The action is run behind the first character, and told the column behind the second.  The predicate is
asked behind the only character, and told the column behind that. -/
theorem calls_told_behind :
    toldGrammar.layout = .ok toldNetwork ∧
      (serve [.token] (toldLexer "ab")).2.scan.author.2 = [.action 0 0 ⟨1, ⟨1, 2⟩, 0⟩] ∧
      (∃ k a, (toldLexer "ab").Attempted [.token] k a ∧ a.Tells ['a', 'b'] (.action 0 0 ⟨1, ⟨1, 2⟩, 0⟩)) ∧
      (serve [.token] (toldLexer "c")).2.scan.author.2 = [.predicate 1 0 ⟨1, ⟨1, 2⟩, 0⟩] ∧
      (∃ k a, (toldLexer "c").Attempted [.token] k a ∧ a.Tells ['c'] (.predicate 1 0 ⟨1, ⟨1, 2⟩, 0⟩)) := by
  obtain ⟨hlayout, haction, hpredicate⟩ : toldGrammar.layout = .ok toldNetwork ∧
      (serve [.token] (toldLexer "ab")).2.scan.author.2 = [.action 0 0 ⟨1, ⟨1, 2⟩, 0⟩] ∧
      (serve [.token] (toldLexer "c")).2.scan.author.2 = [.predicate 1 0 ⟨1, ⟨1, 2⟩, 0⟩] := by
    cbv
  refine ⟨hlayout, haction, ?_, hpredicate, ?_⟩
  · refine calls_told (.ofNetwork toldNetwork {}) "ab" LexerHooks.none () [.token] _ ?_
    exact haction.symm ▸ List.mem_singleton_self _
  · refine calls_told (.ofNetwork toldNetwork {}) "c" LexerHooks.none () [.token] _ ?_
    exact hpredicate.symm ▸ List.mem_singleton_self _

end Lexer
end AdaptiveLL

import AdaptiveLL.Lexing.Lexer
import AdaptiveLL.Grammar.Layout
import AdaptiveLL.Proofs.Command
import AdaptiveLL.Proofs.Lexing.Accepting

/-!
# Tokens asked for one after another

A lexer is asked for tokens, and to recover, in any order and however often (`Lexer.serve`).  One
request moves it on from where it stands, with a position that agrees with the index, and a token
covers the characters that it was moved past (`Lexer.produce_meets`).  So the tokens of a whole
history lie in order and are numbered in order (`Lexer.Served`).

The end of the input is noticed behind a match only.  A lexer that was moved there otherwise, or
begins there, makes one more match, which may find a token that needs no characters or fail.  If it does
neither, the end of the input is given there too.
-/

namespace AdaptiveLL

/-- A token says truly which characters of a text it covers, and where they begin. -/
structure Token.Covers (chars : List Char) (t : Token) : Prop where
  start_le : t.start ≤ t.stop
  stop_le : t.stop ≤ chars.length
  text : t.text = String.ofList ((chars.take t.stop).drop t.start)
  line : t.line = 1 + (chars.take t.start).count '\n'
  column : t.column = ((chars.take t.start).rtakeWhile (· ≠ '\n')).length

theorem CharStream.text_eq (s : CharStream) (start stop : Nat) :
    s.text start stop = String.ofList ((s.chars.toList.take stop).drop start) := by
  rw [CharStream.text, Array.toList_extract, List.extract_eq_take_drop, List.drop_take]

namespace Lexer

variable {σ : Type} {l l' : Lexer σ} {chars : Array Char} {settings : Settings} {lo k : Nat}

/-- What a lexer may be asked for. -/
inductive Request where
  /-- The next token. -/
  | token
  /-- To go past a character. -/
  | recovery
deriving DecidableEq, Repr

/-- Does what is asked, one after another, and gives the answers to requests for tokens. -/
def serve : List Request → Lexer σ → List (Except RecognitionError Token) × Lexer σ
  | [], l => ([], l)
  | .token :: rest, l =>
    ((nextToken l).1 :: (serve rest (nextToken l).2).1, (serve rest (nextToken l).2).2)
  | .recovery :: rest, l => serve rest l.recover

/-- The tokens among answers. -/
def given (answers : List (Except RecognitionError Token)) : List Token :=
  answers.filterMap Except.toOption

/-- A lexer of a text stands somewhere from the place `lo` on, gives the next token the number `k`,
and thinks itself at the end only where it is. -/
structure Stands (chars : Array Char) (settings : Settings) (lo k : Nat) (l : Lexer σ) : Prop where
  scan : l.scan.Stands chars settings lo
  number : l.nextIndex = k
  atEnd : l.atEnd → l.scan.stream.index = chars.size

/-- The token in the making begins where it says, at a place from `lo` on, and the lexer stands
behind that place. -/
structure Drafts (chars : Array Char) (settings : Settings) (lo k : Nat) (l : Lexer σ) : Prop where
  le_start : lo ≤ l.draft.start
  position : l.draft.position = .behind (chars.toList.take l.draft.start)
  stands : l.Stands chars settings l.draft.start k

theorem Stands.mono {lo' : Nat} (h : l.Stands chars settings lo k) (hle : lo' ≤ l.scan.stream.index) :
    l.Stands chars settings lo' k :=
  ⟨h.scan.mono hle, h.number, h.atEnd⟩

theorem Drafts.stands_from (h : l.Drafts chars settings lo k) : l.Stands chars settings lo k :=
  h.stands.mono (h.le_start.trans h.stands.scan.le_index)

theorem Stands.begin (h : l.Stands chars settings lo k) : l.begin.Drafts chars settings lo k where
  le_start := h.scan.le_index
  position := h.scan.position_eq
  stands := ⟨h.scan.mono (Nat.le_refl _), h.number, h.atEnd⟩

theorem Stands.recover (h : l.Stands chars settings lo k) : l.recover.Stands chars settings lo k := by
  unfold Lexer.recover
  by_cases hend : l.scan.stream.peek = endOfInput
  · rw [if_pos hend]
    exact h
  · rw [if_neg hend]
    exact ⟨h.scan.consume hend, h.number,
      fun hat => absurd (h.scan.peek_eq_end_iff.mpr (h.atEnd hat)) hend⟩

/-! ## One match -/

/-- A lexer behind a match, before the commands of the match. -/
def behind (l : Lexer σ) (scan : Scan σ) : Lexer σ :=
  { l.redraft (fun d => { d with type := none, fate := .emit }) with scan }

/-- Carries out the commands of a match, with distances counted from `start`.  Gives the type of the token
so far. -/
def carryOut (start : Nat) (found : TokenMatch) : Run (Lexer σ) Int := do
  match found.commands with
  | some commands => Command.runAll commands start
  | none => pure ()
  modify fun l => if l.scan.stream.peek = endOfInput then { l with atEnd := true } else l
  pure ((← get).draft.type.getD found.type)

theorem extend_eq (l : Lexer σ) :
    extend l = match Scan.next l.hooks l.mode l.scan with
      | (.ok found, scan) => carryOut l.draft.start found (l.behind scan)
      | (.error e, scan) => (.error e, l.behind scan) := by
  have hmatch : match? (l.redraft fun d => { d with type := none, fate := .emit }) =
      ((Scan.next l.hooks l.mode l.scan).1, l.behind (Scan.next l.hooks l.mode l.scan).2) := rfl
  unfold extend
  rw [Run.bind_apply, Run.modify_apply]
  dsimp only
  rw [Run.bind_apply, hmatch]
  rcases Scan.next l.hooks l.mode l.scan with ⟨e | found, scan⟩
  · rfl
  · dsimp only
    unfold carryOut
    cases found.commands with
    | none => rfl
    | some commands => rfl

/-- Without commands the type of the match is that of the token, unless it has one already. -/
theorem carryOut_type (start : Nat) (type : Int) (l : Lexer σ) :
    (carryOut start ⟨type, none⟩ l).1 = .ok (l.draft.type.getD type) := by
  unfold carryOut
  dsimp only
  rw [Run.bind_apply, Run.modify_apply]
  dsimp only
  rw [Run.bind_apply, Run.get_apply]
  dsimp only
  by_cases hend : l.scan.stream.peek = endOfInput
  · rw [if_pos hend]
    rfl
  · rw [if_neg hend]
    rfl

/-- What commands leave alone, wherever they move the input. -/
def grip (l : Lexer σ) : Array Char × Matcher × Bool × Nat × Nat × Position :=
  (l.scan.stream.chars, l.scan.matcher, l.atEnd, l.nextIndex, l.draft.start, l.draft.position)

/-- Where the input stands is told by what commands leave alone and its index. -/
theorem place_of_grip (hgrip : l'.grip = l.grip) (hindex : l'.scan.stream.index = l.scan.stream.index) :
    l'.scan.stream = l.scan.stream ∧ l'.scan.matcher = l.scan.matcher := by
  have hchars : l'.scan.stream.chars = l.scan.stream.chars := congrArg Prod.fst hgrip
  refine ⟨?_, congrArg (fun g => g.2.1) hgrip⟩
  rcases hs : l'.scan.stream with ⟨cs, i⟩
  rcases hs' : l.scan.stream with ⟨cs', i'⟩
  rw [hs, hs'] at hchars hindex
  exact congrArg₂ CharStream.mk hchars hindex

theorem Drafts.of_grip (h : l.Drafts chars settings lo k) (hgrip : l'.grip = l.grip)
    (hindex : l'.scan.stream.index = l.scan.stream.index) : l'.Drafts chars settings lo k := by
  obtain ⟨hstream, hmatcher⟩ := place_of_grip hgrip hindex
  obtain ⟨-, -, hatEnd, hnumber, hstart, hposition⟩ :
      l'.scan.stream.chars = l.scan.stream.chars ∧ l'.scan.matcher = l.scan.matcher ∧
        l'.atEnd = l.atEnd ∧ l'.nextIndex = l.nextIndex ∧ l'.draft.start = l.draft.start ∧
          l'.draft.position = l.draft.position := by
    simpa [grip] using hgrip
  have hfooting : l'.scan.footing = l.scan.footing := by
    rw [Scan.footing, Scan.footing, Scan.standpoint, Scan.standpoint, hstream, hmatcher]
  refine ⟨hstart ▸ h.le_start, by rw [hposition, hstart, h.position], ?_⟩
  rw [hstart]
  refine ⟨h.stands.scan.of_footing hfooting, hnumber.trans h.stands.number, fun hat => ?_⟩
  rw [hindex]
  exact h.stands.atEnd (hatEnd ▸ hat)

/-- Commands keep their grip on a text in which `stop` is a place. -/
theorem keep_grip (l₀ : Lexer σ) {stop : Nat} (hstop : stop ≤ l₀.scan.stream.chars.size) :
    Command.Keep (fun l : Lexer σ => l.grip = l₀.grip) stop where
  run i c := by
    induction c with
    | pinned offset c ih => exact ih
    | popMode =>
      refine Run.Meets.bind (.get fun l hl => hl) fun l => ?_
      split
      · exact Run.Meets.bind (.get fun l hl => hl) fun l => .throw fun l hl => hl
      · exact .modify fun l hl => hl
    | _ => exact .modify fun l hl => hl
  seek i l hl := hl
  back l hl := by
    have hchars : l.scan.stream.chars = l₀.scan.stream.chars := congrArg Prod.fst hl
    change min stop l.scan.stream.chars.size = stop
    rw [hchars, Nat.min_eq_left hstop]

theorem runAll_drafts (commands : List Command) (start : Nat) :
    Run.Meets (Drafts chars settings lo k) (Command.runAll commands start : Run (Lexer σ) Unit)
      (fun _ => Drafts chars settings lo k) fun _ => Drafts chars settings lo k := by
  intro l hl
  have hstop : l.scan.stream.index ≤ l.scan.stream.chars.size := by
    rw [hl.stands.scan.chars_eq]
    exact hl.stands.scan.index_le
  have hkept := (keep_grip l hstop).runAll commands start l ⟨rfl, rfl⟩
  rcases hr : Command.runAll commands start l with ⟨e | u, l'⟩ <;> rw [hr] at hkept
  · exact hl.of_grip hkept.1 hkept.2
  · exact hl.of_grip hkept.1 hkept.2

/-- A lexer that was moved on by a match. -/
theorem Drafts.moved (h : l.Drafts chars settings lo k) {scan : Scan σ}
    (hscan : scan.Stands chars settings l.scan.stream.index) :
    ({ l with scan } : Lexer σ).Drafts chars settings lo k where
  le_start := h.le_start
  position := h.position
  stands :=
    { scan := hscan.mono (h.stands.scan.le_index.trans hscan.le_index)
      number := h.stands.number
      atEnd := fun hat => Nat.le_antisymm hscan.index_le (h.stands.atEnd hat ▸ hscan.le_index) }

/-- Behind the commands of a match the lexer notices the end. -/
theorem carryOut_drafts (start : Nat) (found : TokenMatch) :
    Run.Meets (Drafts chars settings lo k) (carryOut start found : Run (Lexer σ) Int)
      (fun _ l => l.Drafts chars settings lo k ∧ (l.scan.stream.index = chars.size → l.atEnd))
      fun _ => Drafts chars settings lo k := by
  have hrest : Run.Meets (Drafts chars settings lo k)
      (do
        modify fun l => if l.scan.stream.peek = endOfInput then { l with atEnd := true } else l
        pure ((← MonadState.get).draft.type.getD found.type))
      (fun _ l => l.Drafts chars settings lo k ∧ (l.scan.stream.index = chars.size → l.atEnd))
      fun _ => Drafts (σ := σ) chars settings lo k := by
    intro l hl
    rw [Run.bind_apply, Run.modify_apply]
    dsimp only
    rw [Run.bind_apply, Run.get_apply]
    dsimp only
    rw [Run.pure_apply]
    dsimp only
    by_cases hend : l.scan.stream.peek = endOfInput
    · rw [if_pos hend]
      have hindex := hl.stands.scan.peek_eq_end_iff.mp hend
      exact ⟨⟨hl.le_start, hl.position, hl.stands.scan, hl.stands.number, fun _ => hindex⟩,
        fun _ => rfl⟩
    · rw [if_neg hend]
      exact ⟨hl, fun hindex => absurd (hl.stands.scan.peek_eq_end_iff.mpr hindex) hend⟩
  unfold carryOut
  cases found.commands with
  | none => exact hrest
  | some commands => exact (runAll_drafts commands start).bind fun _ => hrest

/-- One match, with its commands, goes on from where the lexer stands, and notices the end. -/
theorem extend_drafts :
    Run.Meets (Drafts chars settings lo k) (extend : Run (Lexer σ) Int)
      (fun _ l => l.Drafts chars settings lo k ∧ (l.scan.stream.index = chars.size → l.atEnd))
      fun _ => Drafts chars settings lo k := by
  intro l hl
  have hkept := Scan.next_stands l.hooks l.mode l.scan (hl.stands.scan.mono (Nat.le_refl _))
  rw [extend_eq]
  rcases hr : Scan.next l.hooks l.mode l.scan with ⟨e | found, scan⟩ <;> rw [hr] at hkept
  · exact (hl.moved hkept).of_grip rfl rfl
  · exact carryOut_drafts l.draft.start found (l.behind scan) ((hl.moved hkept).of_grip rfl rfl)

/-! ## One token -/

/-- A lexer that gave a token under the number `k` stands behind it, and knows whether it is at the
end. -/
structure Gives (chars : Array Char) (settings : Settings) (lo k : Nat) (t : Token) (l : Lexer σ) :
    Prop where
  covers : t.Covers chars.toList
  le_start : lo ≤ t.start
  stop : t.stop = l.scan.stream.index
  number : t.index = k
  stands : l.Stands chars settings lo (if t.isEnd then k else k + 1)
  atEnd : l.scan.stream.index = chars.size → l.atEnd
  isEnd : t.isEnd → t = l.endToken

theorem covers_of_standpoint {start stop : Nat} (hle : start ≤ stop) (hstop : stop ≤ chars.size)
    {t : Token} (hstart : t.start = start) (hend : t.stop = stop)
    (htext : t.text = String.ofList ((chars.toList.take stop).drop start))
    (hposition : (⟨t.line, t.column⟩ : Position) = .behind (chars.toList.take start)) :
    t.Covers chars.toList := by
  rw [Position.behind_eq] at hposition
  obtain ⟨hline, hcolumn⟩ := Position.mk.inj hposition
  subst hstart hend
  exact ⟨hle, by simpa using hstop, htext, hline, hcolumn⟩

/-- The end of the input as a token. -/
theorem Stands.gives_end (h : l.Stands chars settings lo k)
    (hat : l.scan.stream.index = chars.size → l.atEnd) :
    Gives chars settings lo k l.endToken l where
  covers := by
    refine covers_of_standpoint (Nat.le_refl _) h.scan.index_le rfl rfl ?_ h.scan.position_eq
    rw [List.drop_take, Nat.sub_self, List.take_zero]
    rfl
  le_start := h.scan.le_index
  stop := rfl
  number := h.number
  stands := by
    rw [if_pos (by rfl)]
    exact h
  atEnd := hat
  isEnd _ := rfl

/-- The token in the making, when it is complete. -/
theorem Drafts.gives (h : l.Drafts chars settings lo k)
    (hat : l.scan.stream.index = chars.size → l.atEnd) {type : Int} (htype : type ≠ endOfInput) :
    Gives chars settings lo k (l.token type) { l with nextIndex := l.nextIndex + 1 } := by
  have hproper : (l.token type).isEnd = false := decide_eq_false htype
  refine
    { covers := covers_of_standpoint h.stands.scan.le_index h.stands.scan.index_le rfl rfl ?_ h.position
      le_start := h.le_start
      stop := rfl
      number := h.stands.number
      stands := ?_
      atEnd := hat
      isEnd := fun hend => by rw [hproper] at hend; cases hend }
  · change l.scan.stream.text _ _ = _
    rw [CharStream.text_eq, h.stands.scan.chars_eq]
  · rw [hproper]
    exact ⟨h.stands_from.scan, congrArg (· + 1) h.stands.number, h.stands.atEnd⟩

/-- What is done behind a match: the token is given, or another match is made. -/
def afterMatch (fuel : Nat) (type : Int) : Run (Lexer σ) Token := do
  let l ← get
  if type = endOfInput then pure l.endToken
  else
    match l.draft.fate with
    | .more => produce fuel false
    | .skip => produce fuel true
    | .emit => do
      set { l with nextIndex := l.nextIndex + 1 }
      pure (l.token type)

theorem produce_succ (fuel : Nat) (fresh : Bool) (l : Lexer σ) :
    produce (fuel + 1) fresh l = if fresh && l.atEnd then (.ok l.endToken, l)
      else (extend >>= afterMatch fuel) (if fresh then l.begin else l) := by
  rw [produce, Run.bind_apply, Run.get_apply]
  dsimp only
  by_cases hat : (fresh && l.atEnd) = true
  · rw [if_pos hat, if_pos hat]
    rfl
  · rw [if_neg hat, if_neg hat]
    cases fresh <;> rfl

/-- A token is made of one match or several; whatever is dropped or fails, the lexer does not go
back. -/
theorem produce_meets (fuel : Nat) (fresh : Bool) :
    Run.Meets (fun l => if fresh then l.Stands chars settings lo k else l.Drafts chars settings lo k)
      (produce fuel fresh : Run (Lexer σ) Token) (Gives chars settings lo k)
      fun _ => Stands chars settings lo k := by
  induction fuel generalizing fresh with
  | zero =>
    refine .throw fun l hl => ?_
    cases fresh with
    | true => exact hl
    | false => exact hl.stands_from
  | succ fuel ih =>
    -- Behind a match the lexer knows whether it is at the end, so it may give the token.
    have hextend : Run.Meets (Drafts chars settings lo k) (extend >>= afterMatch fuel)
        (Gives chars settings lo k : Token → Lexer σ → Prop) fun _ => Stands chars settings lo k := by
      refine (extend_drafts.imp (fun _ h => h) (fun _ _ h => h) fun _ _ h => h.stands_from).bind
        fun type => ?_
      rintro l ⟨hl, hat⟩
      unfold afterMatch
      rw [Run.bind_apply, Run.get_apply]
      dsimp only
      by_cases htype : type = endOfInput
      · rw [if_pos htype]
        exact hl.stands_from.gives_end hat
      · rw [if_neg htype]
        cases hfate : l.draft.fate with
        | more => exact ih false l hl
        | skip => exact ih true l hl.stands_from
        | emit => exact hl.gives hat htype
    intro l hl
    rw [produce_succ]
    cases fresh with
    | false => exact hextend l hl
    | true =>
      by_cases hat : l.atEnd = true
      · rw [if_pos (by simpa using hat)]
        exact Stands.gives_end hl fun _ => hat
      · rw [if_neg (by simpa using hat)]
        exact hextend l.begin (Stands.begin hl)

/-- A token, or an error, and the lexer goes on from where it stands. -/
theorem nextToken_meets :
    Run.Meets (Stands chars settings lo k) (nextToken : Run (Lexer σ) Token)
      (Gives chars settings lo k) fun _ => Stands chars settings lo k := by
  refine Run.Meets.bind (.get fun l hl => hl) fun l => ?_
  exact produce_meets l.fuel true

/-- A match is made unless the end was noticed. -/
theorem nextToken_eq (hpatience : 0 < l.scan.matcher.settings.patience) : ∃ fuel, nextToken l =
    if l.atEnd then (.ok l.endToken, l) else (extend >>= afterMatch fuel) l.begin := by
  obtain ⟨fuel, hfuel⟩ : ∃ fuel, l.fuel = fuel + 1 :=
    Nat.exists_eq_add_one.mpr (Nat.mul_pos (Nat.succ_pos _) hpatience)
  refine ⟨fuel, ?_⟩
  unfold nextToken
  rw [Run.bind_apply, Run.get_apply]
  dsimp only
  rw [hfuel, produce_succ]
  rfl

/-- Once the end was noticed, a lexer gives it again and again. -/
theorem nextToken_of_atEnd (hat : l.atEnd) (hpatience : 0 < l.scan.matcher.settings.patience) :
    nextToken l = (.ok l.endToken, l) := by
  obtain ⟨fuel, hnext⟩ := nextToken_eq hpatience
  rw [hnext, if_pos hat]

/-- The next match of a lexer fails. -/
def MatchFails (l : Lexer σ) : Prop := ∃ e, (Scan.next l.hooks l.mode l.scan).1 = .error e

/-- In the next match of a lexer an accepting state of its mode's automaton recognises something other than
the mere end of the input. -/
def MatchAccepts (l : Lexer σ) : Prop :=
  ∃ found, (Scan.next l.hooks l.mode l.scan).1 = .ok found ∧ found ≠ ⟨endOfInput, none⟩ ∧
    Scan.Recognises l.hooks l.mode l.scan found

/-- A lexer whose next match neither fails nor recognises anything gives the end of the input. -/
theorem nextToken_of_nothing (hpatience : 0 < l.scan.matcher.settings.patience) (hfails : ¬ l.MatchFails)
    (haccepts : ¬ l.MatchAccepts) : ∃ l', nextToken l = (.ok l'.endToken, l') := by
  obtain ⟨fuel, hnext⟩ := nextToken_eq hpatience
  rw [hnext]
  by_cases hat : l.atEnd = true
  · rw [if_pos hat]
    exact ⟨l, rfl⟩
  rw [if_neg hat, Run.bind_apply, extend_eq]
  rcases hr : Scan.next l.begin.hooks l.begin.mode l.begin.scan with ⟨e | found, scan⟩
  · exact absurd ⟨e, congrArg Prod.fst hr⟩ hfails
  have hfound : (Scan.next l.hooks l.mode l.scan).1 = .ok found := congrArg Prod.fst hr
  obtain rfl : found = ⟨endOfInput, none⟩ := by
    by_contra hother
    exact haccepts ⟨found, hfound, hother, (Scan.next_gives hfound).resolve_left hother⟩
  -- The token in the making has no type yet, so its type is that of the match.
  have htype : (carryOut l.begin.draft.start ⟨endOfInput, none⟩ (l.begin.behind scan)).1 = .ok endOfInput :=
    carryOut_type _ _ _
  dsimp only
  rcases hc : carryOut l.begin.draft.start ⟨endOfInput, none⟩ (l.begin.behind scan) with ⟨e | type, l'⟩ <;>
    rw [hc] at htype
  · cases htype
  · cases htype
    exact ⟨l', rfl⟩

/-! ## A history of requests -/

/-- The tokens other than the end of the input. -/
def proper (ts : List Token) : List Token := ts.filter fun t => !t.isEnd

theorem proper_concat (ts : List Token) (t : Token) :
    proper (ts ++ [t]) = if t.isEnd then proper ts else proper ts ++ [t] := by
  rw [proper, List.filter_append, proper]
  cases h : t.isEnd <;> simp [h]

/-- What a history of requests leads to: the tokens given cover what they say, lie in order before the
place that was reached, and are numbered in order. -/
structure Served (chars : Array Char) (settings : Settings) (ts : List Token) (l : Lexer σ) : Prop where
  covers : ∀ t ∈ ts, t.Covers chars.toList
  ordered : ts.Pairwise fun t u => t.stop ≤ u.start
  numbered : (proper ts).map Token.index = List.range (proper ts).length
  behind : ∀ t ∈ ts, t.stop ≤ l.scan.stream.index
  stands : l.Stands chars settings 0 (proper ts).length

theorem served_ofMatcher (m : Matcher) (text : String) (hooks : LexerHooks σ) (author : σ) :
    (ofMatcher m text hooks author).Served text.toList.toArray m.settings [] where
  covers _ h := nomatch h
  ordered := .nil
  numbered := rfl
  behind _ h := nomatch h
  stands :=
    { scan := ⟨⟨0, Nat.le_refl 0, Nat.zero_le _, rfl⟩, rfl⟩
      number := rfl
      atEnd := fun h => nomatch h }

variable {ts : List Token}

/-- A token is added to those before it. -/
theorem Served.gives (h : l.Served chars settings ts) {t : Token}
    (ht : Gives chars settings l.scan.stream.index (proper ts).length t l') :
    l'.Served chars settings (ts ++ [t]) := by
  refine ⟨?_, ?_, ?_, ?_, ?_⟩
  · exact List.forall_mem_append.mpr ⟨h.covers, List.forall_mem_singleton.mpr ht.covers⟩
  · refine List.pairwise_append.mpr ⟨h.ordered, List.pairwise_singleton _ _, fun u hu v hv => ?_⟩
    obtain rfl := List.mem_singleton.mp hv
    exact (h.behind u hu).trans ht.le_start
  · rw [proper_concat]
    by_cases hend : t.isEnd = true
    · rw [if_pos hend]
      exact h.numbered
    · rw [if_neg hend, List.map_append, h.numbered, List.length_append, List.length_singleton,
        List.range_succ, List.map_singleton, ht.number]
  · refine List.forall_mem_append.mpr ⟨fun u hu => ?_, List.forall_mem_singleton.mpr ht.stop.le⟩
    exact (h.behind u hu).trans ht.stands.scan.le_index
  · have hlength : (proper (ts ++ [t])).length =
        if t.isEnd then (proper ts).length else (proper ts).length + 1 := by
      rw [proper_concat]
      split <;> simp
    rw [hlength]
    exact ht.stands.mono (Nat.zero_le _)

theorem Served.stays (h : l.Served chars settings ts)
    (hl : l'.Stands chars settings l.scan.stream.index (proper ts).length) :
    l'.Served chars settings ts where
  covers := h.covers
  ordered := h.ordered
  numbered := h.numbered
  behind t ht := (h.behind t ht).trans hl.scan.le_index
  stands := hl.mono (Nat.zero_le _)

/-- The lexer where it stands, with the number that the history leads to. -/
theorem Served.here (h : l.Served chars settings ts) :
    l.Stands chars settings l.scan.stream.index (proper ts).length :=
  h.stands.mono (Nat.le_refl _)

/-- What is asked next is added to the history. -/
theorem Served.serve (h : l.Served chars settings ts) (requests : List Request) :
    (serve requests l).2.Served chars settings (ts ++ given (serve requests l).1) := by
  induction requests generalizing l ts with
  | nil =>
    change l.Served chars settings (ts ++ [])
    rw [List.append_nil]
    exact h
  | cons request rest ih =>
    cases request with
    | recovery => exact ih (h.stays h.here.recover)
    | token =>
      have hnext := nextToken_meets l h.here
      change (Lexer.serve rest (nextToken l).2).2.Served chars settings
        (ts ++ given ((nextToken l).1 :: (Lexer.serve rest (nextToken l).2).1))
      rcases hr : nextToken l with ⟨e | t, l'⟩ <;> rw [hr] at hnext
      · exact ih (h.stays hnext)
      · have hgiven := ih (h.gives hnext)
        rwa [List.append_assoc] at hgiven

/-- From a lexer that noticed the end nothing but the end is to be had. -/
theorem serve_of_atEnd (h : l.Stands chars settings lo k) (hat : l.atEnd)
    (hpatience : 0 < settings.patience) (requests : List Request) :
    serve requests l = (List.replicate (requests.count .token) (.ok l.endToken), l) := by
  induction requests with
  | nil => rfl
  | cons request rest ih =>
    cases request with
    | token =>
      have hnext := nextToken_of_atEnd hat (h.scan.settings ▸ hpatience)
      rw [Lexer.serve, hnext, ih, List.count_cons_self, List.replicate_succ]
    | recovery =>
      have hstay : l.recover = l := if_pos (h.scan.peek_eq_end_iff.mpr (h.atEnd hat))
      rw [Lexer.serve, hstay, ih, List.count_cons_of_ne (by decide)]

/-- What holds of a lexer of a text that gave answers to requests. -/
structure Coherent (text : String) (answers : List (Except RecognitionError Token)) (l : Lexer σ) :
    Prop where
  chars : l.scan.stream.chars.toList = text.toList
  index_le : l.scan.stream.index ≤ text.toList.length
  /-- The line counts the line breaks before the index. -/
  line : l.scan.matcher.position.line =
    1 + (text.toList.take l.scan.stream.index).count '\n'
  /-- The column counts the characters behind the last of them. -/
  column : l.scan.matcher.position.column =
    ((text.toList.take l.scan.stream.index).rtakeWhile (· ≠ '\n')).length
  covers : ∀ t ∈ given answers, t.Covers text.toList
  ordered : (given answers).Pairwise fun t u => t.stop ≤ u.start
  numbered : (proper (given answers)).map Token.index = List.range (proper (given answers)).length
  /-- If the next token is had and uses up the characters, the end of the input is all that follows. -/
  ending : ∀ t l', nextToken l = (.ok t, l') → l'.scan.stream.index = text.toList.length →
    l'.endToken.isEnd ∧ (t.isEnd → t = l'.endToken) ∧ ∀ later : List Request,
      serve later l' = (List.replicate (later.count .token) (.ok l'.endToken), l')
  /-- Where the characters are used up, noticed or not, the next token is the end of the input, unless the
  match fails there or a rule of the mode accepts without a character. -/
  exhausted : l.scan.stream.index = text.toList.length → ¬ l.MatchFails → ¬ l.MatchAccepts →
    ∃ l', nextToken l = (.ok l'.endToken, l') ∧ l'.scan.stream.index = text.toList.length

/-- **Lexers know where they are.**  Whatever is asked of a lexer, with any callbacks, any cache and
any errors on the way, index and position agree, the tokens given cover the characters that they
name, lie in order and are numbered in order.  Behind the token that uses up the characters the end of the
input is given again and again; and where they are used up otherwise it is given too, unless the match fails
there or a rule of the mode accepts without a character. -/
theorem serve_coherent (m : Matcher) (hpatience : 0 < m.settings.patience) (text : String)
    (hooks : LexerHooks σ) (author : σ) (requests : List Request) :
    Coherent text (serve requests (ofMatcher m text hooks author)).1
      (serve requests (ofMatcher m text hooks author)).2 := by
  have h := (served_ofMatcher m text hooks author).serve requests
  rw [List.nil_append] at h
  generalize serve requests (ofMatcher m text hooks author) = r at h
  have hstands := h.stands
  have hsettled : 0 < r.2.scan.matcher.settings.patience := hstands.scan.settings ▸ hpatience
  refine ⟨?_, hstands.scan.index_le, ?_, ?_, h.covers, h.ordered, h.numbered, ?_, ?_⟩
  · rw [hstands.scan.chars_eq]
  · rw [hstands.scan.position_eq, Position.behind_eq]
  · rw [hstands.scan.position_eq, Position.behind_eq]
  · intro t l' hnext hend
    have hgives := nextToken_meets r.2 hstands
    rw [hnext] at hgives
    exact ⟨rfl, hgives.isEnd, serve_of_atEnd hgives.stands (hgives.atEnd hend) hpatience⟩
  · intro hindex hfails haccepts
    obtain ⟨l', hnext⟩ := nextToken_of_nothing hsettled hfails haccepts
    have hgives := nextToken_meets r.2 h.here
    rw [hnext] at hgives
    exact ⟨l', hnext, Nat.le_antisymm hgives.stands.scan.index_le (hindex ▸ hgives.stands.scan.le_index)⟩

/-- A lexer's grammar: a token may begin with a quote and a line break, and line breaks are dropped. -/
def linesGrammar : Grammar :=
  { Grammar.lexer with rules := [
      ⟨"QUOTE", .seq [.char 'q', .char '\n', .command .more], 1, 0, false⟩,
      ⟨"WORD", .plus (.char 'a') true, 2, 0, false⟩,
      ⟨"BREAK", .seq [.char '\n', .command .skip], 3, 0, false⟩] }

/-- Its network. -/
def linesNetwork : Network := linesGrammar.layout.toOption.getD { kind := .lexer, maxSymbol := 0 }

/-- A token over two lines, one behind a line break that is dropped, an error, and the end of the input,
which was not noticed when the lexer went past the character at fault. -/
theorem serve_coherent_lines :
    let m := Matcher.ofNetwork linesNetwork {}
    let r := serve [.token, .token, .token, .recovery, .token, .token] (ofMatcher m "q\na\naa?" .none ())
    linesGrammar.layout = .ok linesNetwork ∧ 0 < m.settings.patience ∧
      r.1 = [.ok { type := 2, stop := 3, text := "q\na" },
        .ok { type := 2, start := 4, stop := 6, line := 3, index := 1, text := "aa" },
        .error (.lexerNoViableAlt 0 6 6 3 2),
        .ok { type := endOfInput, start := 7, stop := 7, line := 3, column := 3, index := 2 },
        .ok { type := endOfInput, start := 7, stop := 7, line := 3, column := 3, index := 2 }] ∧
      Coherent "q\na\naa?" r.1 r.2 :=
  have hpatience : 0 < (Matcher.ofNetwork linesNetwork {}).settings.patience := by decide
  ⟨by cbv, hpatience, by cbv, serve_coherent _ hpatience "q\na\naa?" .none () _⟩

/-- A lexer's grammar with a token rule for the end of the input. -/
def endGrammar : Grammar :=
  { Grammar.lexer with rules := [⟨"T", .symbol endOfInput, 1, 0, false⟩] }

/-- Its network. -/
def endNetwork : Network := endGrammar.layout.toOption.getD { kind := .lexer, maxSymbol := 0 }

/-- There are no characters, but the first token is not the end of the input. -/
theorem serve_end_first :
    let l := ofMatcher (.ofNetwork endNetwork {}) "" .none ()
    endGrammar.layout = .ok endNetwork ∧ l.scan.stream.index = l.scan.stream.size ∧
      (serve [.token, .token, .token] l).1 =
        [.ok { type := 1 }, .ok { type := endOfInput, index := 1 },
          .ok { type := endOfInput, index := 1 }] := by
  cbv

end Lexer
end AdaptiveLL

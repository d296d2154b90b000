import AdaptiveLL.Input.Token
import AdaptiveLL.Lexing.Matcher

/-!
# Lexers

`Lexer.nextToken` makes a token of one match or several: commands may drop what was matched, or
extend it by the next match, give the token another type or channel, and switch modes.  Once the
characters are used up, every further token is the end of the input.

After an error the lexer stands where it failed.  `Lexer.recover` goes past one character, and
`Lexer.tokenizeRecovering` does so after every error that the input is to blame for.
-/

namespace AdaptiveLL

/-- What becomes of a match. -/
inductive Fate where
  /-- It completes the token. -/
  | emit
  /-- It is dropped. -/
  | skip
  /-- The next match extends it. -/
  | more
deriving DecidableEq, Repr

/-- A token in the making. -/
structure Draft where
  /-- The index of its first character. -/
  start : Nat := 0
  /-- The position of its first character. -/
  position : Position := {}
  /-- The type that a command gave it. -/
  type : Option Int := none
  /-- The channel it is on. -/
  channel : Int := defaultChannel
  /-- What becomes of the last match. -/
  fate : Fate := .emit

/-- A lexer over a text. -/
structure Lexer (σ : Type) where
  /-- The matcher, the characters and the author's state. -/
  scan : Scan σ
  /-- The author's callbacks. -/
  hooks : LexerHooks σ
  /-- The mode. -/
  mode : Nat := 0
  /-- The suspended modes, the last one first. -/
  suspended : List Nat := []
  /-- Whether the characters were used up. -/
  atEnd : Bool := false
  /-- The number of the next token. -/
  nextIndex : Nat := 0
  /-- The token in the making. -/
  draft : Draft := {}

namespace Lexer

variable {σ : Type}

/-- A lexer at the beginning of a text. -/
def ofMatcher (matcher : Matcher) (text : String) (hooks : LexerHooks σ) (author : σ) :
    Lexer σ where
  scan := ⟨matcher.setPosition {}, CharStream.ofText text, author⟩
  hooks

/-- Changes the token in the making. -/
def redraft (f : Draft → Draft) (l : Lexer σ) : Lexer σ := { l with draft := f l.draft }

/-- Returns to the mode that was suspended last. -/
def popMode : Run (Lexer σ) Unit := do
  match (← get).suspended with
  | [] => throw (.modeStackEmpty (← get).scan.stream.index)
  | mode :: suspended => modify fun l => { l with mode, suspended }

/-- Where an action of the author's is run. -/
def cursor (l : Lexer σ) : Cursor := { l.scan.cursor with tokenStart := l.draft.start }

instance : CommandTarget (Lexer σ) where
  skip := redraft fun d => { d with fate := .skip }
  more := redraft fun d => { d with fate := .more }
  setType type := redraft fun d => { d with type := some type }
  setChannel channel := redraft fun d => { d with channel }
  setMode mode l := { l with mode }
  pushMode mode l := { l with mode, suspended := l.mode :: l.suspended }
  popMode := popMode
  custom rule index l :=
    { l with scan := { l.scan with author := l.hooks.action rule index l.cursor l.scan.author } }
  index l := l.scan.stream.index
  seek index l := { l with scan := { l.scan with stream := l.scan.stream.seek index } }

/-- Matches in the current mode. -/
def match? : Run (Lexer σ) TokenMatch := fun l =>
  match Scan.next l.hooks l.mode l.scan with
  | (result, scan) => (result, { l with scan })

/-- Begins a token where the lexer stands. -/
def begin (l : Lexer σ) : Lexer σ :=
  { l with draft := { start := l.scan.stream.index, position := l.scan.matcher.position } }

/-- The token in the making, up to where the lexer stands. -/
def token (l : Lexer σ) (type : Int) : Token where
  type
  channel := l.draft.channel
  start := l.draft.start
  stop := l.scan.stream.index
  line := l.draft.position.line
  column := l.draft.position.column
  index := l.nextIndex
  text := l.scan.stream.text l.draft.start l.scan.stream.index

/-- The token for the end of the input. -/
def endToken (l : Lexer σ) : Token :=
  let position := l.scan.matcher.position
  { Token.endAt l.scan.stream.index position.line position.column with index := l.nextIndex }

/-- Extends the token in the making by one match, and carries out the commands of the match.
Gives the type of the token so far. -/
def extend : Run (Lexer σ) Int := do
  modify (redraft fun d => { d with type := none, fate := .emit })
  let found ← match?
  match found.commands with
  | some commands => Command.runAll commands (← get).draft.start
  | none => pure ()
  modify fun l => if l.scan.stream.peek = endOfInput then { l with atEnd := true } else l
  pure ((← get).draft.type.getD found.type)

/-- Matches until a token is complete; `fresh` says whether the next match begins a token. -/
def produce : (fuel : Nat) → (fresh : Bool) → Run (Lexer σ) Token
  | 0, _ => throw .outOfFuel
  | fuel + 1, fresh => do
    if fresh && (← get).atEnd then pure (← get).endToken
    else do
      if fresh then modify begin
      let type ← extend
      let l ← get
      if type = endOfInput then pure l.endToken
      else
        match l.draft.fate with
        | .more => produce fuel false
        | .skip => produce fuel true
        | .emit => do
          set { l with nextIndex := l.nextIndex + 1 }
          pure (l.token type)

/-- How many matches, or tokens, the lexer may make before it is cut off. -/
def fuel (l : Lexer σ) : Nat := l.scan.matcher.settings.fuel l.scan.stream.size

/-- The next token; the end of the input again and again once it was reached. -/
def nextToken : Run (Lexer σ) Token := do produce (← get).fuel true

/-- Goes past one character, if there is one. -/
def recover (l : Lexer σ) : Lexer σ :=
  if l.scan.stream.peek = endOfInput then l else { l with scan := l.scan.consume }

/-- So many tokens at most, up to the end of the input. -/
def tokens : (fuel : Nat) → Run (Lexer σ) (List Token)
  | 0 => throw .outOfFuel
  | fuel + 1 => do
    let t ← nextToken
    if t.isEnd then pure [t] else return t :: (← tokens fuel)

/-- All tokens up to the end of the input, unless there is an error. -/
def tokenize : Run (Lexer σ) (List Token) := do tokens (← get).fuel

/-- So many tokens and errors at most, up to the end of the input or an error that the input is
not to blame for. -/
def recovering : (fuel : Nat) → Lexer σ → (List Token × List RecognitionError) × Lexer σ
  | 0, l => (([], [.outOfFuel]), l)
  | fuel + 1, l =>
    match nextToken l with
    | (.ok t, l) =>
      if t.isEnd then (([t], []), l)
      else
        match recovering fuel l with
        | ((ts, es), l) => ((t :: ts, es), l)
    | (.error e, l) =>
      if e.isSyntaxError then
        match recovering fuel l.recover with
        | ((ts, es), l) => ((ts, e :: es), l)
      else (([], [e]), l)

/-- All tokens up to the end of the input, and the errors in between. -/
def tokenizeRecovering (l : Lexer σ) : (List Token × List RecognitionError) × Lexer σ :=
  recovering l.fuel l

end Lexer
end AdaptiveLL

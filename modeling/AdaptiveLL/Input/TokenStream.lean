import AdaptiveLL.Input.Token

/-!
# Token streams

The tokens of an input as a parser sees them: only those on one channel, and those that end the
input.  A stream always ends with such a token (`ofTokens` adds one if need be), and its place is
always at a token that is seen.  A token that ends the input is never passed.
-/

namespace AdaptiveLL

/-- Tokens, the channel listened to, and a place. -/
structure TokenStream where
  /-- The tokens. -/
  tokens : Array Token
  /-- The channel listened to. -/
  channel : Int
  /-- The place: the position of the next token. -/
  index : Nat
deriving Repr, Inhabited

namespace TokenStream

/-- The number of tokens. -/
def size (s : TokenStream) : Nat := s.tokens.size

/-- Whether a token is seen. -/
def sees (s : TokenStream) (t : Token) : Bool := t.channel = s.channel || t.isEnd

/-- The first of the `count` positions from `i` on whose token is seen, or else the last position
of all. -/
def scan (s : TokenStream) : (count i : Nat) → Nat
  | 0, _ => s.tokens.size - 1
  | count + 1, i =>
    match s.tokens[i]? with
    | some t => if s.sees t then i else scan s count (i + 1)
    | none => s.tokens.size - 1

/-- The first position from `i` on whose token is seen, or else the last position. -/
def nextSeen (s : TokenStream) (i : Nat) : Nat := s.scan (s.tokens.size - i) i

/-- Whether the token at a position ends the input. -/
def endsAt (s : TokenStream) (i : Nat) : Bool := (s.tokens[i]?.map Token.isEnd).getD true

/-- Tokens with an end of the input behind them, at the place where the last token stops. -/
def withEnd (tokens : List Token) : List Token :=
  match tokens.getLast? with
  | none => [Token.endAt 0 1 0]
  | some t => if t.isEnd then tokens else tokens ++ [Token.endAt t.stop t.line t.column]

/-- The stream of tokens on a channel.  The tokens are numbered anew. -/
def ofTokens (tokens : List Token) (channel : Int) : TokenStream :=
  let numbered := (withEnd tokens).mapIdx fun i t => { t with index := i }
  let s : TokenStream := { tokens := numbered.toArray, channel, index := 0 }
  { s with index := s.nextSeen 0 }

/-- The stream of tokens of the given types, without text. -/
def ofTypes (types : List Int) : TokenStream :=
  ofTokens (types.map fun t => Token.ofText t "") defaultChannel

/-- The token at a position. -/
def get? (s : TokenStream) (i : Nat) : Option Token := s.tokens[i]?

/-- The position reached from `i` by going past `count` tokens that are seen. -/
def advance (s : TokenStream) : (count i : Nat) → Nat
  | 0, i => i
  | count + 1, i => if s.endsAt i then i else advance s count (s.nextSeen (i + 1))

/-- The `k`-th token ahead, counting from one. -/
def tokenAhead (s : TokenStream) (k : Nat) : Option Token := s.tokens[s.advance (k - 1) s.index]?

/-- The type of the `k`-th token ahead, counting from one. -/
def lookahead (s : TokenStream) (k : Nat) : Symbol :=
  match s.tokenAhead k with
  | some t => t.type
  | none => endOfInput

/-- The type of the next token. -/
def peek (s : TokenStream) : Symbol := s.lookahead 1

/-- Goes past the next token, unless it ends the input. -/
def consume (s : TokenStream) : TokenStream :=
  if s.endsAt s.index then s else { s with index := s.nextSeen (s.index + 1) }

/-- Goes to the first token from a position on that is seen. -/
def seek (s : TokenStream) (index : Nat) : TokenStream :=
  { s with index := s.nextSeen (min index (s.tokens.size - 1)) }

end TokenStream

end AdaptiveLL

import AdaptiveLL.Invocation

/-!
# Guards

A grammar may guard an alternative by predicates that its author evaluates, and by precedence
requirements.  A `Guard` is what a path through the network has collected of them.

`Guard.both` and `Guard.either` keep guards in a normal form: operands are sorted and listed once,
a conjunction holds no conjunction and a disjunction no disjunction, an absent guard is absorbed,
and the precedence requirements among the operands are merged into one.

`ParserHooks` is the author's side: three callbacks over a state of the author's own, which is
how callbacks with memory are written without effects.
-/

namespace AdaptiveLL

/-- A condition on the use of an alternative. -/
inductive Guard where
  /-- No condition. -/
  | always
  /-- A predicate of a rule; whether it looks at the caller's stack. -/
  | predicate (rule index : Nat) (contextual : Bool)
  /-- The precedence of the running rule must allow this level. -/
  | precedence (level : Int)
  /-- All of the operands. -/
  | all (operands : List Guard)
  /-- Any of the operands. -/
  | any (operands : List Guard)
deriving Inhabited, Repr

namespace Guard

/-! ## Order and equality -/

/-- The place of a constructor in the order. -/
def rank : Guard → Nat
  | always => 0
  | predicate .. => 1
  | precedence _ => 2
  | all _ => 3
  | any _ => 4

mutual

/-- Guards are ordered by constructor, then by their parts from left to right. -/
def compare : Guard → Guard → Ordering
  | always, always => .eq
  | predicate r i c, predicate r' i' c' =>
    (Ord.compare r r').then ((Ord.compare i i').then (Ord.compare c.toNat c'.toNat))
  | precedence p, precedence q => Ord.compare p q
  | all as, all bs => compareList as bs
  | any as, any bs => compareList as bs
  | a, b => Ord.compare a.rank b.rank

/-- Operand lists are ordered like words. -/
def compareList : List Guard → List Guard → Ordering
  | [], [] => .eq
  | [], _ :: _ => .lt
  | _ :: _, [] => .gt
  | a :: as, b :: bs => (compare a b).then (compareList as bs)

end

mutual

/-- Equality of guards is decidable. -/
def decEq : (a b : Guard) → Decidable (a = b)
  | always, always => .isTrue rfl
  | predicate r i c, predicate r' i' c' =>
    if h : r = r' ∧ i = i' ∧ c = c' then
      .isTrue (by obtain ⟨rfl, rfl, rfl⟩ := h; rfl)
    else .isFalse (fun e => h (by cases e; exact ⟨rfl, rfl, rfl⟩))
  | precedence p, precedence q =>
    if h : p = q then .isTrue (by rw [h]) else .isFalse (fun e => h (by cases e; rfl))
  | all as, all bs =>
    match decEqList as bs with
    | .isTrue h => .isTrue (by rw [h])
    | .isFalse h => .isFalse (fun e => h (by cases e; rfl))
  | any as, any bs =>
    match decEqList as bs with
    | .isTrue h => .isTrue (by rw [h])
    | .isFalse h => .isFalse (fun e => h (by cases e; rfl))
  | always, predicate .. => .isFalse nofun
  | always, precedence _ => .isFalse nofun
  | always, all _ => .isFalse nofun
  | always, any _ => .isFalse nofun
  | predicate .., always => .isFalse nofun
  | predicate .., precedence _ => .isFalse nofun
  | predicate .., all _ => .isFalse nofun
  | predicate .., any _ => .isFalse nofun
  | precedence _, always => .isFalse nofun
  | precedence _, predicate .. => .isFalse nofun
  | precedence _, all _ => .isFalse nofun
  | precedence _, any _ => .isFalse nofun
  | all _, always => .isFalse nofun
  | all _, predicate .. => .isFalse nofun
  | all _, precedence _ => .isFalse nofun
  | all _, any _ => .isFalse nofun
  | any _, always => .isFalse nofun
  | any _, predicate .. => .isFalse nofun
  | any _, precedence _ => .isFalse nofun
  | any _, all _ => .isFalse nofun

/-- Equality of operand lists is decidable. -/
def decEqList : (as bs : List Guard) → Decidable (as = bs)
  | [], [] => .isTrue rfl
  | [], _ :: _ => .isFalse nofun
  | _ :: _, [] => .isFalse nofun
  | a :: as, b :: bs =>
    match decEq a b, decEqList as bs with
    | .isTrue h, .isTrue hs => .isTrue (by rw [h, hs])
    | .isFalse h, _ => .isFalse (fun e => h (by cases e; rfl))
    | _, .isFalse hs => .isFalse (fun e => hs (by cases e; rfl))

end

instance : DecidableEq Guard := decEq

mutual

/-- A hash that mixes every part of a guard. -/
def hashCode : Guard → UInt64
  | always => 11
  | predicate r i c => mixHash (hash r) (mixHash (hash i) (hash c))
  | precedence p => mixHash 13 (hash p)
  | all as => mixHash 17 (hashList as)
  | any as => mixHash 19 (hashList as)

/-- A hash that mixes the hashes of the operands. -/
def hashList : List Guard → UInt64
  | [] => 7
  | a :: as => mixHash (hashCode a) (hashList as)

end

instance : Hashable Guard := ⟨hashCode⟩

/-! ## Combining guards -/

/-- Whether there is no condition. -/
def isAlways : Guard → Bool
  | always => true
  | _ => false

/-- The level of a precedence requirement. -/
def level? : Guard → Option Int
  | precedence p => some p
  | _ => none

/-- Puts a guard into a sorted list at its place, unless it is there. -/
def insertOperand (g : Guard) : List Guard → List Guard
  | [] => [g]
  | h :: hs =>
    match compare g h with
    | .lt => g :: h :: hs
    | .eq => h :: hs
    | .gt => h :: insertOperand g hs

/-- Sorts operands and drops repetitions. -/
def normalize (operands : List Guard) : List Guard :=
  operands.foldl (fun sorted g => insertOperand g sorted) []

/-- Replaces two or more precedence requirements by one, at the level that `pick` chooses. -/
def mergeLevels (pick : Int → Int → Int) (operands : List Guard) : List Guard :=
  match operands.filterMap level? with
  | p :: q :: rest =>
    insertOperand (precedence ((q :: rest).foldl pick p))
      (operands.filter fun g => g.level?.isNone)
  | _ => operands

/-- Wraps operands, unless there is only one. -/
def combine (wrap : List Guard → Guard) : List Guard → Guard
  | [g] => g
  | operands => wrap operands

/-- What a guard contributes to a conjunction. -/
def conjuncts : Guard → List Guard
  | all operands => operands
  | g => [g]

/-- What a guard contributes to a disjunction. -/
def disjuncts : Guard → List Guard
  | any operands => operands
  | g => [g]

/-- Both conditions.  Of several precedence requirements the weakest level remains. -/
def both (a b : Guard) : Guard :=
  if a.isAlways then b
  else if b.isAlways then a
  else combine all (mergeLevels min (normalize (a.conjuncts ++ b.conjuncts)))

/-- Either condition.  Of several precedence requirements the highest level remains. -/
def either (a b : Guard) : Guard :=
  if a.isAlways || b.isAlways then always
  else combine any (mergeLevels max (normalize (a.disjuncts ++ b.disjuncts)))

/-! ## Text -/

mutual

/-- The text of a guard; operands are joined without parentheses. -/
def toText : Guard → String
  | always => "\x7btrue\x7d?"
  | predicate r i _ => "\x7b" ++ toString r ++ ":" ++ toString i ++ "\x7d?"
  | precedence p => "\x7b" ++ toString p ++ ">=prec\x7d?"
  | all operands => joinText "&&" operands
  | any operands => joinText "||" operands

/-- The texts of operands with a separator between them. -/
def joinText (separator : String) : List Guard → String
  | [] => ""
  | [g] => g.toText
  | g :: h :: gs => g.toText ++ separator ++ joinText separator (h :: gs)

end

end Guard

/-! ## Evaluation -/

/-- The callbacks of a parser's author, over a state `σ` that they may read and change. -/
structure ParserHooks (σ : Type) where
  /-- Decides a predicate of a rule.  The invocation stack is given to contextual ones only. -/
  predicate : Option (List Invocation) → Nat → Nat → σ → Bool × σ
  /-- Decides whether the running rule's precedence allows a level. -/
  precedence : List Invocation → Int → σ → Bool × σ
  /-- Runs an action of a rule. -/
  action : List Invocation → Nat → Nat → σ → σ

/-- A level is allowed unless it is below the precedence of the innermost rule. -/
def allowsLevel (stack : List Invocation) (level : Int) : Bool :=
  match stack.getLast? with
  | some innermost => decide (innermost.precedence ≤ level)
  | none => true

/-- Callbacks that accept every predicate, use the default precedence rule and do nothing. -/
def ParserHooks.none : ParserHooks Unit where
  predicate _ _ _ s := (true, s)
  precedence stack level s := (allowsLevel stack level, s)
  action _ _ _ s := s

namespace Guard

variable {σ : Type}

mutual

/-- Evaluates a guard under an invocation stack, from left to right and no further than
needed. -/
def eval (hooks : ParserHooks σ) (outer : List Invocation) : Guard → σ → Bool × σ
  | always, s => (true, s)
  | predicate r i contextual, s =>
    hooks.predicate (if contextual then some outer else Option.none) r i s
  | precedence level, s => hooks.precedence outer level s
  | all operands, s => evalAll hooks outer operands s
  | any operands, s => evalAny hooks outer operands s

/-- Whether every operand holds. -/
def evalAll (hooks : ParserHooks σ) (outer : List Invocation) : List Guard → σ → Bool × σ
  | [], s => (true, s)
  | g :: gs, s =>
    match eval hooks outer g s with
    | (true, s) => evalAll hooks outer gs s
    | (false, s) => (false, s)

/-- Whether some operand holds. -/
def evalAny (hooks : ParserHooks σ) (outer : List Invocation) : List Guard → σ → Bool × σ
  | [], s => (false, s)
  | g :: gs, s =>
    match eval hooks outer g s with
    | (true, s) => (true, s)
    | (false, s) => evalAny hooks outer gs s

end

end Guard

end AdaptiveLL

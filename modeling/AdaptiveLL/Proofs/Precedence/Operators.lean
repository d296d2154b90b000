import Mathlib
import AdaptiveLL.Grammar.Layout
import AdaptiveLL.Parsing.Trace

/-! # Operators with precedences

A language of expressions has one kind of operand and some binary operators, each with a level: the higher
it is, the tighter the operator binds (`OperatorTable`).  Its grammar is a rule for an expression, which is
an operand and then operators with their right operands in a loop, each guarded by its level, and a rule for
an expression up to the end of the input (`OperatorTable.grammar`).

What an expression means is said without the grammar: a tree binds from a level on if no operator on it is
below the level, the left operand of each binds as tightly as the operator at least, and its right operand more
tightly (`Tree.Binds`).  So operators of one level associate to the left.  Exactly one tree over given operators
binds (`existsUnique_tree`), the one that takes them in from left to right (`tree`).

`Tree.trace` is what a parser does that follows a tree.
-/
namespace AdaptiveLL

/-- A binary operator. -/
structure Operator where
  /-- The type of its token. -/
  type : Int
  /-- How tightly it binds. -/
  level : Int
deriving DecidableEq, Repr

/-- The operand and the operators of a language of expressions. -/
structure OperatorTable where
  /-- The type of an operand's token. -/
  operand : Int
  /-- The operators, in the order of their alternatives. -/
  operators : List Operator
  /-- There is an operator. -/
  nonempty : operators ≠ []
  /-- Types are positive. -/
  positive : ∀ type ∈ operand :: operators.map Operator.type, 0 < type
  /-- Types tell operands and operators apart. -/
  nodup : (operand :: operators.map Operator.type).Nodup
  /-- Levels are positive. -/
  binding : ∀ o ∈ operators, 1 ≤ o.level

namespace OperatorTable
variable (T : OperatorTable)

/-- How many operators there are. -/
abbrev count : Nat := T.operators.length

/-- The type of an operator's token. -/
def type (o : Fin T.count) : Int := T.operators[o].type

/-- The level of an operator. -/
def level (o : Fin T.count) : Int := T.operators[o].level

/-- The alternative of the loop that stands for an operator: it is guarded by the operator's level, and its
right operand is an expression of the next level. -/
def alternative (o : Operator) : Element :=
  .seq [.precedence o.level, .symbol o.type, .call "expr" (o.level + 1)]

/-- The grammar of expressions up to the end of the input. -/
def grammar (maxSymbol : Int) : Grammar :=
  ((Grammar.parser maxSymbol).rule "s" (.seq [.call "expr" 0, .endOfInput])).rule "expr"
    (.seq [.symbol T.operand, .star (.alt (T.operators.map alternative)) true])

/-- An operand, and operators with further operands behind it. -/
def sentence (ops : List (Fin T.count)) : List Int :=
  T.operand :: ops.flatMap fun o => [T.type o, T.operand]

/-! ## Trees -/

/-- The structure of an expression. -/
inductive Tree where
  /-- An operand. -/
  | operand
  /-- An operator between two expressions. -/
  | apply (left : Tree) (op : Fin T.count) (right : Tree)

variable {T}
namespace Tree

/-- The operators of a tree, from left to right. -/
def ops : Tree T → List (Fin T.count)
  | operand => []
  | apply left op right => left.ops ++ op :: right.ops

/-- Whether every operator is of a level at least, has a left operand that binds as tightly at least, and a
right operand that binds more tightly. -/
def Binds : Int → Tree T → Prop
  | _, operand => True
  | level, apply left op right =>
    level ≤ T.level op ∧ left.Binds (T.level op) ∧ right.Binds (T.level op + 1)

/-- Takes in an operator with an operand behind a tree: as far to the right as its level is above those of the
operators there. -/
def extend (o : Fin T.count) : Tree T → Tree T
  | operand => apply operand o operand
  | apply left op right =>
    if T.level o ≤ T.level op then apply (apply left op right) o operand
    else apply left op (right.extend o)

/-- How many tokens an expression has. -/
def size (t : Tree T) : Nat := 2 * t.ops.length + 1

/-- What is chosen before an operator: to go on in the loop, at state 10, and with several operators the alternative,
at state 11.  The two decisions have the numbers `loop` and `block`. -/
def chosen (loop block : Nat) (o : Fin T.count) (index : Nat) : List TraceEvent :=
  .decision loop 10 1 index :: if 1 < T.count then [.decision block 11 (o + 1) index] else []

/-- What is done behind an expression: the loop is left, and the rule ends. -/
def leaving (loop index : Nat) : List TraceEvent := [.decision loop 10 2 index, .exitRule 1 index]

/-- What a parser does in the rule of an expression up to the end of the loop. -/
def events (loop block : Nat) : Tree T → (index : Nat) → List TraceEvent
  | operand, index => [.token T.operand index]
  | apply l o r, index =>
    l.events loop block index ++ chosen loop block o (index + l.size) ++
      [.token (T.type o) (index + l.size), .enterRule 1 (index + l.size + 1)] ++
      r.events loop block (index + l.size + 1) ++ leaving loop (index + l.size + 1 + r.size)

/-- What a parser does that follows a tree, from the beginning to the end of the input. -/
def trace (loop block : Nat) (t : Tree T) : Trace :=
  ⟨[.enterRule 0 0, .enterRule 1 0] ++ t.events loop block 0 ++ leaving loop t.size ++
    [.token endOfInput t.size, .exitRule 0 t.size]⟩

/-! ## Binding -/

variable {t : Tree T} {level level' : Int} {o : Fin T.count}

/-- What binds from a level on binds from a lower one on. -/
theorem Binds.mono (h : t.Binds level) (hle : level' ≤ level) : t.Binds level' := by
  cases t with
  | operand => trivial
  | apply l o r => exact ⟨hle.trans h.1, h.2⟩

/-- No operator is below the level. -/
theorem Binds.level_le (h : t.Binds level) (ho : o ∈ t.ops) : level ≤ T.level o := by
  induction t generalizing level with
  | operand => cases ho
  | apply l o' r hl hr =>
    obtain ⟨hle, hleft, hright⟩ := h
    rcases List.mem_append.mp ho with ho | ho
    · exact hle.trans (hl hleft ho)
    · rcases List.mem_cons.mp ho with rfl | ho
      · exact hle
      · have := hr hright ho
        omega

@[simp] theorem ops_extend (o : Fin T.count) (t : Tree T) : (t.extend o).ops = t.ops ++ [o] := by
  induction t with
  | operand => rfl
  | apply l o' r _ hr =>
    unfold extend
    split
    · rfl
    · simp [ops, hr]

/-- Taking in an operator keeps to the levels. -/
theorem Binds.extend (h : t.Binds level) (ho : level ≤ T.level o) : (t.extend o).Binds level := by
  induction t generalizing level with
  | operand => exact ⟨ho, trivial, trivial⟩
  | apply l o' r _ hr =>
    obtain ⟨hle, hleft, hright⟩ := h
    unfold Tree.extend
    split
    · next hsmall => exact ⟨ho, ⟨hsmall, hleft, hright⟩, trivial⟩
    · next hlarge => exact ⟨hle, hleft, hr hright (by omega)⟩

/-- A tree that binds took in its last operator as the last one. -/
theorem Binds.exists_extend {ops : List (Fin T.count)} (h : t.Binds level) (hops : t.ops = ops ++ [o]) :
    ∃ t' : Tree T, t'.Binds level ∧ t'.ops = ops ∧ t = t'.extend o := by
  induction t generalizing level ops with
  | operand => cases ops <;> cases hops
  | apply l o' r _ hr =>
    obtain ⟨hle, hleft, hright⟩ := h
    cases r with
    | operand =>
      -- the operator is that of the root, and its left operand binds as tightly
      obtain ⟨rfl, ho⟩ := List.append_inj' hops rfl
      obtain rfl : o' = o := List.singleton_inj.mp ho
      refine ⟨l, hleft.mono hle, rfl, ?_⟩
      cases l with
      | operand => rfl
      | apply l₁ o₁ r₁ => exact (if_pos hleft.1).symm
    | apply l₁ o₁ r₁ =>
      have hsplit : ∃ ops', (apply l₁ o₁ r₁).ops = ops' ++ [o] ∧ ops = l.ops ++ o' :: ops' := by
        rcases List.eq_nil_or_concat (apply l₁ o₁ r₁).ops with hnil | ⟨ops', last, hlast⟩
        · exact absurd hnil (by simp [Tree.ops])
        · rw [List.concat_eq_append] at hlast
          rw [Tree.ops, hlast, ← List.cons_append, ← List.append_assoc] at hops
          obtain ⟨rfl, ho⟩ := List.append_inj' hops rfl
          exact ⟨ops', List.singleton_inj.mp ho ▸ hlast, rfl⟩
      obtain ⟨ops', hlast, rfl⟩ := hsplit
      obtain ⟨r', hbinds, rfl, hext⟩ := hr hright hlast
      have hmem : o ∈ (apply l₁ o₁ r₁).ops := hlast ▸ List.mem_append_right _ (List.mem_singleton_self o)
      have habove := hright.level_le hmem
      refine ⟨apply l o' r', ⟨hle, hleft, hbinds⟩, rfl, ?_⟩
      rw [hext, Tree.extend, if_neg (by omega)]

end Tree

theorem level_pos (o : Fin T.count) : 1 ≤ T.level o := T.binding _ (List.getElem_mem _)

theorem type_mem (o : Fin T.count) : T.type o ∈ T.operators.map Operator.type :=
  List.mem_map_of_mem (List.getElem_mem _)

theorem type_pos (o : Fin T.count) : 0 < T.type o := T.positive _ (List.mem_cons_of_mem _ (T.type_mem o))

theorem operand_pos : 0 < T.operand := T.positive _ List.mem_cons_self

theorem type_injective : Function.Injective T.type := by
  intro o o' h
  have hnodup := (List.nodup_cons.mp T.nodup).2
  have ho : o.val < (T.operators.map Operator.type).length := by simp
  have ho' : o'.val < (T.operators.map Operator.type).length := by simp
  have hsame : (T.operators.map Operator.type)[o.val] = (T.operators.map Operator.type)[o'.val] := by
    simpa [type] using h
  exact Fin.ext (hnodup.getElem_inj_iff.mp hsame)

variable (T) in
/-- The tree that takes in operators from left to right. -/
def tree (ops : List (Fin T.count)) : Tree T := ops.foldl (fun t o => t.extend o) .operand

theorem tree_concat (ops : List (Fin T.count)) (o : Fin T.count) :
    T.tree (ops ++ [o]) = (T.tree ops).extend o := by
  rw [tree, tree, List.foldl_append]
  rfl

/-- It has these operators, and it binds. -/
theorem tree_binds (ops : List (Fin T.count)) : (T.tree ops).ops = ops ∧ (T.tree ops).Binds 0 := by
  induction ops using List.reverseRecOn with
  | nil => exact ⟨rfl, trivial⟩
  | append_singleton ops o ih =>
    have hlevel := level_pos o
    rw [tree_concat, Tree.ops_extend, ih.1]
    exact ⟨rfl, ih.2.extend (by omega)⟩

/-- No other tree over these operators binds. -/
theorem existsUnique_tree (ops : List (Fin T.count)) : ∃! t : Tree T, t.ops = ops ∧ t.Binds 0 := by
  refine ⟨T.tree ops, tree_binds ops, ?_⟩
  induction ops using List.reverseRecOn with
  | nil =>
    rintro t ⟨hops, -⟩
    cases t with
    | operand => rfl
    | apply l o r => exact absurd hops (by simp [Tree.ops])
  | append_singleton ops o ih =>
    rintro t ⟨hops, hbinds⟩
    obtain ⟨t', hbinds', hops', rfl⟩ := hbinds.exists_extend hops
    rw [tree_concat, ih t' ⟨hops', hbinds'⟩]

end OperatorTable
end AdaptiveLL

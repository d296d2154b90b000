import Mathlib
import AdaptiveLL.Grammar.Basic

/-! # The language of a grammar

`Element.Derives` says which sequences of symbols an element of a grammar stands for, with the
rules that it calls expanded.  Actions and lexer commands stand for nothing; predicates are left
out, since they do not decide about symbols alone.

What a grammar must be free of is said by a test on single elements that holds everywhere in its
rules (`Element.everywhere`).
-/
namespace AdaptiveLL

namespace Element

/-- Whether an element stands for one symbol, in a vocabulary from `lo` to `hi`. -/
def accepts (lo hi : Int) (x : Symbol) : Element → Bool
  | symbol label => label = x
  | range a b => a ≤ x && x ≤ b
  | set s => s.contains x
  | notSet s => lo ≤ x && x ≤ hi && !s.contains x
  | wildcard => lo ≤ x && x ≤ hi
  | _ => false

/-- Whether an element is a condition. -/
def isConditional : Element → Bool
  | predicate .. | precedence _ => true
  | _ => false

/-- Whether an element prefers to leave. -/
def isLazy : Element → Bool
  | optional _ greedy | star _ greedy | plus _ greedy => !greedy
  | _ => false

mutual

/-- Whether a test holds of an element and of everything that it is built from. -/
def everywhere (p : Element → Bool) : Element → Bool
  | seq items => p (seq items) && everywhereIn p items
  | alt items => p (alt items) && everywhereIn p items
  | optional body greedy => p (optional body greedy) && everywhere p body
  | star body greedy => p (star body greedy) && everywhere p body
  | plus body greedy => p (plus body greedy) && everywhere p body
  | symbol label => p (symbol label)
  | range lo hi => p (range lo hi)
  | set s => p (set s)
  | notSet s => p (notSet s)
  | wildcard => p wildcard
  | call rule level => p (call rule level)
  | predicate index contextual => p (predicate index contextual)
  | precedence level => p (precedence level)
  | action index => p (action index)
  | command c => p (command c)

/-- Whether a test holds everywhere in some elements. -/
def everywhereIn (p : Element → Bool) : List Element → Bool
  | [] => true
  | e :: rest => everywhere p e && everywhereIn p rest

end

theorem everywhereIn_iff {p : Element → Bool} {items : List Element} :
    everywhereIn p items ↔ ∀ e ∈ items, e.everywhere p := by
  induction items with
  | nil => simp [everywhereIn]
  | cons e rest ih => simp [everywhereIn, ih]

theorem everywhere_self {p : Element → Bool} {e : Element} (h : e.everywhere p) : p e := by
  cases e <;> simp_all [everywhere]

/-- The elements among which a repetition chooses: those of its choice if it has one. -/
def branches : Element → List Element
  | alt items => items
  | e => [e]

theorem everywhere_branches {p : Element → Bool} {e : Element} (h : e.everywhere p) :
    ∀ b ∈ e.branches, b.everywhere p := by
  intro b hb
  cases e with
  | alt items =>
    rw [everywhere, Bool.and_eq_true, everywhereIn_iff] at h
    exact h.2 b hb
  | _ =>
    obtain rfl := List.mem_singleton.mp hb
    exact h

/-- The elements that an element is built from: the items of a sequence or a choice, the branches of
what is repeated or left out. -/
def parts : Element → List Element
  | seq items | alt items => items
  | optional body _ | star body _ | plus body _ => body.branches
  | _ => []

theorem everywhere_parts {p : Element → Bool} {e : Element} (h : e.everywhere p) :
    ∀ b ∈ e.parts, b.everywhere p := by
  cases e with
  | seq items | alt items =>
    rw [everywhere, Bool.and_eq_true, everywhereIn_iff] at h
    exact h.2
  | optional body greedy | star body greedy | plus body greedy =>
    rw [everywhere, Bool.and_eq_true] at h
    exact everywhere_branches h.2
  | _ => exact fun b hb => (List.not_mem_nil hb).elim

theorem sizeOf_branches_le {b e : Element} (hb : b ∈ e.branches) : sizeOf b ≤ sizeOf e := by
  cases e with
  | alt items =>
    rw [branches] at hb
    have := List.sizeOf_lt_of_mem hb
    simp only [alt.sizeOf_spec]
    omega
  | _ => rw [List.mem_singleton.mp hb]

theorem sizeOf_parts_lt {b e : Element} (hb : b ∈ e.parts) : sizeOf b < sizeOf e := by
  cases e with
  | seq items | alt items =>
    rw [parts] at hb
    have := List.sizeOf_lt_of_mem hb
    simp only [seq.sizeOf_spec, alt.sizeOf_spec]
    omega
  | optional body greedy | star body greedy | plus body greedy =>
    have := sizeOf_branches_le hb
    simp only [optional.sizeOf_spec, star.sizeOf_spec, plus.sizeOf_spec]
    omega
  | _ => exact (List.not_mem_nil hb).elim

/-- What holds of an element if it holds of its parts holds of every element. -/
@[elab_as_elim]
theorem induction {P : Element → Prop} (h : ∀ e : Element, (∀ b ∈ e.parts, P b) → P e)
    (e : Element) : P e :=
  h e fun b _ => induction h b
termination_by sizeOf e
decreasing_by exact sizeOf_parts_lt ‹_›

variable (g : Grammar) (lo hi : Int)

/-- The sequences of symbols that an element stands for. -/
inductive Derives : Element → List Symbol → Prop
  | one {e : Element} {x : Symbol} : e.accepts lo hi x → Derives e [x]
  | call {r : Rule} {level : Int} {w : List Symbol} : r ∈ g.rules → Derives r.body w →
      Derives (call r.name level) w
  | done : Derives (seq []) []
  | next {e : Element} {items : List Element} {u v : List Symbol} : Derives e u →
      Derives (seq items) v → Derives (seq (e :: items)) (u ++ v)
  | choose {e : Element} {items : List Element} {w : List Symbol} : e ∈ items → Derives e w →
      Derives (alt items) w
  | skip {body : Element} {greedy : Bool} : Derives (optional body greedy) []
  | take {body : Element} {greedy : Bool} {w : List Symbol} : Derives body w →
      Derives (optional body greedy) w
  | stop {body : Element} {greedy : Bool} : Derives (star body greedy) []
  | again {body : Element} {greedy : Bool} {u v : List Symbol} : Derives body u →
      Derives (star body greedy) v → Derives (star body greedy) (u ++ v)
  | more {body : Element} {greedy : Bool} {u v : List Symbol} : Derives body u →
      Derives (star body greedy) v → Derives (plus body greedy) (u ++ v)
  | action {index : Nat} : Derives (action index) []
  | command {c : Command} : Derives (command c) []

variable {g lo hi}

/-- A choice stands for what its parts stand for. -/
theorem derives_iff_branches {e : Element} {w : List Symbol} :
    Derives g lo hi e w ↔ ∃ b ∈ e.branches, Derives g lo hi b w := by
  constructor
  · intro h
    cases e with
    | alt items =>
      cases h with
      | one hx => simp [accepts] at hx
      | choose he hw => exact ⟨_, he, hw⟩
    | _ => exact ⟨_, List.mem_singleton_self _, h⟩
  · rintro ⟨b, hb, h⟩
    cases e with
    | alt items => exact .choose hb h
    | _ =>
      obtain rfl := List.mem_singleton.mp hb
      exact h

end Element
end AdaptiveLL

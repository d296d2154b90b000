import Mathlib
import AdaptiveLL.Guard

/-! # What guards mean

Deciding a guard asks the author's callbacks from left to right, and no further than needed.  If they change
nothing when they are asked (`ParserHooks.Steady`), then the order does not matter, nor how often they are
asked, and a guard just holds or does not (`Guard.Holds`): a disjunction if one of its operands does, a
conjunction if all of them do.

Neither is kept as it was made.  The operands are sorted and listed once, and of several levels only one is
left, the highest in a disjunction and the lowest in a conjunction.  None of this changes what they mean
(`Guard.eval_combined`).  For the levels the reason is that callbacks which allow a level allow all higher
ones, so the highest is allowed if any is (`exists_mergeLevels`), and the lowest if all are
(`forall_mergeLevels`).
-/
namespace AdaptiveLL

/-- Callbacks that change nothing when they are asked, and that allow whatever is above a level that they
allow. -/
structure ParserHooks.Steady {σ : Type} (hooks : ParserHooks σ) : Prop where
  predicate : ∀ outer rule index s, (hooks.predicate outer rule index s).2 = s
  precedence : ∀ outer level s, (hooks.precedence outer level s).2 = s
  mono : ∀ outer s {low high : Int}, low ≤ high → (hooks.precedence outer low s).1 →
    (hooks.precedence outer high s).1

/-- The default rule allows whatever is above a level that it allows. -/
theorem ParserHooks.steady_none : ParserHooks.none.Steady where
  predicate _ _ _ _ := rfl
  precedence _ _ _ := rfl
  mono outer _ low high hle hlow := by
    change allowsLevel outer low at hlow
    show allowsLevel outer high
    unfold allowsLevel at hlow ⊢
    split at hlow
    · exact decide_eq_true ((of_decide_eq_true hlow).trans hle)
    · rfl

namespace Guard

theorem isAlways_iff {g : Guard} : g.isAlways ↔ g = .always := by cases g <;> simp [isAlways]

/-! ## Operand lists -/

theorem rank_eq_of_compare {a b : Guard} (h : compare a b = .eq) : a.rank = b.rank := by
  cases a <;> cases b <;> first | rfl | exact Nat.compare_eq_eq.mp h

mutual

/-- Guards that are equal in the order are the same. -/
theorem eq_of_compare {a b : Guard} (h : compare a b = .eq) : a = b := by
  have hrank := rank_eq_of_compare h
  cases a with
  | always =>
    cases b with
    | always => rfl
    | _ => cases hrank
  | predicate rule index contextual =>
    cases b with
    | predicate rule' index' contextual' =>
      simp only [compare, Ordering.then_eq_eq, Nat.compare_eq_eq] at h
      obtain ⟨rfl, rfl, hc⟩ := h
      have hcontextual : contextual = contextual' := by
        cases contextual <;> cases contextual' <;> first | rfl | cases hc
      rw [hcontextual]
    | _ => cases hrank
  | precedence level =>
    cases b with
    | precedence level' =>
      rw [compare, Int.compare_eq_eq] at h
      rw [h]
    | _ => cases hrank
  | all operands =>
    cases b with
    | all operands' => rw [eq_of_compareList h]
    | _ => cases hrank
  | any operands =>
    cases b with
    | any operands' => rw [eq_of_compareList h]
    | _ => cases hrank

theorem eq_of_compareList {as bs : List Guard} (h : compareList as bs = .eq) : as = bs := by
  cases as with
  | nil =>
    cases bs with
    | nil => rfl
    | cons => cases h
  | cons a as =>
    cases bs with
    | nil => cases h
    | cons b bs =>
      rw [compareList, Ordering.then_eq_eq] at h
      rw [eq_of_compare h.1, eq_of_compareList h.2]

end

variable {g h : Guard} {operands : List Guard}

theorem mem_insertOperand : h ∈ insertOperand g operands ↔ h = g ∨ h ∈ operands := by
  induction operands with
  | nil => simp [insertOperand]
  | cons k operands ih =>
    unfold insertOperand
    split
    · simp
    · next heq =>
      -- the guard is listed already
      obtain rfl := eq_of_compare heq
      simp
    · rw [List.mem_cons, ih, List.mem_cons]
      exact or_left_comm

theorem mem_normalize : h ∈ normalize operands ↔ h ∈ operands := by
  have hfold : ∀ sorted : List Guard,
      h ∈ operands.foldl (fun sorted g => insertOperand g sorted) sorted ↔ h ∈ operands ∨ h ∈ sorted := by
    induction operands with
    | nil => simp
    | cons g operands ih =>
      intro sorted
      rw [List.foldl_cons, ih, mem_insertOperand, List.mem_cons]
      tauto
  simp [normalize, hfold]

theorem level?_eq_some {level : Int} (hg : g.level? = some level) : g = precedence level := by
  cases g with
  | precedence => exact congrArg precedence (Option.some.inj hg)
  | _ => cases hg

/-- Merging levels changes nothing, or leaves of the levels the one that was chosen. -/
theorem mergeLevels_cases (pick : Int → Int → Int) (operands : List Guard) :
    mergeLevels pick operands = operands ∨
      ∃ level levels, (∀ l, l ∈ level :: levels ↔ precedence l ∈ operands) ∧
        ∀ g, g ∈ mergeLevels pick operands ↔
          g = precedence (levels.foldl pick level) ∨ g ∈ operands ∧ g.level? = none := by
  unfold mergeLevels
  split
  · next p q rest hlevels =>
    refine .inr ⟨p, q :: rest, fun level => ?_, fun g => ?_⟩
    · rw [← hlevels, List.mem_filterMap]
      constructor
      · rintro ⟨g, hg, hlevel⟩
        exact level?_eq_some hlevel ▸ hg
      · intro hg
        exact ⟨_, hg, rfl⟩
    · rw [mem_insertOperand, List.mem_filter, Option.isNone_iff_eq_none]
  · exact .inl rfl

/-- Of several levels the highest stands for all of them where it is enough that one is allowed. -/
theorem exists_mergeLevels {P : Guard → Prop}
    (hmono : ∀ {low high : Int}, low ≤ high → P (precedence low) → P (precedence high)) :
    (∃ g ∈ mergeLevels max operands, P g) ↔ ∃ g ∈ operands, P g := by
  rcases mergeLevels_cases max operands with hsame | ⟨level, levels, hlevels, hmem⟩
  · rw [hsame]
  · have hmax : (level :: levels).max? = some (levels.foldl max level) := List.max?_cons'
    obtain ⟨htop, hle⟩ := List.max?_eq_some_iff.mp hmax
    constructor
    · rintro ⟨g, hg, hP⟩
      rcases (hmem g).mp hg with rfl | ⟨hg, -⟩
      · exact ⟨_, (hlevels _).mp htop, hP⟩
      · exact ⟨g, hg, hP⟩
    · rintro ⟨g, hg, hP⟩
      cases hlevel : g.level? with
      | none => exact ⟨g, (hmem g).mpr (.inr ⟨hg, hlevel⟩), hP⟩
      | some l =>
        obtain rfl := level?_eq_some hlevel
        exact ⟨_, (hmem _).mpr (.inl rfl), hmono (hle l ((hlevels l).mpr hg)) hP⟩

/-- Of several levels the lowest stands for all of them where all have to be allowed. -/
theorem forall_mergeLevels {P : Guard → Prop}
    (hmono : ∀ {low high : Int}, low ≤ high → P (precedence low) → P (precedence high)) :
    (∀ g ∈ mergeLevels min operands, P g) ↔ ∀ g ∈ operands, P g := by
  rcases mergeLevels_cases min operands with hsame | ⟨level, levels, hlevels, hmem⟩
  · rw [hsame]
  · have hmin : (level :: levels).min? = some (levels.foldl min level) := List.min?_cons'
    obtain ⟨hbottom, hle⟩ := List.min?_eq_some_iff.mp hmin
    constructor
    · intro hall g hg
      cases hlevel : g.level? with
      | none => exact hall g ((hmem g).mpr (.inr ⟨hg, hlevel⟩))
      | some l =>
        obtain rfl := level?_eq_some hlevel
        exact hmono (hle l ((hlevels l).mpr hg)) (hall _ ((hmem _).mpr (.inl rfl)))
    · intro hall g hg
      rcases (hmem g).mp hg with rfl | ⟨hg, -⟩
      · exact hall _ ((hlevels _).mp hbottom)
      · exact hall g hg

/-! ## Deciding guards -/

variable {σ : Type} {hooks : ParserHooks σ}

section
variable (hooks) (outer : List Invocation) (s : σ)

/-- Whether a guard is found to hold. -/
def Holds (g : Guard) : Prop := (g.eval hooks outer s).1

end

variable {outer : List Invocation} {s : σ}

theorem holds_of_isAlways (hg : g.isAlways) : g.Holds hooks outer s := by
  cases g with
  | always => rfl
  | _ => cases hg

/-- Whether operands are wrapped does not matter where there is only one. -/
theorem holds_combine {wrap : List Guard → Guard}
    (hwrap : ∀ g, (wrap [g]).Holds hooks outer s ↔ g.Holds hooks outer s) :
    (combine wrap operands).Holds hooks outer s ↔ (wrap operands).Holds hooks outer s := by
  unfold combine
  split
  · exact (hwrap _).symm
  · exact Iff.rfl

mutual

/-- Deciding a guard changes nothing. -/
theorem eval_snd (hsteady : hooks.Steady) (g : Guard) (s : σ) : (g.eval hooks outer s).2 = s := by
  cases g with
  | always => rfl
  | predicate => exact hsteady.predicate _ _ _ _
  | precedence => exact hsteady.precedence _ _ _
  | all operands => exact evalAll_snd hsteady operands _
  | any operands => exact evalAny_snd hsteady operands _

theorem evalAll_snd (hsteady : hooks.Steady) (operands : List Guard) (s : σ) :
    (evalAll hooks outer operands s).2 = s := by
  cases operands with
  | nil => rfl
  | cons g operands =>
    have hfirst := eval_snd hsteady g s
    rw [evalAll]
    rcases hg : g.eval hooks outer s with ⟨_ | _, t⟩ <;> rw [hg] at hfirst <;> obtain rfl := hfirst
    · rfl
    · exact evalAll_snd hsteady operands _

theorem evalAny_snd (hsteady : hooks.Steady) (operands : List Guard) (s : σ) :
    (evalAny hooks outer operands s).2 = s := by
  cases operands with
  | nil => rfl
  | cons g operands =>
    have hfirst := eval_snd hsteady g s
    rw [evalAny]
    rcases hg : g.eval hooks outer s with ⟨_ | _, t⟩ <;> rw [hg] at hfirst <;> obtain rfl := hfirst
    · exact evalAny_snd hsteady operands _
    · rfl

end

variable (hsteady : hooks.Steady)
include hsteady

/-- A disjunction holds if one of its operands does. -/
theorem holds_any : (any operands).Holds hooks outer s ↔ ∃ g ∈ operands, g.Holds hooks outer s := by
  change (evalAny hooks outer operands s).1 ↔ _
  induction operands with
  | nil => simp [evalAny]
  | cons g operands ih =>
    have hfirst : (g.eval hooks outer s).2 = s := eval_snd hsteady g s
    rw [evalAny, List.exists_mem_cons_iff, ← ih, Holds]
    rcases hg : g.eval hooks outer s with ⟨_ | _, t⟩ <;> rw [hg] at hfirst <;> obtain rfl := hfirst
    · simp
    · simp

/-- A conjunction holds if all of its operands do. -/
theorem holds_all : (all operands).Holds hooks outer s ↔ ∀ g ∈ operands, g.Holds hooks outer s := by
  change (evalAll hooks outer operands s).1 ↔ _
  induction operands with
  | nil => simp [evalAll]
  | cons g operands ih =>
    have hfirst : (g.eval hooks outer s).2 = s := eval_snd hsteady g s
    rw [evalAll, List.forall_mem_cons, ← ih, Holds]
    rcases hg : g.eval hooks outer s with ⟨_ | _, t⟩ <;> rw [hg] at hfirst <;> obtain rfl := hfirst
    · simp
    · simp

theorem holds_disjuncts : (∃ h ∈ g.disjuncts, h.Holds hooks outer s) ↔ g.Holds hooks outer s := by
  cases g with
  | any operands => exact (holds_any hsteady).symm
  | _ => simp [disjuncts]

theorem holds_conjuncts : (∀ h ∈ g.conjuncts, h.Holds hooks outer s) ↔ g.Holds hooks outer s := by
  cases g with
  | all operands => exact (holds_all hsteady).symm
  | _ => simp [conjuncts]

/-- Either of two guards holds exactly if one of them does. -/
theorem holds_either :
    (g.either h).Holds hooks outer s ↔ g.Holds hooks outer s ∨ h.Holds hooks outer s := by
  unfold either
  split
  · next halways =>
    rw [Bool.or_eq_true] at halways
    exact iff_of_true rfl (halways.imp holds_of_isAlways holds_of_isAlways)
  · rw [holds_combine fun g => by simp [holds_any hsteady], holds_any hsteady,
      exists_mergeLevels fun hle hlow => hsteady.mono outer s hle hlow]
    simp only [mem_normalize, List.mem_append, or_and_right, exists_or, holds_disjuncts hsteady]

/-- Both of two guards hold exactly if each of them does. -/
theorem holds_both :
    (g.both h).Holds hooks outer s ↔ g.Holds hooks outer s ∧ h.Holds hooks outer s := by
  unfold both
  split
  · next halways => exact (and_iff_right (holds_of_isAlways halways)).symm
  · split
    · next halways => exact (and_iff_left (holds_of_isAlways halways)).symm
    · rw [holds_combine fun g => by simp [holds_all hsteady], holds_all hsteady,
        forall_mergeLevels fun hle hlow => hsteady.mono outer s hle hlow]
      simp only [mem_normalize, List.mem_append, or_imp, forall_and, holds_conjuncts hsteady]

/-- Guards that are joined one after another. -/
theorem holds_foldl_either {gs : List Guard} :
    (gs.foldl either g).Holds hooks outer s ↔ ∃ h ∈ g :: gs, h.Holds hooks outer s := by
  induction gs generalizing g with
  | nil => simp
  | cons h gs ih =>
    rw [List.foldl_cons, ih]
    simp only [List.exists_mem_cons_iff, holds_either hsteady, or_assoc]

/-- **Combined guards mean the logical combination.**  However two guards are built, and whatever normal form
their combination is brought into, deciding both gives the conjunction of what deciding each gives, and
deciding either the disjunction, and nothing is changed by it. -/
theorem eval_combined (a b : Guard) (outer : List Invocation) (s : σ) :
    (a.both b).eval hooks outer s = ((a.eval hooks outer s).1 && (b.eval hooks outer s).1, s) ∧
      (a.either b).eval hooks outer s = ((a.eval hooks outer s).1 || (b.eval hooks outer s).1, s) := by
  constructor
  · refine Prod.ext (Bool.eq_iff_iff.mpr ?_) (eval_snd hsteady _ s)
    rw [Bool.and_eq_true]
    exact holds_both hsteady
  · refine Prod.ext (Bool.eq_iff_iff.mpr ?_) (eval_snd hsteady _ s)
    rw [Bool.or_eq_true]
    exact holds_either hsteady

omit hsteady in
/-- Under a rule of precedence 2, where level 3 is allowed and level 1 is not. -/
theorem eval_combined_levels :
    ParserHooks.none.Steady ∧
      let outer := [Invocation.root 0, .called 0 4 2]
      let a := all [precedence 3, predicate 0 1 true]
      let b := precedence 1
      (a.both b).eval .none outer () = ((a.eval .none outer ()).1 && (b.eval .none outer ()).1, ()) ∧
        (a.either b).eval .none outer () = ((a.eval .none outer ()).1 || (b.eval .none outer ()).1, ()) :=
  ⟨ParserHooks.steady_none, eval_combined ParserHooks.steady_none _ _ _ _⟩

/-- The lowest level is left of a conjunction, and the highest of a disjunction. -/
example : (all [precedence 3, predicate 0 1 true]).both (precedence 1) =
      all [predicate 0 1 true, precedence 1] ∧
    (precedence 3).either (any [precedence 1, precedence 2]) = precedence 3 := by decide

end Guard
end AdaptiveLL

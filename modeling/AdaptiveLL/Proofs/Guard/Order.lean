import AdaptiveLL.Proofs.Guard

/-! # The order of guards

Guards are compared by their constructors and then part by part, operand lists like words.  This is a total
order: comparing the other way round gives the opposite answer (`compare_swap`), guards that are equal in it
are the same (`eq_of_compare`), and `Before`, to come earlier, is transitive.  A list in which each guard
comes before all later ones is `Ascending`; it is known by its members (`Ascending.ext`).  Normalised
operands are ascending, and so they stay when levels are merged.
-/
namespace AdaptiveLL
namespace Guard

/-- One guard comes before another. -/
def Before (a b : Guard) : Prop := compare a b = .lt

instance : DecidableRel Before := fun a b => inferInstanceAs (Decidable (compare a b = .lt))

/-- Each guard comes before all later ones. -/
abbrev Ascending (gs : List Guard) : Prop := gs.Pairwise Before

variable {a b c : Guard}

/-! ## Comparing guards -/

theorem compare_of_rank_ne (h : a.rank ≠ b.rank) : compare a b = Ord.compare a.rank b.rank := by
  cases a <;> cases b <;> first | rfl | exact absurd rfl h

theorem before_of_rank_lt (h : a.rank < b.rank) : Before a b := by
  rw [Before, compare_of_rank_ne h.ne, Nat.compare_eq_lt]
  exact h

theorem Before.rank_le (h : Before a b) : a.rank ≤ b.rank := by
  by_cases hrank : a.rank = b.rank
  · exact hrank.le
  · rw [Before, compare_of_rank_ne hrank, Nat.compare_eq_lt] at h
    exact h.le

mutual

/-- Comparing the other way round gives the opposite answer. -/
theorem compare_swap (a b : Guard) : (compare a b).swap = compare b a := by
  by_cases hrank : a.rank = b.rank
  · cases a with
    | always => cases b with
      | always => rfl
      | _ => cases hrank
    | predicate => cases b with
      | predicate => simp only [compare, Ordering.swap_then, Nat.compare_swap]
      | _ => cases hrank
    | precedence => cases b with
      | precedence => simp only [compare, Int.compare_swap]
      | _ => cases hrank
    | all operands => cases b with
      | all operands' => exact compareList_swap operands operands'
      | _ => cases hrank
    | any operands => cases b with
      | any operands' => exact compareList_swap operands operands'
      | _ => cases hrank
  · rw [compare_of_rank_ne hrank, compare_of_rank_ne (Ne.symm hrank), Nat.compare_swap]

theorem compareList_swap (as bs : List Guard) : (compareList as bs).swap = compareList bs as := by
  cases as with
  | nil => cases bs <;> rfl
  | cons a as => cases bs with
    | nil => rfl
    | cons b bs => simp only [compareList, Ordering.swap_then, compare_swap a b, compareList_swap as bs]

end

mutual

theorem compare_self (a : Guard) : compare a a = .eq := by
  cases a with
  | always => rfl
  | predicate => simp only [compare, Nat.compare_eq_eq.mpr, Ordering.then_eq_eq, and_self]
  | precedence => exact Int.compare_eq_eq.mpr rfl
  | all operands => exact compareList_self operands
  | any operands => exact compareList_self operands

theorem compareList_self (as : List Guard) : compareList as as = .eq := by
  cases as with
  | nil => rfl
  | cons a as => rw [compareList, compare_self a, compareList_self as]; rfl

end

mutual

/-- What comes before an earlier guard comes before the later one. -/
theorem Before.trans {a b c : Guard} (hab : Before a b) (hbc : Before b c) : Before a c := by
  rcases hab.rank_le.lt_or_eq with hlt | hrank
  · exact before_of_rank_lt (hlt.trans_le hbc.rank_le)
  rcases hbc.rank_le.lt_or_eq with hlt | hrank'
  · exact before_of_rank_lt (hrank.trans_lt hlt)
  -- three guards of one constructor
  cases a with
  | always => cases b with
    | always => cases hab
    | _ => cases hrank
  | predicate => cases b with
    | predicate => cases c with
      | predicate =>
        simp only [Before, compare, Ordering.then_eq_lt, Nat.compare_eq_lt, Nat.compare_eq_eq] at hab hbc ⊢
        omega
      | _ => cases hrank'
    | _ => cases hrank
  | precedence => cases b with
    | precedence => cases c with
      | precedence =>
        simp only [Before, compare, Int.compare_eq_lt] at hab hbc ⊢
        exact hab.trans hbc
      | _ => cases hrank'
    | _ => cases hrank
  | all operands => cases b with
    | all => cases c with
      | all => exact compareList_trans hab hbc
      | _ => cases hrank'
    | _ => cases hrank
  | any operands => cases b with
    | any => cases c with
      | any => exact compareList_trans hab hbc
      | _ => cases hrank'
    | _ => cases hrank

theorem compareList_trans {as bs cs : List Guard} (hab : compareList as bs = .lt)
    (hbc : compareList bs cs = .lt) : compareList as cs = .lt := by
  cases as with
  | nil => cases bs with
    | nil => cases hab
    | cons b bs => cases cs with
      | nil => cases hbc
      | cons c cs => rfl
  | cons a as => cases bs with
    | nil => cases hab
    | cons b bs => cases cs with
      | nil => cases hbc
      | cons c cs =>
        rw [compareList, Ordering.then_eq_lt] at hab hbc ⊢
        rcases hab with hab | ⟨hab, habs⟩
        · rcases hbc with hbc | ⟨hbc, -⟩
          · exact .inl (Before.trans hab hbc)
          · exact .inl (eq_of_compare hbc ▸ hab)
        · obtain rfl := eq_of_compare hab
          rcases hbc with hbc | ⟨hbc, hbcs⟩
          · exact .inl hbc
          · exact .inr ⟨hbc, compareList_trans habs hbcs⟩

end

theorem not_before_self (a : Guard) : ¬Before a a := by
  rw [Before, compare_self]
  exact nofun

theorem before_of_compare_gt (h : compare a b = .gt) : Before b a := by
  rw [Before, ← compare_swap, h]
  rfl

instance : Std.Irrefl Before := ⟨not_before_self⟩

instance : Std.Antisymm Before := ⟨fun a _ hab hba => absurd (hab.trans hba) (not_before_self a)⟩

/-! ## Ascending lists -/

variable {g : Guard} {gs hs : List Guard}

/-- Ascending lists with the same members are the same. -/
theorem Ascending.ext (hgs : Ascending gs) (hhs : Ascending hs) (h : ∀ g, g ∈ gs ↔ g ∈ hs) : gs = hs :=
  List.Pairwise.eq_of_mem_iff hgs hhs h

theorem ascending_insertOperand (hgs : Ascending gs) : Ascending (insertOperand g gs) := by
  induction gs with
  | nil => exact List.pairwise_singleton _ _
  | cons h gs ih =>
    obtain ⟨hfirst, hrest⟩ := List.pairwise_cons.mp hgs
    unfold insertOperand
    split
    · next hlt =>
      refine List.pairwise_cons.mpr ⟨fun k hk => ?_, hgs⟩
      rcases List.mem_cons.mp hk with rfl | hk
      · exact hlt
      · exact Before.trans hlt (hfirst k hk)
    · exact hgs
    · next hgt =>
      refine List.pairwise_cons.mpr ⟨fun k hk => ?_, ih hrest⟩
      rcases mem_insertOperand.mp hk with rfl | hk
      · exact before_of_compare_gt hgt
      · exact hfirst k hk

theorem ascending_normalize (gs : List Guard) : Ascending (normalize gs) := by
  have hfold : ∀ sorted, Ascending sorted →
      Ascending (gs.foldl (fun sorted g => insertOperand g sorted) sorted) := by
    induction gs with
    | nil => exact fun _ hsorted => hsorted
    | cons g gs ih => exact fun _ hsorted => ih _ (ascending_insertOperand hsorted)
  exact hfold [] .nil

theorem ascending_mergeLevels {pick : Int → Int → Int} (hgs : Ascending gs) :
    Ascending (mergeLevels pick gs) := by
  unfold mergeLevels
  split
  · exact ascending_insertOperand (hgs.filter _)
  · exact hgs

end Guard
end AdaptiveLL

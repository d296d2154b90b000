import AdaptiveLL.Proofs.Guard.Order

/-! # The normal form of guards

Guards that are built from predicates and levels by `both` and `either` (`Built`) are `Normal`: a conjunction
or disjunction has two operands or more, which ascend, none of which is `always` or of its own kind, and of
which at most one is a level.  Each guard therefore has one form, and the two ways to combine guards obey
their laws up to equality (`Built.canonical`).

Both ways are instances of one `Junction`.  It takes its operands apart, settles them into one list and wraps
that list if it has to.  Settled operands are known by their members (`Junction.mem_settle`): the conditions
other than levels, and the level that all others give way to.  So it does not matter in which order operands
are settled (`settle_congr`), nor whether some of them were settled before (`settle_append_left`), and a
guard that is normal can be taken apart and put together again (`combine_operands`, `operands_combine`).
-/
namespace AdaptiveLL
namespace Guard

/-! ## Normal guards -/

/-- What a conjunction or disjunction in normal form may join. -/
structure Operands (gs : List Guard) : Prop where
  several : 2 ≤ gs.length
  ascending : Ascending gs
  conditions : always ∉ gs
  levels : (gs.filterMap level?).length ≤ 1

/-- Guards in normal form, at every depth. -/
inductive Normal : Guard → Prop where
  | always : Normal always
  | predicate (rule index : Nat) (contextual : Bool) : Normal (predicate rule index contextual)
  | precedence (level : Int) : Normal (precedence level)
  | all {gs : List Guard} : Operands gs → (∀ g ∈ gs, Normal g) → (∀ g ∈ gs, ∀ hs, g ≠ all hs) →
      Normal (all gs)
  | any {gs : List Guard} : Operands gs → (∀ g ∈ gs, Normal g) → (∀ g ∈ gs, ∀ hs, g ≠ any hs) →
      Normal (any gs)

theorem normal_all {gs : List Guard} : Normal (all gs) ↔
    Operands gs ∧ (∀ g ∈ gs, Normal g) ∧ ∀ g ∈ gs, ∀ hs, g ≠ all hs := by
  refine ⟨fun h => ?_, fun ⟨ho, hn, ha⟩ => .all ho hn ha⟩
  cases h with
  | all ho hn ha => exact ⟨ho, hn, ha⟩

theorem normal_any {gs : List Guard} : Normal (any gs) ↔
    Operands gs ∧ (∀ g ∈ gs, Normal g) ∧ ∀ g ∈ gs, ∀ hs, g ≠ any hs := by
  refine ⟨fun h => ?_, fun ⟨ho, hn, ha⟩ => .any ho hn ha⟩
  cases h with
  | any ho hn ha => exact ⟨ho, hn, ha⟩

/-- Guards that can be built. -/
inductive Built : Guard → Prop where
  | always : Built always
  | predicate (rule index : Nat) (contextual : Bool) : Built (predicate rule index contextual)
  | precedence (level : Int) : Built (precedence level)
  | both {a b : Guard} : Built a → Built b → Built (a.both b)
  | either {a b : Guard} : Built a → Built b → Built (a.either b)

theorem precedence_mem_iff {level : Int} {gs : List Guard} :
    precedence level ∈ gs ↔ level ∈ gs.filterMap level? := by
  rw [List.mem_filterMap]
  constructor
  · exact fun h => ⟨_, h, rfl⟩
  · rintro ⟨g, hg, hlevel⟩
    exact level?_eq_some hlevel ▸ hg

/-- Ascending operands have one level at most if all their levels are the same. -/
theorem levels_le_one_iff {gs : List Guard} (h : Ascending gs) :
    (gs.filterMap level?).length ≤ 1 ↔ ∀ l m, precedence l ∈ gs → precedence m ∈ gs → l = m := by
  simp only [precedence_mem_iff]
  have hnodup : (gs.filterMap level?).Nodup := h.nodup.filterMap fun a b l ha hb => by
    rw [level?_eq_some ha, level?_eq_some hb]
  rcases hlevels : gs.filterMap level? with _ | ⟨p, _ | ⟨q, rest⟩⟩
  · simp
  · simp
  · rw [hlevels] at hnodup
    have hpq : p ≠ q := List.ne_of_not_mem_cons (List.nodup_cons.mp hnodup).1
    exact iff_of_false (by simp) fun hsame => hpq (hsame p q (by simp) (by simp))

/-! ## Junctions -/

/-- A way to combine guards: how its operands are wrapped and taken apart again, and which of several levels
it picks, namely the one that is below the others. -/
structure Junction where
  wrap : List Guard → Guard
  operands : Guard → List Guard
  pick : Int → Int → Int
  below : Int → Int → Prop
  operands_wrap : ∀ gs, operands (wrap gs) = gs
  operands_of_ne : ∀ {g}, (∀ gs, g ≠ wrap gs) → operands g = [g]
  wrap_ne_always : ∀ gs, wrap gs ≠ always
  wrap_ne_precedence : ∀ gs level, wrap gs ≠ precedence level
  normal_wrap : ∀ {gs}, Normal (wrap gs) ↔
    Operands gs ∧ (∀ g ∈ gs, Normal g) ∧ ∀ g ∈ gs, ∀ hs, g ≠ wrap hs
  picked : ∀ level levels, levels.foldl pick level ∈ level :: levels ∧
    ∀ l ∈ level :: levels, below (levels.foldl pick level) l
  below_trans : ∀ {l m k}, below l m → below m k → below l k
  below_antisymm : ∀ {l m}, below l m → below m l → l = m

/-- Both of two guards. -/
def conjunction : Junction where
  wrap := all
  operands := conjuncts
  pick := min
  below := (· ≤ ·)
  operands_wrap _ := rfl
  operands_of_ne {g} h := by
    cases g with
    | all gs => exact absurd rfl (h gs)
    | _ => rfl
  wrap_ne_always _ := Guard.noConfusion
  wrap_ne_precedence _ _ := Guard.noConfusion
  normal_wrap := normal_all
  picked _ _ := List.min?_eq_some_iff.mp List.min?_cons'
  below_trans := le_trans
  below_antisymm := le_antisymm

/-- Either of two guards. -/
def disjunction : Junction where
  wrap := any
  operands := disjuncts
  pick := max
  below := (· ≥ ·)
  operands_wrap _ := rfl
  operands_of_ne {g} h := by
    cases g with
    | any gs => exact absurd rfl (h gs)
    | _ => rfl
  wrap_ne_always _ := Guard.noConfusion
  wrap_ne_precedence _ _ := Guard.noConfusion
  normal_wrap := normal_any
  picked _ _ := List.max?_eq_some_iff.mp List.max?_cons'
  below_trans := ge_trans
  below_antisymm hlm hml := le_antisymm hml hlm

namespace Junction
variable (J : Junction)

/-- Sorts operands, and leaves one of their levels. -/
def settle (gs : List Guard) : List Guard := mergeLevels J.pick (normalize gs)

/-- Combines two guards, neither of which is `always`. -/
def join (a b : Guard) : Guard := combine J.wrap (J.settle (J.operands a ++ J.operands b))

variable {J} {g a b c : Guard} {gs hs : List Guard}

theorem below_self (level : Int) : J.below level level :=
  (J.picked level []).2 level (List.mem_singleton_self level)

/-! ## Settled operands -/

/-- Of the levels among the operands the one below the others is left. -/
theorem mem_mergeLevels : g ∈ mergeLevels J.pick gs ↔
    g ∈ gs ∧ ∀ l m, g = precedence l → precedence m ∈ gs → J.below l m := by
  unfold mergeLevels
  split
  · next p q rest hlevels =>
    obtain ⟨hpicked, hbelow⟩ := J.picked p (q :: rest)
    rw [← hlevels] at hpicked hbelow
    rw [mem_insertOperand, List.mem_filter, Option.isNone_iff_eq_none]
    constructor
    · rintro (rfl | ⟨hg, hnone⟩)
      · refine ⟨precedence_mem_iff.mpr hpicked, fun l m hl hm => ?_⟩
        obtain rfl := precedence.inj hl
        exact hbelow m (precedence_mem_iff.mp hm)
      · refine ⟨hg, fun l m hl _ => ?_⟩
        rw [hl] at hnone
        cases hnone
    · rintro ⟨hg, hlow⟩
      cases hlevel : g.level? with
      | none => exact .inr ⟨hg, rfl⟩
      | some l =>
        obtain rfl := level?_eq_some hlevel
        exact .inl (congrArg precedence
          (J.below_antisymm (hlow l _ rfl (precedence_mem_iff.mpr hpicked)) (hbelow l (precedence_mem_iff.mp hg))))
  · next hfew =>
    -- there is one level at most
    refine (and_iff_left_of_imp fun hg l m hl hm => ?_).symm
    have hl := precedence_mem_iff.mp (hl ▸ hg)
    have hm := precedence_mem_iff.mp hm
    rcases hlevels : gs.filterMap level? with _ | ⟨p, _ | ⟨q, rest⟩⟩
    · rw [hlevels] at hl
      cases hl
    · rw [hlevels, List.mem_singleton] at hl hm
      exact hl ▸ hm ▸ below_self _
    · exact absurd hlevels (hfew p q rest)

theorem ascending_settle (gs : List Guard) : Ascending (J.settle gs) :=
  ascending_mergeLevels (ascending_normalize gs)

theorem mem_settle : g ∈ J.settle gs ↔
    g ∈ gs ∧ ∀ l m, g = precedence l → precedence m ∈ gs → J.below l m := by
  rw [settle, mem_mergeLevels]
  simp only [mem_normalize]

/-- Settled operands depend on which operands there are only. -/
theorem settle_congr (h : ∀ g, g ∈ gs ↔ g ∈ hs) : J.settle gs = J.settle hs := by
  refine Ascending.ext (ascending_settle gs) (ascending_settle hs) fun g => ?_
  simp only [mem_settle, h]

theorem settle_append_comm : J.settle (gs ++ hs) = J.settle (hs ++ gs) :=
  settle_congr fun _ => by simp only [List.mem_append, or_comm]

/-- Each level gives way to a settled one. -/
theorem exists_level_settle {m : Int} (hm : precedence m ∈ gs) :
    ∃ l, precedence l ∈ J.settle gs ∧ J.below l m := by
  rcases hlevels : gs.filterMap level? with _ | ⟨p, rest⟩
  · rw [precedence_mem_iff, hlevels] at hm
    cases hm
  · obtain ⟨hpicked, hbelow⟩ := J.picked p rest
    rw [← hlevels] at hpicked hbelow
    refine ⟨_, mem_settle.mpr ⟨precedence_mem_iff.mpr hpicked, fun l k hl hk => ?_⟩,
      hbelow m (precedence_mem_iff.mp hm)⟩
    obtain rfl := precedence.inj hl
    exact hbelow k (precedence_mem_iff.mp hk)

/-- Operands may be settled in part before. -/
theorem settle_append_left : J.settle (J.settle gs ++ hs) = J.settle (gs ++ hs) := by
  refine Ascending.ext (ascending_settle _) (ascending_settle _) fun g => ?_
  rw [mem_settle, mem_settle]
  simp only [List.mem_append]
  constructor
  · rintro ⟨hg, hlow⟩
    refine ⟨hg.imp_left fun h => (mem_settle.mp h).1, fun l m hl hm => ?_⟩
    rcases hm with hm | hm
    · obtain ⟨k, hk, hkm⟩ := exists_level_settle (J := J) hm
      exact J.below_trans (hlow l k hl (.inl hk)) hkm
    · exact hlow l m hl (.inr hm)
  · rintro ⟨hg, hlow⟩
    refine ⟨hg.imp_left fun h => mem_settle.mpr ⟨h, fun l m hl hm => hlow l m hl (.inl hm)⟩,
      fun l m hl hm => hlow l m hl (hm.imp_left fun h => (mem_settle.mp h).1)⟩

theorem settle_append_right : J.settle (gs ++ J.settle hs) = J.settle (gs ++ hs) := by
  rw [settle_append_comm, settle_append_left, settle_append_comm]

theorem settle_ne_nil (h : gs ≠ []) : J.settle gs ≠ [] := by
  obtain ⟨g, hg⟩ := List.exists_mem_of_ne_nil gs h
  cases hlevel : g.level? with
  | none =>
    have hsettled : g ∈ J.settle gs := mem_settle.mpr ⟨hg, fun l m hl _ => by
      rw [hl] at hlevel
      cases hlevel⟩
    exact List.ne_nil_of_mem hsettled
  | some l =>
    obtain rfl := level?_eq_some hlevel
    obtain ⟨k, hk, -⟩ := exists_level_settle (J := J) hg
    exact List.ne_nil_of_mem hk

/-! ## Taking normal guards apart -/

variable (J) in
/-- Operands that can be wrapped as they are. -/
structure Flat (gs : List Guard) : Prop where
  ascending : Ascending gs
  conditions : always ∉ gs
  level_unique : ∀ l m, precedence l ∈ gs → precedence m ∈ gs → l = m
  normal : ∀ g ∈ gs, Normal g
  apart : ∀ g ∈ gs, ∀ hs, g ≠ J.wrap hs

theorem Flat.settle_eq (h : J.Flat gs) : J.settle gs = gs := by
  refine Ascending.ext (ascending_settle gs) h.ascending fun g => ?_
  rw [mem_settle, and_iff_left_iff_imp]
  rintro hg l m rfl hm
  exact h.level_unique l m hg hm ▸ below_self l

theorem flat_settle (hconditions : always ∉ gs) (hnormal : ∀ g ∈ gs, Normal g)
    (hapart : ∀ g ∈ gs, ∀ hs, g ≠ J.wrap hs) : J.Flat (J.settle gs) where
  ascending := ascending_settle gs
  conditions h := hconditions (mem_settle.mp h).1
  level_unique l m hl hm :=
    have hl := mem_settle.mp hl
    have hm := mem_settle.mp hm
    J.below_antisymm (hl.2 l m rfl hm.1) (hm.2 m l rfl hl.1)
  normal g hg := hnormal g (mem_settle.mp hg).1
  apart g hg := hapart g (mem_settle.mp hg).1

theorem operands_combine (h : J.Flat gs) (hne : gs ≠ []) : J.operands (combine J.wrap gs) = gs := by
  unfold combine
  split
  · next g => exact J.operands_of_ne (h.apart g (List.mem_singleton_self g))
  · exact J.operands_wrap gs

/-- A normal guard is wrapped operands, or its own only operand. -/
theorem wrapped_or_single (h : Normal g) :
    (∃ gs, g = J.wrap gs ∧ J.operands g = gs ∧ 2 ≤ gs.length) ∨
      (∀ gs, g ≠ J.wrap gs) ∧ J.operands g = [g] := by
  by_cases hwrap : ∃ gs, g = J.wrap gs
  · obtain ⟨gs, rfl⟩ := hwrap
    exact .inl ⟨gs, rfl, J.operands_wrap gs, (J.normal_wrap.mp h).1.several⟩
  · have hne : ∀ gs, g ≠ J.wrap gs := not_exists.mp hwrap
    exact .inr ⟨hne, J.operands_of_ne hne⟩

theorem combine_operands (h : Normal g) : combine J.wrap (J.operands g) = g := by
  rcases wrapped_or_single (J := J) h with ⟨gs, rfl, hgs, hseveral⟩ | ⟨-, hsingle⟩
  · rw [hgs]
    unfold combine
    split
    · simp at hseveral
    · rfl
  · rw [hsingle]
    rfl

theorem operands_ne_nil (h : Normal g) : J.operands g ≠ [] := by
  rcases wrapped_or_single (J := J) h with ⟨gs, -, hgs, hseveral⟩ | ⟨-, hsingle⟩
  · rw [hgs]
    exact List.length_pos_iff.mp (by omega)
  · rw [hsingle]
    exact List.cons_ne_nil g []

theorem flat_operands (h : Normal g) (hne : g ≠ .always) : J.Flat (J.operands g) := by
  rcases wrapped_or_single (J := J) h with ⟨gs, rfl, hgs, -⟩ | ⟨hapart, hsingle⟩
  · obtain ⟨hoperands, hnormal, hapart⟩ := J.normal_wrap.mp h
    rw [hgs]
    exact ⟨hoperands.ascending, hoperands.conditions,
      (levels_le_one_iff hoperands.ascending).mp hoperands.levels, hnormal, hapart⟩
  · rw [hsingle]
    refine ⟨List.pairwise_singleton _ _, ?_, ?_, ?_, ?_⟩
    · rw [List.mem_singleton]
      exact hne.symm
    · intro l m hl hm
      exact precedence.inj ((List.mem_singleton.mp hl).trans (List.mem_singleton.mp hm).symm)
    · intro k hk
      exact List.mem_singleton.mp hk ▸ h
    · intro k hk
      exact List.mem_singleton.mp hk ▸ hapart

theorem normal_combine (h : J.Flat gs) (hne : gs ≠ []) : Normal (combine J.wrap gs) := by
  unfold combine
  split
  · next g => exact h.normal g (List.mem_singleton_self g)
  · next hmore =>
    have hseveral : 2 ≤ gs.length := by
      rcases gs with _ | ⟨g, _ | ⟨k, gs⟩⟩
      · exact absurd rfl hne
      · exact absurd rfl (hmore g)
      · simp
    exact J.normal_wrap.mpr ⟨⟨hseveral, h.ascending, h.conditions,
      (levels_le_one_iff h.ascending).mpr h.level_unique⟩, h.normal, h.apart⟩

theorem combine_ne_always (h : J.Flat gs) : combine J.wrap gs ≠ .always := by
  unfold combine
  split
  · next g => exact fun hg => h.conditions (hg ▸ List.mem_singleton_self g)
  · exact J.wrap_ne_always gs

/-! ## Combining normal guards -/

section
variable (ha : Normal a) (hb : Normal b) (hc : Normal c)
variable (hna : a ≠ .always) (hnb : b ≠ .always) (hnc : c ≠ .always)
include ha hb hna hnb

theorem flat_join : J.Flat (J.settle (J.operands a ++ J.operands b)) := by
  have ha := flat_operands (J := J) ha hna
  have hb := flat_operands (J := J) hb hnb
  refine flat_settle ?_ ?_ ?_
  · rw [List.mem_append]
    exact not_or.mpr ⟨ha.conditions, hb.conditions⟩
  · exact List.forall_mem_append.mpr ⟨ha.normal, hb.normal⟩
  · exact List.forall_mem_append.mpr ⟨ha.apart, hb.apart⟩

omit hna hb hnb in
theorem settle_operands_ne_nil (gs : List Guard) : J.settle (J.operands a ++ gs) ≠ [] :=
  settle_ne_nil (List.append_ne_nil_of_left_ne_nil (operands_ne_nil ha) gs)

theorem normal_join : Normal (J.join a b) :=
  normal_combine (flat_join ha hb hna hnb) (settle_operands_ne_nil ha _)

theorem join_ne_always : J.join a b ≠ .always := combine_ne_always (flat_join ha hb hna hnb)

theorem operands_join : J.operands (J.join a b) = J.settle (J.operands a ++ J.operands b) :=
  operands_combine (flat_join ha hb hna hnb) (settle_operands_ne_nil ha _)

omit ha hb hna hnb in
theorem join_comm (a b : Guard) : J.join a b = J.join b a := by
  rw [join, settle_append_comm]
  rfl

omit hb hnb in
theorem join_self : J.join a a = a := by
  have hself : J.settle (J.operands a ++ J.operands a) = J.operands a := by
    have hmem : ∀ g, g ∈ J.operands a ++ J.operands a ↔ g ∈ J.operands a := fun g => by
      rw [List.mem_append, or_self]
    rw [settle_congr hmem, (flat_operands ha hna).settle_eq]
  rw [join, hself, combine_operands ha]

include hc hnc in
theorem join_assoc : J.join (J.join a b) c = J.join a (J.join b c) := by
  have hsame : J.settle (J.operands (J.join a b) ++ J.operands c) =
      J.settle (J.operands a ++ J.operands (J.join b c)) := by
    rw [operands_join ha hb hna hnb, operands_join hb hc hnb hnc, settle_append_left,
      settle_append_right, List.append_assoc]
  exact congrArg (combine J.wrap) hsame

end

end Junction

/-! ## The laws -/

variable {a b c : Guard}

theorem both_always_left (b : Guard) : always.both b = b := rfl

theorem both_always_right (a : Guard) : a.both always = a := by
  unfold both
  split
  · next ha => exact (isAlways_iff.mp ha).symm
  · rfl

theorem both_eq (ha : a ≠ always) (hb : b ≠ always) : a.both b = conjunction.join a b := by
  rw [both, if_neg (isAlways_iff.not.mpr ha), if_neg (isAlways_iff.not.mpr hb)]
  rfl

theorem either_of_always (h : a = always ∨ b = always) : a.either b = always := by
  rw [either, if_pos (by simpa only [Bool.or_eq_true, isAlways_iff] using h)]

theorem either_eq (ha : a ≠ always) (hb : b ≠ always) : a.either b = disjunction.join a b := by
  rw [either, if_neg (by simpa only [Bool.or_eq_true, isAlways_iff] using not_or.mpr ⟨ha, hb⟩)]
  rfl

section
variable (ha : Normal a) (hb : Normal b) (hc : Normal c)

include ha hb in
theorem Normal.both : Normal (a.both b) := by
  by_cases hna : a = .always
  · rwa [hna, both_always_left]
  by_cases hnb : b = .always
  · rwa [hnb, both_always_right]
  rw [both_eq hna hnb]
  exact Junction.normal_join ha hb hna hnb

include ha hb in
theorem Normal.either : Normal (a.either b) := by
  by_cases h : a = .always ∨ b = .always
  · rw [either_of_always h]
    exact .always
  · obtain ⟨hna, hnb⟩ := not_or.mp h
    rw [either_eq hna hnb]
    exact Junction.normal_join ha hb hna hnb

theorem both_comm (a b : Guard) : a.both b = b.both a := by
  by_cases hna : a = always
  · rw [hna, both_always_left, both_always_right]
  by_cases hnb : b = always
  · rw [hnb, both_always_left, both_always_right]
  rw [both_eq hna hnb, both_eq hnb hna, Junction.join_comm]

theorem either_comm (a b : Guard) : a.either b = b.either a := by
  by_cases h : a = always ∨ b = always
  · rw [either_of_always h, either_of_always h.symm]
  · obtain ⟨hna, hnb⟩ := not_or.mp h
    rw [either_eq hna hnb, either_eq hnb hna, Junction.join_comm]

include ha hb hc in
theorem both_assoc : (a.both b).both c = a.both (b.both c) := by
  by_cases hna : a = always
  · rw [hna, both_always_left, both_always_left]
  by_cases hnb : b = always
  · rw [hnb, both_always_right, both_always_left]
  by_cases hnc : c = always
  · rw [hnc, both_always_right, both_always_right]
  rw [both_eq hna hnb, both_eq hnb hnc, both_eq (Junction.join_ne_always ha hb hna hnb) hnc,
    both_eq hna (Junction.join_ne_always hb hc hnb hnc)]
  exact Junction.join_assoc ha hb hc hna hnb hnc

include ha hb hc in
theorem either_assoc : (a.either b).either c = a.either (b.either c) := by
  by_cases hna : a = always
  · rw [either_of_always (.inl (either_of_always (.inl hna))), either_of_always (.inl hna)]
  by_cases hnb : b = always
  · rw [either_of_always (.inl (either_of_always (.inr hnb))),
      either_of_always (.inr (either_of_always (.inl hnb)))]
  by_cases hnc : c = always
  · rw [either_of_always (.inr hnc), either_of_always (.inr (either_of_always (.inr hnc)))]
  rw [either_eq hna hnb, either_eq hnb hnc, either_eq (Junction.join_ne_always ha hb hna hnb) hnc,
    either_eq hna (Junction.join_ne_always hb hc hnb hnc)]
  exact Junction.join_assoc ha hb hc hna hnb hnc

include ha in
theorem both_self : a.both a = a := by
  by_cases hna : a = always
  · rw [hna, both_always_left]
  · rw [both_eq hna hna, Junction.join_self ha hna]

include ha in
theorem either_self : a.either a = a := by
  by_cases hna : a = always
  · rw [either_of_always (.inl hna), hna]
  · rw [either_eq hna hna, Junction.join_self ha hna]

end

/-- What is built is in normal form. -/
theorem Built.normal (h : Built a) : Normal a := by
  induction h with
  | always => exact .always
  | predicate rule index contextual => exact .predicate rule index contextual
  | precedence level => exact .precedence level
  | both _ _ iha ihb => exact iha.both ihb
  | either _ _ iha ihb => exact iha.either ihb

/-- **Guards have one form.**  Guards that are built from predicates and levels are in normal form.  On them,
up to equality, to ask for both is commutative, associative and idempotent with the unit `always`, and to ask
for either is commutative, associative and idempotent, and `always` absorbs. -/
theorem Built.canonical (ha : Built a) (hb : Built b) (hc : Built c) :
    Normal a ∧
      (a.both b = b.both a ∧ (a.both b).both c = a.both (b.both c) ∧ a.both a = a ∧
        a.both .always = a ∧ Guard.always.both a = a) ∧
      (a.either b = b.either a ∧ (a.either b).either c = a.either (b.either c) ∧ a.either a = a ∧
        a.either .always = .always ∧ Guard.always.either a = .always) :=
  ⟨ha.normal,
    ⟨both_comm a b, both_assoc ha.normal hb.normal hc.normal, both_self ha.normal, both_always_right a,
      both_always_left a⟩,
    ⟨either_comm a b, either_assoc ha.normal hb.normal hc.normal, either_self ha.normal,
      either_of_always (.inr rfl), either_of_always (.inl rfl)⟩⟩

/-- Two conjunctions with a level each, one of them below a disjunction. -/
theorem Built.canonical_nested :
    let a := (Guard.predicate 0 1 true).both (.precedence 3)
    let b := Guard.precedence 1
    let c := ((Guard.predicate 0 2 false).both (.precedence 2)).either (.precedence 4)
    (Built a ∧ Built b ∧ Built c) ∧
    Normal a ∧
      (a.both b = b.both a ∧ (a.both b).both c = a.both (b.both c) ∧ a.both a = a ∧
        a.both .always = a ∧ Guard.always.both a = a) ∧
      (a.either b = b.either a ∧ (a.either b).either c = a.either (b.either c) ∧ a.either a = a ∧
        a.either .always = .always ∧ Guard.always.either a = .always) :=
  have ha := .both (.predicate 0 1 true) (.precedence 3)
  have hb := .precedence 1
  have hc := .either (.both (.predicate 0 2 false) (.precedence 2)) (.precedence 4)
  ⟨⟨ha, hb, hc⟩, Built.canonical ha hb hc⟩

/-- Levels meet across the operands of both sides. -/
example : ((Guard.predicate 0 1 true).both (.precedence 3)).both
      (((Guard.predicate 0 2 false).either (.precedence 4)).both (.precedence 1)) =
    .all [.predicate 0 1 true, .precedence 1, .any [.predicate 0 2 false, .precedence 4]] := by decide

end Guard
end AdaptiveLL

import Mathlib
import AdaptiveLL.Config

/-! # Alternatives place by place

What the sets of alternatives hold that conflicts are read from.  Grouping the alternatives of
configurations by a key gives one set for each key that occurs, and its members are the alternatives
of the configurations with this key (`ConfigSet.Groups`).  So the sets of a conflict are those of the
places where configurations are (`ConfigSet.mem_of_conflictSubset`, `exists_conflictSubset`).
-/
namespace AdaptiveLL

namespace AltSet

theorem mem_insert {s : AltSet} {a b : Nat} : a ∈ (s.insert b).toList ↔ a = b ∨ a ∈ s.toList :=
  mem_insertAscending

theorem mem_foldl_insert {s : AltSet} {l : List Nat} {a : Nat} :
    a ∈ (l.foldl insert s).toList ↔ a ∈ l ∨ a ∈ s.toList := by
  induction l generalizing s with
  | nil => simp
  | cons b l ih =>
    rw [List.foldl_cons, ih, mem_insert, List.mem_cons]
    tauto

theorem mem_ofList {l : List Nat} {a : Nat} : a ∈ (ofList l).toList ↔ a ∈ l := by
  rw [ofList, mem_foldl_insert]
  simp [empty]

theorem mem_union {s t : AltSet} {a : Nat} :
    a ∈ (s.union t).toList ↔ a ∈ s.toList ∨ a ∈ t.toList := by
  rw [union, mem_foldl_insert, or_comm]

/-- The lowest member. -/
theorem min?_eq_some_iff {s : AltSet} {m : Nat} :
    s.min? = some m ↔ m ∈ s.toList ∧ ∀ a ∈ s.toList, m ≤ a := by
  have hp := s.ascending
  unfold min?
  generalize s.toList = l at hp
  cases l with
  | nil => simp
  | cons b l =>
    rw [List.pairwise_cons] at hp
    simp only [List.head?_cons, Option.some.injEq, List.mem_cons, forall_eq_or_imp]
    constructor
    · rintro rfl
      exact ⟨.inl rfl, le_refl _, fun a ha => Nat.le_of_lt (hp.1 a ha)⟩
    · rintro ⟨rfl | hm, hle, -⟩
      · rfl
      · exact absurd (hp.1 m hm) (Nat.not_lt.mpr hle)

theorem exists_min? {s : AltSet} {a : Nat} (h : a ∈ s.toList) : ∃ m, s.min? = some m := by
  unfold min?
  cases hl : s.toList with
  | nil => simp [hl] at h
  | cons b l => exact ⟨b, rfl⟩

end AltSet

namespace Conflict

theorem mem_allAlts {subsets : List AltSet} {a : Nat} :
    a ∈ (allAlts subsets).toList ↔ ∃ s ∈ subsets, a ∈ s.toList := by
  have hfold : ∀ (s : AltSet), a ∈ (subsets.foldl AltSet.union s).toList ↔
      a ∈ s.toList ∨ ∃ t ∈ subsets, a ∈ t.toList := by
    induction subsets with
    | nil => simp
    | cons t subsets ih =>
      intro s
      rw [List.foldl_cons, ih, AltSet.mem_union]
      simp only [List.mem_cons, exists_eq_or_imp]
      tauto
  rw [allAlts, hfold]
  simp [AltSet.empty]

/-- Every place has the alternative that is lowest at all of them as its lowest. -/
theorem min?_of_singleViable? {subsets : List AltSet} {m : Nat} (h : singleViable? subsets = some m)
    {s : AltSet} (hs : s ∈ subsets) {a : Nat} (ha : a ∈ s.toList) : s.min? = some m := by
  unfold singleViable? at h
  simp only at h
  split at h
  · next hsize =>
    obtain ⟨b, hb⟩ := AltSet.exists_min? ha
    have hb' : b ∈ (lowestAlts subsets).toList :=
      AltSet.mem_ofList.mpr (List.mem_filterMap.mpr ⟨s, hs, hb⟩)
    have hm := (AltSet.min?_eq_some_iff.mp h).1
    unfold AltSet.size at hsize
    generalize (lowestAlts subsets).toList = l at hsize hb' hm
    cases l with
    | nil => simp at hb'
    | cons x l =>
      obtain rfl : l = [] := by
        cases l with
        | nil => rfl
        | cons => simp at hsize
      rw [List.mem_singleton] at hb' hm
      rw [hb, hb', hm]
  · contradiction

end Conflict

namespace ConfigSet
variable {κ : Type} [DecidableEq κ]

/-- `groups` lists the alternatives of the configurations `cs` by their keys. -/
structure Groups (key : Config → κ) (cs : List Config) (groups : List (κ × AltSet)) : Prop where
  distinct : (groups.map (·.1)).Nodup
  members : ∀ k alts, (k, alts) ∈ groups →
    ∀ a, a ∈ alts.toList ↔ ∃ c ∈ cs, key c = k ∧ c.alt = a
  all : ∀ c ∈ cs, key c ∈ groups.map (·.1)

theorem map_fst_addToGroup (key : κ) (alt : Nat) (groups : List (κ × AltSet)) :
    (addToGroup key alt groups).map (·.1) =
      if key ∈ groups.map (·.1) then groups.map (·.1) else groups.map (·.1) ++ [key] := by
  induction groups with
  | nil => rfl
  | cons x groups ih =>
    obtain ⟨k, alts⟩ := x
    rw [addToGroup]
    by_cases hk : k = key
    · simp [hk]
    · rw [if_neg hk, List.map_cons, ih]
      by_cases hmem : key ∈ groups.map (·.1)
      · simp [hmem]
      · have : ¬ key = k := fun h => hk h.symm
        simp [hmem, this]

theorem mem_addToGroup {key k : κ} {alt : Nat} {alts : AltSet} {groups : List (κ × AltSet)}
    (hd : (groups.map (·.1)).Nodup) (h : (k, alts) ∈ addToGroup key alt groups) :
    (k ≠ key ∧ (k, alts) ∈ groups) ∨
      (k = key ∧ ∃ old, (k, old) ∈ groups ∧ alts = old.insert alt) ∨
      (k = key ∧ key ∉ groups.map (·.1) ∧ alts = AltSet.singleton alt) := by
  induction groups with
  | nil =>
    rw [addToGroup, List.mem_singleton, Prod.mk.injEq] at h
    exact .inr (.inr ⟨h.1, by simp, h.2⟩)
  | cons x groups ih =>
    obtain ⟨l, old⟩ := x
    rw [List.map_cons, List.nodup_cons] at hd
    rw [addToGroup] at h
    by_cases hl : l = key
    · rw [if_pos hl] at h
      rcases List.mem_cons.mp h with heq | hmem
      · cases heq
        exact .inr (.inl ⟨hl, old, List.mem_cons_self, rfl⟩)
      · refine .inl ⟨?_, List.mem_cons_of_mem _ hmem⟩
        rintro rfl
        exact hd.1 (hl ▸ List.mem_map.mpr ⟨(k, alts), hmem, rfl⟩)
    · rw [if_neg hl] at h
      rcases List.mem_cons.mp h with heq | hmem
      · cases heq
        exact .inl ⟨hl, List.mem_cons_self⟩
      · rcases ih hd.2 hmem with ⟨hne, hm⟩ | ⟨heq, old', hm, he⟩ | ⟨heq, hn, he⟩
        · exact .inl ⟨hne, List.mem_cons_of_mem _ hm⟩
        · exact .inr (.inl ⟨heq, old', List.mem_cons_of_mem _ hm, he⟩)
        · refine .inr (.inr ⟨heq, ?_, he⟩)
          rw [List.map_cons, List.mem_cons, not_or]
          exact ⟨fun h => hl h.symm, hn⟩

theorem Groups.add {key : Config → κ} {cs : List Config} {groups : List (κ × AltSet)}
    (h : Groups key cs groups) (c : Config) :
    Groups key (cs ++ [c]) (addToGroup (key c) c.alt groups) where
  distinct := by
    rw [map_fst_addToGroup]
    split
    · exact h.distinct
    · next hn =>
      rw [List.nodup_append]
      refine ⟨h.distinct, List.nodup_singleton _, ?_⟩
      rintro x hx y hy rfl
      exact hn (List.mem_singleton.mp hy ▸ hx)
  members k alts hk a := by
    have hsplit : (∃ d ∈ cs ++ [c], key d = k ∧ d.alt = a) ↔
        (∃ d ∈ cs, key d = k ∧ d.alt = a) ∨ key c = k ∧ c.alt = a := by
      simp [or_and_right, exists_or]
    rw [hsplit]
    -- The group is that of another key, or the one that `c` joins, or it was opened for `c`.
    rcases mem_addToGroup h.distinct hk with ⟨hne, hm⟩ | ⟨heq, old, hm, rfl⟩ | ⟨heq, hn, rfl⟩
    · rw [h.members k alts hm a]
      have : ¬ key c = k := fun h => hne h.symm
      simp [this]
    · rw [AltSet.mem_insert, h.members k old hm a, heq]
      constructor
      · rintro (rfl | h)
        · exact .inr ⟨rfl, rfl⟩
        · exact .inl h
      · rintro (h | ⟨-, rfl⟩)
        · exact .inr h
        · exact .inl rfl
    · subst heq
      constructor
      · intro ha
        exact .inr ⟨rfl, (List.mem_singleton.mp ha).symm⟩
      · rintro (⟨d, hd, hkd, -⟩ | ⟨-, rfl⟩)
        · exact absurd (hkd ▸ h.all d hd) hn
        · exact List.mem_singleton_self _
  all d hd := by
    rw [map_fst_addToGroup]
    rcases List.mem_append.mp hd with hd | hd
    · split
      · exact h.all d hd
      · exact List.mem_append_left _ (h.all d hd)
    · rw [List.mem_singleton.mp hd]
      split
      · assumption
      · simp

theorem groups_groupAlts (key : Config → κ) (s : ConfigSet) :
    Groups key s.toList (s.groupAlts key) := by
  have hfold : ∀ (cs ds : List Config) (groups : List (κ × AltSet)), Groups key cs groups →
      Groups key (cs ++ ds) (ds.foldl (fun groups c => addToGroup (key c) c.alt groups) groups) := by
    intro cs ds
    induction ds generalizing cs with
    | nil =>
      intro groups h
      simpa using h
    | cons d ds ih =>
      intro groups h
      have := ih (cs ++ [d]) _ (h.add d)
      simpa using this
  exact hfold [] s.toList [] ⟨List.nodup_nil, by simp, by simp⟩

/-- The alternatives at one place are those of the configurations there. -/
theorem mem_of_conflictSubset {s : ConfigSet} {alts : AltSet} (h : alts ∈ s.conflictSubsets) :
    ∃ (state : Nat) (stack : StackRef), ∀ a, a ∈ alts.toList ↔
      ∃ c ∈ s.toList, c.state = state ∧ c.stack = stack ∧ c.alt = a := by
  obtain ⟨⟨⟨state, stack⟩, _⟩, hmem, rfl⟩ := List.mem_map.mp h
  refine ⟨state, stack, fun a => ?_⟩
  rw [(groups_groupAlts _ s).members _ _ hmem a]
  simp [and_assoc]

/-- Every configuration is at a place. -/
theorem exists_conflictSubset {s : ConfigSet} {c : Config} (hc : c ∈ s.toList) :
    ∃ alts ∈ s.conflictSubsets, ∀ a, a ∈ alts.toList ↔
      ∃ d ∈ s.toList, d.state = c.state ∧ d.stack = c.stack ∧ d.alt = a := by
  have h := groups_groupAlts (fun c => (c.state, c.stack)) s
  obtain ⟨⟨k, alts⟩, hmem, hk⟩ := List.mem_map.mp (h.all c hc)
  refine ⟨alts, List.mem_map.mpr ⟨_, hmem, rfl⟩, fun a => ?_⟩
  rw [h.members k alts hmem a]
  simp only at hk
  simp [hk, and_assoc]

/-- Every alternative that occurs is among those in conflict. -/
theorem mem_findConflictingAlts {s : ConfigSet} {a : Nat} :
    a ∈ s.findConflictingAlts.toList ↔ ∃ c ∈ s.toList, c.alt = a := by
  rw [findConflictingAlts, Conflict.mem_allAlts]
  constructor
  · rintro ⟨alts, hs, ha⟩
    obtain ⟨state, stack, hm⟩ := mem_of_conflictSubset hs
    obtain ⟨c, hc, -, -, h⟩ := (hm a).mp ha
    exact ⟨c, hc, h⟩
  · rintro ⟨c, hc, rfl⟩
    obtain ⟨alts, hs, hm⟩ := exists_conflictSubset hc
    exact ⟨alts, hs, (hm c.alt).mpr ⟨c, hc, rfl, rfl, rfl⟩⟩

end ConfigSet
end AdaptiveLL

import AdaptiveLL.Symbol.IntervalSet
import Mathlib.Data.Set.Card

/-! # Sets of symbols as lists of ranges

What halving finds in any list is an element that does not pass, and it comes right after one that does
(`not_passes_boundary`, `boundary_prev`); only if the elements that pass come first are they all before it
(`passes_of_lt_boundary`).  So `contains` never finds a symbol that no range holds, and it finds each one
that some range holds if both ends of the ranges ascend (`contains_iff_covers`).

Ranges are `Coalesced` if none is empty and each ends two symbols or more in front of the next.  Insertion
keeps them so and adds exactly the new range (`coalesced_insertRange`, `covers_insertRange`).  It splits the
list at the first range that the new one can touch, which is where halving splits it too; what `absorb` has
swallowed so far and the ranges in front of it are then known by what they hold.  Coalesced lists with the
same members are equal (`Coalesced.ext`).
-/
namespace AdaptiveLL
namespace IntervalSet

/-! ## Halving -/

section Halving
variable {α : Type} {p : α → Bool} {xs : Array α}

/-- Whether the element at a position passes; there is none behind the end. -/
def passesAt (p : α → Bool) (xs : Array α) (i : Nat) : Bool := (xs[i]?.map p).getD false

theorem passesAt_iff {i : Nat} : passesAt p xs i ↔ ∃ x, xs[i]? = some x ∧ p x := by
  cases h : xs[i]? <;> simp [passesAt, h]

theorem passesAt_of_size_le {i : Nat} (h : xs.size ≤ i) : passesAt p xs i = false := by
  rw [passesAt, Array.getElem?_eq_none h]
  rfl

theorem halving_of_le {base size : Nat} (h : size ≤ 1) :
    halving p xs base size = if passesAt p xs base then base + 1 else base := by
  rw [halving, if_pos h]
  rfl

theorem halving_of_lt {base size : Nat} (h : 1 < size) :
    halving p xs base size =
      halving p xs (if passesAt p xs (base + size / 2) then base + size / 2 else base) (size - size / 2) := by
  rw [halving, if_neg (by omega)]
  rfl

/-- The element right behind the window or the last one in it does not pass, as long as the window has
halves. -/
theorem not_passes_halving {base size : Nat} (hsize : 1 ≤ size)
    (hout : passesAt p xs (base + size) = false ∨ passesAt p xs (base + size - 1) = false) :
    passesAt p xs (halving p xs base size) = false := by
  induction size using Nat.strongRecOn generalizing base with
  | ind size ih =>
    by_cases hone : size ≤ 1
    · obtain rfl : size = 1 := by omega
      rw [halving_of_le hone]
      cases hbase : passesAt p xs base with
      | false => simpa using hbase
      | true => simpa [hbase] using hout
    · rw [halving_of_lt (by omega)]
      refine ih (size - size / 2) (by omega) (by omega) ?_
      cases hhalf : passesAt p xs (base + size / 2) with
      | true =>
        have hend : base + size / 2 + (size - size / 2) = base + size := by omega
        simpa [hend] using hout
      | false =>
        -- the window now ends at the element that did not pass, or right behind it
        obtain hend | hend : base + (size - size / 2) = base + size / 2 ∨
            base + (size - size / 2) - 1 = base + size / 2 := by omega
        · exact .inl (by simpa [hend] using hhalf)
        · exact .inr (by simpa [hend] using hhalf)

theorem not_passes_boundary (p : α → Bool) (xs : Array α) : passesAt p xs (boundary p xs) = false := by
  obtain hempty | hsize := Nat.eq_zero_or_pos xs.size
  · exact passesAt_of_size_le (by omega)
  · exact not_passes_halving hsize (.inl (passesAt_of_size_le (by omega)))

/-- Halving has passed the element in front of where it ends, unless it never left `start`. -/
theorem halving_prev {start base size : Nat} (hbase : base = start ∨ passesAt p xs base) :
    halving p xs base size = start ∨ ∃ i, halving p xs base size = i + 1 ∧ passesAt p xs i := by
  induction size using Nat.strongRecOn generalizing base with
  | ind size ih =>
    by_cases hone : size ≤ 1
    · rw [halving_of_le hone]
      split
      case isTrue hpass => exact .inr ⟨base, rfl, hpass⟩
      case isFalse hpass => exact .inl (hbase.resolve_right hpass)
    · rw [halving_of_lt (by omega)]
      refine ih (size - size / 2) (by omega) ?_
      split
      case isTrue hhalf => exact .inr hhalf
      case isFalse => exact hbase

theorem boundary_prev {i : Nat} (h : boundary p xs = i + 1) : passesAt p xs i := by
  have hprev : halving p xs 0 xs.size = 0 ∨ ∃ j, halving p xs 0 xs.size = j + 1 ∧ passesAt p xs j :=
    halving_prev (.inl (Eq.refl 0))
  obtain hzero | ⟨j, hj, hpass⟩ := hprev
  · rw [boundary, hzero] at h
    omega
  · rw [boundary, hj] at h
    exact Nat.add_right_cancel h ▸ hpass

/-- If the elements that pass come first, all elements in front of the window pass. -/
theorem passes_of_lt_halving (hfirst : ∀ i j, i ≤ j → passesAt p xs j → passesAt p xs i) {base size : Nat}
    (hbase : ∀ i < base, passesAt p xs i) : ∀ i < halving p xs base size, passesAt p xs i := by
  induction size using Nat.strongRecOn generalizing base with
  | ind size ih =>
    by_cases hone : size ≤ 1
    · rw [halving_of_le hone]
      split
      case isTrue hpass => exact fun i hi => hfirst i base (by omega) hpass
      case isFalse => exact hbase
    · rw [halving_of_lt (by omega)]
      refine ih (size - size / 2) (by omega) ?_
      split
      case isTrue hhalf => exact fun i hi => hfirst i _ (by omega) hhalf
      case isFalse => exact hbase

theorem passes_of_lt_boundary (hfirst : ∀ i j, i ≤ j → passesAt p xs j → passesAt p xs i) :
    ∀ i < boundary p xs, passesAt p xs i :=
  passes_of_lt_halving hfirst (by simp)

/-- Elements pass in front of those that do not if passing is inherited by what comes before. -/
theorem passesAt_mono {l : List α} (h : l.Pairwise fun a b => p b → p a) (i j : Nat) (hij : i ≤ j)
    (hpass : passesAt p l.toArray j) : passesAt p l.toArray i := by
  obtain ⟨b, hb, hpb⟩ := passesAt_iff.mp hpass
  rw [List.getElem?_toArray] at hb
  obtain ⟨hj, rfl⟩ := List.getElem?_eq_some_iff.mp hb
  obtain rfl | hlt := Nat.eq_or_lt_of_le hij
  · exact hpass
  · refine passesAt_iff.mpr ⟨l[i], by simp, ?_⟩
    exact List.pairwise_iff_getElem.mp h i j (by omega) hj hlt hpb

/-- On such a list halving ends where the first element does not pass. -/
theorem boundary_eq_findIdx {l : List α} (h : l.Pairwise fun a b => p b → p a) :
    boundary p l.toArray = l.findIdx fun a => !p a := by
  have hpass := passes_of_lt_boundary (passesAt_mono h)
  have hstop := not_passes_boundary p l.toArray
  generalize boundary p l.toArray = n at hpass hstop
  induction l generalizing n with
  | nil =>
    cases n with
    | zero => rfl
    | succ n => simpa [passesAt] using hpass 0 (by omega)
  | cons a l ih =>
    cases n with
    | zero =>
      have ha : p a = false := by simpa [passesAt] using hstop
      simp [List.findIdx_cons, ha]
    | succ n =>
      have ha : p a := by simpa [passesAt] using hpass 0 (by omega)
      have hrest := ih (List.pairwise_cons.mp h).2 n
        (fun i hi => by simpa [passesAt] using hpass (i + 1) (by omega)) (by simpa [passesAt] using hstop)
      simp [List.findIdx_cons, ha, hrest]

end Halving

/-! ## Membership -/

/-- Some range holds `x`. -/
def Covers (ranges : List (Int × Int)) (x : Int) : Prop := ∃ r ∈ ranges, r.1 ≤ x ∧ x ≤ r.2

theorem covers_nil {x : Int} : ¬ Covers [] x := by simp [Covers]

theorem covers_cons {r : Int × Int} {rs : List (Int × Int)} {x : Int} :
    Covers (r :: rs) x ↔ (r.1 ≤ x ∧ x ≤ r.2) ∨ Covers rs x := by simp [Covers]

theorem covers_append {rs ss : List (Int × Int)} {x : Int} :
    Covers (rs ++ ss) x ↔ Covers rs x ∨ Covers ss x := by simp [Covers, or_and_right, exists_or]

/-- Both ends of the ranges ascend. -/
def Ascends (ranges : List (Int × Int)) : Prop := ranges.Pairwise fun r s => r.1 ≤ s.1 ∧ r.2 ≤ s.2

theorem contains_iff {s : IntervalSet} {x : Int} : s.contains x ↔
    ∃ r, s.ranges[boundary (fun r => decide (r.2 < x)) s.ranges.toArray]? = some r ∧ r.1 ≤ x := by
  simp only [contains, List.getElem?_toArray]
  split
  case h_1 r hr => simp [hr]
  case h_2 hnone => simp [hnone]

/-- The range that halving finds does not end before `x`, but the one in front of it does, in whatever order
the ranges are. -/
theorem found_of_contains {s : IntervalSet} {x : Int} (h : s.contains x) :
    ∃ i, ∃ hi : i < s.ranges.length, (s.ranges[i].1 ≤ x ∧ x ≤ s.ranges[i].2) ∧
      ∀ j (_ : j + 1 = i), s.ranges[j].2 < x := by
  obtain ⟨r, hr, hlo⟩ := contains_iff.mp h
  obtain ⟨hi, rfl⟩ := List.getElem?_eq_some_iff.mp hr
  have hstop := not_passes_boundary (fun r => decide (r.2 < x)) s.ranges.toArray
  rw [passesAt, List.getElem?_toArray, hr] at hstop
  refine ⟨_, hi, ⟨hlo, by simpa using hstop⟩, fun j hj => ?_⟩
  obtain ⟨q, hq, hpass⟩ := passesAt_iff.mp (boundary_prev hj.symm)
  rw [List.getElem?_toArray, List.getElem?_eq_getElem (by omega), Option.some_inj] at hq
  rw [hq]
  exact of_decide_eq_true hpass

theorem covers_of_contains {s : IntervalSet} {x : Int} (h : s.contains x) : Covers s.ranges x := by
  obtain ⟨i, hi, hx, -⟩ := found_of_contains h
  exact ⟨_, List.getElem_mem hi, hx⟩

theorem contains_iff_covers {s : IntervalSet} (h : Ascends s.ranges) {x : Int} :
    s.contains x ↔ Covers s.ranges x := by
  refine ⟨covers_of_contains, fun ⟨r, hr, hlo, hhi⟩ => ?_⟩
  obtain ⟨j, hj, rfl⟩ := List.getElem_of_mem hr
  have hends : s.ranges.Pairwise fun r t => decide (t.2 < x) → decide (r.2 < x) :=
    h.imp fun {r t} hrt => by simpa using fun ht => by omega
  -- the range at `j` does not pass, so halving ends there or before
  have hle : boundary (fun r => decide (r.2 < x)) s.ranges.toArray ≤ j := by
    by_contra hlt
    obtain ⟨t, ht, hpass⟩ := passesAt_iff.mp (passes_of_lt_boundary (passesAt_mono hends) j (by omega))
    obtain rfl : s.ranges[j] = t := by simpa [hj] using ht
    have : (s.ranges[j]).2 < x := of_decide_eq_true hpass
    omega
  refine contains_iff.mpr ⟨_, List.getElem?_eq_getElem (by omega), ?_⟩
  obtain heq | hlt := Nat.eq_or_lt_of_le hle
  · simpa only [heq] using hlo
  · exact (List.pairwise_iff_getElem.mp h _ j (by omega) hj hlt).1.trans hlo

/-! ## Coalesced ranges -/

/-- Ranges that are not empty, in ascending order, with a missing symbol between neighbours. -/
structure Coalesced (ranges : List (Int × Int)) : Prop where
  nonempty : ∀ r ∈ ranges, r.1 ≤ r.2
  apart : ranges.Pairwise fun r s => r.2 + 1 < s.1

namespace Coalesced

variable {r s : Int × Int} {rs ss : List (Int × Int)} {x : Int}

theorem nil : Coalesced [] := ⟨by simp, .nil⟩

theorem cons_iff : Coalesced (r :: rs) ↔ r.1 ≤ r.2 ∧ (∀ s ∈ rs, r.2 + 1 < s.1) ∧ Coalesced rs := by
  refine ⟨fun h => ?_, fun ⟨hr, hrs, h⟩ => ⟨?_, List.pairwise_cons.mpr ⟨hrs, h.apart⟩⟩⟩
  · obtain ⟨hr, hne⟩ := List.forall_mem_cons.mp h.nonempty
    obtain ⟨hrs, hapart⟩ := List.pairwise_cons.mp h.apart
    exact ⟨hr, hrs, hne, hapart⟩
  · exact List.forall_mem_cons.mpr ⟨hr, h.nonempty⟩

theorem append_iff : Coalesced (rs ++ ss) ↔
    Coalesced rs ∧ Coalesced ss ∧ ∀ r ∈ rs, ∀ s ∈ ss, r.2 + 1 < s.1 := by
  refine ⟨fun ⟨hne, hapart⟩ => ?_, fun ⟨hr, hs, hcross⟩ => ⟨?_, ?_⟩⟩
  · rw [List.pairwise_append] at hapart
    exact ⟨⟨fun r hr => hne r (List.mem_append_left _ hr), hapart.1⟩,
      ⟨fun s hs => hne s (List.mem_append_right _ hs), hapart.2.1⟩, hapart.2.2⟩
  · intro t ht
    exact (List.mem_append.mp ht).elim (hr.nonempty t) (hs.nonempty t)
  · exact List.pairwise_append.mpr ⟨hr.apart, hs.apart, hcross⟩

theorem ascends (h : Coalesced rs) : Ascends rs :=
  h.apart.imp_of_mem fun {r s} hr hs hrs => by
    have := h.nonempty r hr
    have := h.nonempty s hs
    omega

/-- No symbol is before the first range. -/
theorem head_le (h : Coalesced (r :: rs)) (hx : Covers (r :: rs) x) : r.1 ≤ x := by
  obtain ⟨hr, hrs, -⟩ := cons_iff.mp h
  obtain ⟨hlo, -⟩ | ⟨s, hs, hlo, -⟩ := covers_cons.mp hx
  · exact hlo
  · have := hrs s hs
    omega

/-- The symbol right behind the first range is missing. -/
theorem not_covers_succ (h : Coalesced (r :: rs)) : ¬ Covers (r :: rs) (r.2 + 1) := by
  obtain ⟨-, hrs, -⟩ := cons_iff.mp h
  intro hx
  obtain hx | ⟨s, hs, hlo, -⟩ := covers_cons.mp hx
  · omega
  · have := hrs s hs
    omega

/-- The other ranges hold what comes behind the first one. -/
theorem covers_tail (h : Coalesced (r :: rs)) : Covers rs x ↔ Covers (r :: rs) x ∧ r.2 < x := by
  obtain ⟨-, hrs, -⟩ := cons_iff.mp h
  rw [covers_cons]
  constructor
  · rintro ⟨s, hs, hlo, hhi⟩
    have := hrs s hs
    exact ⟨.inr ⟨s, hs, hlo, hhi⟩, by omega⟩
  · rintro ⟨hx | hx, hlt⟩
    · omega
    · exact hx

/-- The first range of one list ends no earlier than that of another with the same members. -/
theorem head_end_le (hr : Coalesced (r :: rs)) (hstart : r.1 = s.1)
    (hsame : ∀ x, Covers (r :: rs) x ↔ Covers (s :: ss) x) : s.2 ≤ r.2 := by
  by_contra hlt
  have hne := (cons_iff.mp hr).1
  exact hr.not_covers_succ ((hsame _).mpr (covers_cons.mpr (.inl ⟨by omega, by omega⟩)))

/-- Coalesced ranges are known by what they hold. -/
theorem ext (hr : Coalesced rs) (hs : Coalesced ss) (hsame : ∀ x, Covers rs x ↔ Covers ss x) : rs = ss := by
  induction rs generalizing ss with
  | nil =>
    cases ss with
    | nil => rfl
    | cons s ss =>
      have hfirst : Covers (s :: ss) s.1 := covers_cons.mpr (.inl ⟨le_refl _, (cons_iff.mp hs).1⟩)
      exact absurd ((hsame _).mpr hfirst) covers_nil
  | cons r rs ih =>
    have hfirst : Covers (r :: rs) r.1 := covers_cons.mpr (.inl ⟨le_refl _, (cons_iff.mp hr).1⟩)
    cases ss with
    | nil => exact absurd ((hsame _).mp hfirst) covers_nil
    | cons s ss =>
      have hfirst' : Covers (s :: ss) s.1 := covers_cons.mpr (.inl ⟨le_refl _, (cons_iff.mp hs).1⟩)
      have hstart : r.1 = s.1 :=
        le_antisymm (hr.head_le ((hsame _).mpr hfirst')) (hs.head_le ((hsame _).mp hfirst))
      have hend : r.2 = s.2 :=
        le_antisymm (hs.head_end_le hstart.symm fun x => (hsame x).symm) (hr.head_end_le hstart hsame)
      obtain rfl : r = s := Prod.ext hstart hend
      rw [ih (cons_iff.mp hr).2.2 (cons_iff.mp hs).2.2 fun x => by rw [hr.covers_tail, hs.covers_tail, hsame x]]

end Coalesced

/-! ## Insertion -/

section Insertion
variable {lo hi : Int} {rs : List (Int × Int)}

/-- Both parts of the list that is split for a range from `lo` on are coalesced, and so is their seam. -/
theorem Coalesced.split (h : Coalesced rs) (lo : Int) :
    Coalesced (rs.takeWhile (endsBefore lo)) ∧ Coalesced (rs.dropWhile (endsBefore lo)) ∧
      ∀ r ∈ rs.takeWhile (endsBefore lo), ∀ s ∈ rs.dropWhile (endsBefore lo), r.2 + 1 < s.1 :=
  append_iff.mp (by rwa [List.takeWhile_append_dropWhile])

/-- Behind the split, the new range reaches or borders on each range that it does not end before. -/
theorem le_of_mem_dropWhile (h : Coalesced rs) {r : Int × Int} (hr : r ∈ rs.dropWhile (endsBefore lo)) :
    lo ≤ r.2 + 1 := by
  induction rs with
  | nil => cases hr
  | cons s rs ih =>
    obtain ⟨hs, hapart, hrs⟩ := Coalesced.cons_iff.mp h
    by_cases hbefore : endsBefore lo s
    · exact ih hrs (List.dropWhile_cons_of_pos hbefore ▸ hr)
    · have hlo : lo ≤ s.2 + 1 := by simpa [endsBefore] using hbefore
      rw [List.dropWhile_cons_of_neg hbefore] at hr
      obtain rfl | hr := List.mem_cons.mp hr
      · exact hlo
      · have := hapart r hr
        have := hrs.nonempty r hr
        omega

/-- Nothing that is swallowed or left starts before a bound that all of it respects. -/
theorem le_of_mem_absorb {bound : Int} (hlo : bound ≤ lo) (hrs : ∀ r ∈ rs, bound ≤ r.1) :
    ∀ r ∈ absorb lo hi rs, bound ≤ r.1 := by
  induction rs generalizing lo hi with
  | nil => simpa [absorb] using hlo
  | cons s rs ih =>
    obtain ⟨hs, hrs'⟩ := List.forall_mem_cons.mp hrs
    rw [absorb]
    split
    · exact ih (le_min hlo hs) hrs'
    · exact List.forall_mem_cons.mpr ⟨hlo, hrs⟩

theorem coalesced_absorb (hne : lo ≤ hi) (h : Coalesced rs) (hreach : ∀ r ∈ rs, lo ≤ r.2 + 1) :
    Coalesced (absorb lo hi rs) := by
  induction rs generalizing lo hi with
  | nil => exact Coalesced.cons_iff.mpr ⟨hne, by simp, .nil⟩
  | cons s rs ih =>
    obtain ⟨hs, hapart, hrs⟩ := Coalesced.cons_iff.mp h
    rw [absorb]
    split
    case isTrue =>
      refine ih (by omega) hrs fun r hr => ?_
      have := (List.forall_mem_cons.mp hreach).2 r hr
      omega
    case isFalse hgap =>
      refine Coalesced.cons_iff.mpr ⟨hne, List.forall_mem_cons.mpr ⟨by simp only; omega, fun r hr => ?_⟩, h⟩
      have := hapart r hr
      simp only
      omega

theorem covers_absorb (h : Coalesced rs) (hreach : ∀ r ∈ rs, lo ≤ r.2 + 1) {x : Int} :
    Covers (absorb lo hi rs) x ↔ (lo ≤ x ∧ x ≤ hi) ∨ Covers rs x := by
  induction rs generalizing lo hi with
  | nil => rw [absorb, covers_cons]
  | cons s rs ih =>
    obtain ⟨hs, hapart, hrs⟩ := Coalesced.cons_iff.mp h
    rw [absorb]
    split
    case isTrue hreached =>
      obtain ⟨hlo, hreach⟩ := List.forall_mem_cons.mp hreach
      -- the two ranges overlap or border on each other, so together they are one range
      have hjoin : min lo s.1 ≤ x ∧ x ≤ max hi s.2 ↔ (lo ≤ x ∧ x ≤ hi) ∨ (s.1 ≤ x ∧ x ≤ s.2) := by omega
      have hreach' : ∀ r ∈ rs, min lo s.1 ≤ r.2 + 1 := fun r hr => (min_le_left _ _).trans (hreach r hr)
      rw [ih hrs hreach', hjoin, covers_cons, or_assoc]
    case isFalse => exact covers_cons

theorem coalesced_insertRange {s : IntervalSet} (h : Coalesced s.ranges) (lo hi : Int) :
    Coalesced (s.insertRange lo hi).ranges := by
  rw [insertRange]
  split
  case isTrue => exact h
  case isFalse hne =>
    obtain ⟨hfront, hback, hcross⟩ := h.split lo
    have hjoined := coalesced_absorb (by omega : lo ≤ hi) hback fun r hr => le_of_mem_dropWhile h hr
    refine Coalesced.append_iff.mpr ⟨hfront, hjoined, fun r hr t ht => ?_⟩
    have hbefore : r.2 + 1 < lo := by simpa [endsBefore] using List.all_eq_true.mp List.all_takeWhile r hr
    have hpast : r.2 + 2 ≤ t.1 :=
      le_of_mem_absorb (by omega) (fun u hu => by have := hcross r hr u hu; omega) t ht
    omega

theorem covers_insertRange {s : IntervalSet} (h : Coalesced s.ranges) {x : Int} :
    Covers (s.insertRange lo hi).ranges x ↔ (lo ≤ x ∧ x ≤ hi) ∨ Covers s.ranges x := by
  rw [insertRange]
  split
  case isTrue hempty =>
    rw [or_iff_right (by omega)]
  case isFalse hne =>
    obtain ⟨-, hback, -⟩ := h.split lo
    rw [covers_append, covers_absorb hback fun r hr => le_of_mem_dropWhile h hr, or_left_comm, ← covers_append,
      List.takeWhile_append_dropWhile]

end Insertion

/-! ## The members -/

theorem mem_members {r : Int × Int} {x : Int} : x ∈ members r ↔ r.1 ≤ x ∧ x ≤ r.2 := by
  rw [members, List.mem_map]
  constructor
  · rintro ⟨i, hi, rfl⟩
    have := List.mem_range.mp hi
    simp only [Int.ofNat_eq_natCast]
    omega
  · rintro ⟨hlo, hhi⟩
    refine ⟨(x - r.1).toNat, List.mem_range.mpr (by omega), ?_⟩
    simp only [Int.ofNat_eq_natCast]
    omega

theorem mem_toList {s : IntervalSet} {x : Int} : x ∈ s.toList ↔ Covers s.ranges x := by
  simp only [toList, List.mem_flatMap, mem_members, Covers]

theorem members_ascend (r : Int × Int) : (members r).Pairwise (· < ·) :=
  List.pairwise_map.mpr (List.pairwise_lt_range.imp fun hij => by simpa using hij)

theorem toList_ascends {s : IntervalSet} (h : Coalesced s.ranges) : s.toList.Pairwise (· < ·) := by
  refine List.pairwise_flatMap.mpr ⟨fun r _ => members_ascend r, h.apart.imp fun {r t} hrt x hx y hy => ?_⟩
  calc
    x ≤ r.2 := (mem_members.mp hx).2
    _ < t.1 := by omega
    _ ≤ y := (mem_members.mp hy).1

/-- The widths of the ranges add up to the number of symbols listed. -/
theorem size_eq_length (s : IntervalSet) : s.size = s.toList.length := by
  rw [size, toList]
  induction s.ranges with
  | nil => rfl
  | cons r rs ih =>
    rw [List.foldr_cons, ih, List.flatMap_cons, List.length_append, members, List.length_map, List.length_range]

theorem size_eq_ncard {s : IntervalSet} (h : Coalesced s.ranges) :
    s.size = Set.ncard { x | Covers s.ranges x } := by
  have hmembers : { x | Covers s.ranges x } = (s.toList.toFinset : Set Int) :=
    Set.ext fun x => by rw [List.coe_toFinset, Set.mem_ofPred_eq, Set.mem_ofPred_eq, mem_toList]
  have hnodup : s.toList.Nodup := (toList_ascends h).imp ne_of_lt
  rw [size_eq_length, hmembers, Set.ncard_coe_finset, List.toFinset_card_of_nodup hnodup]

end IntervalSet
end AdaptiveLL

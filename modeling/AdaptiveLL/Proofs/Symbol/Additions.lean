import AdaptiveLL.Proofs.Symbol.Ranges

/-! # Sets of symbols that are built up

A set is built up from nothing by `Addition`s: a symbol, a range, or the ranges of another set in any order.
Symbols are 32-bit integers, and whatever is computed from them is computed in 64 bits.  `insertRange?` and
`size?` run as insertion and counting do, halving included, and give up where a number does not fit;
`build?` is a whole sequence of additions so checked.

Each addition keeps the ranges coalesced and their ends among those that were given, so no number is ever
too large and checked additions and counts give what unchecked ones give (`insertRange?_eq`, `size?_eq`).
The set holds exactly what was added, and its members alone decide which ranges it has
(`build_canonical`).
-/
namespace AdaptiveLL
namespace IntervalSet

/-! ## Checked arithmetic -/

/-- A number that fits in 64 bits with a sign. -/
def int64? (n : Int) : Option Int :=
  if -9223372036854775808 ≤ n ∧ n ≤ 9223372036854775807 then some n else none

/-- A count that fits in 64 bits. -/
def count64? (n : Nat) : Option Nat := if n ≤ 18446744073709551615 then some n else none

/-- `halving` with a check of each element that may fail. -/
def halving? {α : Type} (p : α → Option Bool) (xs : Array α) (base size : Nat) : Option Nat :=
  let passes (i : Nat) : Option Bool := (xs[i]?.map p).getD (some false)
  if size ≤ 1 then
    (passes base).map fun pass => if pass then base + 1 else base
  else
    let half := size / 2
    (passes (base + half)).bind fun pass =>
      halving? p xs (if pass then base + half else base) (size - half)
termination_by size
decreasing_by omega

/-- `endsBefore`, checked. -/
def endsBefore? (lo : Int) (r : Int × Int) : Option Bool := (int64? (r.2 + 1)).map fun next => decide (next < lo)

/-- `absorb`, checked. -/
def absorb? (lo hi : Int) : List (Int × Int) → Option (List (Int × Int))
  | [] => some [(lo, hi)]
  | r :: rs => (int64? (hi + 1)).bind fun next =>
      if r.1 ≤ next then absorb? (min lo r.1) (max hi r.2) rs else some ((lo, hi) :: r :: rs)

/-- `insertRange`, checked, with the split found by halving. -/
def insertRange? (s : IntervalSet) (lo hi : Int) : Option IntervalSet :=
  if hi < lo then some s
  else
    (halving? (endsBefore? lo) s.ranges.toArray 0 s.ranges.length).bind fun pos =>
      (absorb? lo hi (s.ranges.drop pos)).map fun rs => ⟨s.ranges.take pos ++ rs⟩

/-- The number of symbols in a range, checked; the conversion to a count wraps around. -/
def width? (r : Int × Int) : Option Nat :=
  (int64? (r.2 - r.1)).bind fun d => (int64? (d + 1)).map fun w => (w % 18446744073709551616).toNat

/-- `size`, checked, from the first range to the last. -/
def size? (s : IntervalSet) : Option Nat :=
  s.ranges.foldlM (fun n r => (width? r).bind fun w => count64? (n + w)) 0

theorem int64?_eq {n : Int} (hlo : -9223372036854775808 ≤ n) (hhi : n ≤ 9223372036854775807) :
    int64? n = some n := if_pos ⟨hlo, hhi⟩

theorem count64?_eq {n : Nat} (h : n ≤ 18446744073709551615) : count64? n = some n := if_pos h

/-! ## Ranges of 32-bit symbols -/

/-- Whether a number is a 32-bit integer. -/
def Is32Bit (x : Int) : Prop := -2147483648 ≤ x ∧ x ≤ 2147483647

/-- All ends are 32-bit integers. -/
def Fits (ranges : List (Int × Int)) : Prop := ∀ r ∈ ranges, Is32Bit r.1 ∧ Is32Bit r.2

section Fitting
variable {lo hi : Int} {r : Int × Int} {rs : List (Int × Int)} {s : IntervalSet}

theorem fits_cons : Fits (r :: rs) ↔ (Is32Bit r.1 ∧ Is32Bit r.2) ∧ Fits rs := List.forall_mem_cons

theorem fits_append {ss : List (Int × Int)} : Fits (rs ++ ss) ↔ Fits rs ∧ Fits ss := List.forall_mem_append

theorem fits_absorb (hlo : Is32Bit lo) (hhi : Is32Bit hi) (h : Fits rs) : Fits (absorb lo hi rs) := by
  induction rs generalizing lo hi with
  | nil => exact fits_cons.mpr ⟨⟨hlo, hhi⟩, h⟩
  | cons r rs ih =>
    obtain ⟨⟨hr₁, hr₂⟩, hrs⟩ := fits_cons.mp h
    rw [absorb]
    split
    · exact ih (by unfold Is32Bit at *; omega) (by unfold Is32Bit at *; omega) hrs
    · exact fits_cons.mpr ⟨⟨hlo, hhi⟩, h⟩

theorem fits_insertRange (hlo : Is32Bit lo) (hhi : Is32Bit hi) (h : Fits s.ranges) :
    Fits (s.insertRange lo hi).ranges := by
  rw [insertRange]
  split
  · exact h
  · rw [← List.takeWhile_append_dropWhile (p := endsBefore lo) (l := s.ranges)] at h
    obtain ⟨hfront, hback⟩ := fits_append.mp h
    exact fits_append.mpr ⟨hfront, fits_absorb hlo hhi hback⟩

theorem endsBefore?_eq (hr : Is32Bit r.2) : endsBefore? lo r = some (endsBefore lo r) := by
  unfold Is32Bit at hr
  rw [endsBefore?, int64?_eq (by omega) (by omega)]
  rfl

/-- Halving with a check that never fails is halving. -/
theorem halving?_eq {α : Type} {p? : α → Option Bool} {p : α → Bool} {xs : Array α}
    (h : ∀ x ∈ xs, p? x = some (p x)) (base size : Nat) :
    halving? p? xs base size = some (halving p xs base size) := by
  have hpasses (i : Nat) : (xs[i]?.map p?).getD (some false) = some (passesAt p xs i) := by
    rw [passesAt]
    cases hx : xs[i]? with
    | none => rfl
    | some x => exact h x (Array.mem_of_getElem? hx)
  induction size using Nat.strongRecOn generalizing base with
  | ind size ih =>
    rw [halving?]
    simp only [hpasses, Option.map_some, Option.bind_some]
    by_cases hone : size ≤ 1
    · rw [if_pos hone, halving_of_le hone]
    · rw [if_neg hone, halving_of_lt (by omega), ih _ (by omega)]

theorem absorb?_eq (hlo : Is32Bit lo) (hhi : Is32Bit hi) (h : Fits rs) :
    absorb? lo hi rs = some (absorb lo hi rs) := by
  induction rs generalizing lo hi with
  | nil => rfl
  | cons r rs ih =>
    obtain ⟨⟨hr₁, hr₂⟩, hrs⟩ := fits_cons.mp h
    unfold Is32Bit at *
    rw [absorb?, absorb, int64?_eq (by omega) (by omega), Option.bind_some]
    split
    · exact ih (by omega) (by omega) hrs
    · rfl

theorem insertRange?_eq (hs : Coalesced s.ranges) (hfits : Fits s.ranges) (hlo : Is32Bit lo)
    (hhi : Is32Bit hi) : s.insertRange? lo hi = some (s.insertRange lo hi) := by
  rw [insertRange?, insertRange]
  split
  case isTrue => rfl
  case isFalse =>
    have hcheck : ∀ r ∈ s.ranges.toArray, endsBefore? lo r = some (endsBefore lo r) := fun r hr =>
      endsBefore?_eq (hfits r (by simpa using hr)).2
    -- The ranges that end before the new one come first, so halving splits the list where they stop.
    have hends : s.ranges.Pairwise fun a b => endsBefore lo b → endsBefore lo a :=
      hs.ascends.imp fun {a b} hab => by
        simp only [endsBefore, decide_eq_true_eq]
        omega
    have hpos : halving? (endsBefore? lo) s.ranges.toArray 0 s.ranges.length =
        some (s.ranges.findIdx fun r => !endsBefore lo r) := by
      rw [halving?_eq hcheck, ← boundary_eq_findIdx hends, boundary, List.size_toArray]
    have hback : Fits (s.ranges.dropWhile (endsBefore lo)) := fun r hr => hfits r ((List.dropWhile_sublist _).mem hr)
    rw [hpos, Option.bind_some, ← List.takeWhile_eq_take_findIdx_not, ← List.dropWhile_eq_drop_findIdx_not,
      absorb?_eq hlo hhi hback, Option.map_some]

theorem width?_eq (hr : Is32Bit r.1 ∧ Is32Bit r.2) (hne : r.1 ≤ r.2) :
    width? r = some (r.2 - r.1 + 1).toNat := by
  unfold Is32Bit at hr
  rw [width?, int64?_eq (by omega) (by omega), Option.bind_some, int64?_eq (by omega) (by omega), Option.map_some,
    Int.emod_eq_of_lt (by omega) (by omega)]

/-- Ranges that start at `bound` or later have no more members than there are 32-bit symbols from there on. -/
theorem size_le {bound : Int} (h : Coalesced rs) (hfits : Fits rs) (hbound : bound ≤ 2147483648)
    (hrs : ∀ r ∈ rs, bound ≤ r.1) : (IntervalSet.mk rs).size ≤ (2147483648 - bound).toNat := by
  induction rs generalizing bound with
  | nil => exact Nat.zero_le _
  | cons r rs ih =>
    obtain ⟨hne, hapart, hcoalesced⟩ := Coalesced.cons_iff.mp h
    obtain ⟨hr, hfits⟩ := fits_cons.mp hfits
    obtain ⟨hbr, -⟩ := List.forall_mem_cons.mp hrs
    unfold Is32Bit at hr
    have hrest : (IntervalSet.mk rs).size ≤ (2147483648 - (r.2 + 1)).toNat :=
      ih hcoalesced hfits (by omega) fun t ht => (hapart t ht).le
    have hsize : (IntervalSet.mk (r :: rs)).size = (r.2 - r.1 + 1).toNat + (IntervalSet.mk rs).size := rfl
    omega

theorem size?_eq (h : Coalesced s.ranges) (hfits : Fits s.ranges) : s.size? = some s.size := by
  have hadd : ∀ (rs : List (Int × Int)) (n : Nat), (∀ r ∈ rs, r.1 ≤ r.2) → Fits rs →
      n + (IntervalSet.mk rs).size ≤ 18446744073709551615 →
      rs.foldlM (fun n r => (width? r).bind fun w => count64? (n + w)) n = some (n + (IntervalSet.mk rs).size) := by
    intro rs
    induction rs with
    | nil => exact fun n _ _ _ => rfl
    | cons r rs ih =>
      intro n hne hfits hle
      obtain ⟨hr, hne⟩ := List.forall_mem_cons.mp hne
      obtain ⟨hfr, hfits⟩ := fits_cons.mp hfits
      have hsize : (IntervalSet.mk (r :: rs)).size = (r.2 - r.1 + 1).toNat + (IntervalSet.mk rs).size := rfl
      rw [List.foldlM_cons, width?_eq hfr hr, Option.bind_some, count64?_eq (by omega)]
      exact (ih _ hne hfits (by omega)).trans (by rw [hsize, Nat.add_assoc])
  -- Together the ranges hold no more than all 32-bit symbols, so no partial sum is too large either.
  have hle : s.size ≤ (2147483648 - -2147483648 : Int).toNat :=
    size_le h hfits (by omega) fun r hr => (hfits r hr).1.1
  exact (hadd s.ranges 0 h.nonempty hfits (by change 0 + s.size ≤ _; omega)).trans (congrArg some (Nat.zero_add _))

end Fitting

/-! ## Additions -/

/-- Something that is added to a set of symbols. -/
inductive Addition where
  | symbol (x : Int32)
  | range (lo hi : Int32)
  | set (ranges : List (Int32 × Int32))

/-- The ranges that are added, empty ones among them. -/
def Addition.ranges : Addition → List (Int × Int)
  | symbol x => [(x.toInt, x.toInt)]
  | range lo hi => [(lo.toInt, hi.toInt)]
  | set ranges => ranges.map fun r => (r.1.toInt, r.2.toInt)

/-- The set with the addition. -/
def add (s : IntervalSet) : Addition → IntervalSet
  | .symbol x => s.insert x.toInt
  | .range lo hi => s.insertRange lo.toInt hi.toInt
  | a@(.set _) => s.union ⟨a.ranges⟩

/-- The set with the addition, checked. -/
def add? (s : IntervalSet) (a : Addition) : Option IntervalSet :=
  a.ranges.foldlM (fun s r => s.insertRange? r.1 r.2) s

/-- The set that a sequence of additions builds up. -/
def build (as : List Addition) : IntervalSet := as.foldl add empty

/-- The set that a sequence of additions builds up, checked. -/
def build? (as : List Addition) : Option IntervalSet := as.foldlM add? empty

theorem add_eq_foldl (s : IntervalSet) (a : Addition) :
    s.add a = a.ranges.foldl (fun s r => s.insertRange r.1 r.2) s := by
  cases a <;> rfl

theorem Addition.fits (a : Addition) : Fits a.ranges := by
  have hint (x : Int32) : Is32Bit x.toInt := by
    have := x.le_toInt
    have := x.toInt_lt
    exact ⟨by omega, by omega⟩
  cases a with
  | symbol x => exact fits_cons.mpr ⟨⟨hint x, hint x⟩, by simp [Fits]⟩
  | range lo hi => exact fits_cons.mpr ⟨⟨hint lo, hint hi⟩, by simp [Fits]⟩
  | set ranges =>
    intro r hr
    obtain ⟨t, -, rfl⟩ := List.mem_map.mp hr
    exact ⟨hint t.1, hint t.2⟩

/-- What is known of a set whose ranges `added` were inserted one after another: no number was too large, and
it holds exactly what they hold. -/
structure Holds (s : IntervalSet) (added : List (Int × Int)) : Prop where
  coalesced : Coalesced s.ranges
  fits : Fits s.ranges
  covers : ∀ x, Covers s.ranges x ↔ Covers added x

theorem holds_empty : empty.Holds [] := ⟨.nil, by simp [Fits, empty], fun _ => Iff.rfl⟩

theorem Holds.insertRange {s : IntervalSet} {added : List (Int × Int)} {r : Int × Int} (h : s.Holds added)
    (hr : Is32Bit r.1 ∧ Is32Bit r.2) : (s.insertRange r.1 r.2).Holds (added ++ [r]) where
  coalesced := coalesced_insertRange h.coalesced r.1 r.2
  fits := fits_insertRange hr.1 hr.2 h.fits
  covers x := by
    rw [covers_insertRange h.coalesced, covers_append, covers_cons, h.covers x, or_comm, or_iff_left covers_nil]

/-- One addition, range by range. -/
theorem Holds.add {s : IntervalSet} {added : List (Int × Int)} (h : s.Holds added) (a : Addition) :
    s.add? a = some (s.add a) ∧ (s.add a).Holds (added ++ a.ranges) := by
  rw [add?, add_eq_foldl]
  have hfits := a.fits
  generalize a.ranges = rs at hfits
  induction rs generalizing s added with
  | nil => exact ⟨rfl, by simpa using h⟩
  | cons r rs ih =>
    obtain ⟨hr, hfits⟩ := fits_cons.mp hfits
    obtain ⟨hchecked, hholds⟩ := ih (h.insertRange hr) hfits
    rw [List.foldlM_cons, List.foldl_cons, insertRange?_eq h.coalesced h.fits hr.1 hr.2, List.append_cons]
    exact ⟨hchecked, hholds⟩

/-- A whole sequence of additions. -/
theorem holds_build (as : List Addition) :
    build? as = some (build as) ∧ (build as).Holds (as.flatMap Addition.ranges) := by
  have hgo : ∀ (as : List Addition) (s : IntervalSet) (added : List (Int × Int)), s.Holds added →
      as.foldlM add? s = some (as.foldl add s) ∧
        (as.foldl add s).Holds (added ++ as.flatMap Addition.ranges) := by
    intro as
    induction as with
    | nil => exact fun s added h => ⟨rfl, by simpa using h⟩
    | cons a as ih =>
      intro s added h
      obtain ⟨hchecked, hholds⟩ := h.add a
      obtain ⟨hchecked', hholds'⟩ := ih (s.add a) (added ++ a.ranges) hholds
      rw [List.foldlM_cons, hchecked, List.foldl_cons, List.flatMap_cons, ← List.append_assoc]
      exact ⟨hchecked', hholds'⟩
  exact hgo as empty [] holds_empty

theorem covers_flatMap {as : List Addition} {x : Int} :
    Covers (as.flatMap Addition.ranges) x ↔ ∃ a ∈ as, Covers a.ranges x := by
  simp only [Covers, List.mem_flatMap]
  constructor
  · rintro ⟨r, ⟨a, ha, hr⟩, hx⟩
    exact ⟨a, ha, r, hr, hx⟩
  · rintro ⟨a, ha, r, hr, hx⟩
    exact ⟨r, ⟨a, ha, hr⟩, hx⟩

/-- Whatever is added, in whatever order, no number is too large, the ranges are coalesced, and the set holds
what some range that was added holds.  Counting and listing give each member once, in ascending order, and
another sequence of additions builds the same set exactly if that has the same members. -/
theorem build_canonical (as : List Addition) :
    build? as = some (build as) ∧ Coalesced (build as).ranges ∧ Fits (build as).ranges ∧
      (∀ x, (build as).contains x ↔ ∃ a ∈ as, Covers a.ranges x) ∧
      ((build as).size? = some (build as).size ∧
        (build as).size = Set.ncard { x | (build as).contains x }) ∧
      ((build as).toList.Pairwise (· < ·) ∧ ∀ x, x ∈ (build as).toList ↔ (build as).contains x) ∧
      ∀ bs, build as = build bs ↔ ∀ x, (build as).contains x = (build bs).contains x := by
  obtain ⟨hchecked, hcoalesced, hfits, hcovers⟩ := holds_build as
  have hcontains (x : Int) : (build as).contains x ↔ Covers (build as).ranges x :=
    contains_iff_covers hcoalesced.ascends
  refine ⟨hchecked, hcoalesced, hfits, fun x => ?_, ⟨size?_eq hcoalesced hfits, ?_⟩,
    ⟨toList_ascends hcoalesced, fun x => mem_toList.trans (hcontains x).symm⟩, fun bs => ⟨?_, fun hsame => ?_⟩⟩
  · rw [hcontains, hcovers, covers_flatMap]
  · simp only [hcontains]
    exact size_eq_ncard hcoalesced
  · rintro heq x
    rw [heq]
  · obtain ⟨-, hcoalesced', -, -⟩ := holds_build bs
    have hranges : (build as).ranges = (build bs).ranges := hcoalesced.ext hcoalesced' fun x => by
      rw [← hcontains, hsame, contains_iff_covers hcoalesced'.ascends]
    calc
      build as = ⟨(build as).ranges⟩ := rfl
      _ = ⟨(build bs).ranges⟩ := by rw [hranges]
      _ = build bs := rfl

example : build [.symbol (-2147483648), .symbol 2147483647, .range 3 1, .set [(5, 6), (-1, 3)],
    .range (-2147483647) 2147483646] = ⟨[(-2147483648, 2147483647)]⟩ := by
  decide

end IntervalSet
end AdaptiveLL

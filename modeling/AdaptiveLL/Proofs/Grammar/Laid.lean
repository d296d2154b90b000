import Mathlib
import AdaptiveLL.Grammar.Layout
import AdaptiveLL.Proofs.Grammar.Language

/-! # Elements that are laid out

`Laid` describes the stretch of states that an element becomes, by the transitions of these states.
An element owns the states of an interval.  All of them but the exit have exactly the transitions
that are described; what leads on from the exit is added by whatever the element is part of.

Parts of an element own adjoining intervals: part `i` owns the states from `bound i` up to
`bound (i + 1)`, and `part i` is its stretch.
-/
namespace AdaptiveLL

/-- How names of rules are resolved: to the start of a rule and its number. -/
abbrev Callees := String → Option (Nat × Nat)

/-- The transition that stands for an element on its own, given its target. -/
inductive Direct (callees : Callees) (rule : Nat) : Element → (Nat → Transition) → Prop
  | symbol (label : Int) : Direct callees rule (.symbol label) fun b => .symbol b label
  | range (lo hi : Int) : Direct callees rule (.range lo hi) fun b => .range b lo hi
  | set (s : IntervalSet) : Direct callees rule (.set s) fun b => .set b s
  | notSet (s : IntervalSet) : Direct callees rule (.notSet s) fun b => .notSet b s
  | wildcard : Direct callees rule .wildcard fun b => .wildcard b
  | call {name : String} {start callee : Nat} (level : Int) :
      callees name = some (start, callee) →
      Direct callees rule (.call name level) fun b => .call start callee level b
  | predicate (index : Nat) (contextual : Bool) : Direct callees rule (.predicate index contextual)
      fun b => .predicate b rule index contextual
  | precedence (level : Int) : Direct callees rule (.precedence level) fun b => .precedence b level
  | action (index i : Nat) : Direct callees rule (.action index) fun b => .action b rule i false
  | command (c : Command) (i : Nat) : Direct callees rule (.command c)
      fun b => .action b rule i false

/-- Free transitions to the entries of some parts. -/
def entries (part : Nat → Stretch) (count : Nat) : List Transition :=
  (List.range count).map fun i => .epsilon (part i).entry

/-- The two ways on from a decision of a repetition: again and out, the preferred one first. -/
def onward (greedy : Bool) (again out : Nat) : List Transition :=
  if greedy then [.epsilon again, .epsilon out] else [.epsilon out, .epsilon again]

/-- An element is laid out on the states from `lo` up to `hi`. -/
inductive Laid (T : Nat → List Transition) (callees : Callees) (rule : Nat) :
    Element → (lo hi : Nat) → Stretch → Prop
  | direct {e : Element} {t : Nat → Transition} {lo : Nat} : Direct callees rule e t →
      T lo = [t (lo + 1)] → Laid T callees rule e lo (lo + 2) ⟨lo, lo + 1⟩
  | empty {lo : Nat} : T lo = [.epsilon (lo + 1)] →
      Laid T callees rule (.seq []) lo (lo + 2) ⟨lo, lo + 1⟩
  | seq {e : Element} {items : List Element} {bound : Nat → Nat} {part : Nat → Stretch} :
      (∀ i (h : i < (e :: items).length),
        Laid T callees rule (e :: items)[i] (bound i) (bound (i + 1)) (part i)) →
      (∀ i < items.length, T (part i).exit = [.epsilon (part (i + 1)).entry]) →
      Laid T callees rule (.seq (e :: items)) (bound 0) (bound (items.length + 1))
        ⟨(part 0).entry, (part items.length).exit⟩
  | only {e : Element} {lo hi : Nat} {s : Stretch} : Laid T callees rule e lo hi s →
      Laid T callees rule (.alt [e]) lo hi s
  | alt {items : List Element} {lo : Nat} {bound : Nat → Nat} {part : Nat → Stretch} :
      items.length ≠ 1 → bound 0 = lo + 2 →
      (∀ i (h : i < items.length),
        Laid T callees rule items[i] (bound i) (bound (i + 1)) (part i)) →
      T lo = entries part items.length →
      (∀ i < items.length, T (part i).exit = [.epsilon (lo + 1)]) →
      Laid T callees rule (.alt items) lo (bound items.length) ⟨lo, lo + 1⟩
  | optional {body : Element} {greedy : Bool} {lo : Nat} {bound : Nat → Nat}
      {part : Nat → Stretch} : bound 0 = lo + 2 →
      (∀ i (h : i < body.branches.length),
        Laid T callees rule body.branches[i] (bound i) (bound (i + 1)) (part i)) →
      (T lo = if greedy then entries part body.branches.length ++ [.epsilon (lo + 1)]
        else .epsilon (lo + 1) :: entries part body.branches.length) →
      (∀ i < body.branches.length, T (part i).exit = [.epsilon (lo + 1)]) →
      Laid T callees rule (.optional body greedy) lo (bound body.branches.length) ⟨lo, lo + 1⟩
  | star {body : Element} {greedy : Bool} {lo back : Nat} {bound : Nat → Nat}
      {part : Nat → Stretch} : bound 0 = lo + 3 → bound body.branches.length = back →
      (∀ i (h : i < body.branches.length),
        Laid T callees rule body.branches[i] (bound i) (bound (i + 1)) (part i)) →
      T lo = onward greedy (lo + 1) (back + 1) →
      T (lo + 1) = entries part body.branches.length →
      (∀ i < body.branches.length, T (part i).exit = [.epsilon (lo + 2)]) →
      T (lo + 2) = [.epsilon back] → T back = [.epsilon lo] →
      Laid T callees rule (.star body greedy) lo (back + 2) ⟨lo, back + 1⟩
  | plus {body : Element} {greedy : Bool} {lo back : Nat} {bound : Nat → Nat}
      {part : Nat → Stretch} : bound 0 = lo + 2 → bound body.branches.length = back →
      (∀ i (h : i < body.branches.length),
        Laid T callees rule body.branches[i] (bound i) (bound (i + 1)) (part i)) →
      T lo = entries part body.branches.length →
      (∀ i < body.branches.length, T (part i).exit = [.epsilon (lo + 1)]) →
      T (lo + 1) = [.epsilon back] → T back = onward greedy lo (back + 1) →
      Laid T callees rule (.plus body greedy) lo (back + 2) ⟨lo, back + 1⟩

/-! ## Adjoining intervals -/

/-- Bounds in ascending order. -/
theorem bound_le {bound : Nat → Nat} {count : Nat}
    (h : ∀ i < count, bound i ≤ bound (i + 1)) {i j : Nat} (hij : i ≤ j) (hj : j ≤ count) :
    bound i ≤ bound j := by
  induction j with
  | zero => rw [Nat.le_zero.mp hij]
  | succ j ih =>
    rcases Nat.of_le_succ hij with hij | rfl
    · exact (ih hij (by omega)).trans (h j (by omega))
    · exact Nat.le_refl _

/-- A state of adjoining intervals lies in one of them. -/
theorem exists_part {bound : Nat → Nat} {count q : Nat} (hlo : bound 0 ≤ q)
    (hhi : q < bound count) : ∃ i < count, bound i ≤ q ∧ q < bound (i + 1) := by
  induction count with
  | zero => omega
  | succ count ih =>
    by_cases hq : q < bound count
    · obtain ⟨i, hi, h⟩ := ih hq
      exact ⟨i, by omega, h⟩
    · exact ⟨count, by omega, by omega, hhi⟩

/-- A state lies in one interval at most. -/
theorem part_unique {bound : Nat → Nat} {count : Nat} (h : ∀ i < count, bound i ≤ bound (i + 1))
    {i j q : Nat} (hi : i < count) (hj : j < count) (hqi : bound i ≤ q ∧ q < bound (i + 1))
    (hqj : bound j ≤ q ∧ q < bound (j + 1)) : i = j := by
  rcases Nat.lt_trichotomy i j with hij | hij | hij
  · have := bound_le h (i := i + 1) (j := j) hij (by omega)
    omega
  · exact hij
  · have := bound_le h (i := j + 1) (j := i) hij (by omega)
    omega

/-- Functions on adjoining intervals are parts of one function. -/
theorem exists_glued {α : Type} {bound : Nat → Nat} {count : Nat}
    (h : ∀ i < count, bound i ≤ bound (i + 1)) (f : Nat → Nat → α) (rest : Nat → α) :
    ∃ k : Nat → α, (∀ i < count, ∀ q, bound i ≤ q → q < bound (i + 1) → k q = f i q) ∧
      ∀ q, q < bound 0 ∨ bound count ≤ q → k q = rest q := by
  classical
  refine ⟨fun q => if hq : ∃ i < count, bound i ≤ q ∧ q < bound (i + 1) then f hq.choose q
    else rest q, ?_, ?_⟩
  · intro i hi q hlo hhi
    have hq : ∃ i < count, bound i ≤ q ∧ q < bound (i + 1) := ⟨i, hi, hlo, hhi⟩
    obtain ⟨hlt, hin⟩ := hq.choose_spec
    dsimp only
    rw [dif_pos hq, part_unique h hlt hi hin ⟨hlo, hhi⟩]
  · intro q hq
    refine dif_neg ?_
    rintro ⟨i, hi, hlo, hhi⟩
    have h0 := bound_le h (i := 0) (j := i) (Nat.zero_le i) (by omega)
    have hc := bound_le h (i := i + 1) (j := count) hi (Nat.le_refl _)
    omega

namespace Laid
variable {T T' : Nat → List Transition} {callees : Callees} {rule : Nat} {e : Element}
  {lo hi : Nat} {s : Stretch}

/-- The entry and the exit are among the states of the element. -/
theorem bounds (h : Laid T callees rule e lo hi s) :
    lo ≤ s.entry ∧ s.entry < hi ∧ lo ≤ s.exit ∧ s.exit < hi := by
  -- The parts stand one behind the other, so each is between the two ends of all of them.
  have hspan : ∀ {bound : Nat → Nat} {part : Nat → Stretch} {count i : Nat}, i ≤ count →
      (∀ i < count, bound i ≤ (part i).entry ∧ (part i).entry < bound (i + 1) ∧
        bound i ≤ (part i).exit ∧ (part i).exit < bound (i + 1)) →
      bound 0 ≤ bound i ∧ bound i ≤ bound count := by
    intro bound part count i hi ih
    have hle : ∀ i < count, bound i ≤ bound (i + 1) := fun i hi => by
      have := ih i hi
      omega
    exact ⟨bound_le hle (Nat.zero_le i) hi, bound_le hle hi (Nat.le_refl count)⟩
  induction h with
  | direct _ _ => dsimp only; omega
  | empty _ => dsimp only; omega
  | @seq e items bound part _ _ ih =>
    have hfirst := ih 0 (by simp)
    have hlast := ih items.length (by simp)
    have h1 := hspan (show 1 ≤ (e :: items).length by simp) ih
    have h2 := hspan (show items.length ≤ (e :: items).length by simp) ih
    simp only [List.length_cons, Nat.zero_add] at h1 h2 hfirst
    dsimp only
    omega
  | only _ ih => exact ih
  | alt _ h0 _ _ _ ih =>
    have := hspan (Nat.zero_le _) ih
    dsimp only
    omega
  | optional h0 _ _ _ ih =>
    have := hspan (Nat.zero_le _) ih
    dsimp only
    omega
  | star h0 h1 _ _ _ _ _ _ ih =>
    have := hspan (Nat.zero_le _) ih
    dsimp only
    omega
  | plus h0 h1 _ _ _ _ _ ih =>
    have := hspan (Nat.zero_le _) ih
    dsimp only
    omega

/-- The bounds of parts ascend. -/
theorem bound_le_succ {items : List Element} {bound : Nat → Nat} {part : Nat → Stretch}
    (h : ∀ i (h : i < items.length), Laid T callees rule items[i] (bound i) (bound (i + 1)) (part i)) :
    ∀ i < items.length, bound i ≤ bound (i + 1) := fun i hi => by
  have := (h i hi).bounds
  omega

/-- A part lies within the whole. -/
theorem part_within {items : List Element} {bound : Nat → Nat} {part : Nat → Stretch}
    (h : ∀ i (h : i < items.length), Laid T callees rule items[i] (bound i) (bound (i + 1)) (part i))
    {i : Nat} (hi : i < items.length) :
    bound 0 ≤ bound i ∧ bound (i + 1) ≤ bound items.length :=
  ⟨bound_le (bound_le_succ h) (Nat.zero_le i) hi.le,
    bound_le (bound_le_succ h) hi (Nat.le_refl _)⟩

/-- What the exit leads to does not matter. -/
theorem mono (h : Laid T callees rule e lo hi s)
    (hT : ∀ q, lo ≤ q → q < hi → q ≠ s.exit → T' q = T q) : Laid T' callees rule e lo hi s := by
  induction h with
  | direct hd ht => exact .direct hd ((hT _ (by omega) (by omega) (by simp)).trans ht)
  | empty ht => exact .empty ((hT _ (by omega) (by omega) (by simp)).trans ht)
  | @seq e items bound part hparts hjoin ih =>
    have hlast := (hparts items.length (by simp)).bounds
    refine .seq (fun i hi => ih i hi fun q hlo hhi hq => ?_) fun i hi => ?_
    · have hwithin := part_within hparts hi
      rw [List.length_cons] at hwithin hi
      refine hT q (by omega) (by omega) ?_
      -- A part that is not the last one ends at another state than the sequence.
      rcases Nat.lt_or_eq_of_le (Nat.le_of_lt_succ hi) with hi' | rfl
      · have := bound_le (bound_le_succ hparts) (i := i + 1) (j := items.length) hi' (by simp)
        dsimp only
        omega
      · exact hq
    · have hi' : i < (e :: items).length := by simp; omega
      have hwithin := part_within hparts hi'
      have hb := (hparts i hi').bounds
      have := bound_le (bound_le_succ hparts) (i := i + 1) (j := items.length) hi (by simp)
      rw [List.length_cons] at hwithin
      rw [hT _ (by omega) (by omega) (by dsimp only; omega)]
      exact hjoin i hi
  | only _ ih => exact .only (ih hT)
  | alt hne h0 hparts hlo hexit ih =>
    refine .alt hne h0 (fun i hi => ih i hi fun q hlo hhi _ => ?_) ?_ fun i hi => ?_
    · have hwithin := part_within hparts hi
      exact hT q (by omega) (by omega) (by dsimp only; omega)
    · have := bound_le (bound_le_succ hparts) (Nat.zero_le _) (Nat.le_refl _)
      rw [hT _ (by omega) (by omega) (by dsimp only; omega)]
      exact hlo
    · have hwithin := part_within hparts hi
      have hb := (hparts i hi).bounds
      rw [hT _ (by omega) (by omega) (by dsimp only; omega)]
      exact hexit i hi
  | optional h0 hparts hlo hexit ih =>
    refine .optional h0 (fun i hi => ih i hi fun q hlo hhi _ => ?_) ?_ fun i hi => ?_
    · have hwithin := part_within hparts hi
      exact hT q (by omega) (by omega) (by dsimp only; omega)
    · have := bound_le (bound_le_succ hparts) (Nat.zero_le _) (Nat.le_refl _)
      rw [hT _ (by omega) (by omega) (by dsimp only; omega)]
      exact hlo
    · have hwithin := part_within hparts hi
      have hb := (hparts i hi).bounds
      rw [hT _ (by omega) (by omega) (by dsimp only; omega)]
      exact hexit i hi
  | star h0 h1 hparts hlo hstart hexit hstop hback ih =>
    have := bound_le (bound_le_succ hparts) (Nat.zero_le _) (Nat.le_refl _)
    refine .star h0 h1 (fun i hi => ih i hi fun q hlo hhi _ => ?_) ?_ ?_ (fun i hi => ?_) ?_ ?_
    · have hwithin := part_within hparts hi
      exact hT q (by omega) (by omega) (by dsimp only; omega)
    · exact (hT _ (by omega) (by omega) (by dsimp only; omega)).trans hlo
    · exact (hT _ (by omega) (by omega) (by dsimp only; omega)).trans hstart
    · have hwithin := part_within hparts hi
      have hb := (hparts i hi).bounds
      exact (hT _ (by omega) (by omega) (by dsimp only; omega)).trans (hexit i hi)
    · exact (hT _ (by omega) (by omega) (by dsimp only; omega)).trans hstop
    · exact (hT _ (by omega) (by omega) (by dsimp only; omega)).trans hback
  | plus h0 h1 hparts hlo hexit hstop hback ih =>
    have := bound_le (bound_le_succ hparts) (Nat.zero_le _) (Nat.le_refl _)
    refine .plus h0 h1 (fun i hi => ih i hi fun q hlo hhi _ => ?_) ?_ (fun i hi => ?_) ?_ ?_
    · have hwithin := part_within hparts hi
      exact hT q (by omega) (by omega) (by dsimp only; omega)
    · exact (hT _ (by omega) (by omega) (by dsimp only; omega)).trans hlo
    · have hwithin := part_within hparts hi
      have hb := (hparts i hi).bounds
      exact (hT _ (by omega) (by omega) (by dsimp only; omega)).trans (hexit i hi)
    · exact (hT _ (by omega) (by omega) (by dsimp only; omega)).trans hstop
    · exact (hT _ (by omega) (by omega) (by dsimp only; omega)).trans hback

/-- The transitions of a state among those from `lo` up to `hi`: free ones to such states, or one
that stands for an element, with a property, on its own. -/
def Shaped (T : Nat → List Transition) (callees : Callees) (rule : Nat) (p : Element → Bool)
    (lo hi q : Nat) : Prop :=
  (∀ t ∈ T q, ∃ z, t = .epsilon z ∧ lo ≤ z ∧ z < hi) ∨
    ∃ b t, p b ∧ Direct callees rule b t ∧ T q = [t (q + 1)] ∧ q + 1 < hi

theorem Shaped.widen {p : Element → Bool} {lo' hi' q : Nat}
    (h : Shaped T callees rule p lo hi q) (hlo : lo' ≤ lo) (hhi : hi ≤ hi') :
    Shaped T callees rule p lo' hi' q := by
  rcases h with h | ⟨b, t, hb, hd, ht, hq⟩
  · refine .inl fun t ht => ?_
    obtain ⟨z, rfl, hz, hz'⟩ := h t ht
    exact ⟨z, rfl, by omega, by omega⟩
  · exact .inr ⟨b, t, hb, hd, ht, by omega⟩

theorem shaped_one {p : Element → Bool} {q z : Nat} (h : T q = [.epsilon z]) (hlo : lo ≤ z)
    (hhi : z < hi) : Shaped T callees rule p lo hi q := by
  refine .inl fun t ht => ?_
  rw [h, List.mem_singleton] at ht
  exact ⟨z, ht, hlo, hhi⟩

theorem shaped_onward {p : Element → Bool} {greedy : Bool} {q y z : Nat} (h : T q = onward greedy y z)
    (hy : lo ≤ y ∧ y < hi) (hz : lo ≤ z ∧ z < hi) : Shaped T callees rule p lo hi q := by
  refine .inl fun t ht => ?_
  rw [h] at ht
  unfold onward at ht
  split at ht
  · rcases List.mem_pair.mp ht with rfl | rfl
    exacts [⟨y, rfl, hy⟩, ⟨z, rfl, hz⟩]
  · rcases List.mem_pair.mp ht with rfl | rfl
    exacts [⟨z, rfl, hz⟩, ⟨y, rfl, hy⟩]

theorem mem_entries {part : Nat → Stretch} {count : Nat} {t : Transition} :
    t ∈ entries part count ↔ ∃ i < count, t = .epsilon (part i).entry := by
  simp [entries, eq_comm]

/-- Whether the way past branches comes last or first. -/
theorem mem_of_optional {greedy : Bool} {part : Nat → Stretch} {count q z : Nat} {t : Transition}
    (h : T q = if greedy then entries part count ++ [.epsilon z] else .epsilon z :: entries part count)
    (ht : t ∈ T q) : t ∈ entries part count ∨ t = .epsilon z := by
  rw [h] at ht
  split at ht
  · simpa using ht
  · simpa [or_comm] using ht

/-- Parts are entered within the whole. -/
theorem entries_within {items : List Element} {bound : Nat → Nat} {part : Nat → Stretch}
    (hparts : ∀ i (h : i < items.length),
      Laid T callees rule items[i] (bound i) (bound (i + 1)) (part i))
    (hlo : lo ≤ bound 0) (hhi : bound items.length ≤ hi) :
    ∀ t ∈ entries part items.length, ∃ z, t = .epsilon z ∧ lo ≤ z ∧ z < hi := by
  intro t ht
  obtain ⟨i, hi, rfl⟩ := mem_entries.mp ht
  have hwithin := part_within hparts hi
  have hb := (hparts i hi).bounds
  exact ⟨_, rfl, by omega, by omega⟩

/-- The states of parts, whose exits lead to one state. -/
theorem shaped_parts {items : List Element} {bound : Nat → Nat} {part : Nat → Stretch}
    {p : Element → Bool} {q z : Nat}
    (hparts : ∀ i (h : i < items.length),
      Laid T callees rule items[i] (bound i) (bound (i + 1)) (part i))
    (ih : ∀ i (_ : i < items.length) (q : Nat), bound i ≤ q → q < bound (i + 1) →
      q ≠ (part i).exit → Shaped T callees rule p (bound i) (bound (i + 1)) q)
    (hexit : ∀ i < items.length, T (part i).exit = [.epsilon z])
    (hlo : lo ≤ bound 0) (hhi : bound items.length ≤ hi) (hz : lo ≤ z ∧ z < hi)
    (hq : bound 0 ≤ q) (hq' : q < bound items.length) : Shaped T callees rule p lo hi q := by
  obtain ⟨i, hi, hin⟩ := exists_part hq hq'
  have hwithin := part_within hparts hi
  by_cases hx : q = (part i).exit
  · rw [hx]
    exact shaped_one (hexit i hi) hz.1 hz.2
  · exact (ih i hi q hin.1 hin.2 hx).widen (by omega) (by omega)

/-- What the transitions of the states of an element are, but for the exit. -/
theorem shaped (h : Laid T callees rule e lo hi s) {p : Element → Bool} (hp : e.everywhere p)
    {q : Nat} (hlo : lo ≤ q) (hhi : q < hi) (hq : q ≠ s.exit) :
    Shaped T callees rule p lo hi q := by
  induction h generalizing q with
  | @direct e t lo hd ht =>
    dsimp only at hq
    obtain rfl : q = lo := by omega
    exact .inr ⟨e, t, Element.everywhere_self hp, hd, ht, by omega⟩
  | @empty lo ht =>
    dsimp only at hq
    obtain rfl : q = lo := by omega
    exact shaped_one ht (by omega) (by omega)
  | @seq e items bound part hparts hjoin ih =>
    rw [Element.everywhere, Bool.and_eq_true, Element.everywhereIn_iff] at hp
    obtain ⟨i, hi, hin⟩ := exists_part hlo hhi
    have hi' : i < (e :: items).length := by simpa using hi
    have hwithin := part_within hparts hi'
    rw [List.length_cons] at hwithin
    -- The exit of a part leads to the entry of the next; any other state is inside its part.
    by_cases hx : q = (part i).exit
    · have hlt : i < items.length := by
        rcases Nat.lt_or_eq_of_le (Nat.le_of_lt_succ hi) with hlt | rfl
        · exact hlt
        · exact absurd hx hq
      have hnext := hparts (i + 1) (by simp; omega)
      have hb := hnext.bounds
      have hwithin' := part_within hparts (i := i + 1) (by simp; omega)
      rw [List.length_cons] at hwithin'
      rw [hx]
      exact shaped_one (hjoin i hlt) (by omega) (by omega)
    · exact (ih i hi' (hp.2 _ (List.getElem_mem _)) hin.1 hin.2 hx).widen (by omega) (by omega)
  | only _ ih =>
    rw [Element.everywhere, Bool.and_eq_true, Element.everywhereIn_iff] at hp
    exact ih (hp.2 _ (List.mem_singleton_self _)) hlo hhi hq
  | @alt items lo bound part _ h0 hparts hfirst hexit ih =>
    rw [Element.everywhere, Bool.and_eq_true, Element.everywhereIn_iff] at hp
    have hle := bound_le (bound_le_succ hparts) (Nat.zero_le _) (Nat.le_refl _)
    dsimp only at hq
    rcases Nat.eq_or_lt_of_le hlo with rfl | hlt
    · refine .inl ?_
      rw [hfirst]
      exact entries_within hparts (by omega) (Nat.le_refl _)
    · exact shaped_parts hparts (fun i hi q => ih i hi (hp.2 _ (List.getElem_mem _))) hexit
        (by omega) (by omega) (by omega) (by omega) (by omega)
  | @optional body greedy lo bound part h0 hparts hfirst hexit ih =>
    rw [Element.everywhere, Bool.and_eq_true] at hp
    have hbranches := Element.everywhere_branches hp.2
    have hle := bound_le (bound_le_succ hparts) (Nat.zero_le _) (Nat.le_refl _)
    dsimp only at hq
    rcases Nat.eq_or_lt_of_le hlo with rfl | hlt
    · refine .inl fun t ht => ?_
      rcases mem_of_optional hfirst ht with ht | rfl
      · exact entries_within hparts (by omega) (Nat.le_refl _) t ht
      · exact ⟨_, rfl, by omega, by omega⟩
    · exact shaped_parts hparts (fun i hi q => ih i hi (hbranches _ (List.getElem_mem _))) hexit
        (by omega) (by omega) (by omega) (by omega) (by omega)
  | @star body greedy lo back bound part h0 h1 hparts hfirst hstart hexit hstop hback ih =>
    rw [Element.everywhere, Bool.and_eq_true] at hp
    have hbranches := Element.everywhere_branches hp.2
    have hle := bound_le (bound_le_succ hparts) (Nat.zero_le _) (Nat.le_refl _)
    dsimp only at hq
    -- Four states belong to the repetition itself, all others are in the parts.
    by_cases hqlo : q = lo
    · rw [hqlo]
      exact shaped_onward hfirst (by omega) (by omega)
    by_cases hqs : q = lo + 1
    · refine .inl ?_
      rw [hqs, hstart]
      exact entries_within hparts (by omega) (by omega)
    by_cases hqe : q = lo + 2
    · rw [hqe]
      exact shaped_one hstop (by omega) (by omega)
    by_cases hqb : q = back
    · rw [hqb]
      exact shaped_one hback (by omega) (by omega)
    exact shaped_parts hparts (fun i hi q => ih i hi (hbranches _ (List.getElem_mem _))) hexit
      (by omega) (by omega) (by omega) (by omega) (by omega)
  | @plus body greedy lo back bound part h0 h1 hparts hfirst hexit hstop hback ih =>
    rw [Element.everywhere, Bool.and_eq_true] at hp
    have hbranches := Element.everywhere_branches hp.2
    have hle := bound_le (bound_le_succ hparts) (Nat.zero_le _) (Nat.le_refl _)
    dsimp only at hq
    -- Three states belong to the repetition itself, all others are in the parts.
    by_cases hqlo : q = lo
    · refine .inl ?_
      rw [hqlo, hfirst]
      exact entries_within hparts (by omega) (by omega)
    by_cases hqe : q = lo + 1
    · rw [hqe]
      exact shaped_one hstop (by omega) (by omega)
    by_cases hqb : q = back
    · rw [hqb]
      exact shaped_onward hback (by omega) (by omega)
    exact shaped_parts hparts (fun i hi q => ih i hi (hbranches _ (List.getElem_mem _))) hexit
      (by omega) (by omega) (by omega) (by omega) (by omega)

end Laid
end AdaptiveLL

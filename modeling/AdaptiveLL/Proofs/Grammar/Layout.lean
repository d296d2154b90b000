import Mathlib
import AdaptiveLL.Proofs.Grammar.Operations

/-! # Laying out an element

`Layout.element_built` says that an element that was laid out is `Laid` on the states that were
appended to the network, that nothing leads on from its exit yet, and that the rest of the network
was left alone.  The induction is on the parts of an element: the items of a sequence or a choice,
and the branches of a body that is repeated or left out.
-/
namespace AdaptiveLL

namespace Layout
variable {α β : Type} {n n' n'' : Network} {rule b : Nat} {lazy : Prop}

/-! ## Parts -/

theorem spreadAt_start {start stop : Nat} {ss : List Stretch} (h : ∀ s ∈ ss, s.exit ≠ start) :
    spreadAt start stop start ss = ss.map fun s => .epsilon s.entry := by
  induction ss with
  | nil => rfl
  | cons s ss ih =>
    have hs := h s List.mem_cons_self
    have hcons : spreadAt start stop start (s :: ss) =
        .epsilon s.entry :: spreadAt start stop start ss := by
      simp [spreadAt, hs.symm]
    rw [hcons, ih fun s hs => h s (List.mem_cons_of_mem _ hs), List.map_cons]

theorem spreadAt_other {start stop q : Nat} {ss : List Stretch} (hq : q ≠ start)
    (h : ∀ s ∈ ss, s.exit ≠ q) : spreadAt start stop q ss = [] := by
  rw [spreadAt, List.flatMap_eq_nil_iff]
  intro s hs
  simp [hq, (h s hs).symm]

theorem spreadAt_exit {start stop q : Nat} {ss : List Stretch} (hq : q ≠ start)
    (hmem : q ∈ ss.map Stretch.exit) (hnodup : (ss.map Stretch.exit).Nodup) :
    spreadAt start stop q ss = [.epsilon stop] := by
  induction ss with
  | nil => cases hmem
  | cons s ss ih =>
    rw [List.map_cons, List.nodup_cons] at hnodup
    have hcons : spreadAt start stop q (s :: ss) =
        (if q = s.exit then [.epsilon stop] else []) ++ spreadAt start stop q ss := by
      simp [spreadAt, hq]
    rw [hcons]
    by_cases hs : q = s.exit
    · have hrest : spreadAt start stop q ss = [] := spreadAt_other hq fun s' hs' he =>
        hnodup.1 (hs ▸ he ▸ List.mem_map_of_mem hs')
      rw [if_pos hs, hrest]
      rfl
    · rw [List.map_cons] at hmem
      rw [if_neg hs, List.nil_append]
      exact ih ((List.mem_cons.mp hmem).resolve_left hs) hnodup.2

theorem chainAt_other {q : Nat} {ss : List Stretch} (h : ∀ s ∈ ss, s.exit ≠ q) :
    chainAt q ss = [] := by
  induction ss with
  | nil => rfl
  | cons s ss ih =>
    cases ss with
    | nil => rfl
    | cons s' ss =>
      rw [chainAt, if_neg (h s List.mem_cons_self).symm, List.nil_append]
      exact ih fun s hs => h s (List.mem_cons_of_mem _ hs)

theorem chainAt_exit {ss : List Stretch} (hnodup : (ss.map Stretch.exit).Nodup) {i : Nat}
    {s s' : Stretch} (hs : ss[i]? = some s) (hs' : ss[i + 1]? = some s') :
    chainAt s.exit ss = [.epsilon s'.entry] := by
  induction ss generalizing i with
  | nil => cases hs
  | cons a ss ih =>
    cases ss with
    | nil => simp at hs'
    | cons a' ss =>
      rw [List.map_cons, List.nodup_cons] at hnodup
      rw [chainAt]
      cases i with
      | zero =>
        cases hs
        cases hs'
        rw [if_pos rfl, chainAt_other fun s hs he => hnodup.1 (List.mem_map.mpr ⟨s, hs, he⟩)]
        rfl
      | succ i =>
        rw [List.getElem?_cons_succ] at hs hs'
        have hne : s.exit ≠ a.exit := fun he =>
          hnodup.1 (he ▸ List.mem_map_of_mem (List.mem_of_getElem? hs))
        rw [if_neg hne, List.nil_append]
        exact ih hnodup.2 hs hs'

theorem length_chainAt_le {ss : List Stretch} (hnodup : (ss.map Stretch.exit).Nodup) (q : Nat) :
    (chainAt q ss).length ≤ 1 := by
  induction ss with
  | nil => exact Nat.zero_le _
  | cons s ss ih =>
    rw [List.map_cons, List.nodup_cons] at hnodup
    cases ss with
    | nil => exact Nat.zero_le _
    | cons s' ss =>
      rw [chainAt]
      by_cases hq : q = s.exit
      · have hrest : chainAt q (s' :: ss) = [] := chainAt_other fun u hu he =>
          hnodup.1 (List.mem_map.mpr ⟨u, hu, he.trans hq⟩)
        rw [if_pos hq, hrest]
        exact le_rfl
      · rw [if_neg hq]
        exact ih hnodup.2


theorem chainAt_last {ss : List Stretch} (hnodup : (ss.map Stretch.exit).Nodup) {s : Stretch}
    (hs : ss.getLast? = some s) : chainAt s.exit ss = [] := by
  induction ss with
  | nil => rfl
  | cons a ss ih =>
    cases ss with
    | nil => rfl
    | cons a' ss =>
      rw [List.map_cons, List.nodup_cons] at hnodup
      rw [List.getLast?_cons_cons] at hs
      have hne : s.exit ≠ a.exit := fun he =>
        hnodup.1 (he ▸ List.mem_map_of_mem (List.mem_of_getLast? hs))
      rw [chainAt, if_neg hne, List.nil_append]
      exact ih hnodup.2 hs

/-- The stretch of a part. -/
def partOf (ss : List Stretch) (i : Nat) : Stretch := ss.getD i ⟨0, 0⟩

/-- Stretches of elements that are laid out one after another. -/
structure Parts (T : Nat → List Transition) (callees : Callees) (rule : Nat) (items : List Element)
    (bound : Nat → Nat) (ss : List Stretch) : Prop where
  length : ss.length = items.length
  laid : ∀ i (h : i < items.length),
    Laid T callees rule items[i] (bound i) (bound (i + 1)) (partOf ss i)

namespace Parts
variable {T T' : Nat → List Transition} {callees : Callees} {items : List Element}
  {bound : Nat → Nat} {ss : List Stretch}

theorem exists_of_mem (h : Parts T callees rule items bound ss) {s : Stretch} (hs : s ∈ ss) :
    ∃ i < items.length, s = partOf ss i := by
  obtain ⟨i, hi, rfl⟩ := List.mem_iff_getElem.mp hs
  exact ⟨i, h.length ▸ hi, by simp [partOf, hi]⟩

theorem mem (h : Parts T callees rule items bound ss) {i : Nat} (hi : i < items.length) :
    partOf ss i ∈ ss := by
  have hlt : i < ss.length := h.length ▸ hi
  simp [partOf, hlt]

theorem exit_bounds (h : Parts T callees rule items bound ss) {s : Stretch} (hs : s ∈ ss) :
    bound 0 ≤ s.exit ∧ s.exit < bound items.length := by
  obtain ⟨i, hi, rfl⟩ := h.exists_of_mem hs
  have hb := (h.laid i hi).bounds
  have hw := Laid.part_within h.laid hi
  omega

theorem nodup_exits (h : Parts T callees rule items bound ss) : (ss.map Stretch.exit).Nodup := by
  rw [List.nodup_iff_injective_get]
  rintro ⟨i, hi⟩ ⟨j, hj⟩ hij
  rw [List.length_map] at hi hj
  have hi' : i < items.length := h.length ▸ hi
  have hj' : j < items.length := h.length ▸ hj
  have hbi := (h.laid i hi').bounds
  have hbj := (h.laid j hj').bounds
  have hij : (partOf ss i).exit = (partOf ss j).exit := by
    simpa [partOf, hi, hj] using hij
  exact Fin.ext (part_unique (Laid.bound_le_succ h.laid) hi' hj' hbi.2.2 (hij ▸ hbj.2.2))

theorem entries_eq (h : Parts T callees rule items bound ss) :
    ss.map (fun s => Transition.epsilon s.entry) = entries (partOf ss) items.length := by
  refine List.ext_getElem (by simp [entries, h.length]) fun i hi hi' => ?_
  rw [List.length_map] at hi
  simp [entries, partOf, hi]

/-- What the exits lead to does not matter. -/
theorem mono (h : Parts T callees rule items bound ss)
    (hT : ∀ q, bound 0 ≤ q → q < bound items.length → (∀ s ∈ ss, s.exit ≠ q) → T' q = T q) :
    Parts T' callees rule items bound ss where
  length := h.length
  laid i hi := (h.laid i hi).mono fun q hlo hhi hq => by
    have hw := Laid.part_within h.laid hi
    refine hT q (by omega) (by omega) fun s hs he => ?_
    obtain ⟨j, hj, rfl⟩ := h.exists_of_mem hs
    have hbj := (h.laid j hj).bounds
    obtain rfl := part_unique (Laid.bound_le_succ h.laid) hi hj ⟨hlo, hhi⟩ (he ▸ hbj.2.2)
    exact hq he.symm

end Parts

/-! ## Elements -/

/-- An element was laid out on the states from the end of a network on, where several ways lead on from
decisions only, and nothing leads on from its exit. -/
structure Built (rule : Nat) (lazy : Prop) (n n' : Network) (e : Element) (s : Stretch) :
    Prop where
  laid : Laid n'.ways n.callees rule e n.states.size n'.states.size s
  last : n'.ways s.exit = []
  grows : Grows rule lazy n.states.size n n'
  choices : ∀ q, n.states.size ≤ q → 1 < (n'.ways q).length → n'.Decided q

/-- Elements were laid out one after another in the same way. -/
structure AllBuilt (rule : Nat) (lazy : Prop) (n n' : Network) (items : List Element)
    (bound : Nat → Nat) (ss : List Stretch) : Prop where
  start : bound 0 = n.states.size
  stop : bound items.length = n'.states.size
  parts : Parts n'.ways n.callees rule items bound ss
  last : ∀ s ∈ ss, n'.ways s.exit = []
  grows : Grows rule lazy n.states.size n n'
  choices : ∀ q, n.states.size ≤ q → 1 < (n'.ways q).length → n'.Decided q

-- The equations of `element` are derived here, once, and not while several proofs wait for them.
attribute [local simp] element

/-- Where nothing but one transition was added nothing is to be chosen. -/
theorem Adds.choices_single {q₀ c : Nat} {t : Transition} {D : Nat → Prop}
    (ha : Adds rule lazy n.states.size n n' c (fun q => [] ++ if q = q₀ then [t] else []) D) (q : Nat)
    (hq : n.states.size ≤ q) (hmany : 1 < (n'.ways q).length) : n'.Decided q := by
  rw [ha.ways, ways_of_size_le hq] at hmany
  split at hmany
  · simp at hmany
  · simp at hmany

theorem single_built {t : Nat → Transition} {e : Element} {s : Stretch} {D : Nat → Prop}
    (ha : Adds rule lazy n.states.size n n' 0 (fun _ => []) D) (hd : Direct n.callees rule e t)
    (h : single rule t n' = .ok (s, n'')) : Built rule lazy n n'' e s := by
  obtain ⟨rfl, ha⟩ := ha.single h
  refine ⟨?_, ?_, ha.grows, ha.choices_single⟩
  · rw [ha.size]
    exact .direct hd (by rw [ha.ways, ways_of_size_le le_rfl]; exact if_pos rfl)
  · rw [ha.ways, ways_of_size_le (Nat.le_succ _)]
    exact if_neg (Nat.succ_ne_self _)

/-- Bounds with one more in front. -/
def boundCons (first : Nat) (bound : Nat → Nat) : Nat → Nat
  | 0 => first
  | i + 1 => bound i

theorem elements_built {items : List Element} {ss : List Stretch}
    (hitems : ∀ e ∈ items, ∀ n n' s, n.ruleNames.size = n.ruleStarts.size →
      element rule e n = .ok (s, n') → Built rule lazy n n' e s)
    (hn : n.ruleNames.size = n.ruleStarts.size) (h : elements rule items n = .ok (ss, n')) :
    ∃ bound, AllBuilt rule lazy n n' items bound ss := by
  induction items generalizing n ss with
  | nil =>
    rw [elements] at h
    cases h
    exact ⟨fun _ => n'.states.size, rfl, rfl, ⟨rfl, fun i hi => absurd hi (Nat.not_lt_zero i)⟩,
      fun _ hs => (List.not_mem_nil hs).elim, .refl _, fun q hq hmany => by
        rw [ways_of_size_le hq] at hmany
        cases hmany⟩
  | cons e items ih =>
    rw [elements] at h
    obtain ⟨s, n₁, h₁, h⟩ := exists_of_bind h
    obtain ⟨ss, n₂, h₂, h⟩ := exists_of_bind h
    cases h
    have hb := hitems e List.mem_cons_self n n₁ s hn h₁
    obtain ⟨bound, ha⟩ := ih (fun e he => hitems e (List.mem_cons_of_mem _ he))
      (by rw [hb.grows.ruleNames, hb.grows.ruleStarts, hn]) h₂
    -- Laying out the rest only adds states, so the first element stays as it was laid out.
    refine ⟨boundCons n.states.size bound, rfl, ha.stop, ⟨?_, ?_⟩, ?_, ?_, fun q hq hmany => ?_⟩
    · rw [List.length_cons, List.length_cons, ha.parts.length]
    · intro i hi
      cases i with
      | zero =>
        have hl := hb.laid.mono fun q _ hq _ => ha.grows.ways (q := q) hq
        rwa [← ha.start] at hl
      | succ i =>
        have hl := ha.parts.laid i (Nat.lt_of_succ_lt_succ hi)
        rwa [hb.grows.callees] at hl
    · intro s' hs'
      rcases List.mem_cons.mp hs' with rfl | hs'
      · rw [ha.grows.ways hb.laid.bounds.2.2.2, hb.last]
      · exact ha.last s' hs'
    · exact hb.grows.trans (ha.grows.lower hb.grows.size le_rfl)
    · by_cases hlt : q < n₁.states.size
      · rw [ha.grows.ways hlt] at hmany
        exact (hb.choices q hq hmany).congr (ha.grows.old q hlt)
      · exact ha.choices q (Nat.le_of_not_lt hlt) hmany

/-- The parts of a block, which were spread from one state to another, between the states that were
made before and after them. -/
structure Block (rule : Nat) (lazy : Prop) (n n' : Network) (before after : Nat)
    (items : List Element) (bound : Nat → Nat) (ss : List Stretch) (stop : Nat)
    (added : Nat → List Transition) : Prop where
  start : bound 0 = n.states.size + before
  ascends : bound 0 ≤ bound items.length
  size : n'.states.size = bound items.length + after
  laid : ∀ i (h : i < items.length),
    Laid n'.ways n.callees rule items[i] (bound i) (bound (i + 1)) (partOf ss i)
  exit : ∀ i < items.length, n'.ways (partOf ss i).exit = [.epsilon stop]
  ways : ∀ q, n.states.size ≤ q → q < bound 0 ∨ bound items.length ≤ q → n'.ways q = added q
  grows : Grows rule lazy n.states.size n n'
  choices : ∀ q, bound 0 ≤ q → q < bound items.length → 1 < (n'.ways q).length → n'.Decided q

theorem length_entries (part : Nat → Stretch) (count : Nat) : (entries part count).length = count := by
  simp [entries]

/-- A state of a block with several ways on is a decision, unless it was made before or after the
parts. -/
theorem Block.place_cases {before after : Nat} {items : List Element} {bound : Nat → Nat}
    {ss : List Stretch} {stop : Nat} {added : Nat → List Transition}
    (h : Block rule lazy n n' before after items bound ss stop added) {q : Nat}
    (hmany : 1 < (n'.ways q).length) :
    n'.Decided q ∨ q < bound 0 ∨ bound items.length ≤ q ∧ q < bound items.length + after := by
  by_cases hsize : n'.states.size ≤ q
  · rw [ways_of_size_le hsize] at hmany
    cases hmany
  · rw [h.size] at hsize
    by_cases hlo : q < bound 0
    · exact .inr (.inl hlo)
    · by_cases hhi : q < bound items.length
      · exact .inl (h.choices q (Nat.le_of_not_lt hlo) hhi hmany)
      · exact .inr (.inr ⟨Nat.le_of_not_lt hhi, Nat.lt_of_not_le hsize⟩)

namespace AllBuilt
variable {items : List Element} {bound : Nat → Nat} {ss : List Stretch} {start stop : Nat}

theorem exit_bounds (h : AllBuilt rule lazy n n' items bound ss) {s : Stretch} (hs : s ∈ ss) :
    n.states.size ≤ s.exit ∧ s.exit < n'.states.size := by
  have := h.parts.exit_bounds hs
  rwa [h.start, h.stop] at this

/-- What was made a decision before the parts stays one. -/
theorem decided (h : AllBuilt rule lazy n n' items bound ss) {q : Nat} (hq : n.Decided q) :
    n'.Decided q :=
  hq.congr (h.grows.old q hq.lt)

theorem block {n₁ n₂ : Network} {c c' : Nat} {added : Nat → List Transition} {D D' : Nat → Prop}
    (start stop : Nat) (hall : AllBuilt rule lazy n₁ n₂ items bound ss)
    (ha : Adds rule lazy n.states.size n n₁ c (fun _ => []) D)
    (hf : Adds rule lazy n.states.size n₂ n' c' added D') (hstart : start < n₁.states.size)
    (hkeeps : ∀ q, n₂.Decided q → n'.Decided q)
    (hadded : ∀ q, n₁.states.size ≤ q → q < n₂.states.size → added q = spreadAt start stop q ss) :
    Block rule lazy n n' c c' items bound ss stop added where
  start := hall.start.trans ha.size
  ascends := by
    rw [hall.start, hall.stop]
    exact hall.grows.size
  size := by rw [hf.size, hall.stop]
  laid i hi := by
    rw [← ha.grows.callees]
    refine (hall.parts.mono fun q hlo hhi hq => ?_).laid i hi
    rw [hall.start] at hlo
    rw [hall.stop] at hhi
    rw [hf.ways, hadded q hlo hhi, spreadAt_other (by omega) hq, List.append_nil]
  exit i hi := by
    have hmem := hall.parts.mem hi
    have hb := hall.exit_bounds hmem
    rw [hf.ways, hall.last _ hmem, hadded _ hb.1 hb.2, List.nil_append]
    exact spreadAt_exit (by omega) (List.mem_map_of_mem hmem) hall.parts.nodup_exits
  ways q hq hq' := by
    rw [hall.start, hall.stop] at hq'
    rw [hf.ways]
    rcases hq' with hq' | hq'
    · rw [hall.grows.ways hq', ha.ways, ways_of_size_le hq]
      rfl
    · rw [ways_of_size_le hq']
      rfl
  grows := (ha.grows.trans (hall.grows.lower (by rw [ha.size]; omega) le_rfl)).trans hf.grows
  choices q hlo hhi hmany := by
    rw [hall.start] at hlo
    rw [hall.stop] at hhi
    rw [hf.ways, hadded q hlo hhi] at hmany
    -- An exit has one transition now, so only states inside the parts have several.
    by_cases hq : ∃ s ∈ ss, s.exit = q
    · obtain ⟨s, hs, rfl⟩ := hq
      rw [hall.last s hs, spreadAt_exit (by omega) (List.mem_map_of_mem hs) hall.parts.nodup_exits] at hmany
      simp at hmany
    · push Not at hq
      rw [spreadAt_other (by omega) hq, List.append_nil] at hmany
      exact hkeeps q (hall.choices q hlo hmany)

/-- What spreading adds to the state where the parts begin. -/
theorem spreadAt_start (h : AllBuilt rule lazy n n' items bound ss)
    (hstart : start < n.states.size) :
    spreadAt start stop start ss = entries (partOf ss) items.length := by
  rw [← h.parts.entries_eq]
  refine Layout.spreadAt_start fun s hs => ?_
  have := h.exit_bounds hs
  omega

/-- Nothing is added to other states that are not among the parts. -/
theorem spreadAt_outside (h : AllBuilt rule lazy n n' items bound ss) (start stop : Nat) {q : Nat}
    (hne : q ≠ start) (hq : q < n.states.size ∨ n'.states.size ≤ q) :
    spreadAt start stop q ss = [] := by
  refine spreadAt_other hne fun s hs => ?_
  have := h.exit_bounds hs
  omega

end AllBuilt

theorem sequence_built {items : List Element} {bound : Nat → Nat} {ss : List Stretch}
    {s : Stretch} (h : AllBuilt rule lazy n n' items bound ss)
    (hs : sequence rule ss n' = .ok (s, n'')) (hnil : items = [] → n' = n) :
    Built rule lazy n n'' (.seq items) s := by
  cases items with
  | nil =>
    obtain rfl := hnil rfl
    obtain rfl := List.length_eq_zero_iff.mp h.parts.length
    obtain ⟨rfl, ha⟩ := (Adds.refl rule lazy (le_refl n'.states.size)).single hs
    refine ⟨?_, ?_, ha.grows, ha.choices_single⟩
    · rw [ha.size]
      exact .empty (by rw [ha.ways, ways_of_size_le le_rfl]; exact if_pos rfl)
    · rw [ha.ways, ways_of_size_le (Nat.le_succ _)]
      exact if_neg (Nat.succ_ne_self _)
  | cons e items =>
    cases ss with
    | nil => cases h.parts.length
    | cons s₀ ss =>
      obtain ⟨_, n₁, hc, hs⟩ := exists_of_bind hs
      cases hs
      have ha := (Adds.start rule lazy h.grows.size fun q hq => hq).chain hc fun _ => h.exit_bounds
      have hlen := h.parts.length
      have hget : ∀ i < (e :: items).length, (s₀ :: ss)[i]? = some (partOf (s₀ :: ss) i) := by
        intro i hi
        have hi' : i < (s₀ :: ss).length := hlen ▸ hi
        rw [partOf, List.getD_eq_getElem _ _ hi', List.getElem?_eq_getElem hi']
      have hlast : (s₀ :: ss).getLast (by simp) = partOf (s₀ :: ss) items.length := by
        have hlt : items.length < (s₀ :: ss).length := by
          rw [hlen]
          simp
        have hss : ss.length = items.length := by simpa using hlen
        rw [List.getLast_eq_getElem]
        simp [partOf, hss]
      -- Chaining gives new transitions to the exits only.
      have hparts : Parts n''.ways n.callees rule (e :: items) bound (s₀ :: ss) :=
        h.parts.mono fun q _ _ hq => by
          rw [ha.ways, chainAt_other hq]
          exact List.append_nil _
      have hlaid := Laid.seq hparts.laid fun i hi => by
        rw [ha.ways, h.last _ (h.parts.mem (by simp; omega)), List.nil_append]
        exact chainAt_exit h.parts.nodup_exits (hget i (by simp; omega)) (hget (i + 1) (by simp; omega))
      refine ⟨?_, ?_, h.grows.trans ha.grows, fun q hq hmany => ?_⟩
      · rw [h.start, show items.length + 1 = (e :: items).length from rfl, h.stop] at hlaid
        rw [ha.size, Nat.add_zero, hlast]
        exact hlaid
      · change n''.ways ((s₀ :: ss).getLast (by simp)).exit = []
        rw [ha.ways, h.last _ (List.getLast_mem _), List.nil_append]
        exact chainAt_last h.parts.nodup_exits (List.getLast?_eq_some_getLast _)
      · rw [ha.ways] at hmany
        by_cases hexit : ∃ s ∈ s₀ :: ss, s.exit = q
        · obtain ⟨s, hs, rfl⟩ := hexit
          rw [h.last s hs] at hmany
          exact absurd hmany (Nat.not_lt.mpr (length_chainAt_le h.parts.nodup_exits s.exit))
        · push Not at hexit
          rw [chainAt_other hexit] at hmany
          have hmany' : 1 < (n'.ways q).length := by simpa using hmany
          exact ha.decided q (h.choices q hq hmany')

/-! ## Blocks -/

theorem exists_of_branches {body : Element} {k : List Stretch → Layout α} {r : α}
    (h : (match body with
      | .alt items => elements rule items >>= k
      | e => element rule e >>= fun s => pure [s] >>= k) n = .ok (r, n'')) :
    ∃ ss n', elements rule body.branches n = .ok (ss, n') ∧ k ss n' = .ok (r, n'') := by
  cases body with
  | alt items => exact exists_of_bind h
  | _ =>
    obtain ⟨s, n', hs, h⟩ := exists_of_bind h
    refine ⟨[s], n', ?_, h⟩
    change elements rule [_] n = _
    rw [elements, bind_apply_of_eq hs]
    rfl

theorem alt_built {items : List Element} {s : Stretch} (hlen : items.length ≠ 1)
    (hitems : ∀ n n' ss, n.ruleNames.size = n.ruleStarts.size → elements rule items n = .ok (ss, n') →
      ∃ bound, AllBuilt rule lazy n n' items bound ss)
    (hn : n.ruleNames.size = n.ruleStarts.size) (h : element rule (.alt items) n = .ok (s, n')) :
    Built rule lazy n n' (.alt items) s := by
  rw [element] at h
  rotate_left
  · exact fun e he => hlen (by rw [he, List.length_singleton])
  obtain ⟨_, n₁, h₁, h⟩ := exists_of_bind h
  obtain ⟨rfl, ha⟩ := (Adds.refl rule lazy (le_refl n.states.size)).firstState h₁ rfl
  obtain ⟨n₂, ha, h⟩ := ha.exists_decision h (by omega) le_rfl
  obtain ⟨_, n₃, h₃, h⟩ := exists_of_bind h
  obtain ⟨rfl, ha⟩ := ha.newState h₃ rfl
  obtain ⟨ss, n₄, h₄, h⟩ := exists_of_bind h
  obtain ⟨bound, hall⟩ := hitems _ _ _ (by rw [ha.grows.ruleNames, ha.grows.ruleStarts, hn]) h₄
  have hbounds := fun s => hall.exit_bounds (s := s)
  have hgrows := hall.grows.size
  have hsize := ha.size
  have hf := Adds.start rule lazy (b := n.states.size) (n := n₄) (by omega) fun q hq => hq
  obtain ⟨_, n₅, h₅, h⟩ := exists_of_bind h
  have hf := hf.spread h₅ (by omega) (fun s hs => by have := hbounds s hs; omega) (by omega)
  cases h
  have hblock := hall.block _ _ ha hf (by omega) hf.decided fun _ _ _ => rfl
  have hstart := hblock.start
  have hascends := hblock.ascends
  have hfirst : n'.ways n.states.size = entries (partOf ss) items.length := by
    rw [hblock.ways _ le_rfl (by omega)]
    exact hall.spreadAt_start (by omega)
  have hlast : n'.ways (n.states.size + 1) = [] := by
    rw [hblock.ways _ (by omega) (by omega)]
    exact hall.spreadAt_outside _ _ (by omega) (by omega)
  refine ⟨?_, hlast, hblock.grows, fun q hq hmany => ?_⟩
  · rw [hblock.size]
    exact .alt hlen hstart hblock.laid hfirst hblock.exit
  · rcases hblock.place_cases hmany with hdecided | hq' | hq'
    · exact hdecided
    · obtain rfl | rfl : q = n.states.size ∨ q = n.states.size + 1 := by omega
      · rw [hfirst, length_entries] at hmany
        exact hf.decided _ (hall.decided (ha.decided _ (.inr ⟨hmany, rfl⟩)))
      · rw [hlast] at hmany
        cases hmany
    · omega

theorem optional_built {body : Element} {greedy : Bool} {s : Stretch}
    (hitems : ∀ n n' ss, n.ruleNames.size = n.ruleStarts.size →
      elements rule body.branches n = .ok (ss, n') →
      ∃ bound, AllBuilt rule lazy n n' body.branches bound ss)
    (hlazy : greedy = false → lazy) (hn : n.ruleNames.size = n.ruleStarts.size)
    (h : element rule (.optional body greedy) n = .ok (s, n')) :
    Built rule lazy n n' (.optional body greedy) s := by
  rw [element] at h
  obtain ⟨_, n₁, h₁, h⟩ := exists_of_bind h
  obtain ⟨rfl, ha⟩ := (Adds.refl rule lazy (le_refl n.states.size)).firstState h₁ rfl
  obtain ⟨_, n₂, h₂, h⟩ := exists_of_bind h
  have ha := ha.makeDecision h₂ (by omega) le_rfl
  obtain ⟨_, n₃, h₃, h⟩ := exists_of_bind h
  obtain ⟨rfl, ha⟩ := ha.newState h₃ rfl
  obtain ⟨ss, n₄, h₄, h⟩ := exists_of_branches h
  obtain ⟨bound, hall⟩ := hitems _ _ _ (by rw [ha.grows.ruleNames, ha.grows.ruleStarts, hn]) h₄
  have hbounds := fun s => hall.exit_bounds (s := s)
  have hgrows := hall.grows.size
  have hsize := ha.size
  have hf := Adds.start rule lazy (b := n.states.size) (n := n₄) (by omega) fun q hq => hq
  obtain ⟨n₅, hf, h⟩ := hf.exists_early h (by omega) (by omega) hlazy
  obtain ⟨_, n₆, h₆, h⟩ := exists_of_bind h
  have hf := hf.spread h₆ (by omega) (fun s hs => by have := hbounds s hs; omega) (by omega)
  obtain ⟨n₇, hf, h⟩ := hf.exists_late h (by omega) (by omega)
  cases h
  have hblock := hall.block n.states.size (n.states.size + 1) ha hf (by omega) hf.decided fun q hq _ => by
    rw [if_neg (by omega), if_neg (by omega)]
    simp
  have hstart := hblock.start
  have hascends := hblock.ascends
  have hlast : n'.ways (n.states.size + 1) = [] := by
    rw [hblock.ways _ (by omega) (by omega), hall.spreadAt_outside _ _ (by omega) (by omega),
      if_neg (by omega), if_neg (by omega)]
    rfl
  refine ⟨?_, hlast, hblock.grows, fun q hq hmany => ?_⟩
  · rw [hblock.size]
    refine .optional hstart hblock.laid ?_ hblock.exit
    rw [hblock.ways _ le_rfl (by omega), hall.spreadAt_start (by omega)]
    cases greedy <;> simp
  · -- only the start of the choice has several transitions besides states in the parts
    rcases hblock.place_cases hmany with hdecided | hq' | hq'
    · exact hdecided
    · obtain rfl | rfl : q = n.states.size ∨ q = n.states.size + 1 := by omega
      · exact hf.decided _ (hall.decided (ha.decided _ (.inr rfl)))
      · rw [hlast] at hmany
        cases hmany
    · omega

theorem alternativeCount_eq (body : Element) : alternativeCount body = body.branches.length := by
  cases body <;> rfl

theorem star_built {body : Element} {greedy : Bool} {s : Stretch}
    (hitems : ∀ n n' ss, n.ruleNames.size = n.ruleStarts.size →
      elements rule body.branches n = .ok (ss, n') →
      ∃ bound, AllBuilt rule lazy n n' body.branches bound ss)
    (hlazy : greedy = false → lazy) (hn : n.ruleNames.size = n.ruleStarts.size)
    (h : element rule (.star body greedy) n = .ok (s, n')) :
    Built rule lazy n n' (.star body greedy) s := by
  rw [element] at h
  obtain ⟨_, n₁, h₁, h⟩ := exists_of_bind h
  obtain ⟨rfl, ha⟩ := (Adds.refl rule lazy (le_refl n.states.size)).firstState h₁ rfl
  obtain ⟨_, n₂, h₂, h⟩ := exists_of_bind h
  have ha := ha.makeDecision h₂ (by omega) le_rfl
  obtain ⟨_, n₃, h₃, h⟩ := exists_of_bind h
  obtain ⟨rfl, ha⟩ := ha.newState h₃ rfl
  obtain ⟨n₄, ha, h⟩ := ha.exists_decision h (by omega) (by omega)
  obtain ⟨_, n₅, h₅, h⟩ := exists_of_bind h
  obtain ⟨rfl, ha⟩ := ha.newState h₅ rfl
  obtain ⟨ss, n₆, h₆, h⟩ := exists_of_branches h
  obtain ⟨bound, hall⟩ := hitems _ _ _ (by rw [ha.grows.ruleNames, ha.grows.ruleStarts, hn]) h₆
  have hbounds := fun s => hall.exit_bounds (s := s)
  have hgrows := hall.grows.size
  have hsize := ha.size
  have hf := Adds.start rule lazy (b := n.states.size) (n := n₆) (by omega) fun q hq => hq
  obtain ⟨_, n₇, h₇, h⟩ := exists_of_bind h
  have hf := hf.spread h₇ (by omega) (fun s hs => by have := hbounds s hs; omega) (by omega)
  obtain ⟨_, n₈, h₈, h⟩ := exists_of_bind h
  obtain ⟨rfl, hf⟩ := hf.firstState h₈ rfl
  obtain ⟨_, n₉, h₉, h⟩ := exists_of_bind h
  obtain ⟨rfl, hf⟩ := hf.newState h₉ rfl
  obtain ⟨_, n₁₀, h₁₀, h⟩ := exists_of_bind h
  have hf := hf.connect h₁₀ (by omega) (by omega)
  obtain ⟨_, n₁₁, h₁₁, h⟩ := exists_of_bind h
  have hf := hf.connect h₁₁ (by omega) (by omega)
  obtain ⟨n₁₂, hf, h⟩ := hf.exists_onward h (by omega) le_rfl hlazy
  cases h
  have hblock := hall.block (n.states.size + 1) (n.states.size + 2) ha hf (by omega) hf.decided
    fun q hq hq' => by
    rw [if_neg (by omega), if_neg (by omega), if_neg (by omega)]
    simp
  have hstart := hblock.start
  have hascends := hblock.ascends
  have hstop := hall.stop
  have hout := fun q => hall.spreadAt_outside (n.states.size + 1) (n.states.size + (1 + 1)) (q := q)
  -- The transitions of the five states that are the repetition's own.
  have hfirst : n'.ways n.states.size = onward greedy (n.states.size + 1) (n₆.states.size + 1) := by
    rw [hblock.ways _ le_rfl (by omega), hout _ (by omega) (by omega), if_neg (by omega),
      if_neg (by omega), if_pos rfl]
    rfl
  have hbranches : n'.ways (n.states.size + 1) = entries (partOf ss) body.branches.length := by
    rw [hblock.ways _ (by omega) (by omega), hall.spreadAt_start (by omega), if_neg (by omega),
      if_neg (by omega), if_neg (by omega)]
    simp
  have hmeet : n'.ways (n.states.size + 2) = [.epsilon n₆.states.size] := by
    rw [hblock.ways _ (by omega) (by omega), hout _ (by omega) (by omega), if_pos rfl,
      if_neg (by omega), if_neg (by omega)]
    rfl
  have hback : n'.ways n₆.states.size = [.epsilon n.states.size] := by
    rw [hblock.ways _ (by omega) (by omega), hout _ (by omega) (by omega), if_neg (by omega),
      if_pos rfl, if_neg (by omega)]
    rfl
  have hlast : n'.ways (n₆.states.size + 1) = [] := by
    rw [hblock.ways _ (by omega) (by omega), hout _ (by omega) (by omega), if_neg (by omega),
      if_neg (by omega), if_neg (by omega)]
    rfl
  refine ⟨?_, hlast, hblock.grows, fun q hq hmany => ?_⟩
  · rw [hblock.size, hstop]
    exact .star hstart hstop hblock.laid hfirst hbranches hblock.exit hmeet hback
  · rcases hblock.place_cases hmany with hdecided | hq' | hq'
    · exact hdecided
    · obtain rfl | rfl | rfl : q = n.states.size ∨ q = n.states.size + 1 ∨ q = n.states.size + 2 := by
        omega
      · exact hf.decided _ (hall.decided (ha.decided _ (.inl (.inr rfl))))
      · rw [hbranches, length_entries, ← alternativeCount_eq] at hmany
        exact hf.decided _ (hall.decided (ha.decided _ (.inr ⟨hmany, rfl⟩)))
      · rw [hmeet] at hmany
        simp at hmany
    · obtain rfl | rfl : q = n₆.states.size ∨ q = n₆.states.size + 1 := by omega
      · rw [hback] at hmany
        simp at hmany
      · rw [hlast] at hmany
        cases hmany

theorem plus_built {body : Element} {greedy : Bool} {s : Stretch}
    (hitems : ∀ n n' ss, n.ruleNames.size = n.ruleStarts.size →
      elements rule body.branches n = .ok (ss, n') →
      ∃ bound, AllBuilt rule lazy n n' body.branches bound ss)
    (hlazy : greedy = false → lazy) (hn : n.ruleNames.size = n.ruleStarts.size)
    (h : element rule (.plus body greedy) n = .ok (s, n')) :
    Built rule lazy n n' (.plus body greedy) s := by
  rw [element] at h
  obtain ⟨_, n₁, h₁, h⟩ := exists_of_bind h
  obtain ⟨rfl, ha⟩ := (Adds.refl rule lazy (le_refl n.states.size)).firstState h₁ rfl
  obtain ⟨n₂, ha, h⟩ := ha.exists_decision h (by omega) le_rfl
  obtain ⟨_, n₃, h₃, h⟩ := exists_of_bind h
  obtain ⟨rfl, ha⟩ := ha.newState h₃ rfl
  obtain ⟨ss, n₄, h₄, h⟩ := exists_of_branches h
  obtain ⟨bound, hall⟩ := hitems _ _ _ (by rw [ha.grows.ruleNames, ha.grows.ruleStarts, hn]) h₄
  have hbounds := fun s => hall.exit_bounds (s := s)
  have hgrows := hall.grows.size
  have hsize := ha.size
  have hf := Adds.start rule lazy (b := n.states.size) (n := n₄) (by omega) fun q hq => hq
  obtain ⟨_, n₅, h₅, h⟩ := exists_of_bind h
  have hf := hf.spread h₅ (by omega) (fun s hs => by have := hbounds s hs; omega) (by omega)
  obtain ⟨_, n₆, h₆, h⟩ := exists_of_bind h
  obtain ⟨rfl, hf⟩ := hf.firstState h₆ rfl
  obtain ⟨_, n₇, h₇, h⟩ := exists_of_bind h
  have hf := hf.makeDecision h₇ (by omega) (by omega)
  obtain ⟨_, n₈, h₈, h⟩ := exists_of_bind h
  obtain ⟨rfl, hf⟩ := hf.newState h₈ rfl
  obtain ⟨_, n₉, h₉, h⟩ := exists_of_bind h
  have hf := hf.connect h₉ (by omega) (by omega)
  obtain ⟨n₁₀, hf, h⟩ := hf.exists_onward h (by omega) (by omega) hlazy
  cases h
  have hblock := hall.block n.states.size (n.states.size + 1) ha hf (by omega)
    (fun q hq => hf.decided q (.inl hq)) fun q hq hq' => by
    rw [if_neg (by omega), if_neg (by omega)]
    simp
  have hstart := hblock.start
  have hascends := hblock.ascends
  have hstop := hall.stop
  have hout := fun q => hall.spreadAt_outside n.states.size (n.states.size + 1) (q := q)
  -- The transitions of the four states that are the repetition's own.
  have hfirst : n'.ways n.states.size = entries (partOf ss) body.branches.length := by
    rw [hblock.ways _ le_rfl (by omega), hall.spreadAt_start (by omega), if_neg (by omega),
      if_neg (by omega)]
    simp
  have hmeet : n'.ways (n.states.size + 1) = [.epsilon n₄.states.size] := by
    rw [hblock.ways _ (by omega) (by omega), hout _ (by omega) (by omega), if_pos rfl,
      if_neg (by omega)]
    rfl
  have hback : n'.ways n₄.states.size = onward greedy n.states.size (n₄.states.size + 1) := by
    rw [hblock.ways _ (by omega) (by omega), hout _ (by omega) (by omega), if_neg (by omega),
      if_pos rfl]
    rfl
  have hlast : n'.ways (n₄.states.size + 1) = [] := by
    rw [hblock.ways _ (by omega) (by omega), hout _ (by omega) (by omega), if_neg (by omega),
      if_neg (by omega)]
    rfl
  refine ⟨?_, hlast, hblock.grows, fun q hq hmany => ?_⟩
  · rw [hblock.size, hstop]
    exact .plus hstart hstop hblock.laid hfirst hblock.exit hmeet hback
  · rcases hblock.place_cases hmany with hdecided | hq' | hq'
    · exact hdecided
    · obtain rfl | rfl : q = n.states.size ∨ q = n.states.size + 1 := by omega
      · rw [hfirst, length_entries, ← alternativeCount_eq] at hmany
        exact hf.decided _ (.inl (hall.decided (ha.decided _ (.inr ⟨hmany, rfl⟩))))
      · rw [hmeet] at hmany
        simp at hmany
    · obtain rfl | rfl : q = n₄.states.size ∨ q = n₄.states.size + 1 := by omega
      · exact hf.decided _ (.inr rfl)
      · rw [hlast] at hmany
        cases hmany

/-! ## All elements -/

theorem call_built {name : String} {level : Int} {s : Stretch}
    (hn : n.ruleNames.size = n.ruleStarts.size) (h : element rule (.call name level) n = .ok (s, n')) :
    Built rule lazy n n' (.call name level) s := by
  rw [element] at h
  obtain ⟨_, n₁, hget, h⟩ := exists_of_bind h
  cases hget
  cases hr : n.rule? name with
  | none =>
    rw [hr] at h
    cases h
  | some callee =>
    rw [hr] at h
    have hlt : callee < n.ruleStarts.size := by
      rw [← hn]
      exact (Array.findIdx?_eq_some_iff_findIdx_eq.mp hr).1
    refine single_built (.refl rule lazy le_rfl) (.call level ?_) h
    rw [Network.callees, hr, Option.map_some, Array.getElem?_eq_getElem hlt]
    rfl

theorem action_built {index : Nat} {s : Stretch} (h : element rule (.action index) n = .ok (s, n')) :
    Built rule lazy n n' (.action index) s := by
  rw [element] at h
  obtain ⟨_, n₁, hget, h⟩ := exists_of_bind h
  cases hget
  have ha := Adds.refl rule lazy (le_refl n.states.size)
  cases hk : n.kind with
  | lexer =>
    rw [hk] at h
    obtain ⟨i, n₂, hi, h⟩ := exists_of_bind h
    exact single_built (ha.commandIndex hi) (.action index i) h
  | parser =>
    rw [hk] at h
    exact single_built ha (.action index index) h

theorem command_built {c : Command} {s : Stretch} (h : element rule (.command c) n = .ok (s, n')) :
    Built rule lazy n n' (.command c) s := by
  rw [element] at h
  obtain ⟨_, n₁, hget, h⟩ := exists_of_bind h
  cases hget
  cases hk : n.kind with
  | lexer =>
    rw [hk] at h
    obtain ⟨i, n₂, hi, h⟩ := exists_of_bind h
    exact single_built ((Adds.refl rule lazy le_rfl).commandIndex hi) (.command c i) h
  | parser =>
    rw [hk] at h
    cases h

/-- A choice of one is that one. -/
theorem Built.only {e : Element} {s : Stretch} (h : Built rule lazy n n' e s) :
    Built rule lazy n n' (.alt [e]) s :=
  ⟨.only h.laid, h.last, h.grows, h.choices⟩

/-- An element that was laid out is where it should be, and the rest was left alone. -/
theorem element_built {e : Element} {s : Stretch}
    (hlazy : ¬lazy → e.everywhere fun e => !e.isLazy) (hn : n.ruleNames.size = n.ruleStarts.size)
    (h : element rule e n = .ok (s, n')) : Built rule lazy n n' e s := by
  induction e using Element.induction generalizing n n' s with | _ e ih
  have hparts : ∀ n n' ss, n.ruleNames.size = n.ruleStarts.size →
      elements rule e.parts n = .ok (ss, n') → ∃ bound, AllBuilt rule lazy n n' e.parts bound ss :=
    fun n n' ss hn h => elements_built (fun b hb n n' s hn h =>
      ih b hb (fun hl => Element.everywhere_parts (hlazy hl) b hb) hn h) hn h
  -- A lazy element is there only where lazy ones are allowed.
  have hgreedy : ∀ greedy, (e.isLazy = !greedy) → greedy = false → lazy := fun greedy he hg => by
    by_contra hl
    have := Element.everywhere_self (hlazy hl)
    rw [he, hg] at this
    cases this
  have ha := Adds.refl rule lazy (le_refl n.states.size)
  cases e with
  | symbol label =>
    rw [element] at h
    exact single_built ha (.symbol label) h
  | range lo hi =>
    rw [element] at h
    exact single_built ha (.range lo hi) h
  | set set =>
    rw [element] at h
    exact single_built ha (.set set) h
  | notSet set =>
    rw [element] at h
    exact single_built ha (.notSet set) h
  | wildcard =>
    rw [element] at h
    exact single_built ha .wildcard h
  | call name level => exact call_built hn h
  | seq items =>
    rw [element] at h
    obtain ⟨ss, n₁, h₁, h⟩ := exists_of_bind h
    obtain ⟨bound, hall⟩ := hparts n n₁ ss hn h₁
    refine sequence_built hall h fun hnil => ?_
    rw [hnil, elements] at h₁
    cases h₁
    rfl
  | alt items =>
    by_cases hlen : items.length = 1
    · obtain ⟨item, rfl⟩ := List.length_eq_one_iff.mp hlen
      rw [element] at h
      exact (ih item (List.mem_singleton_self _)
        (fun hl => Element.everywhere_parts (hlazy hl) item (List.mem_singleton_self _)) hn h).only
    · exact alt_built hlen hparts hn h
  | optional body greedy => exact optional_built hparts (hgreedy greedy rfl) hn h
  | star body greedy => exact star_built hparts (hgreedy greedy rfl) hn h
  | plus body greedy => exact plus_built hparts (hgreedy greedy rfl) hn h
  | predicate index contextual =>
    rw [element] at h
    exact single_built ha (.predicate index contextual) h
  | precedence level =>
    rw [element] at h
    exact single_built ha (.precedence level) h
  | action index => exact action_built h
  | command c => exact command_built h

end Layout

/-- A network of a grammar was laid out, and then linked. -/
theorem Grammar.layout_eq_ok_iff {g : Grammar} {n : Network} : g.layout = .ok n ↔
    ∃ n₀, Layout.grammar g { kind := g.kind, maxSymbol := g.maxSymbol } = .ok ((), n₀) ∧
      n₀.link = .ok n := by
  rw [layout]
  cases hm : (Layout.grammar g).run { kind := g.kind, maxSymbol := g.maxSymbol } with
  | error e =>
    refine ⟨nofun, ?_⟩
    rintro ⟨n₀, hrun, -⟩
    cases hm.symm.trans hrun
  | ok r =>
    refine ⟨fun hl => ⟨r.2, hm, hl⟩, ?_⟩
    rintro ⟨n₀, hrun, hl⟩
    cases hm.symm.trans hrun
    exact hl

end AdaptiveLL

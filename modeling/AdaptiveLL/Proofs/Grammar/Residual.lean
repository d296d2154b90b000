import Mathlib
import AdaptiveLL.Proofs.Grammar.Laid
import AdaptiveLL.Proofs.Network.Machine

/-! # What is left to be read

The states of an element that is laid out can be labelled with languages: what is read from a state
until the element is left, followed by what is read from there on.  The label of the entry is the
language of the element followed by that of the exit, and every transition leads from a larger
language to a smaller one, what it consumes put in front (`Laid.exists_residual`).

So whatever a machine reads along the transitions, it reads a word of the language.  The labels make
this a fact about single moves.
-/
namespace AdaptiveLL

namespace Element
variable (g : Grammar) (lo hi : Int)

/-- The words that an element stands for. -/
def language (e : Element) : Language Symbol := {w | Derives g lo hi e w}

variable {g lo hi}

theorem one_le_of_nil_mem {L : Language Symbol} (h : [] ∈ L) : 1 ≤ L := by
  intro w hw
  rwa [(Language.mem_one w).mp hw]

theorem one_le_language_action (i : Nat) : 1 ≤ language g lo hi (.action i) :=
  one_le_of_nil_mem Derives.action

theorem one_le_language_command (c : Command) : 1 ≤ language g lo hi (.command c) :=
  one_le_of_nil_mem Derives.command

theorem one_le_language_done : 1 ≤ language g lo hi (.seq []) :=
  one_le_of_nil_mem Derives.done

theorem mul_le_language_seq (e : Element) (items : List Element) :
    language g lo hi e * language g lo hi (.seq items) ≤ language g lo hi (.seq (e :: items)) := by
  rintro w ⟨u, hu, v, hv, rfl⟩
  exact Derives.next hu hv

theorem language_branch_le {e b : Element} (hb : b ∈ e.branches) :
    language g lo hi b ≤ language g lo hi e :=
  fun _ hw => derives_iff_branches.mpr ⟨b, hb, hw⟩

theorem one_le_language_star (e : Element) (greedy : Bool) :
    1 ≤ language g lo hi (.star e greedy) :=
  one_le_of_nil_mem Derives.stop

theorem mul_le_language_star (e : Element) (greedy : Bool) :
    language g lo hi e * language g lo hi (.star e greedy) ≤ language g lo hi (.star e greedy) := by
  rintro w ⟨u, hu, v, hv, rfl⟩
  exact Derives.again hu hv

theorem mul_le_language_plus (e : Element) (greedy : Bool) :
    language g lo hi e * language g lo hi (.star e greedy) ≤ language g lo hi (.plus e greedy) := by
  rintro w ⟨u, hu, v, hv, rfl⟩
  exact Derives.more hu hv

/-- In front of a repetition that may stop, what is read behind it may come at once. -/
theorem le_language_star_mul (e : Element) (greedy : Bool) (C : Language Symbol) :
    C ≤ language g lo hi (.star e greedy) * C :=
  le_mul_of_one_le_left' (one_le_language_star e greedy)

/-- What is repeated once more is in front of the repetition again. -/
theorem language_mul_star_mul_le (e : Element) (greedy : Bool) (C : Language Symbol) :
    language g lo hi e * (language g lo hi (.star e greedy) * C) ≤ language g lo hi (.star e greedy) * C := by
  rw [← mul_assoc]
  exact mul_le_mul_left (mul_le_language_star e greedy) C

theorem one_le_language_optional (e : Element) (greedy : Bool) :
    1 ≤ language g lo hi (.optional e greedy) :=
  one_le_of_nil_mem Derives.skip

theorem language_le_optional (e : Element) (greedy : Bool) :
    language g lo hi e ≤ language g lo hi (.optional e greedy) :=
  fun _ hw => Derives.take hw

theorem everywhere_true (e : Element) : e.everywhere fun _ => true := by
  have hboth : ∀ e : Element, e.everywhere (fun _ => true) = true := by
    intro e
    induction e using Element.rec
      (motive_2 := fun items => everywhereIn (fun _ => true) items = true) with
    | nil => rfl
    | cons e items he hitems => rw [everywhereIn, he, hitems]; rfl
    | _ => simp_all [everywhere]
  exact hboth e

end Element

/-- A transition leads from a language to what is left of it. -/
structure Leads (g : Grammar) (lo hi : Int) (K : Nat → Language Symbol) (t : Transition)
    (L : Language Symbol) : Prop where
  plain : t.isPlain → K t.target ≤ L
  eats : ∀ x v, t.consumes lo hi x → v ∈ K t.target → x :: v ∈ L
  calls : ∀ target rule level follow, t = .call target rule level follow →
    ∀ r, g.rules[rule]? = some r → r.body.language g lo hi * K follow ≤ L

namespace Laid
variable {T : Nat → List Transition} {callees : Callees} {rule : Nat} {e : Element}
  {lo hi : Nat} {s : Stretch} {g : Grammar} {a b : Int} {K K' : Nat → Language Symbol}

theorem leads_epsilon {z : Nat} {L : Language Symbol} (h : K z ≤ L) :
    Leads g a b K (.epsilon z) L :=
  ⟨fun _ => h, (fun _ _ hx => nomatch hx), fun _ _ _ _ ht => nomatch ht⟩

theorem leads_direct {t : Nat → Transition} {z : Nat}
    (hc : ∀ name start callee, callees name = some (start, callee) →
      ∃ r, g.rules[callee]? = some r ∧ r.name = name)
    (h : Direct callees rule e t) : Leads g a b K (t z) (e.language g a b * K z) := by
  have hone : 1 ≤ e.language g a b → K z ≤ e.language g a b * K z := fun h => by
    simpa using mul_le_mul_left h (K z)
  have heat : ∀ x v, e.accepts a b x → v ∈ K z → x :: v ∈ e.language g a b * K z :=
    fun x v hx hv => Language.mem_mul.mpr ⟨[x], .one hx, v, hv, rfl⟩
  cases h with
  | action i j =>
    exact ⟨fun _ => hone (Element.one_le_language_action i), (fun _ _ hx => nomatch hx),
      fun _ _ _ _ ht => nomatch ht⟩
  | command c j =>
    exact ⟨fun _ => hone (Element.one_le_language_command c), (fun _ _ hx => nomatch hx),
      fun _ _ _ _ ht => nomatch ht⟩
  | predicate | precedence =>
    exact ⟨(fun hp => nomatch hp), (fun _ _ hx => nomatch hx), fun _ _ _ _ ht => nomatch ht⟩
  | call level hn =>
    refine ⟨(fun hp => nomatch hp), (fun _ _ hx => nomatch hx), fun target rule level follow ht r hr => ?_⟩
    cases ht
    obtain ⟨r', hr', rfl⟩ := hc _ _ _ hn
    obtain rfl := Option.some.inj (hr.symm.trans hr')
    have hcall : r.body.language g a b ≤ (Element.call r.name level).language g a b :=
      fun _ hw => .call (List.mem_of_getElem? hr) hw
    exact mul_le_mul_left hcall _
  | _ => exact ⟨(fun hp => nomatch hp), heat, fun _ _ _ _ ht => nomatch ht⟩

/-- Labels count only at the states that a transition leads to. -/
theorem Leads.congr {q : Nat} {L : Language Symbol}
    (hshape : Shaped T callees rule (fun _ => true) lo hi q)
    (hK : ∀ z, lo ≤ z → z < hi → K' z = K z) (hq : lo ≤ q) {t : Transition} (ht : t ∈ T q)
    (h : Leads g a b K t L) : Leads g a b K' t L := by
  rcases hshape with hshape | ⟨e, t', -, hd, hT, hlt⟩
  · obtain ⟨z, rfl, hz, hz'⟩ := hshape t ht
    exact leads_epsilon ((hK z hz hz').le.trans (h.plain rfl))
  · rw [hT, List.mem_singleton] at ht
    subst ht
    have hnext : K' (q + 1) = K (q + 1) := hK _ (by omega) hlt
    cases hd with
    | call level hn =>
      refine ⟨(fun hp => nomatch hp), (fun _ _ hx => nomatch hx), ?_⟩
      intro target rule level follow ht r hr
      cases ht
      rw [hnext]
      exact h.calls _ _ _ _ rfl r hr
    | _ =>
      refine ⟨fun hp => ?_, fun x v hx hv => ?_, fun _ _ _ _ ht => nomatch ht⟩
      · exact hnext.le.trans (h.plain hp)
      · exact h.eats x v hx (hnext ▸ hv)

/-- Labels of parts that do not meet. -/
theorem exists_residual_parts {items : List Element} {bound : Nat → Nat} {part : Nat → Stretch}
    (hparts : ∀ i (h : i < items.length),
      Laid T callees rule items[i] (bound i) (bound (i + 1)) (part i))
    (D : Nat → Language Symbol)
    (ih : ∀ i (h : i < items.length), ∃ K : Nat → Language Symbol,
      K (part i).entry ≤ items[i].language g a b * D i ∧ D i ≤ K (part i).exit ∧
        ∀ q, bound i ≤ q → q < bound (i + 1) → q ≠ (part i).exit → ∀ t ∈ T q,
          Leads g a b K t (K q))
    (rest : Nat → Language Symbol) :
    ∃ K : Nat → Language Symbol,
      (∀ i (h : i < items.length), K (part i).entry ≤ items[i].language g a b * D i ∧
        D i ≤ K (part i).exit) ∧
      (∀ i (_ : i < items.length) (q : Nat), bound i ≤ q → q < bound (i + 1) →
        q ≠ (part i).exit → ∀ t ∈ T q, Leads g a b K t (K q)) ∧
      ∀ q, q < bound 0 ∨ bound items.length ≤ q → K q = rest q := by
  choose! f hf using ih
  obtain ⟨K, hK, hrest⟩ := exists_glued (bound_le_succ hparts) f rest
  refine ⟨K, fun i hi => ?_, fun i hi q hlo hhi hq t ht => ?_, hrest⟩
  · have hb := (hparts i hi).bounds
    rw [hK i hi _ hb.1 hb.2.1, hK i hi _ hb.2.2.1 hb.2.2.2]
    exact ⟨(hf i hi).1, (hf i hi).2.1⟩
  · rw [hK i hi q hlo hhi]
    exact Leads.congr ((hparts i hi).shaped (Element.everywhere_true _) hlo hhi hq) (hK i hi) hlo ht
      ((hf i hi).2.2 q hlo hhi hq t ht)

theorem leads_of_mem_entries {part : Nat → Stretch} {count : Nat} {L : Language Symbol}
    (h : ∀ i < count, K (part i).entry ≤ L) {t : Transition} (ht : t ∈ entries part count) :
    Leads g a b K t L := by
  obtain ⟨i, hi, rfl⟩ := mem_entries.mp ht
  exact leads_epsilon (h i hi)

theorem leads_of_mem_onward {greedy : Bool} {y z : Nat} {L : Language Symbol} (hy : K y ≤ L)
    (hz : K z ≤ L) {t : Transition} (ht : t ∈ onward greedy y z) : Leads g a b K t L := by
  unfold onward at ht
  split at ht
  · rcases List.mem_pair.mp ht with rfl | rfl
    exacts [leads_epsilon hy, leads_epsilon hz]
  · rcases List.mem_pair.mp ht with rfl | rfl
    exacts [leads_epsilon hz, leads_epsilon hy]

theorem leads_of_one {q z : Nat} {L : Language Symbol} (hT : T q = [.epsilon z]) (hz : K z ≤ L) :
    ∀ t ∈ T q, Leads g a b K t L := by
  intro t ht
  rw [hT, List.mem_singleton] at ht
  exact ht ▸ leads_epsilon hz

/-- The labels of parts whose exits lead to one state. -/
theorem leads_parts {count : Nat} {bound : Nat → Nat} {part : Nat → Stretch} {q z : Nat}
    (hexit : ∀ i < count, T (part i).exit = [.epsilon z])
    (hz : ∀ i < count, K z ≤ K (part i).exit)
    (hleads : ∀ i (_ : i < count) (q : Nat), bound i ≤ q → q < bound (i + 1) →
      q ≠ (part i).exit → ∀ t ∈ T q, Leads g a b K t (K q))
    (hq : bound 0 ≤ q) (hq' : q < bound count) : ∀ t ∈ T q, Leads g a b K t (K q) := by
  obtain ⟨i, hi, hin⟩ := exists_part hq hq'
  by_cases hx : q = (part i).exit
  · rw [hx]
    exact leads_of_one (hexit i hi) (hz i hi)
  · exact hleads i hi q hin.1 hin.2 hx

/-! ## One constructor at a time -/

/-- The states of an element can be labelled, given what is read after it. -/
def Labelled (T : Nat → List Transition) (g : Grammar) (a b : Int) (e : Element) (lo hi : Nat) (s : Stretch)
    (C : Language Symbol) : Prop :=
  ∃ K : Nat → Language Symbol, K s.entry ≤ e.language g a b * C ∧ C ≤ K s.exit ∧
    ∀ q, lo ≤ q → q < hi → q ≠ s.exit → ∀ t ∈ T q, Leads g a b K t (K q)

variable {items : List Element} {bound : Nat → Nat} {part : Nat → Stretch} {body : Element} {greedy : Bool}
  {back : Nat} {C : Language Symbol}

theorem labelled_direct {t : Nat → Transition}
    (hc : ∀ name start callee, callees name = some (start, callee) →
      ∃ r, g.rules[callee]? = some r ∧ r.name = name)
    (hd : Direct callees rule e t) (ht : T lo = [t (lo + 1)]) :
    Labelled T g a b e lo (lo + 2) ⟨lo, lo + 1⟩ C := by
  refine ⟨fun q => if q = lo then e.language g a b * C else C, by simp, by simp, ?_⟩
  intro q hlo hhi hq u hu
  dsimp only at hq
  obtain rfl : q = lo := by omega
  rw [ht, List.mem_singleton] at hu
  subst hu
  have := leads_direct (K := fun q' => if q' = q then e.language g a b * C else C)
    (z := q + 1) hc hd (a := a) (b := b)
  simpa using this

theorem labelled_empty (ht : T lo = [.epsilon (lo + 1)]) :
    Labelled T g a b (.seq []) lo (lo + 2) ⟨lo, lo + 1⟩ C := by
  refine ⟨fun _ => C, le_mul_of_one_le_left' Element.one_le_language_done, le_rfl, ?_⟩
  intro q hlo hhi hq
  dsimp only at hq
  obtain rfl : q = lo := by omega
  exact leads_of_one ht le_rfl

/-- After part `i` of a sequence the items behind it are still to be read. -/
theorem labelled_seq
    (hparts : ∀ i (h : i < (e :: items).length),
      Laid T callees rule (e :: items)[i] (bound i) (bound (i + 1)) (part i))
    (hjoin : ∀ i < items.length, T (part i).exit = [.epsilon (part (i + 1)).entry])
    (ih : ∀ i (h : i < (e :: items).length) (D : Language Symbol),
      Labelled T g a b (e :: items)[i] (bound i) (bound (i + 1)) (part i) D) :
    Labelled T g a b (.seq (e :: items)) (bound 0) (bound (items.length + 1))
      ⟨(part 0).entry, (part items.length).exit⟩ C := by
  obtain ⟨K, hends, hleads, -⟩ := exists_residual_parts (g := g) (a := a) (b := b) hparts
    (fun i => (Element.seq ((e :: items).drop (i + 1))).language g a b * C)
    (fun i hi => ih i hi _) fun _ => C
  have hfirst : ∀ i (hi : i < (e :: items).length),
      K (part i).entry ≤ (Element.seq ((e :: items).drop i)).language g a b * C := by
    intro i hi
    refine (hends i hi).1.trans ?_
    rw [← mul_assoc, List.drop_eq_getElem_cons hi]
    exact mul_le_mul_left (Element.mul_le_language_seq _ _) C
  refine ⟨K, hfirst 0 (by simp), ?_, fun q hlo hhi hq => ?_⟩
  · refine le_trans ?_ (hends items.length (by simp)).2
    rw [List.drop_eq_nil_of_le (by simp)]
    exact le_mul_of_one_le_left' Element.one_le_language_done
  · obtain ⟨i, hi, hin⟩ := exists_part hlo hhi
    by_cases hx : q = (part i).exit
    · have hlt : i < items.length := by
        rcases Nat.lt_or_eq_of_le (Nat.le_of_lt_succ hi) with hlt | rfl
        · exact hlt
        · exact absurd hx hq
      rw [hx]
      exact leads_of_one (hjoin i hlt)
        ((hfirst (i + 1) (by simp; omega)).trans (hends i (by simp; omega)).2)
    · exact hleads i (by simpa using hi) q hin.1 hin.2 hx

/-- A state that leads to branches, and maybe past them, to the state where they end. -/
theorem labelled_branches (h0 : bound 0 = lo + 2)
    (hparts : ∀ i (h : i < items.length),
      Laid T callees rule items[i] (bound i) (bound (i + 1)) (part i))
    (hfirst : ∀ t ∈ T lo, t ∈ entries part items.length ∨ t = .epsilon (lo + 1) ∧ 1 ≤ e.language g a b)
    (hexit : ∀ i < items.length, T (part i).exit = [.epsilon (lo + 1)])
    (hitems : ∀ i (h : i < items.length), items[i].language g a b ≤ e.language g a b)
    (ih : ∀ i (h : i < items.length), Labelled T g a b items[i] (bound i) (bound (i + 1)) (part i) C) :
    Labelled T g a b e lo (bound items.length) ⟨lo, lo + 1⟩ C := by
  have hle := bound_le (bound_le_succ hparts) (Nat.zero_le _) (Nat.le_refl _)
  obtain ⟨K, hends, hleads, hrest⟩ := exists_residual_parts hparts (fun _ => C) ih
    fun q => if q = lo then e.language g a b * C else C
  have hKlo : K lo = e.language g a b * C := by rw [hrest lo (by omega), if_pos rfl]
  have hKstop : K (lo + 1) = C := by rw [hrest (lo + 1) (by omega), if_neg (by omega)]
  refine ⟨K, hKlo.le, hKstop.ge, fun q hlo hhi hq => ?_⟩
  dsimp only at hq
  rcases Nat.eq_or_lt_of_le hlo with rfl | hlt
  · intro t ht
    rw [hKlo]
    rcases hfirst t ht with ht | ⟨rfl, hone⟩
    · exact leads_of_mem_entries (fun i hi => (hends i hi).1.trans (mul_le_mul_left (hitems i hi) C)) ht
    · exact leads_epsilon (hKstop.le.trans (le_mul_of_one_le_left' hone))
  · exact leads_parts hexit (fun i hi => hKstop.le.trans (hends i hi).2) hleads (by omega) hhi

/-- In front of the decision any number of repetitions is still to be read. -/
theorem labelled_star (h0 : bound 0 = lo + 3) (h1 : bound body.branches.length = back)
    (hparts : ∀ i (h : i < body.branches.length),
      Laid T callees rule body.branches[i] (bound i) (bound (i + 1)) (part i))
    (hfirst : T lo = onward greedy (lo + 1) (back + 1))
    (hstart : T (lo + 1) = entries part body.branches.length)
    (hexit : ∀ i < body.branches.length, T (part i).exit = [.epsilon (lo + 2)])
    (hstop : T (lo + 2) = [.epsilon back]) (hback : T back = [.epsilon lo])
    (ih : ∀ i (h : i < body.branches.length) (D : Language Symbol),
      Labelled T g a b body.branches[i] (bound i) (bound (i + 1)) (part i) D) :
    Labelled T g a b (.star body greedy) lo (back + 2) ⟨lo, back + 1⟩ C := by
  have hle := bound_le (bound_le_succ hparts) (Nat.zero_le _) (Nat.le_refl _)
  let D := (Element.star body greedy).language g a b * C
  have hout : C ≤ D := Element.le_language_star_mul body greedy C
  have hagain : body.language g a b * D ≤ D := Element.language_mul_star_mul_le body greedy C
  -- Of the repetition's own states, only the start of a round and the exit are not labelled `D`.
  obtain ⟨K, hends, hleads, hrest⟩ := exists_residual_parts hparts (fun _ => D) (fun i hi => ih i hi D)
    fun q => if q = lo + 1 then body.language g a b * D else if q = back + 1 then C else D
  have hK : ∀ q, q < bound 0 ∨ back ≤ q → q ≠ lo + 1 → q ≠ back + 1 → K q = D := by
    intro q hq hne hne'
    rw [hrest q (by omega), if_neg hne, if_neg hne']
  have hKstart : K (lo + 1) = body.language g a b * D := by rw [hrest (lo + 1) (by omega), if_pos rfl]
  have hKleave : K (back + 1) = C := by
    rw [hrest (back + 1) (by omega), if_neg (by omega), if_pos rfl]
  have hKlo := hK lo (by omega) (by omega) (by omega)
  have hKstop := hK (lo + 2) (by omega) (by omega) (by omega)
  have hKback := hK back (by omega) (by omega) (by omega)
  refine ⟨K, hKlo.le, hKleave.ge, fun q hlo hhi hq => ?_⟩
  dsimp only at hq
  by_cases hqlo : q = lo
  · intro t ht
    rw [hqlo, hfirst] at ht
    rw [hqlo, hKlo]
    exact leads_of_mem_onward (hKstart.le.trans hagain) (hKleave.le.trans hout) ht
  by_cases hqs : q = lo + 1
  · intro t ht
    rw [hqs, hstart] at ht
    rw [hqs, hKstart]
    exact leads_of_mem_entries (fun i hi => (hends i hi).1.trans
      (mul_le_mul_left (Element.language_branch_le (List.getElem_mem hi)) D)) ht
  by_cases hqe : q = lo + 2
  · rw [hqe]
    exact leads_of_one hstop (hKback.le.trans hKstop.ge)
  by_cases hqb : q = back
  · rw [hqb]
    exact leads_of_one hback (hKlo.le.trans hKback.ge)
  exact leads_parts hexit (fun i hi => hKstop.le.trans (hends i hi).2) hleads (by omega) (by omega)

/-- Behind a repetition any number of further ones is still to be read. -/
theorem labelled_plus (h0 : bound 0 = lo + 2) (h1 : bound body.branches.length = back)
    (hparts : ∀ i (h : i < body.branches.length),
      Laid T callees rule body.branches[i] (bound i) (bound (i + 1)) (part i))
    (hfirst : T lo = entries part body.branches.length)
    (hexit : ∀ i < body.branches.length, T (part i).exit = [.epsilon (lo + 1)])
    (hstop : T (lo + 1) = [.epsilon back]) (hback : T back = onward greedy lo (back + 1))
    (ih : ∀ i (h : i < body.branches.length) (D : Language Symbol),
      Labelled T g a b body.branches[i] (bound i) (bound (i + 1)) (part i) D) :
    Labelled T g a b (.plus body greedy) lo (back + 2) ⟨lo, back + 1⟩ C := by
  have hle := bound_le (bound_le_succ hparts) (Nat.zero_le _) (Nat.le_refl _)
  let D := (Element.star body greedy).language g a b * C
  have hout : C ≤ D := Element.le_language_star_mul body greedy C
  have hagain : body.language g a b * D ≤ D := Element.language_mul_star_mul_le body greedy C
  obtain ⟨K, hends, hleads, hrest⟩ := exists_residual_parts hparts (fun _ => D) (fun i hi => ih i hi D)
    fun q => if q = lo then body.language g a b * D else if q = back + 1 then C else D
  have hKlo : K lo = body.language g a b * D := by rw [hrest lo (by omega), if_pos rfl]
  have hKleave : K (back + 1) = C := by
    rw [hrest (back + 1) (by omega), if_neg (by omega), if_pos rfl]
  have hKstop : K (lo + 1) = D := by
    rw [hrest (lo + 1) (by omega), if_neg (by omega), if_neg (by omega)]
  have hKback : K back = D := by rw [hrest back (by omega), if_neg (by omega), if_neg (by omega)]
  refine ⟨K, ?_, hKleave.ge, fun q hlo hhi hq => ?_⟩
  · dsimp only
    rw [hKlo, ← mul_assoc]
    exact mul_le_mul_left (Element.mul_le_language_plus body greedy) C
  dsimp only at hq
  by_cases hqlo : q = lo
  · intro t ht
    rw [hqlo, hfirst] at ht
    rw [hqlo, hKlo]
    exact leads_of_mem_entries (fun i hi => (hends i hi).1.trans
      (mul_le_mul_left (Element.language_branch_le (List.getElem_mem hi)) D)) ht
  by_cases hqe : q = lo + 1
  · rw [hqe]
    exact leads_of_one hstop (hKback.le.trans hKstop.ge)
  by_cases hqb : q = back
  · intro t ht
    rw [hqb, hback] at ht
    rw [hqb, hKback]
    exact leads_of_mem_onward (hKlo.le.trans hagain) (hKleave.le.trans hout) ht
  exact leads_parts hexit (fun i hi => hKstop.le.trans (hends i hi).2) hleads (by omega) (by omega)

/-- The labels of an element, given what is read after it. -/
theorem exists_residual (h : Laid T callees rule e lo hi s)
    (hc : ∀ name start callee, callees name = some (start, callee) →
      ∃ r, g.rules[callee]? = some r ∧ r.name = name) (C : Language Symbol) :
    ∃ K : Nat → Language Symbol, K s.entry ≤ e.language g a b * C ∧ C ≤ K s.exit ∧
      ∀ q, lo ≤ q → q < hi → q ≠ s.exit → ∀ t ∈ T q, Leads g a b K t (K q) := by
  -- Parts of a repetition are followed by more of it, so what is read behind an element is arbitrary.
  induction h generalizing C with
  | direct hd ht => exact labelled_direct hc hd ht
  | empty ht => exact labelled_empty ht
  | seq hparts hjoin ih => exact labelled_seq hparts hjoin ih
  | only _ ih =>
    obtain ⟨K, hentry, hexit, hleads⟩ := ih C
    exact ⟨K, hentry.trans (mul_le_mul_left (Element.language_branch_le (List.mem_singleton_self _)) C),
      hexit, hleads⟩
  | @alt items lo bound part _ h0 hparts hfirst hexit ih =>
    refine labelled_branches h0 hparts (fun t ht => .inl (hfirst ▸ ht)) hexit (fun i hi => ?_)
      fun i hi => ih i hi C
    exact Element.language_branch_le (e := .alt items) (List.getElem_mem hi)
  | @optional body greedy lo bound part h0 hparts hfirst hexit ih =>
    refine labelled_branches h0 hparts (fun t ht => ?_) hexit (fun i hi => ?_) fun i hi => ih i hi C
    · exact (mem_of_optional hfirst ht).imp_right fun he => ⟨he, Element.one_le_language_optional body greedy⟩
    · exact (Element.language_branch_le (List.getElem_mem hi)).trans
        (Element.language_le_optional body greedy)
  | star h0 h1 hparts hfirst hstart hexit hstop hback ih =>
    exact labelled_star h0 h1 hparts hfirst hstart hexit hstop hback ih
  | plus h0 h1 hparts hfirst hexit hstop hback ih =>
    exact labelled_plus h0 h1 hparts hfirst hexit hstop hback ih

end Laid
end AdaptiveLL

import Mathlib
import AdaptiveLL.DepthFirst
import AdaptiveLL.Proofs.Run

/-! # What holds at the end of a walk

A property of the state and of the items that still wait holds at the end of a walk, when no item
waits, if every visit keeps it (`run_invariant`); a walk is held to what its visits meet
(`walk_meets`).  Two walks end alike if their visits do
(`run_matches`).
-/
namespace AdaptiveLL
namespace DepthFirst
variable {β γ σ τ : Type}

/-- What each visit keeps holds in the end, when no item waits. -/
theorem run_invariant {visit : β → ExceptT RecognitionError (StateM σ) (Option (List β))}
    {tooDeep : RecognitionError} {inv : List β → σ → Prop} {bad : σ → Prop}
    (hbad : ∀ items s, inv items s → bad s)
    (hvisit : ∀ item rest s, inv (item :: rest) s →
      match visit item s with
      | (.ok opened, t) => inv (opened.getD [] ++ rest) t
      | (.error _, t) => bad t)
    {room : Nat} {pending : List (List β)} {s : σ} (h : inv pending.flatten s) :
    match run visit tooDeep room pending s with
    | (.ok _, t) => inv [] t
    | (.error _, t) => bad t := by
  fun_induction run visit tooDeep room pending s with
  | case1 room s => exact h
  | case2 room below s ih => exact ih h
  | case3 room s item rest below e t heq =>
    have := hvisit item _ s h
    rwa [heq] at this
  | case4 room s item rest below t heq ih =>
    have := hvisit item _ s h
    rw [heq] at this
    exact ih this
  | case5 s item rest below items t heq =>
    have := hvisit item _ s h
    rw [heq] at this
    exact hbad _ t this
  | case6 s item rest below items t heq room ih =>
    have := hvisit item _ s h
    rw [heq] at this
    exact ih this

/-- What each visit keeps holds in the end, if the walk comes to its end. -/
theorem run_keeps {visit : β → ExceptT RecognitionError (StateM σ) (Option (List β))}
    {tooDeep : RecognitionError} {room : Nat} {pending : List (List β)} {s t : σ}
    (hrun : run visit tooDeep room pending s = (.ok (), t)) (inv : List β → σ → Prop)
    (h : inv pending.flatten s)
    (hvisit : ∀ item rest s opened t, inv (item :: rest) s → visit item s = (.ok opened, t) →
      inv (opened.getD [] ++ rest) t) : inv [] t := by
  have hend : match run visit tooDeep room pending s with
      | (.ok _, t) => inv [] t
      | (.error _, _) => True :=
    run_invariant (fun _ _ _ => trivial) (fun item rest s hs => by
      cases hv : visit item s with
      | mk r u =>
        cases r with
        | error e => trivial
        | ok opened => exact hvisit _ _ _ _ _ hs hv) h
  rw [hrun] at hend
  exact hend

/-- A walk keeps what its visits keep, if they open good items only. -/
theorem walk_keeps {visit : β → Run σ (Option (List β))} {tooDeep : RecognitionError} {limit : Nat} {item : β}
    {inv : σ → Prop} (good : β → Prop)
    (hvisit : ∀ i, good i → Run.Keeps inv (fun opened => ∀ j ∈ opened.getD [], good j) (visit i))
    (hitem : good item) : Run.Keeps inv (fun _ => True) (walk visit tooDeep limit item) := by
  intro s _ t h hs
  have hend := run_keeps h (fun items s => inv s ∧ ∀ i ∈ items, good i)
    ⟨hs, fun i hi => by rwa [List.mem_singleton.mp hi]⟩ fun i rest s opened t ⟨hs, hitems⟩ hv => by
      rw [List.forall_mem_cons] at hitems
      obtain ⟨ht, hopened⟩ := hvisit i hitems.1 hv hs
      exact ⟨ht, List.forall_mem_append.mpr ⟨hopened, hitems.2⟩⟩
  exact ⟨hend.1, trivial⟩

/-- A walk meets what its visits meet, if they open good items only. -/
theorem walk_meets {visit : β → ExceptT RecognitionError (StateM σ) (Option (List β))}
    {tooDeep : RecognitionError} {inv : σ → Prop} {good : β → Prop}
    {fail : RecognitionError → σ → Prop}
    (hvisit : ∀ item, good item →
      Run.Meets inv (visit item) (fun o t => inv t ∧ ∀ i ∈ o.getD [], good i) fail)
    (hdeep : ∀ t, inv t → fail tooDeep t) (limit : Nat) {item : β} (hitem : good item) :
    Run.Meets inv (walk visit tooDeep limit item) (fun _ t => inv t) fail := by
  have hrun : ∀ (room : Nat) (pending : List (List β)) (s : σ), inv s →
      (∀ items ∈ pending, ∀ i ∈ items, good i) →
      match run visit tooDeep room pending s with
      | (.ok _, t) => inv t
      | (.error e, t) => fail e t := by
    intro room pending s hs hgood
    -- The items that wait stay good, and each visit keeps the invariant for those behind it.
    fun_induction run visit tooDeep room pending s with
    | case1 => exact hs
    | case2 room below s ih => exact ih hs (List.forall_mem_cons.mp hgood).2
    | case3 room s item rest below e t heq =>
      have hv := hvisit item (hgood _ List.mem_cons_self _ List.mem_cons_self) s hs
      rwa [heq] at hv
    | case4 room s item rest below t heq ih =>
      obtain ⟨hitems, hbelow⟩ := List.forall_mem_cons.mp hgood
      obtain ⟨hitem, hrest⟩ := List.forall_mem_cons.mp hitems
      have hv := hvisit item hitem s hs
      rw [heq] at hv
      exact ih hv.1 (List.forall_mem_cons.mpr ⟨hrest, hbelow⟩)
    | case5 s item rest below items t heq =>
      have hv := hvisit item (hgood _ List.mem_cons_self _ List.mem_cons_self) s hs
      rw [heq] at hv
      exact hdeep t hv.1
    | case6 s item rest below items t heq room ih =>
      obtain ⟨hitems, hbelow⟩ := List.forall_mem_cons.mp hgood
      obtain ⟨hitem, hrest⟩ := List.forall_mem_cons.mp hitems
      have hv := hvisit item hitem s hs
      rw [heq] at hv
      exact ih hv.1
        (List.forall_mem_cons.mpr ⟨hv.2, List.forall_mem_cons.mpr ⟨hrest, hbelow⟩⟩)
  intro s hs
  have hend := hrun limit [[item]] s hs (by simpa using hitem)
  rw [walk]
  rcases hr : run visit tooDeep limit [[item]] s with ⟨e | a, t⟩ <;> rw [hr] at hend
  · exact hend
  · exact hend

/-- A walk fails like its visits, or because it is too deep. -/
theorem run_fails {visit : β → ExceptT RecognitionError (StateM σ) (Option (List β))}
    {tooDeep : RecognitionError} {bad : RecognitionError → Prop} (hvisit : ∀ item, Run.Fails bad (visit item))
    (hdeep : bad tooDeep) {room : Nat} {pending : List (List β)} {s t : σ} {e : RecognitionError}
    (h : run visit tooDeep room pending s = (.error e, t)) : bad e := by
  fun_induction run visit tooDeep room pending s with
  | case1 => cases h
  | case2 _ _ _ ih => exact ih h
  | case3 _ _ item _ _ _ _ heq =>
    cases h
    exact hvisit item heq
  | case4 _ _ _ _ _ _ _ ih => exact ih h
  | case5 _ _ _ _ _ _ _ =>
    cases h
    exact hdeep
  | case6 _ _ _ _ _ _ _ _ ih => exact ih h

/-- A mark that visits leave in place is there in the end. -/
theorem run_marked {visit : β → ExceptT RecognitionError (StateM σ) (Option (List β))}
    {tooDeep : RecognitionError} {mark : σ → Prop}
    (hmark : ∀ item s r t, visit item s = (r, t) → mark s → mark t) {room : Nat}
    {pending : List (List β)} {s t : σ} {r : Except RecognitionError Unit}
    (h : run visit tooDeep room pending s = (r, t)) (hs : mark s) : mark t := by
  fun_induction run visit tooDeep room pending s with
  | case1 =>
    cases h
    exact hs
  | case2 _ _ _ ih => exact ih h hs
  | case3 _ _ _ _ _ _ _ heq =>
    cases h
    exact hmark _ _ _ _ heq hs
  | case4 _ s item _ _ u heq ih => exact ih h (hmark item s _ u heq hs)
  | case5 _ _ _ _ _ _ heq =>
    cases h
    exact hmark _ _ _ _ heq hs
  | case6 s item _ _ _ u heq _ ih => exact ih h (hmark item s _ u heq hs)

/-- Visits that are the same unless they leave a mark make the same walk unless it is marked. -/
theorem run_congr {visit visit' : β → ExceptT RecognitionError (StateM σ) (Option (List β))}
    {tooDeep : RecognitionError} {mark : σ → Prop}
    (hsame : ∀ item s r t, visit item s = (r, t) → ¬ mark t → visit' item s = (r, t))
    (hmark : ∀ item s r t, visit item s = (r, t) → mark s → mark t) {room : Nat}
    {pending : List (List β)} {s t : σ} {r : Except RecognitionError Unit}
    (h : run visit tooDeep room pending s = (r, t)) (ht : ¬ mark t) :
    run visit' tooDeep room pending s = (r, t) := by
  fun_induction run visit tooDeep room pending s with
  | case1 room s =>
    rw [run]
    exact h
  | case2 room below s ih =>
    rw [run]
    exact ih h
  | case3 room s item rest below e u heq =>
    cases h
    rw [run, hsame item s _ _ heq ht]
  | case4 room s item rest below u heq ih =>
    have hu : ¬ mark u := fun hu => ht (run_marked hmark h hu)
    rw [run, hsame item s _ _ heq hu]
    exact ih h
  | case5 s item rest below items u heq =>
    cases h
    rw [run, hsame item s _ _ heq ht]
  | case6 s item rest below items u heq room ih =>
    have hu : ¬ mark u := fun hu => ht (run_marked hmark h hu)
    rw [run, hsame item s _ _ heq hu]
    exact ih h

/-- Where an item waits first, one that corresponds to it does so on the other side. -/
theorem exists_of_forall₂_waiting {R : β → γ → Prop} {x : β} {rest : List β} {below : List (List β)}
    {pending : List (List γ)} (h : List.Forall₂ (List.Forall₂ R) ((x :: rest) :: below) pending) :
    ∃ y rest' below', pending = (y :: rest') :: below' ∧ R x y ∧ List.Forall₂ R rest rest' ∧
      List.Forall₂ (List.Forall₂ R) below below' := by
  obtain ⟨_, below', hitems, hbelow, rfl⟩ := List.forall₂_cons_left_iff.mp h
  obtain ⟨y, rest', hxy, hrest, rfl⟩ := List.forall₂_cons_left_iff.mp hitems
  exact ⟨y, rest', below', rfl, hxy, hrest, hbelow⟩

/-- Two walks through items that correspond end alike if their visits do.  What makes items
correspond may depend on the states, as long as it lasts while these change. -/
theorem run_matches {visit : β → ExceptT RecognitionError (StateM σ) (Option (List β))}
    {visit' : γ → ExceptT RecognitionError (StateM τ) (Option (List γ))}
    (tooDeep : RecognitionError) (world : σ → τ → Prop) (later : σ → τ → σ → τ → Prop)
    (item : σ → τ → β → γ → Prop)
    (hlater : ∀ {s t s' t' x y}, later s t s' t' → item s t x y → item s' t' x y)
    (hvisit : ∀ {s t x y}, world s t → item s t x y →
      Matches (fun o s' o' t' => world s' t' ∧ later s t s' t' ∧
        Option.Rel (List.Forall₂ (item s' t')) o o') world (visit x s) (visit' y t))
    {room : Nat} {pending : List (List β)} {pending' : List (List γ)} {s : σ} {t : τ}
    (hw : world s t) (hp : List.Forall₂ (List.Forall₂ (item s t)) pending pending') :
    Matches (fun _ s' _ t' => world s' t') world (run visit tooDeep room pending s)
      (run visit' tooDeep room pending' t) := by
  -- What waits corresponds list by list, in whatever states the visits have come to.
  fun_induction run visit tooDeep room pending s generalizing pending' t with
  | case1 room s =>
    cases hp
    rw [run]
    exact .ok hw
  | case2 room below s ih =>
    obtain ⟨_, below', hitems, hbelow, rfl⟩ := List.forall₂_cons_left_iff.mp hp
    obtain rfl := List.forall₂_nil_left_iff.mp hitems
    rw [run]
    exact ih hw hbelow
  | case3 room s x rest below e s' heq =>
    obtain ⟨y, rest', below', rfl, hxy, -, -⟩ := exists_of_forall₂_waiting hp
    obtain ⟨t', hv, hw'⟩ := (heq ▸ hvisit hw hxy).exists_of_error
    rw [run, hv]
    exact .error e hw'
  | case4 room s x rest below s' heq ih =>
    obtain ⟨y, rest', below', rfl, hxy, hrest, hbelow⟩ := exists_of_forall₂_waiting hp
    obtain ⟨_, t', hv, hw', hl, hrel⟩ := (heq ▸ hvisit hw hxy).exists_of_ok
    cases hrel
    rw [run, hv]
    exact ih hw' (.cons (hrest.imp fun _ _ => hlater hl)
      (hbelow.imp fun _ _ h => h.imp fun _ _ => hlater hl))
  | case5 s x rest below items s' heq =>
    obtain ⟨y, rest', below', rfl, hxy, -, -⟩ := exists_of_forall₂_waiting hp
    obtain ⟨_, t', hv, hw', -, hrel⟩ := (heq ▸ hvisit hw hxy).exists_of_ok
    cases hrel
    rw [run, hv]
    exact .error tooDeep hw'
  | case6 s x rest below items s' heq room ih =>
    obtain ⟨y, rest', below', rfl, hxy, hrest, hbelow⟩ := exists_of_forall₂_waiting hp
    obtain ⟨_, t', hv, hw', hl, hrel⟩ := (heq ▸ hvisit hw hxy).exists_of_ok
    cases hrel with
    | some hnew =>
      rw [run, hv]
      exact ih hw' (.cons hnew (.cons (hrest.imp fun _ _ => hlater hl)
        (hbelow.imp fun _ _ h => h.imp fun _ _ => hlater hl)))

end DepthFirst
end AdaptiveLL

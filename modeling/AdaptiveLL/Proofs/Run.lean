import Mathlib
import AdaptiveLL.Error

/-! # Two runs side by side

Equations for the steps of a run, contracts that a run meets whatever it ends with (`Run.Meets`), and
`Matches`, which compares how two runs end: both with a result or both with the same error, in related
states.  Runs that begin alike are compared step by step (`Matches.bind`).
-/
namespace AdaptiveLL

/-- How a run ends: with a result or an error, in a state. -/
abbrev Ending (σ α : Type) := Except RecognitionError α × σ

namespace Run
variable {σ α β : Type}

theorem pure_apply (a : α) (s : σ) : (pure a : Run σ α) s = (.ok a, s) := rfl

theorem get_apply (s : σ) : (get : Run σ σ) s = (.ok s, s) := rfl

theorem modify_apply (f : σ → σ) (s : σ) : (modify f : Run σ PUnit) s = (.ok ⟨⟩, f s) := rfl

theorem modifyGet_apply (f : σ → α × σ) (s : σ) :
    (modifyGet f : Run σ α) s = (.ok (f s).1, (f s).2) := rfl

theorem mk_apply (r : Except RecognitionError α) (s : σ) :
    (ExceptT.mk (pure r) : Run σ α) s = (r, s) := rfl

theorem bind_apply (m : Run σ α) (k : α → Run σ β) (s : σ) :
    (m >>= k) s =
      match m s with
      | (.ok a, t) => k a t
      | (.error e, t) => (.error e, t) := by
  change ExceptT.bindCont k (m s).1 (m s).2 = _
  rcases m s with ⟨_ | _, t⟩ <;> rfl

theorem tryCatch_apply (m : Run σ α) (handle : RecognitionError → Run σ α) (s : σ) :
    (tryCatch m handle : Run σ α) s =
      match m s with
      | (.ok a, t) => (.ok a, t)
      | (.error e, t) => handle e t := by
  simp only [tryCatch, tryCatchThe, MonadExceptOf.tryCatch, ExceptT.tryCatch, ExceptT.mk, bind,
    StateT.bind]
  rcases m s with ⟨_ | _, t⟩ <;> rfl

/-- A run that ends with a result came through its first step. -/
theorem exists_of_bind {m : Run σ α} {k : α → Run σ β} {s t : σ} {b : β}
    (h : (m >>= k) s = (.ok b, t)) : ∃ a u, m s = (.ok a, u) ∧ k a u = (.ok b, t) := by
  rw [bind_apply] at h
  rcases hm : m s with ⟨e | a, u⟩
  · rw [hm] at h
    cases h
  · rw [hm] at h
    exact ⟨a, u, rfl, h⟩

end Run

/-! ## What a run leaves alone -/

/-- A run leaves a part of the state as it is, however it ends. -/
def Run.Leaves {σ α γ : Type} (part : σ → γ) (m : Run σ α) : Prop := ∀ s, part (m s).2 = part s

namespace Run.Leaves
variable {σ α β γ : Type} {part : σ → γ}

theorem pure (a : α) : Leaves part (Pure.pure a : Run σ α) := fun _ => rfl

theorem throw (e : RecognitionError) : Leaves part (throw e : Run σ α) := fun _ => rfl

theorem get : Leaves part (MonadState.get : Run σ σ) := fun _ => rfl

theorem modify {f : σ → σ} (h : ∀ s, part (f s) = part s) : Leaves part (modify f : Run σ PUnit) :=
  fun s => h s

theorem modifyGet {f : σ → α × σ} (h : ∀ s, part (f s).2 = part s) :
    Leaves part (modifyGet f : Run σ α) := fun s => h s

theorem bind {m : Run σ α} {k : α → Run σ β} (hm : Leaves part m) (hk : ∀ a, Leaves part (k a)) :
    Leaves part (m >>= k) := by
  intro s
  rw [bind_apply]
  have hs := hm s
  rcases hr : m s with ⟨e | a, t⟩ <;> rw [hr] at hs
  · exact hs
  · exact (hk a t).trans hs

theorem ite {p : Prop} [Decidable p] {m m' : Run σ α} (hm : Leaves part m) (hm' : Leaves part m') :
    Leaves part (if p then m else m') := by
  split
  · exact hm
  · exact hm'

/-- What is read off a part that is left alone is left alone. -/
theorem map {δ : Type} {m : Run σ α} (hm : Leaves part m) (f : γ → δ) :
    Leaves (fun s => f (part s)) m := fun s => congrArg f (hm s)

end Run.Leaves

/-- However it ends, a run keeps what held of the state. -/
def Run.Preserves {σ α : Type} (inv : σ → Prop) (m : Run σ α) : Prop := ∀ s, inv s → inv (m s).2

namespace Run.Preserves
variable {σ α β : Type} {inv : σ → Prop}

theorem pure (a : α) : Preserves inv (Pure.pure a : Run σ α) := fun _ hs => hs

theorem throw (e : RecognitionError) : Preserves inv (throw e : Run σ α) := fun _ hs => hs

theorem get : Preserves inv (MonadState.get : Run σ σ) := fun _ hs => hs

theorem modify {f : σ → σ} (h : ∀ s, inv s → inv (f s)) : Preserves inv (modify f : Run σ PUnit) :=
  h

theorem bind {m : Run σ α} {k : α → Run σ β} (hm : Preserves inv m) (hk : ∀ a, Preserves inv (k a)) :
    Preserves inv (m >>= k) := by
  intro s hs
  have hm := hm s hs
  rw [bind_apply]
  rcases hr : m s with ⟨e | a, t⟩ <;> rw [hr] at hm
  · exact hm
  · exact hk a t hm

theorem ite {p : Prop} [Decidable p] {m m' : Run σ α} (hm : Preserves inv m)
    (hm' : Preserves inv m') : Preserves inv (if p then m else m') := by
  split
  · exact hm
  · exact hm'

end Run.Preserves

/-! ## What a run fails with -/

/-- Whatever error a run ends with has a property. -/
def Run.Fails {σ α : Type} (bad : RecognitionError → Prop) (m : Run σ α) : Prop :=
  ∀ ⦃s e t⦄, m s = (.error e, t) → bad e

namespace Run.Fails
variable {σ α β : Type} {bad bad' : RecognitionError → Prop}

theorem pure (a : α) : Fails bad (Pure.pure a : Run σ α) := fun _ _ _ h => nomatch h

theorem throw {e : RecognitionError} (h : bad e) : Fails bad (throw e : Run σ α) := fun s e' t h' => by
  cases h'
  exact h

theorem get : Fails bad (MonadState.get : Run σ σ) := fun _ _ _ h => nomatch h

theorem modify (f : σ → σ) : Fails bad (modify f : Run σ PUnit) := fun _ _ _ h => nomatch h

theorem modifyGet (f : σ → α × σ) : Fails bad (modifyGet f : Run σ α) := fun _ _ _ h => nomatch h

theorem bind {m : Run σ α} {k : α → Run σ β} (hm : Fails bad m) (hk : ∀ a, Fails bad (k a)) :
    Fails bad (m >>= k) := by
  intro s e t h
  rw [bind_apply] at h
  rcases hr : m s with ⟨e' | a, u⟩
  · rw [hr] at h
    cases h
    exact hm hr
  · rw [hr] at h
    exact hk a h

theorem ite {p : Prop} [Decidable p] {m m' : Run σ α} (hm : Fails bad m) (hm' : Fails bad m') :
    Fails bad (if p then m else m') := by
  split
  · exact hm
  · exact hm'

/-- An error that is caught comes out as what is done about it fails with. -/
theorem tryCatch {m : Run σ α} {handle : RecognitionError → Run σ α} (hm : Fails bad m)
    (hh : ∀ e, bad e → Fails bad (handle e)) : Fails bad (tryCatch m handle) := by
  intro s e t h
  rw [tryCatch_apply] at h
  rcases hr : m s with ⟨e' | a, u⟩ <;> rw [hr] at h
  · exact hh e' (hm hr) h
  · cases h

theorem forM {f : α → Run σ PUnit} (h : ∀ a, Fails bad (f a)) (l : List α) :
    Fails bad (l.forM f) := by
  induction l with
  | nil => exact pure _
  | cons a l ih => exact (h a).bind fun _ => ih

end Run.Fails

/-! ## What a run keeps -/

/-- A run that ends with a result keeps what held of the state, and the result has a property. -/
def Run.Keeps {σ α : Type} (inv : σ → Prop) (good : α → Prop) (m : Run σ α) : Prop :=
  ∀ ⦃s a t⦄, m s = (.ok a, t) → inv s → inv t ∧ good a

namespace Run.Keeps
variable {σ α β : Type} {inv : σ → Prop} {good : α → Prop} {good' : β → Prop}

theorem pure {a : α} (h : good a) : Keeps inv good (Pure.pure a : Run σ α) := fun s b t h' hs => by
  cases h'
  exact ⟨hs, h⟩

theorem modify {f : σ → σ} {good : PUnit → Prop} (h : ∀ s, inv s → inv (f s) ∧ good ⟨⟩) :
    Keeps inv good (modify f : Run σ PUnit) := fun s b t h' hs => by
  cases h'
  exact h s hs

theorem modifyGet {f : σ → α × σ} (h : ∀ s, inv s → inv (f s).2 ∧ good (f s).1) :
    Keeps inv good (modifyGet f : Run σ α) := fun s b t h' hs => by
  cases h'
  exact h s hs

theorem get {good : σ → Prop} (h : ∀ s, inv s → good s) :
    Keeps inv good (MonadState.get : Run σ σ) := fun s b t h' hs => by
  cases h'
  exact ⟨hs, h s hs⟩

theorem bind {m : Run σ α} {k : α → Run σ β} (hm : Keeps inv good m)
    (hk : ∀ a, good a → Keeps inv good' (k a)) : Keeps inv good' (m >>= k) := by
  intro s b t h hs
  obtain ⟨a, u, hm', hk'⟩ := exists_of_bind h
  obtain ⟨hu, ha⟩ := hm hm' hs
  exact hk a ha hk' hu

/-- As `bind`, when nothing is known of the result in between. -/
theorem andThen {m : Run σ α} {k : α → Run σ β} (hm : Keeps inv (fun _ => True) m)
    (hk : ∀ a, Keeps inv good' (k a)) : Keeps inv good' (m >>= k) := hm.bind fun a _ => hk a

theorem ite {p : Prop} [Decidable p] {m m' : Run σ α} (hm : Keeps inv good m)
    (hm' : Keeps inv good m') : Keeps inv good (if p then m else m') := by
  split
  · exact hm
  · exact hm'

theorem forM {f : α → Run σ PUnit} {l : List α} (h : ∀ a ∈ l, Keeps inv (fun _ => True) (f a)) :
    Keeps inv (fun _ => True) (l.forM f) := by
  induction l with
  | nil => exact pure trivial
  | cons a l ih =>
    rw [List.forall_mem_cons] at h
    exact h.1.bind fun _ _ => ih h.2

end Run.Keeps

/-! ## What a run is held to -/

/-- A run that begins where `pre` holds ends with a result, of which `post` holds with the state reached,
or with an error, of which `fail` does. -/
def Run.Meets {σ α : Type} (pre : σ → Prop) (m : Run σ α) (post : α → σ → Prop)
    (fail : RecognitionError → σ → Prop) : Prop :=
  ∀ s, pre s →
    match m s with
    | (.ok a, t) => post a t
    | (.error e, t) => fail e t

namespace Run.Meets
variable {σ α β : Type} {pre pre' : σ → Prop} {m : Run σ α} {mid : α → σ → Prop}
  {post post' : β → σ → Prop} {fail fail' : RecognitionError → σ → Prop}

theorem pure {a : β} (h : ∀ s, pre s → post a s) : Meets pre (Pure.pure a) post fail := h

theorem throw {e : RecognitionError} (h : ∀ s, pre s → fail e s) :
    Meets pre (throw e : Run σ β) post fail := h

theorem get {post : σ → σ → Prop} (h : ∀ s, pre s → post s s) :
    Meets pre (MonadState.get : Run σ σ) post fail := h

theorem modify {f : σ → σ} {post : PUnit → σ → Prop} (h : ∀ s, pre s → post ⟨⟩ (f s)) :
    Meets pre (modify f : Run σ PUnit) post fail := h

theorem modifyGet {f : σ → β × σ} (h : ∀ s, pre s → post (f s).1 (f s).2) :
    Meets pre (modifyGet f : Run σ β) post fail := h

theorem bind {k : α → Run σ β} (hm : Meets pre m mid fail) (hk : ∀ a, Meets (mid a) (k a) post fail) :
    Meets pre (m >>= k) post fail := by
  intro s hs
  have hm := hm s hs
  rw [bind_apply]
  rcases hr : m s with ⟨e | a, t⟩ <;> rw [hr] at hm
  · exact hm
  · exact hk a t hm

theorem ite {p : Prop} [Decidable p] {m m' : Run σ β} (hm : p → Meets pre m post fail)
    (hm' : ¬ p → Meets pre m' post fail) : Meets pre (if p then m else m') post fail := by
  by_cases h : p
  · rw [if_pos h]
    exact hm h
  · rw [if_neg h]
    exact hm' h

/-- A run may be held to less, from less many states. -/
theorem imp {m : Run σ β} (h : Meets pre m post fail) (hpre : ∀ s, pre' s → pre s)
    (hpost : ∀ b s, post b s → post' b s) (hfail : ∀ e s, fail e s → fail' e s) :
    Meets pre' m post' fail' := by
  intro s hs
  have hm := h s (hpre s hs)
  rcases hr : m s with ⟨e | b, t⟩ <;> rw [hr] at hm
  · exact hfail e t hm
  · exact hpost b t hm

end Run.Meets

/-! ## What a run maintains -/

/-- However it ends, a run keeps what held of the state, and a result has a property. -/
def Run.Maintains {σ α : Type} (inv : σ → Prop) (good : α → Prop) (m : Run σ α) : Prop :=
  Meets inv m (fun a s => good a ∧ inv s) fun _ s => inv s

namespace Run.Maintains
variable {σ α β γ : Type} {inv : σ → Prop} {good : α → Prop} {good' : β → Prop} {part : σ → γ}

theorem pure {a : α} (h : good a) : Maintains inv good (Pure.pure a : Run σ α) := fun _ hs => ⟨h, hs⟩

theorem throw (e : RecognitionError) : Maintains inv good (throw e : Run σ α) := fun _ hs => hs

theorem get : Maintains inv inv (MonadState.get : Run σ σ) := fun _ hs => ⟨hs, hs⟩

theorem modify {f : σ → σ} (h : ∀ s, inv s → inv (f s)) :
    Maintains inv (fun _ => True) (modify f : Run σ PUnit) := fun s hs => ⟨trivial, h s hs⟩

theorem modifyGet {f : σ → α × σ} (h : ∀ s, inv s → good (f s).1 ∧ inv (f s).2) :
    Maintains inv good (modifyGet f : Run σ α) := h

theorem bind {m : Run σ α} {k : α → Run σ β} (hm : Maintains inv good m)
    (hk : ∀ a, good a → Maintains inv good' (k a)) : Maintains inv good' (m >>= k) :=
  Meets.bind hm fun a s hs => hk a hs.1 s hs.2

theorem ite {p : Prop} [Decidable p] {m m' : Run σ α} (hm : Maintains inv good m)
    (hm' : Maintains inv good m') : Maintains inv good (if p then m else m') := by
  split
  · exact hm
  · exact hm'

/-- A run that leaves alone what the invariant is about. -/
theorem of_leaves {m : Run σ α} (hm : Leaves part m)
    (hpart : ∀ s t, part t = part s → inv s → inv t) : Maintains inv (fun _ => True) m := by
  intro s hs
  have hleaves := hm s
  rcases hr : m s with ⟨e | a, t⟩ <;> rw [hr] at hleaves
  · exact hpart s t hleaves hs
  · exact ⟨trivial, hpart s t hleaves hs⟩

/-- What held of the state holds in the end. -/
theorem preserves {m : Run σ α} (h : Maintains inv good m) : Preserves inv m := by
  intro s hs
  have hend := h s hs
  rcases hr : m s with ⟨e | a, t⟩ <;> rw [hr] at hend
  · exact hend
  · exact hend.2

end Run.Maintains

/-- Two runs end alike: with results, or with the same error. -/
inductive Matches {σ τ α β : Type} (good : α → σ → β → τ → Prop) (bad : σ → τ → Prop) :
    Ending σ α → Ending τ β → Prop
  | ok {x : α} {s : σ} {y : β} {t : τ} : good x s y t → Matches good bad (.ok x, s) (.ok y, t)
  | error (e : RecognitionError) {s : σ} {t : τ} : bad s t →
      Matches good bad (.error e, s) (.error e, t)

namespace Matches
variable {σ τ α β γ δ : Type}

theorem imp {good good' : α → σ → β → τ → Prop} {bad bad' : σ → τ → Prop} {a : Ending σ α}
    {b : Ending τ β} (h : Matches good bad a b) (hgood : ∀ x s y t, good x s y t → good' x s y t)
    (hbad : ∀ s t, bad s t → bad' s t) : Matches good' bad' a b := by
  cases h with
  | ok h => exact .ok (hgood _ _ _ _ h)
  | error e h => exact .error e (hbad _ _ h)

/-- What matches a result is a result. -/
theorem exists_of_ok {good : α → σ → β → τ → Prop} {bad : σ → τ → Prop} {x : α} {s : σ} {b : Ending τ β}
    (h : Matches good bad (.ok x, s) b) : ∃ y t, b = (.ok y, t) ∧ good x s y t := by
  cases h with
  | ok h => exact ⟨_, _, rfl, h⟩

/-- What matches an error is that error. -/
theorem exists_of_error {good : α → σ → β → τ → Prop} {bad : σ → τ → Prop} {e : RecognitionError} {s : σ}
    {b : Ending τ β} (h : Matches good bad (.error e, s) b) : ∃ t, b = (.error e, t) ∧ bad s t := by
  cases h with
  | error _ h => exact ⟨_, rfl, h⟩

/-- Runs that match so far match further if what follows does. -/
theorem bind {good : α → σ → β → τ → Prop} {bad : σ → τ → Prop} {good' : γ → σ → δ → τ → Prop}
    {m : Run σ α} {m' : Run τ β} {k : α → Run σ γ} {k' : β → Run τ δ} {s : σ} {t : τ}
    (h : Matches good bad (m s) (m' t))
    (hk : ∀ x s y t, good x s y t → Matches good' bad (k x s) (k' y t)) :
    Matches good' bad ((m >>= k) s) ((m' >>= k') t) := by
  rw [Run.bind_apply, Run.bind_apply]
  cases hm : m s with
  | mk r s' =>
    cases hm' : m' t with
    | mk r' t' =>
      rw [hm, hm'] at h
      cases h with
      | ok h => exact hk _ _ _ _ h
      | error e h => exact .error e h

end Matches
end AdaptiveLL

import Mathlib
import AdaptiveLL.Proofs.StackGraph.Alike

/-! # Coupled runs

Two runs whose states hold a stack graph each are coupled by a relation between their states.  They
agree if they end alike, in states that are related again and whose graphs have grown, with results
that correspond in these graphs (`Coupling.Agree`).  Agreement is put together step by step.
-/
namespace AdaptiveLL
open StackGraph (Paired)

/-- A relation between the states of two runs that hold stack graphs. -/
structure Coupling (σ τ : Type) where
  graph : σ → StackGraph
  graph' : τ → StackGraph
  related : σ → τ → Prop
  truthful : ∀ {s t}, related s t → (graph s).Truthful ∧ (graph' t).Truthful

namespace Coupling
variable {σ τ α β γ δ : Type} (C : Coupling σ τ)

/-- Later states: related again, with graphs that have grown. -/
structure Later (s : σ) (t : τ) (s' : σ) (t' : τ) : Prop where
  related : C.related s' t'
  paired : Paired (C.graph s) (C.graph' t) (C.graph s') (C.graph' t')

/-- The endings of two runs that began in `s` and `t` correspond. -/
def Agree (s : σ) (t : τ) (R : StackGraph → StackGraph → α → β → Prop) (a : Ending σ α)
    (b : Ending τ β) : Prop :=
  Matches (fun x s' y t' => C.Later s t s' t' ∧ R (C.graph s') (C.graph' t') x y) (C.Later s t) a b

variable {C} {s s' s'' : σ} {t t' t'' : τ} {R : StackGraph → StackGraph → α → β → Prop}

theorem Later.refl (h : C.related s t) : C.Later s t s t :=
  ⟨h, Paired.refl (C.truthful h).1 (C.truthful h).2⟩

theorem Later.trans (h : C.Later s t s' t') (h' : C.Later s' t' s'' t'') : C.Later s t s'' t'' :=
  ⟨h'.related, h.paired.trans h'.paired⟩

namespace Agree

theorem pure {x : α} {y : β} (h : C.related s t) (hR : R (C.graph s) (C.graph' t) x y) :
    C.Agree s t R (.ok x, s) (.ok y, t) :=
  Matches.ok ⟨.refl h, hR⟩

theorem error (e : RecognitionError) (h : C.related s t) :
    C.Agree s t R (.error e, s) (.error e, t) :=
  Matches.error e (.refl h)

/-- A later agreement counts from earlier on. -/
theorem after {a : Ending σ α} {b : Ending τ β} (h : C.Later s t s' t')
    (hab : C.Agree s' t' R a b) : C.Agree s t R a b :=
  hab.imp (fun _ _ _ _ hg => ⟨h.trans hg.1, hg.2⟩) fun _ _ hb => h.trans hb

/-- Runs agree if their first steps do and, from wherever these lead, the rest does. -/
theorem bind {Q : StackGraph → StackGraph → γ → δ → Prop} {m : Run σ α} {m' : Run τ β}
    {k : α → Run σ γ} {k' : β → Run τ δ} (hm : C.Agree s t R (m s) (m' t))
    (hk : ∀ x y s' t', C.Later s t s' t' → R (C.graph s') (C.graph' t') x y →
      C.Agree s' t' Q (k x s') (k' y t')) :
    C.Agree s t Q ((m >>= k) s) ((m' >>= k') t) :=
  Matches.bind hm fun x s' y t' h => (hk x y s' t' h.1 h.2).after h.1

end Agree
end Coupling
end AdaptiveLL

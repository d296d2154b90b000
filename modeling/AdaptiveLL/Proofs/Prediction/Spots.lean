import Mathlib
import AdaptiveLL.Proofs.Network.Machine
import AdaptiveLL.Proofs.Prediction.Alike
import AdaptiveLL.Proofs.StackGraph.Covers

/-! # The spots that configurations stand for

A configuration stands for the spots at its state with a stack that its stacks cover.  A set over a
known caller's stack covers just the stacks that are there; in any other set the empty stack stands for
every stack.

`ConfigSet.Gains` says what adding configurations to a set comes to: the set covers what it covered
before and what the new configurations cover, and with a known caller nothing else.
-/
namespace AdaptiveLL
open StackGraph (Extends)

/-- Whether a configuration covers a spot, for its alternative. -/
structure Config.Covers (wildcard : Bool) (g : StackGraph) (c : Config) (alt : Nat) (s : Spot) :
    Prop where
  alt : c.alt = alt
  state : c.state = s.state
  stack : StackGraph.Covers wildcard (g.stackSet c.stack) s.stack

/-- Whether some configuration of a list covers a spot. -/
def Config.AnyCovers (wildcard : Bool) (g : StackGraph) (cs : List Config) (alt : Nat) (s : Spot) :
    Prop :=
  ∃ c ∈ cs, c.Covers wildcard g alt s

namespace Config.Covers
variable {w : Bool} {g h : StackGraph} {c : Config} {alt : Nat} {s : Spot}

theorem iff_of_extends (e : Extends g h) (hg : g.Truthful) (hh : h.Truthful)
    (hc : g.knows c.stack) : c.Covers w h alt s ↔ c.Covers w g alt s := by
  have heq := e.stackSet hg.toSound hh.toSound hc
  constructor
  · exact fun ⟨ha, hs, hr⟩ => ⟨ha, hs, heq ▸ hr⟩
  · exact fun ⟨ha, hs, hr⟩ => ⟨ha, hs, heq ▸ hr⟩

end Config.Covers

theorem Config.anyCovers_iff {w : Bool} {g h : StackGraph} {cs : List Config} {alt : Nat} {s : Spot}
    (e : Extends g h) (hg : g.Truthful) (hh : h.Truthful) (hcs : ∀ c ∈ cs, g.knows c.stack) :
    Config.AnyCovers w h cs alt s ↔ Config.AnyCovers w g cs alt s :=
  exists_congr fun c => and_congr_right fun hc => Config.Covers.iff_of_extends e hg hh (hcs c hc)

namespace ConfigSet
variable {g h k : StackGraph} {t t' u : ConfigSet} {P Q : Nat → Spot → Prop}

/-- Whether some configuration of a set covers a spot. -/
def Covers (g : StackGraph) (t : ConfigSet) : Nat → Spot → Prop :=
  Config.AnyCovers (!t.fullContext) g t.toList

/-- A set to which configurations are still added, and whose stacks are in a graph. -/
structure Sits (g : StackGraph) (t : ConfigSet) : Prop where
  isOpen : t.Open
  known : ∀ c ∈ t.toList, g.knows c.stack

theorem sits_empty (g : StackGraph) (fullContext : Bool) : (empty fullContext).Sits g :=
  ⟨open_empty _, fun _ hc => absurd hc List.not_mem_nil⟩

theorem not_covers_empty {fullContext : Bool} {alt : Nat} {s : Spot} :
    ¬ (empty fullContext).Covers g alt s :=
  fun ⟨_, hc, _⟩ => List.not_mem_nil hc

theorem covers_iff {alt : Nat} {s : Spot} (e : Extends g h) (hg : g.Truthful) (hh : h.Truthful)
    (ht : t.Sits g) : t.Covers h alt s ↔ t.Covers g alt s :=
  Config.anyCovers_iff e hg hh ht.known

/-- A set `t` has gained configurations that cover `P`, and their stacks were added to the graph. -/
structure Gains (g : StackGraph) (t : ConfigSet) (P : Nat → Spot → Prop) (t' : ConfigSet)
    (g' : StackGraph) : Prop where
  truthful : g'.Truthful
  grows : Extends g g'
  sits : t'.Sits g'
  fullContext : t'.fullContext = t.fullContext
  covers : ∀ alt s, t.Covers g alt s ∨ P alt s → t'.Covers g' alt s
  only : t.fullContext → ∀ alt s, t'.Covers g' alt s → t.Covers g alt s ∨ P alt s

namespace Gains

theorem refl (hg : g.Truthful) (ht : t.Sits g) : Gains g t (fun _ _ => False) t g :=
  ⟨hg, Extends.refl g, ht, rfl, fun _ _ h => h.resolve_right id, fun _ _ _ => .inl⟩

theorem trans (hg : Gains g t P t' h) (hg' : Gains h t' Q u k) :
    Gains g t (fun alt s => P alt s ∨ Q alt s) u k where
  truthful := hg'.truthful
  grows := hg.grows.trans hg'.grows
  sits := hg'.sits
  fullContext := hg'.fullContext.trans hg.fullContext
  covers alt s := by
    rw [← or_assoc]
    rintro (hs | hs)
    · exact hg'.covers alt s (.inl (hg.covers alt s hs))
    · exact hg'.covers alt s (.inr hs)
  only hf alt s hs := by
    rw [← or_assoc]
    rcases hg'.only (hg.fullContext.trans hf) alt s hs with hs | hs
    · exact .inl (hg.only hf alt s hs)
    · exact .inr hs

theorem congr (hg : Gains g t P t' h) (hPQ : ∀ alt s, P alt s ↔ Q alt s) : Gains g t Q t' h := by
  obtain rfl : P = Q := funext fun alt => funext fun s => propext (hPQ alt s)
  exact hg

end Gains

/-- What is at a position of the list is one of the configurations. -/
theorem mem_of_getElem? {i : Nat} {c : Config} (h : t.configs[i]? = some c) : c ∈ t.toList := by
  rw [toList]
  rw [← Array.getElem?_toList] at h
  exact List.mem_of_getElem? h

/-- A configuration that joins an entry merges its stacks into it. -/
theorem exists_entry {c : Config} {i : Nat} (h : t.toList.findIdx? c.mergesWith = some i) :
    ∃ old, t.configs[i]? = some old ∧ old ∈ t.toList ∧ old.state = c.state ∧ old.alt = c.alt := by
  obtain ⟨hlt, hm, -⟩ := List.findIdx?_eq_some_iff_getElem.mp h
  have hget : t.configs[i]? = some t.toList[i] := by
    rw [← Array.getElem?_toList]
    exact List.getElem?_eq_getElem hlt
  simp only [Config.mergesWith, Bool.and_eq_true, decide_eq_true_eq] at hm
  exact ⟨_, hget, mem_of_getElem? hget, hm.1.1.symm, hm.1.2.symm⟩

/-- Replacing an entry of a list leaves the others in it. -/
theorem eq_or_mem_set {l : List Config} {i : Nat} {c d : Config} (hget : l[i]? = some c) (hd : d ∈ l)
    (new : Config) : d = c ∨ d ∈ l.set i new := by
  obtain ⟨j, hj, rfl⟩ := List.mem_iff_getElem.mp hd
  by_cases hij : i = j
  · subst hij
    exact .inl (Option.some.inj ((List.getElem?_eq_getElem hj).symm.trans hget))
  · exact .inr (List.mem_iff_getElem.mpr ⟨j, by simpa using hj, by rw [List.getElem_set_ne hij]⟩)

/-- A configuration that joins no entry is appended. -/
theorem gains_push (hg : g.Truthful) (ht : t.Sits g) {c : Config} (hc : g.knows c.stack)
    (hopen : ({ t.noting c with configs := t.configs.push c } : ConfigSet).Open) :
    Gains g t (c.Covers (!t.fullContext) g) { t.noting c with configs := t.configs.push c } g := by
  have hlist : ({ t.noting c with configs := t.configs.push c } : ConfigSet).toList =
      t.toList ++ [c] := Array.toList_push
  have hiff : ∀ alt s, ({ t.noting c with configs := t.configs.push c } : ConfigSet).Covers g alt s
      ↔ t.Covers g alt s ∨ c.Covers (!t.fullContext) g alt s := by
    intro alt s
    simp only [Covers, Config.AnyCovers, hlist, List.mem_append, List.mem_singleton, or_and_right,
      exists_or, exists_eq_left]
    exact Iff.rfl
  refine ⟨hg, Extends.refl g, ⟨hopen, fun d hd => ?_⟩, rfl, fun alt s => (hiff alt s).mpr,
    fun _ alt s => (hiff alt s).mp⟩
  rcases List.mem_append.mp (hlist ▸ hd) with hd | hd
  · exact ht.known d hd
  · exact List.mem_singleton.mp hd ▸ hc

/-- A configuration that joins an entry is merged into it: the merged stacks cover what those of either did,
and in full context nothing else. -/
theorem gains_merge (hg : g.Truthful) (ht : t.Sits g) {c old : Config} {i : Nat} (hc : g.knows c.stack)
    (hidx : t.toList.findIdx? c.mergesWith = some i) (hold : t.configs[i]? = some old)
    (hopen : ({ t.noting c with configs := t.configs.set! i { old with
      stack := (g.merge old.stack c.stack (!t.fullContext)).1
      outerReach := max old.outerReach c.outerReach } } : ConfigSet).Open) :
    Gains g t (c.Covers (!t.fullContext) g)
      { t.noting c with configs := t.configs.set! i { old with
        stack := (g.merge old.stack c.stack (!t.fullContext)).1
        outerReach := max old.outerReach c.outerReach } }
      (g.merge old.stack c.stack (!t.fullContext)).2 := by
  obtain ⟨old', hold', hmem, hstate, halt⟩ := exists_entry hidx
  obtain rfl := Option.some.inj (hold.symm.trans hold')
  have hm := hg.merge (ht.known old hmem) hc (!t.fullContext)
  generalize g.merge old.stack c.stack (!t.fullContext) = out at hm hopen
  obtain ⟨r, g'⟩ := out
  have hget : t.toList[i]? = some old := by rwa [toList, Array.getElem?_toList]
  set merged : Config := { old with stack := r, outerReach := max old.outerReach c.outerReach }
    with hmerged
  have hlist : ({ t.noting c with configs := t.configs.set! i merged } : ConfigSet).toList =
      t.toList.set i merged := by
    simp only [toList, Array.set!_eq_setIfInBounds, Array.toList_setIfInBounds]
  have hthere : merged ∈ t.toList.set i merged :=
    List.mem_iff_getElem.mpr
      ⟨i, by simpa using (List.getElem?_eq_some_iff.mp hget).1, List.getElem_set_self _⟩
  have hcover : ∀ alt s, old.Covers (!t.fullContext) g alt s ∨ c.Covers (!t.fullContext) g alt s →
      merged.Covers (!t.fullContext) g' alt s := by
    rintro alt s (⟨h1, h2, h3⟩ | ⟨h1, h2, h3⟩)
    · exact ⟨h1, h2, hm.joined ▸ StackGraph.covers_joined (.inl h3)⟩
    · exact ⟨halt.trans h1, hstate.trans h2, hm.joined ▸ StackGraph.covers_joined (.inr h3)⟩
  refine ⟨hm.truthful, hm.grows, ⟨hopen, fun d hd => ?_⟩, rfl, ?_, ?_⟩
  · rcases List.mem_or_eq_of_mem_set (hlist ▸ hd) with hd | rfl
    · exact hm.grows.knows (ht.known d hd)
    · exact hm.known
  · rintro alt s (⟨d, hd, hds⟩ | hcs)
    · rcases eq_or_mem_set hget hd merged with rfl | hd'
      · exact ⟨merged, hlist ▸ hthere, hcover alt s (.inl hds)⟩
      · exact ⟨d, hlist ▸ hd',
          (Config.Covers.iff_of_extends hm.grows hg hm.truthful (ht.known d hd)).mpr hds⟩
    · exact ⟨merged, hlist ▸ hthere, hcover alt s (.inr hcs)⟩
  · rintro hf alt s ⟨d, hd, hds⟩
    rcases List.mem_or_eq_of_mem_set (hlist ▸ hd) with hd | rfl
    · exact .inl ⟨d, hd,
        (Config.Covers.iff_of_extends hm.grows hg hm.truthful (ht.known d hd)).mp hds⟩
    · -- Without the wildcard, what merged stacks cover one of the two covers already.
      obtain ⟨h1, h2, h3⟩ := hds
      have hjoined := hm.joined
      change StackGraph.Covers (!t.fullContext) (g'.stackSet r) s.stack at h3
      rw [hf] at h3 hjoined
      rw [hjoined] at h3
      change Config.AnyCovers (!t.fullContext) g t.toList alt s ∨ _
      rw [hf]
      rcases StackGraph.covers_of_joined h3 with h3 | h3
      · exact .inl ⟨old, hmem, h1, h2, h3⟩
      · exact .inr ⟨halt.symm.trans h1, hstate.symm.trans h2, h3⟩

/-- Adding a configuration. -/
theorem gains_insert (hg : g.Truthful) (ht : t.Sits g) {c : Config} (hc : g.knows c.stack) :
    Gains g t (c.Covers (!t.fullContext) g) (t.insert c g).1 (t.insert c g).2 := by
  have hopen := ht.isOpen.insert c g
  rw [insert_of_open ht.isOpen] at hopen ⊢
  cases hidx : t.toList.findIdx? c.mergesWith with
  | none =>
    simp only [hidx] at hopen
    exact gains_push hg ht hc hopen
  | some i =>
    obtain ⟨old, hold, -⟩ := exists_entry hidx
    simp only [hidx, hold] at hopen ⊢
    exact gains_merge hg ht hc hidx hold hopen

/-- Adding configurations one after another. -/
theorem gains_insertAll (hg : g.Truthful) (ht : t.Sits g) {cs : List Config}
    (hcs : ∀ c ∈ cs, g.knows c.stack) :
    Gains g t (Config.AnyCovers (!t.fullContext) g cs) (t.insertAll cs g).1
      (t.insertAll cs g).2 := by
  induction cs generalizing t g with
  | nil =>
    refine (Gains.refl hg ht).congr fun alt s => ?_
    simp [Config.AnyCovers]
  | cons c cs ih =>
    rw [List.forall_mem_cons] at hcs
    have hfirst := gains_insert hg ht hcs.1
    have hrest := ih hfirst.truthful hfirst.sits fun d hd => hfirst.grows.knows (hcs.2 d hd)
    refine (hfirst.trans hrest).congr fun alt s => ?_
    rw [hfirst.fullContext, Config.anyCovers_iff hfirst.grows hg hfirst.truthful hcs.2]
    simp [Config.AnyCovers]

end ConfigSet
end AdaptiveLL

import Mathlib
import AdaptiveLL.Config
import AdaptiveLL.Proofs.StackGraph.Alike

/-! # Configurations side by side

Configurations of two recognisers are alike if they say the same: state, alternative, guard and
stacks, where the stacks are read in the graph of each.  How often a path returned past its rule
is no part of what a configuration is, so it is compared only where `strict` asks for it.

Alike sets list alike configurations in one order.  Adding alike configurations to alike sets
that are still open gives alike sets (`ConfigSet.Alike.insert`).
-/
namespace AdaptiveLL
open StackGraph (SameStacks Paired)

section Lists
variable {α β : Type} {R : α → β → Prop}

theorem forall₂_getElem? {l : List α} {l' : List β} (h : List.Forall₂ R l l') (i : Nat) :
    Option.Rel R l[i]? l'[i]? := by
  induction h generalizing i with
  | nil => exact .none
  | cons hxy _ ih =>
    cases i with
    | zero => exact .some hxy
    | succ i => exact ih i

theorem forall₂_set {l : List α} {l' : List β} (h : List.Forall₂ R l l') {x : α} {y : β}
    (hxy : R x y) (i : Nat) : List.Forall₂ R (l.set i x) (l'.set i y) := by
  induction h generalizing i with
  | nil => exact .nil
  | cons hab hrest ih =>
    cases i with
    | zero => exact .cons hxy hrest
    | succ i => exact .cons hab (ih i)

theorem findIdx?_eq_of_forall₂ {l : List α} {l' : List β} (h : List.Forall₂ R l l') {p : α → Bool}
    {q : β → Bool} (hpq : ∀ x y, R x y → p x = q y) : l.findIdx? p = l'.findIdx? q := by
  induction h with
  | nil => rfl
  | cons hxy _ ih => rw [List.findIdx?_cons, List.findIdx?_cons, hpq _ _ hxy, ih]

end Lists

/-- Configurations that say the same, each in its graph. -/
structure Config.Alike (strict : Bool) (g h : StackGraph) (c d : Config) : Prop where
  state : c.state = d.state
  alt : c.alt = d.alt
  guard : c.guard = d.guard
  commands : c.commands = d.commands
  passedLazy : c.passedLazy = d.passedLazy
  reach : strict → c.outerReach = d.outerReach
  stack : SameStacks g h c.stack d.stack

namespace Config.Alike
variable {strict : Bool} {g h g' h' : StackGraph} {c d c' d' : Config}

theorem mono (hg : g.Truthful) (hh : h.Truthful) (p : Paired g h g' h')
    (a : Config.Alike strict g h c d) : Config.Alike strict g' h' c d :=
  { a with stack := a.stack.mono hg hh p }

theorem symm (a : Config.Alike strict g h c d) : Config.Alike strict h g d c :=
  ⟨a.state.symm, a.alt.symm, a.guard.symm, a.commands.symm, a.passedLazy.symm,
    fun hs => (a.reach hs).symm, a.stack.symm⟩

theorem trans {k : StackGraph} {e : Config} (a : Config.Alike strict g h c d)
    (b : Config.Alike strict h k d e) : Config.Alike strict g k c e :=
  ⟨a.state.trans b.state, a.alt.trans b.alt, a.guard.trans b.guard, a.commands.trans b.commands,
    a.passedLazy.trans b.passedLazy, fun hs => (a.reach hs).trans (b.reach hs),
    a.stack.trans b.stack⟩

theorem refl (hc : g.knows c.stack) : Config.Alike strict g g c c :=
  ⟨rfl, rfl, rfl, rfl, rfl, fun _ => rfl, .refl hc⟩

/-- Where the reach does not count, only less is asked. -/
theorem lax (a : Config.Alike strict g h c d) : Config.Alike false g h c d :=
  { a with reach := fun hs => nomatch hs }

theorem moveTo (a : Config.Alike strict g h c d) (state : Nat) :
    Config.Alike strict g h (c.moveTo state) (d.moveTo state) :=
  { a with state := rfl }

theorem returnTo (a : Config.Alike strict g h c d) (state : Nat) {r s : StackRef}
    (hs : SameStacks g h r s) :
    Config.Alike strict g h (c.returnTo state r) (d.returnTo state s) :=
  { a with state := rfl, stack := hs }

theorem mergesWith_eq (a : Config.Alike strict g h c d) (a' : Config.Alike strict g h c' d') :
    c.mergesWith c' = d.mergesWith d' := by
  simp only [mergesWith, a.state, a.alt, a.guard, a'.state, a'.alt, a'.guard]

theorem isGuarded_eq (a : Config.Alike strict g h c d) : c.isGuarded = d.isGuarded := by
  rw [isGuarded, isGuarded, a.guard]

/-- Apart from the reach, two configurations of one graph are one exactly if their counterparts
are. -/
theorem identity_eq_iff (hg : g.Truthful) (hh : h.Truthful) (a : Config.Alike strict g h c d)
    (a' : Config.Alike strict g h c' d') : c.identity = c'.identity ↔ d.identity = d'.identity := by
  have hs := a.stack.eq_iff hg hh a'.stack
  simp only [identity, Config.mk.injEq, a.state, a.alt, a.guard, a.commands, a.passedLazy, a'.state,
    a'.alt, a'.guard, a'.commands, a'.passedLazy, hs]

end Config.Alike

namespace ConfigSet

/-- Sets that list alike configurations and have recorded the same. -/
structure Alike (strict : Bool) (g h : StackGraph) (s t : ConfigSet) : Prop where
  configs : List.Forall₂ (Config.Alike strict g h) s.toList t.toList
  fullContext : s.fullContext = t.fullContext
  hasGuards : s.hasGuards = t.hasGuards
  uniqueAlt : s.uniqueAlt = t.uniqueAlt
  conflictingAlts : s.conflictingAlts = t.conflictingAlts
  dips : strict → s.dipsOutside = t.dipsOutside

/-- A set to which configurations are still added, and that merges stacks: nothing was determined
of it as a whole. -/
structure Open (s : ConfigSet) : Prop where
  unsealed : s.sealed = 0
  unordered : s.ordered = false
  noUnique : s.uniqueAlt = none
  noConflict : s.conflictingAlts = none

theorem open_empty (fullContext : Bool) : (empty fullContext).Open := ⟨rfl, rfl, rfl, rfl⟩

/-- What a set records, whatever becomes of its entries. -/
theorem exists_insert_eq (s : ConfigSet) (c : Config) (g : StackGraph) :
    ∃ configs, (s.insert c g).1 = { s.noting c with configs } := by
  unfold insert add
  dsimp only
  split
  · exact ⟨_, rfl⟩
  · split
    · exact ⟨_, rfl⟩
    · split
      · exact ⟨_, rfl⟩
      · exact ⟨_, rfl⟩

theorem fullContext_insert (s : ConfigSet) (c : Config) (g : StackGraph) :
    (s.insert c g).1.fullContext = s.fullContext := by
  obtain ⟨configs, h⟩ := s.exists_insert_eq c g
  rw [h]
  rfl

theorem hasGuards_insert (s : ConfigSet) (c : Config) (g : StackGraph) :
    (s.insert c g).1.hasGuards = (s.hasGuards || c.isGuarded) := by
  obtain ⟨configs, h⟩ := s.exists_insert_eq c g
  rw [h]
  rfl

theorem dipsOutside_insert (s : ConfigSet) (c : Config) (g : StackGraph) :
    (s.insert c g).1.dipsOutside = (s.dipsOutside || decide (0 < c.outerReach)) := by
  obtain ⟨configs, h⟩ := s.exists_insert_eq c g
  rw [h]
  rfl

/-- All entries of an open set may be joined. -/
theorem entryFor?_noting {s : ConfigSet} (hs : s.Open) (c : Config) :
    (s.noting c).entryFor? c = s.toList.findIdx? c.mergesWith := by
  unfold entryFor? noting toList
  simp only [hs.unsealed, List.drop_zero, Nat.add_zero, Option.map_id']
  refine congrArg (s.configs.toList.findIdx? ·) (funext fun d => ?_)
  simp [joins, hs.unordered]

/-- What adding a configuration to an open set does: it is put last, or it is merged into the first
entry that it joins. -/
theorem insert_of_open {s : ConfigSet} (hs : s.Open) (c : Config) (g : StackGraph) :
    s.insert c g =
      match s.toList.findIdx? c.mergesWith with
      | none => ({ s.noting c with configs := s.configs.push c }, g)
      | some i =>
        match s.configs[i]? with
        | none => (s.noting c, g)
        | some old =>
          let merged := g.merge old.stack c.stack (!s.fullContext)
          ({ s.noting c with
              configs := s.configs.set! i
                { old with stack := merged.1, outerReach := max old.outerReach c.outerReach } },
            merged.2) := by
  have hentry := entryFor?_noting hs c
  unfold insert add
  simp only [hentry]
  cases s.toList.findIdx? c.mergesWith with
  | none => rfl
  | some i =>
    have hord : (s.noting c).ordered = false := hs.unordered
    simp only [hord, Bool.false_eq_true, if_false]
    change (match s.configs[i]? with | none => _ | some old => _ : Bool × ConfigSet × StackGraph).2 = _
    cases s.configs[i]? <;> rfl

theorem Open.insert {s : ConfigSet} (hs : s.Open) (c : Config) (g : StackGraph) :
    (s.insert c g).1.Open := by
  rw [insert_of_open hs]
  split
  · exact { hs with }
  · split
    · exact { hs with }
    · exact { hs with }

namespace Alike
variable {strict : Bool} {g h g' h' : StackGraph} {s t : ConfigSet} {c d : Config}

theorem mono (hg : g.Truthful) (hh : h.Truthful) (p : Paired g h g' h')
    (a : Alike strict g h s t) : Alike strict g' h' s t :=
  { a with configs := a.configs.imp fun _ _ hc => hc.mono hg hh p }

theorem lax (a : Alike strict g h s t) : Alike false g h s t :=
  { a with
    configs := a.configs.imp fun _ _ hc => hc.lax
    dips := fun hs => nomatch hs }

theorem symm (a : Alike strict g h s t) : Alike strict h g t s where
  configs := (List.Forall₂.flip (a.configs.imp fun _ _ hc => hc.symm))
  fullContext := a.fullContext.symm
  hasGuards := a.hasGuards.symm
  uniqueAlt := a.uniqueAlt.symm
  conflictingAlts := a.conflictingAlts.symm
  dips hs := (a.dips hs).symm

theorem empty (fullContext : Bool) :
    Alike strict g h (ConfigSet.empty fullContext) (ConfigSet.empty fullContext) :=
  ⟨.nil, rfl, rfl, rfl, rfl, fun _ => rfl⟩

/-- Recording alike configurations. -/
theorem noting (a : Alike strict g h s t) (hc : Config.Alike strict g h c d) :
    Alike strict g h (s.noting c) (t.noting d) where
  configs := a.configs
  fullContext := a.fullContext
  hasGuards := by
    change (s.hasGuards || c.isGuarded) = (t.hasGuards || d.isGuarded)
    rw [a.hasGuards, hc.isGuarded_eq]
  uniqueAlt := a.uniqueAlt
  conflictingAlts := a.conflictingAlts
  dips hs := by
    change (s.dipsOutside || decide (0 < c.outerReach)) = (t.dipsOutside || decide (0 < d.outerReach))
    rw [a.dips hs, hc.reach hs]

/-- Adding alike configurations to alike open sets. -/
theorem insert (hg : g.Truthful) (hh : h.Truthful) (hs : s.Open) (ht : t.Open)
    (a : Alike strict g h s t) (hc : Config.Alike strict g h c d) :
    Alike strict (s.insert c g).2 (t.insert d h).2 (s.insert c g).1 (t.insert d h).1 ∧
      Paired g h (s.insert c g).2 (t.insert d h).2 := by
  have hn := a.noting hc
  have hidx : s.toList.findIdx? c.mergesWith = t.toList.findIdx? d.mergesWith :=
    findIdx?_eq_of_forall₂ a.configs fun _ _ he => hc.mergesWith_eq he
  rw [insert_of_open hs, insert_of_open ht, hidx]
  -- Either both merge into the entry at the same index, or both are appended.
  cases t.toList.findIdx? d.mergesWith with
  | none =>
    refine ⟨{ hn with configs := ?_ }, Paired.refl hg hh⟩
    change List.Forall₂ _ (s.configs.push c).toList (t.configs.push d).toList
    rw [Array.toList_push, Array.toList_push]
    exact List.rel_append a.configs (.cons hc .nil)
  | some i =>
    have hold := forall₂_getElem? a.configs i
    rw [toList, toList, Array.getElem?_toList, Array.getElem?_toList] at hold
    cases hsi : s.configs[i]? with
    | none =>
      rw [hsi] at hold
      cases hti : t.configs[i]? with
      | none =>
        simp only [hsi, hti]
        exact ⟨hn, Paired.refl hg hh⟩
      | some _ => rw [hti] at hold; cases hold
    | some old =>
      rw [hsi] at hold
      cases hti : t.configs[i]? with
      | none => rw [hti] at hold; cases hold
      | some old' =>
        rw [hti] at hold
        cases hold with
        | some hold =>
          obtain ⟨hm, hp⟩ := hold.stack.merge hg hh hc.stack (!t.fullContext)
          simp only [hsi, hti, a.fullContext]
          refine ⟨{ hn.mono hg hh hp with configs := ?_ }, hp⟩
          simp only [toList, Array.set!_eq_setIfInBounds, Array.toList_setIfInBounds]
          refine forall₂_set ((hn.mono hg hh hp).configs) ?_ i
          exact { hold.mono hg hh hp with
            reach := fun hs => by
              change max old.outerReach c.outerReach = max old'.outerReach d.outerReach
              rw [hold.reach hs, hc.reach hs]
            stack := hm }

/-- Adding alike configurations one after another. -/
theorem insertAll {cs ds : List Config} (hg : g.Truthful) (hh : h.Truthful) (hs : s.Open)
    (ht : t.Open) (a : Alike strict g h s t) (hcs : List.Forall₂ (Config.Alike strict g h) cs ds) :
    Alike strict (s.insertAll cs g).2 (t.insertAll ds h).2 (s.insertAll cs g).1
        (t.insertAll ds h).1 ∧
      Paired g h (s.insertAll cs g).2 (t.insertAll ds h).2 := by
  induction cs generalizing ds s t g h with
  | nil =>
    obtain rfl := List.forall₂_nil_left_iff.mp hcs
    exact ⟨a, Paired.refl hg hh⟩
  | cons c cs ih =>
    obtain ⟨d, ds, hc, hrest, rfl⟩ := List.forall₂_cons_left_iff.mp hcs
    obtain ⟨a', p⟩ := a.insert hg hh hs ht hc
    obtain ⟨a'', p'⟩ := ih p.left p.right (hs.insert c g) (ht.insert d h) a'
      (hrest.imp fun _ _ he => he.mono hg hh p)
    exact ⟨a'', p.trans p'⟩

end Alike

end ConfigSet
end AdaptiveLL

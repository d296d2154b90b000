import Mathlib
import AdaptiveLL.Prediction.Classify
import AdaptiveLL.Proofs.Prediction.ClosureAlike

/-! # Starting, consuming and classifying side by side

From alike configurations the same symbol leads to alike configurations
(`Surroundings.reach_agree`), and these recognise the same (`AutomatonState.classify_alike`).
Whether a set is settled or in conflict depends only on what alike sets share; two nodes stand for
one place exactly if their counterparts do, so alike sets have the same alternatives in conflict.
-/
namespace AdaptiveLL
open StackGraph (SameStacks Paired)

namespace ConfigSet.Alike
variable {strict : Bool} {g h : StackGraph} {s t : ConfigSet} (a : Alike strict g h s t)
include a

theorem any_eq {p q : Config → Bool} (hpq : ∀ c d, Config.Alike strict g h c d → p c = q d) :
    s.toList.any p = t.toList.any q := by
  have := a.configs
  generalize s.toList = cs at this
  generalize t.toList = ds at this
  induction this with
  | nil => rfl
  | cons hcd _ ih => rw [List.any_cons, List.any_cons, hpq _ _ hcd, ih]

theorem map_eq {κ : Type} {f k : Config → κ}
    (hf : ∀ c d, Config.Alike strict g h c d → f c = k d) : s.toList.map f = t.toList.map k := by
  rw [← List.forall₂_eq_eq_eq, List.forall₂_map_left_iff, List.forall₂_map_right_iff]
  exact a.configs.imp hf

theorem filter {p q : Config → Bool} (hpq : ∀ c d, Config.Alike strict g h c d → p c = q d) :
    List.Forall₂ (Config.Alike strict g h) (s.toList.filter p) (t.toList.filter q) := by
  exact List.rel_filter (fun c d hcd => Iff.of_eq (congrArg (· = true) (hpq c d hcd))) a.configs

theorem size_eq : s.size = t.size := by
  have := a.configs.length_eq
  change s.configs.size = t.configs.size
  simpa [toList] using this

theorem isEmpty_eq : s.isEmpty = t.isEmpty := by
  have h := a.size_eq
  rw [Bool.eq_iff_iff]
  simp only [isEmpty, Array.isEmpty_iff_size_eq_zero]
  exact Iff.of_eq (congrArg (· = 0) h)

theorem hasStop_eq (n : Network) : s.hasStop n = t.hasStop n :=
  a.any_eq fun c d hcd => by rw [hcd.state]

theorem allStop_eq (n : Network) : s.allStop n = t.allStop n := by
  unfold allStop
  rw [List.all_eq_not_any_not, List.all_eq_not_any_not]
  exact congrArg (! ·) (a.any_eq fun c d hcd => by rw [hcd.state])

theorem findUniqueAlt_eq : s.findUniqueAlt = t.findUniqueAlt := by
  have hmap := a.map_eq (f := Config.alt) (k := Config.alt) fun c d hcd => hcd.alt
  unfold findUniqueAlt
  generalize s.toList = cs at hmap
  generalize t.toList = ds at hmap
  cases cs with
  | nil =>
    cases ds with
    | nil => rfl
    | cons d ds => simp at hmap
  | cons c cs =>
    cases ds with
    | nil => simp at hmap
    | cons d ds =>
      simp only [List.map_cons, List.cons.injEq] at hmap
      have hall : ∀ (es : List Config) (x : Nat),
          es.all (fun e => decide (e.alt = x)) = (es.map Config.alt).all (fun y => decide (y = x)) := by
        intro es x
        rw [List.all_map]
        rfl
      simp only [hall, hmap.1, hmap.2]

theorem alts_eq : s.alts = t.alts :=
  congrArg AltSet.ofList (a.map_eq fun _ _ hcd => hcd.alt)

end ConfigSet.Alike

/-! ## Alternatives place by place -/

namespace ConfigSet
variable {κ κ' : Type}

/-- Entries with keys that correspond and the same alternatives. -/
def SameEntry (K : κ → κ' → Prop) (x : κ × AltSet) (y : κ' × AltSet) : Prop :=
  K x.1 y.1 ∧ x.2 = y.2

theorem map_snd_eq {K : κ → κ' → Prop} {groups : List (κ × AltSet)} {groups' : List (κ' × AltSet)}
    (h : List.Forall₂ (SameEntry K) groups groups') : groups.map (·.2) = groups'.map (·.2) := by
  rw [← List.forall₂_eq_eq_eq, List.forall₂_map_left_iff, List.forall₂_map_right_iff]
  exact h.imp fun _ _ hxy => hxy.2

variable [DecidableEq κ] [DecidableEq κ']

theorem addToGroup_rel {K : κ → κ' → Prop} (hK : ∀ {k k' l l'}, K k k' → K l l' → (k = l ↔ k' = l'))
    {key : κ} {key' : κ'} (hkey : K key key') (alt : Nat) {groups : List (κ × AltSet)}
    {groups' : List (κ' × AltSet)}
    (h : List.Forall₂ (SameEntry K) groups groups') :
    List.Forall₂ (SameEntry K) (addToGroup key alt groups)
      (addToGroup key' alt groups') := by
  induction h with
  | nil => exact .cons ⟨hkey, rfl⟩ .nil
  | @cons x y xs ys hxy hrest ih =>
    obtain ⟨k, alts⟩ := x
    obtain ⟨k', alts'⟩ := y
    obtain ⟨hk, rfl⟩ := hxy
    rw [addToGroup, addToGroup]
    by_cases heq : k = key
    · rw [if_pos heq, if_pos ((hK hk hkey).mp heq)]
      exact .cons ⟨hk, rfl⟩ hrest
    · rw [if_neg heq, if_neg fun h => heq ((hK hk hkey).mpr h)]
      exact .cons ⟨hk, rfl⟩ ih

/-- Grouping by keys that correspond gives the same sets of alternatives. -/
theorem groupAlts_rel {strict : Bool} {g h : StackGraph} {s t : ConfigSet}
    (a : Alike strict g h s t) {K : κ → κ' → Prop}
    (hK : ∀ {k k' l l'}, K k k' → K l l' → (k = l ↔ k' = l')) {key : Config → κ}
    {key' : Config → κ'} (hkey : ∀ c d, Config.Alike strict g h c d → K (key c) (key' d)) :
    List.Forall₂ (SameEntry K) (s.groupAlts key) (t.groupAlts key') := by
  unfold groupAlts
  refine List.rel_foldl (R := Config.Alike strict g h)
    (P := List.Forall₂ (SameEntry K)) ?_ .nil a.configs
  intro groups groups' hgroups c d hcd
  simp only [hcd.alt]
  exact addToGroup_rel hK (hkey c d hcd) d.alt hgroups

namespace Alike
variable {strict : Bool} {g h : StackGraph} {s t : ConfigSet}

theorem conflictSubsets_eq (hg : g.Truthful) (hh : h.Truthful) (a : Alike strict g h s t) :
    s.conflictSubsets = t.conflictSubsets := by
  have hK : ∀ {x x' y y' : Nat × StackRef}, x.1 = x'.1 ∧ SameStacks g h x.2 x'.2 →
      y.1 = y'.1 ∧ SameStacks g h y.2 y'.2 → (x = y ↔ x' = y') := by
    rintro ⟨k, r⟩ ⟨k', r'⟩ ⟨l, u⟩ ⟨l', u'⟩ ⟨hk, hr⟩ ⟨hl, hu⟩
    simp only at hk hl hr hu
    simp only [Prod.mk.injEq, hk, hl, hr.eq_iff hg hh hu]
  exact map_snd_eq (groupAlts_rel a hK fun c d hcd => ⟨hcd.state, hcd.stack⟩)

theorem hasStateWithOneAlt_eq (a : Alike strict g h s t) :
    s.hasStateWithOneAlt = t.hasStateWithOneAlt := by
  have hgroups := map_snd_eq (groupAlts_rel a (K := fun x y : Nat => x = y)
    (fun hk hl => by rw [hk, hl]) fun c d hcd => hcd.state)
  have hany : ∀ u : ConfigSet, u.hasStateWithOneAlt =
      (u.altsByState.map (·.2)).any fun alts => alts.size = 1 := by
    intro u
    rw [hasStateWithOneAlt, List.any_map]
    rfl
  rw [hany, hany]
  exact congrArg (List.any · fun alts : AltSet => decide (alts.size = 1)) hgroups

theorem findConflictingAlts_eq (hg : g.Truthful) (hh : h.Truthful) (a : Alike strict g h s t) :
    s.findConflictingAlts = t.findConflictingAlts :=
  congrArg Conflict.allAlts (a.conflictSubsets_eq hg hh)

/-- Forgetting guards on both sides. -/
theorem withoutGuards (hg : g.Truthful) (hh : h.Truthful) (a : Alike strict g h s t) :
    Alike strict (s.withoutGuards g).2 (t.withoutGuards h).2 (s.withoutGuards g).1
        (t.withoutGuards h).1 ∧
      Paired g h (s.withoutGuards g).2 (t.withoutGuards h).2 := by
  unfold ConfigSet.withoutGuards
  rw [a.fullContext]
  refine insertAll hg hh (open_empty _) (open_empty _) (empty _) ?_
  rw [List.forall₂_map_left_iff, List.forall₂_map_right_iff]
  exact a.configs.imp fun c d hcd => { hcd with guard := rfl }

/-- Whether to stop reading is the same on both sides. -/
theorem stopsReading (hg : g.Truthful) (hh : h.Truthful) (a : Alike strict g h s t)
    (mode : PredictionMode) (n : Network) :
    (s.stopsReading mode n g).1 = (t.stopsReading mode n h).1 ∧
      Paired g h (s.stopsReading mode n g).2 (t.stopsReading mode n h).2 := by
  unfold ConfigSet.stopsReading
  rw [a.allStop_eq n, a.hasGuards]
  split
  · exact ⟨rfl, Paired.refl hg hh⟩
  · cases decide (mode = .sll) && t.hasGuards with
    | true =>
      obtain ⟨a', p⟩ := a.withoutGuards hg hh
      refine ⟨?_, p⟩
      simp only [if_true]
      rw [a'.conflictSubsets_eq p.left p.right, a'.hasStateWithOneAlt_eq]
    | false =>
      refine ⟨?_, Paired.refl hg hh⟩
      simp only [Bool.false_eq_true, if_false]
      rw [a.conflictSubsets_eq hg hh, a.hasStateWithOneAlt_eq]

end Alike

theorem Open.insertAll {s : ConfigSet} (hs : s.Open) (cs : List Config) (g : StackGraph) :
    (s.insertAll cs g).1.Open := by
  induction cs generalizing s g with
  | nil => exact hs
  | cons c cs ih => exact ih (hs.insert c g) _

end ConfigSet

/-! ## Starting and consuming -/

namespace Surroundings
variable {σ τ : Type} {strict : Bool} {A : σ → τ → Prop} {env : Surroundings σ}
  {env' : Surroundings τ} {w : Workspace σ} {v : Workspace τ}

/-- What runs that give sets of configurations have in common. -/
def SameSets (strict : Bool) (g h : StackGraph) (s t : ConfigSet) : Prop :=
  ConfigSet.Alike strict g h s t ∧ s.Open ∧ t.Open

theorem insertAll_agree (h : w.Alike A v) {s t : ConfigSet}
    (hst : SameSets strict w.graph v.graph s t) {cs ds : List Config}
    (hcs : List.Forall₂ (Config.Alike strict w.graph v.graph) cs ds) :
    (Workspace.coupling A).Agree w v (SameSets strict) (insertAll s cs w) (insertAll t ds v) := by
  obtain ⟨g, author, closures⟩ := w
  obtain ⟨g', author', closures'⟩ := v
  obtain ⟨ha, hs, ht⟩ := hst
  obtain ⟨ha', p⟩ := ha.insertAll h.left h.right hs ht hcs
  exact Matches.ok ⟨⟨⟨p.left, p.right, h.author⟩, p⟩, ha', hs.insertAll cs g, ht.insertAll ds g'⟩

theorem onlyStops_agree (he : env.Alike A env') (h : w.Alike A v) {s t : ConfigSet}
    (hst : SameSets strict w.graph v.graph s t) :
    (Workspace.coupling A).Agree w v (SameSets strict) (env.onlyStops s w)
      (env'.onlyStops t v) := by
  unfold onlyStops
  rw [he.network, hst.1.allStop_eq, hst.1.fullContext]
  split
  · exact .pure h hst
  · exact insertAll_agree h ⟨.empty _, ConfigSet.open_empty _, ConfigSet.open_empty _⟩
      (hst.1.filter fun c d hcd => by rw [hcd.state])

theorem firstConfigs_alike (he : env.Alike A env') {g h : StackGraph} {r r' : StackRef}
    (hr : SameStacks g h r r') (state : Nat) :
    List.Forall₂ (Config.Alike strict g h) (env.firstConfigs state r)
      (env'.firstConfigs state r') := by
  unfold firstConfigs
  rw [he.network]
  refine List.forall₂_iff_get.mpr ⟨by simp, fun i hi hj => ?_⟩
  simp only [List.get_eq_getElem, List.getElem_mapIdx]
  exact ⟨rfl, rfl, rfl, rfl, rfl, fun _ => rfl, hr⟩

/-- The alternatives of a state begin alike. -/
theorem startConfigs_agree (he : env.Alike A env') (h : w.Alike A v) (state : Nat)
    (outer : List Invocation) :
    (Workspace.coupling A).Agree w v (SameSets true) (env.startConfigs state outer w)
      (env'.startConfigs state outer v) := by
  unfold startConfigs
  rw [he.fullContext, he.network]
  split
  · obtain ⟨g, author, closures⟩ := w
    obtain ⟨g', author', closures'⟩ := v
    have hgo := SameStacks.pushInvocations_go env'.network outer h.left h.right
      (.bottom h.left h.right)
    simp only [Run.bind_apply, Run.modifyGet_apply, Run.mk_apply, StackGraph.pushInvocations]
    generalize StackGraph.pushInvocations.go env'.network StackRef.bottom g outer = m at hgo ⊢
    generalize StackGraph.pushInvocations.go env'.network StackRef.bottom g' outer = m' at hgo ⊢
    cases hgo with
    | error e p =>
      have hl : (Workspace.coupling A).Later ⟨g, author, closures⟩ ⟨g', author', closures'⟩
          ⟨_, author, closures⟩ ⟨_, author', closures'⟩ := ⟨⟨p.left, p.right, h.author⟩, p⟩
      exact Matches.error e hl
    | ok hr =>
      obtain ⟨p, hr⟩ := hr
      have hl : (Workspace.coupling A).Later ⟨g, author, closures⟩ ⟨g', author', closures'⟩
          ⟨_, author, closures⟩ ⟨_, author', closures'⟩ := ⟨⟨p.left, p.right, h.author⟩, p⟩
      exact (Closure.closeAll_agree he hl.related (firstConfigs_alike he hr state) true).after hl
  · exact Closure.closeAll_agree he h (firstConfigs_alike he (.bottom h.left h.right) state) true

theorem moves_alike (he : env.Alike A env') {g h : StackGraph} {s t : ConfigSet}
    (a : ConfigSet.Alike strict g h s t) (x : Symbol) :
    List.Forall₂ (Config.Alike strict g h) (env.moves x s) (env'.moves x t) := by
  unfold moves
  rw [he.network]
  refine List.rel_flatMap a.configs fun c d hcd => ?_
  simp only [hcd.state]
  split
  · exact .nil
  · rw [List.forall₂_map_left_iff, List.forall₂_map_right_iff, List.forall₂_same]
    exact fun t _ => hcd.moveTo _

theorem staying_alike (he : env.Alike A env') {g h : StackGraph} {s t : ConfigSet}
    (a : ConfigSet.Alike strict g h s t) (x : Symbol) :
    List.Forall₂ (Config.Alike strict g h) (env.staying x s) (env'.staying x t) := by
  unfold staying
  rw [he.network, he.fullContext]
  split
  · exact a.filter fun c d hcd => by rw [hcd.state]
  · exact .nil

theorem isSettled_eq {g h : StackGraph} {s t : ConfigSet} (a : ConfigSet.Alike strict g h s t)
    (x : Symbol) {cs ds : List Config} (hcs : List.Forall₂ (Config.Alike strict g h) cs ds) :
    isSettled x cs s = isSettled x ds t := by
  have hempty : cs.isEmpty = ds.isEmpty := by cases hcs <;> rfl
  unfold isSettled
  rw [hempty, a.size_eq, a.findUniqueAlt_eq]

theorem closeMoved_agree (he : env.Alike A env') (h : w.Alike A v) {s t : ConfigSet}
    (a : ConfigSet.Alike strict w.graph v.graph s t) (x : Symbol) :
    (Workspace.coupling A).Agree w v (SameSets strict) (env.closeMoved x s w)
      (env'.closeMoved x t v) := by
  have he' : Alike A { env with endIsFree := x = endOfInput }
      { env' with endIsFree := x = endOfInput } := { he with endIsFree := rfl }
  exact Closure.closeAll_agree he' h a.configs false

theorem keep_agree (he : env.Alike A env') (h : w.Alike A v) {s t : ConfigSet}
    (hst : SameSets strict w.graph v.graph s t) {cs ds : List Config}
    (hcs : List.Forall₂ (Config.Alike strict w.graph v.graph) cs ds) :
    (Workspace.coupling A).Agree w v (SameSets strict) (env.keep cs s w) (env'.keep ds t v) := by
  have hempty : cs.isEmpty = ds.isEmpty := by cases hcs <;> rfl
  unfold keep
  rw [hempty, he.fullContext, he.network, hst.1.hasStop_eq]
  split
  · exact insertAll_agree h hst hcs
  · exact .pure h hst

theorem finish_agree (he : env.Alike A env') (h : w.Alike A v) {s t : ConfigSet}
    (hst : SameSets strict w.graph v.graph s t) (x : Symbol) {cs ds : List Config}
    (hcs : List.Forall₂ (Config.Alike strict w.graph v.graph) cs ds) :
    (Workspace.coupling A).Agree w v (fun g h o o' => Option.Rel (SameSets strict g h) o o')
      (env.finish x cs s w) (env'.finish x ds t v) := by
  unfold finish
  have hended : (Workspace.coupling A).Agree w v (SameSets strict) (env.afterEnd x s w)
      (env'.afterEnd x t v) := by
    unfold afterEnd
    split
    · exact onlyStops_agree he h hst
    · exact .pure h hst
  refine hended.bind fun _ _ w₁ v₁ l₁ hr => ?_
  refine (keep_agree he l₁.related hr (hcs.imp fun _ _ hc =>
    hc.mono h.left h.right l₁.paired)).bind fun r r' _ _ l₂ hr' => ?_
  refine .pure l₂.related ?_
  rw [hr'.1.isEmpty_eq]
  split
  · exact .none
  · exact .some hr'

/-- From alike configurations a symbol leads to alike configurations, or nowhere. -/
theorem reach_agree (he : env.Alike A env') (h : w.Alike A v) {s t : ConfigSet}
    (a : ConfigSet.Alike strict w.graph v.graph s t) (settle : Bool) (x : Symbol) :
    (Workspace.coupling A).Agree w v (fun g h o o' => Option.Rel (SameSets strict g h) o o')
      (env.reach settle x s w) (env'.reach settle x t v) := by
  have hstay := staying_alike he a x
  unfold reach
  rw [he.fullContext]
  refine (insertAll_agree h ⟨.empty _, ConfigSet.open_empty _, ConfigSet.open_empty _⟩
    (moves_alike he a x)).bind fun moved moved' w₁ v₁ l₁ hm => ?_
  have hstay₁ := hstay.imp fun _ _ hc => hc.mono h.left h.right l₁.paired
  simp only [isSettled_eq hm.1 x hstay₁]
  split
  · exact finish_agree he l₁.related hm x hstay₁
  · refine (closeMoved_agree he l₁.related hm.1 x).bind fun _ _ _ _ l₂ hc => ?_
    exact finish_agree he l₂.related hc x (hstay₁.imp fun _ _ hc =>
      hc.mono l₁.related.left l₁.related.right l₂.paired)

/-- What is reached is not empty. -/
theorem isEmpty_of_reach {settle : Bool} {x : Symbol} {s r : ConfigSet} {w' : Workspace σ}
    (h : env.reach settle x s w = (.ok (some r), w')) : r.isEmpty = false := by
  have hfinish : ∀ {stay : List Config} {c : ConfigSet} {u : Workspace σ},
      env.finish x stay c u = (.ok (some r), w') → r.isEmpty = false := by
    intro stay c u hf
    obtain ⟨ended, u₁, -, hf⟩ := Run.exists_of_bind hf
    obtain ⟨reached, u₂, -, hf⟩ := Run.exists_of_bind hf
    rw [Run.pure_apply] at hf
    split at hf
    · cases hf
    · next hne =>
      cases hf
      exact Bool.not_eq_true _ ▸ hne
  obtain ⟨moved, u, -, h⟩ := Run.exists_of_bind h
  dsimp only at h
  split at h
  · exact hfinish h
  · obtain ⟨closed, u', -, h⟩ := Run.exists_of_bind h
    exact hfinish h

end Surroundings

/-! ## Classifying -/

namespace AutomatonState

/-- States of two automata that recognise the same from alike configurations. -/
structure Alike (strict : Bool) (g h : StackGraph) (s t : AutomatonState) : Prop where
  configs : ConfigSet.Alike strict g h s.configs t.configs
  isAccept : s.isAccept = t.isAccept
  prediction : s.prediction = t.prediction
  needsFullContext : s.needsFullContext = t.needsFullContext
  guardedAlts : s.guardedAlts = t.guardedAlts

variable {strict : Bool} {g h : StackGraph}

theorem altGuard_eq {s t : ConfigSet} (a : ConfigSet.Alike strict g h s t) (alt : Nat) :
    s.altGuard alt = t.altGuard alt := by
  have hf := a.filter (p := fun c => c.alt = alt) (q := fun c => c.alt = alt)
    fun c d hcd => by rw [hcd.alt]
  have hmap : (s.toList.filter fun c => c.alt = alt).map Config.guard =
      (t.toList.filter fun c => c.alt = alt).map Config.guard := by
    rw [← List.forall₂_eq_eq_eq, List.forall₂_map_left_iff, List.forall₂_map_right_iff]
    exact hf.imp fun _ _ hcd => hcd.guard
  unfold ConfigSet.altGuard
  rw [hmap]

theorem guardedAlts?_eq {s t : ConfigSet} (a : ConfigSet.Alike strict g h s t) (alts : AltSet)
    (count : Nat) : s.guardedAlts? alts count = t.guardedAlts? alts count := by
  unfold ConfigSet.guardedAlts?
  simp only [altGuard_eq a]

theorem Alike.applyGuards {s t : AutomatonState} (a : Alike strict g h s t) (count : Nat) :
    Alike strict g h (s.applyGuards count) (t.applyGuards count) := by
  have halts : s.configs.altsInQuestion? = t.configs.altsInQuestion? := by
    unfold ConfigSet.altsInQuestion?
    rw [a.configs.conflictingAlts, a.configs.uniqueAlt]
  unfold AutomatonState.applyGuards
  simp only [a.isAccept, a.configs.hasGuards, halts, guardedAlts?_eq a.configs]
  split
  · split
    · exact a
    · split
      · exact ⟨a.configs, rfl, rfl, a.needsFullContext, rfl⟩
      · exact ⟨a.configs, rfl, rfl, a.needsFullContext, a.guardedAlts⟩
  · exact a

theorem recognising_alike {s t : ConfigSet} (a : ConfigSet.Alike strict g h s t)
    (count alt : Nat) : Alike strict g h (recognising count alt s) (recognising count alt t) := by
  refine Alike.applyGuards ?_ count
  exact ⟨{ a with uniqueAlt := rfl }, rfl, rfl, rfl, rfl⟩

theorem contested_alike {s t : ConfigSet} (a : ConfigSet.Alike strict g h s t) (count : Nat)
    (alts : AltSet) : Alike strict g h (contested count alts s) (contested count alts t) := by
  refine Alike.applyGuards ?_ count
  exact ⟨{ a with conflictingAlts := rfl }, rfl, rfl, rfl, rfl⟩

/-- Alike configurations recognise the same. -/
theorem classify_alike (hg : g.Truthful) (hh : h.Truthful) {s t : ConfigSet}
    (a : ConfigSet.Alike strict g h s t) (mode : PredictionMode) (n : Network) (count : Nat) :
    Alike strict (classify mode n count s g).2 (classify mode n count t h).2
        (classify mode n count s g).1 (classify mode n count t h).1 ∧
      Paired g h (classify mode n count s g).2 (classify mode n count t h).2 := by
  unfold classify
  rw [a.findUniqueAlt_eq]
  split
  · exact ⟨recognising_alike a .., Paired.refl hg hh⟩
  · obtain ⟨heq, p⟩ := a.stopsReading hg hh mode n
    refine ⟨?_, p⟩
    simp only [heq, a.findConflictingAlts_eq hg hh]
    split
    · exact contested_alike (a.mono hg hh p) ..
    · exact ⟨a.mono hg hh p, rfl, rfl, rfl, rfl⟩

end AutomatonState
end AdaptiveLL

import AdaptiveLL.Proofs.Prediction.Grouping

/-! # Configurations in another order

What an entry stands for does not depend on the order of the configurations: a greatest reach and a least
upper bound are those of a set.  Since a graph has one node for the same stacks, the configurations give the
same entries in whatever order they are added, in all that matters to a parser
(`ConfigSet.Grouped.perm_forParser`).  What a lexer collects is that of the first configuration with a key,
so entries are the same altogether where the configurations with one key agree in it
(`ConfigSet.Grouped.perm`), and need not be otherwise (`ConfigSet.not_perm_of_passedLazy`).
-/
namespace AdaptiveLL

open StackGraph

namespace Config

/-- Nothing else is told apart by a set that merges stacks. -/
theorem forParser_eq_iff {c d : Config} : c.forParser = d.forParser ↔
    c.key = d.key ∧ c.stack = d.stack ∧ c.outerReach = d.outerReach := by
  cases c
  cases d
  simp only [forParser, key, mk.injEq, Prod.mk.injEq, and_true]
  tauto

/-- What a lexer collects is the rest. -/
theorem eq_iff_forParser {c d : Config} : c = d ↔
    c.forParser = d.forParser ∧ c.commands = d.commands ∧ c.passedLazy = d.passedLazy := by
  cases c
  cases d
  simp only [forParser, mk.injEq, and_true]
  tauto

namespace Gathers
variable {w : Bool} {g h : StackGraph} {cs ds : List Config} {e f : Config}

/-- Entries with one key that stand for the same configurations, in a graph and in what has become of it. -/
theorem forParser_eq (he : e.Gathers w g cs) (hf : f.Gathers w h ds) (hg : g.Truthful) (hh : h.Truthful)
    (grows : Extends g h) (hcs : ∀ c ∈ cs, g.knows c.stack) (hperm : cs.Perm ds) (hkey : e.key = f.key) :
    e.forParser = f.forParser := by
  have hlater := he.mono hg hh grows hcs
  have hgroup : {c | c ∈ withKey cs e.key} = {c | c ∈ withKey ds f.key} := by
    ext c
    simp only [Set.mem_ofPred_eq, mem_withKey, hperm.mem_iff, hkey]
  have hreach : e.outerReach = f.outerReach := (hgroup ▸ he.reach).unique hf.reach
  have hstack : h.meaning w e.stack = h.meaning w f.stack := (hgroup ▸ hlater.stack).unique hf.stack
  exact forParser_eq_iff.mpr
    ⟨hkey, hh.toSound.eq_of_meaning_eq hlater.known hf.known hstack, hreach⟩

end Gathers
end Config

/-- Sets without repeated keys that agree in their keys, and in what belongs to a key. -/
theorem ConfigSet.perm_map_of_keys (φ : Config → Config) (hφ : ∀ c, (φ c).key = c.key) {s t : ConfigSet}
    (hs : s.keys.Nodup) (ht : t.keys.Nodup) (hkeys : ∀ k, k ∈ s.keys ↔ k ∈ t.keys)
    (heq : ∀ e ∈ s.toList, ∀ f ∈ t.toList, e.key = f.key → φ e = φ f) :
    (s.toList.map φ).Perm (t.toList.map φ) := by
  have hnodup : ∀ {u : ConfigSet}, u.keys.Nodup → (u.toList.map φ).Nodup := fun {u} hu => by
    refine List.Nodup.of_map Config.key ?_
    rwa [List.map_map, show Config.key ∘ φ = Config.key from funext hφ]
  refine (List.perm_ext_iff_of_nodup (hnodup hs) (hnodup ht)).mpr fun d => ?_
  rw [List.mem_map, List.mem_map]
  constructor
  · rintro ⟨e, he, rfl⟩
    obtain ⟨f, hf, hkey⟩ := List.mem_map.mp ((hkeys e.key).mp (List.mem_map_of_mem he))
    exact ⟨f, hf, (heq e he f hf hkey.symm).symm⟩
  · rintro ⟨f, hf, rfl⟩
    obtain ⟨e, he, hkey⟩ := List.mem_map.mp ((hkeys f.key).mpr (List.mem_map_of_mem hf))
    exact ⟨e, he, heq e he f hf hkey⟩

namespace ConfigSet.Grouped
variable {g h : StackGraph} {cs ds : List Config} {s t : ConfigSet}

theorem forParser_eq (hs : s.Grouped g cs) (ht : t.Grouped h ds) (hfull : s.fullContext = t.fullContext)
    (hg : g.Truthful) (hh : h.Truthful) (grows : Extends g h) (hcs : ∀ c ∈ cs, g.knows c.stack)
    (hperm : cs.Perm ds) : ∀ e ∈ s.toList, ∀ f ∈ t.toList, e.key = f.key → e.forParser = f.forParser :=
  fun e he f hf => (hs.entries e he).forParser_eq (hfull ▸ ht.entries f hf) hg hh grows hcs hperm

theorem mem_keys_congr (hs : s.Grouped g cs) (ht : t.Grouped h ds) (hperm : cs.Perm ds)
    (k : Nat × Nat × Guard) : k ∈ s.keys ↔ k ∈ t.keys := by
  rw [hs.mem_keys, ht.mem_keys]
  simp only [hperm.mem_iff]

/-- In all that matters to a parser the entries are the same. -/
theorem perm_forParser (hs : s.Grouped g cs) (ht : t.Grouped h ds) (hfull : s.fullContext = t.fullContext)
    (hg : g.Truthful) (hh : h.Truthful) (grows : Extends g h) (hcs : ∀ c ∈ cs, g.knows c.stack)
    (hperm : cs.Perm ds) : (s.toList.map Config.forParser).Perm (t.toList.map Config.forParser) :=
  perm_map_of_keys Config.forParser (fun _ => rfl) hs.distinct ht.distinct (hs.mem_keys_congr ht hperm)
    (hs.forParser_eq ht hfull hg hh grows hcs hperm)

/-- Where the configurations with one key agree in what a lexer collects, the entries are the same. -/
theorem perm (hs : s.Grouped g cs) (ht : t.Grouped h ds) (hfull : s.fullContext = t.fullContext)
    (hg : g.Truthful) (hh : h.Truthful) (grows : Extends g h) (hcs : ∀ c ∈ cs, g.knows c.stack)
    (hperm : cs.Perm ds) (hagree : ∀ c ∈ cs, ∀ d ∈ cs, c.key = d.key →
      c.commands = d.commands ∧ c.passedLazy = d.passedLazy) : s.toList.Perm t.toList := by
  have heq : ∀ e ∈ s.toList, ∀ f ∈ t.toList, e.key = f.key → e = f := by
    intro e he f hf hkey
    obtain ⟨c, hc, hce⟩ := (hs.entries e he).first
    obtain ⟨d, hd, hdf⟩ := (ht.entries f hf).first
    have hc' := Config.mem_withKey.mp (List.mem_of_head? hc)
    have hd' := Config.mem_withKey.mp (List.mem_of_head? hd)
    have hsame := hagree c hc'.1 d (hperm.mem_iff.mpr hd'.1) (hc'.2.trans (hkey.trans hd'.2.symm))
    refine Config.eq_iff_forParser.mpr
      ⟨hs.forParser_eq ht hfull hg hh grows hcs hperm e he f hf hkey, ?_⟩
    rw [hce, hdf]
    exact hsame
  simpa using perm_map_of_keys id (fun _ => rfl) hs.distinct ht.distinct
    (hs.mem_keys_congr ht hperm) heq

end ConfigSet.Grouped

/-! ## Sets that merge stacks -/

/-- An entry, in a graph `h` that has come from `g`, for the configurations that were added with its key. -/
structure Config.Represents (fullContext : Bool) (g h : StackGraph) (cs : List Config) (e : Config) :
    Prop where
  reach : IsGreatest (outerReach '' {c | c ∈ withKey cs e.key}) e.outerReach
  united : fullContext → h.stackSet e.stack = ⋃ c ∈ withKey cs e.key, g.stackSet c.stack
  covered : ¬fullContext → h.cover e.stack = ⋃ c ∈ withKey cs e.key, g.cover c.stack
  first : ∃ c, (withKey cs e.key).head? = some c ∧
    e = { c with stack := e.stack, outerReach := e.outerReach }

namespace ConfigSet

/-- What becomes of configurations that are added to an empty set one after another.  `given` are the nodes
that their stacks belong to. -/
structure Merges (fullContext : Bool) (g : StackGraph) (given : Set StackRef) (cs : List Config)
    (out : ConfigSet × StackGraph) : Prop where
  keys : out.1.keys = (cs.map Config.key).eraseDups
  distinct : out.1.keys.Nodup
  added : ∀ (before : List Config) (c : Config) (after : List Config), cs = before ++ c :: after →
    ((((empty fullContext).insertAll before g).1.add c ((empty fullContext).insertAll before g).2).1 ↔
      c.key ∉ before.map Config.key)
  entries : ∀ e ∈ out.1.toList, e.Represents fullContext g out.2 cs
  hasGuards : out.1.hasGuards ↔ ∃ c ∈ cs, c.isGuarded
  dipsOutside : out.1.dipsOutside ↔ ∃ c ∈ cs, 0 < c.outerReach
  used : ∃ given', given ⊆ given' ∧ out.2.Used given'
  reordered : ∀ (ds : List Config) (k : StackGraph) (given' : Set StackRef), cs.Perm ds → k.Used given' →
    given ⊆ given' → Extends out.2 k →
      (out.1.toList.map Config.forParser).Perm
          (((empty fullContext).insertAll ds k).1.toList.map Config.forParser) ∧
        ((∀ c ∈ cs, ∀ d ∈ cs, c.key = d.key → c.commands = d.commands ∧ c.passedLazy = d.passedLazy) →
          out.1.toList.Perm ((empty fullContext).insertAll ds k).1.toList)

/-- An entry of a set that has gathered configurations represents them. -/
theorem Grouped.represents {g h : StackGraph} {cs : List Config} {s : ConfigSet} (hs : s.Grouped h cs)
    (hg : g.Truthful) (hh : h.Truthful) (grows : Extends g h) (hcs : ∀ c ∈ cs, g.knows c.stack)
    {e : Config} (he : e ∈ s.toList) : e.Represents s.fullContext g h cs := by
  have hentry := hs.entries e he
  have hold : ∀ c ∈ Config.withKey cs e.key, h.stackSet c.stack = g.stackSet c.stack := fun c hc =>
    grows.stackSet hg.toSound hh.toSound (hcs c (Config.mem_withKey.mp hc).1)
  refine ⟨hentry.reach, fun hfull => ?_, fun hfull => ?_, hentry.first⟩
  · ext st
    have hcovers := hentry.covers st
    rw [hfull, Bool.not_true, covers_false] at hcovers
    rw [hcovers, Set.mem_iUnion₂]
    refine exists_congr fun c => ?_
    rw [exists_prop]
    exact and_congr_right fun hc => by rw [covers_false, hold c hc]
  · ext st
    have hcovers := hentry.covers st
    rw [Bool.eq_false_iff.mpr hfull, Bool.not_false] at hcovers
    rw [mem_cover_iff, hcovers, Set.mem_iUnion₂]
    refine exists_congr fun c => ?_
    rw [exists_prop]
    exact and_congr_right fun hc => by rw [mem_cover_iff, hold c hc]

end ConfigSet

/-- **Sets that merge stacks do not depend on an order.** -/
theorem StackGraph.Used.merges {g : StackGraph} {given : Set StackRef} (hu : g.Used given)
    {cs : List Config} (hcs : ∀ c ∈ cs, c.stack ∈ given) (fullContext : Bool) :
    ConfigSet.Merges fullContext g given cs ((ConfigSet.empty fullContext).insertAll cs g) := by
  obtain ⟨hg, hknown⟩ := hu.truthful_known
  obtain ⟨hfull, grows, hgrouped, given₁, hsub, hu₁, -⟩ := ConfigSet.grouped_insertAll hu hcs fullContext
  have hh := hu₁.truthful_known.1
  refine ⟨hgrouped.keys, hgrouped.distinct, ?_, fun e he => ?_, hgrouped.hasGuards, hgrouped.dipsOutside,
    ⟨given₁, hsub, hu₁⟩, ?_⟩
  · rintro before c after rfl
    have hbefore : ∀ d ∈ before, d.stack ∈ given := fun d hd => hcs d (List.mem_append_left _ hd)
    obtain ⟨-, -, hmid, -⟩ := ConfigSet.grouped_insertAll hu hbefore fullContext
    exact hmid.add_fst_iff c _
  · have hentry := hgrouped.represents hg hh grows (fun c hc => hknown _ (hcs c hc)) he
    rwa [hfull] at hentry
  · intro ds k given' hperm hk hsub' hlater
    have hds : ∀ d ∈ ds, d.stack ∈ given' := fun d hd => hsub' (hcs d (hperm.mem_iff.mpr hd))
    obtain ⟨hfull', grows', hgrouped', given₂, -, hu₂, -⟩ := ConfigSet.grouped_insertAll hk hds fullContext
    have hcs' : ∀ c ∈ cs, StackGraph.knows _ c.stack := fun c hc => grows.knows (hknown _ (hcs c hc))
    have htruthful := hu₂.truthful_known.1
    exact ⟨hgrouped.perm_forParser hgrouped' (hfull.trans hfull'.symm) hh htruthful (hlater.trans grows')
        hcs' hperm,
      hgrouped.perm hgrouped' (hfull.trans hfull'.symm) hh htruthful (hlater.trans grows') hcs' hperm⟩

theorem StackGraph.Used.merges_two :
    let one := StackGraph.empty.push StackRef.bottom (some 10)
    let two := one.2.push StackRef.bottom (some 20)
    let given : Set StackRef := {two.1, one.1, StackRef.bottom}
    let cs : List Config := [{ state := 3, alt := 1, stack := one.1 },
      { state := 4, alt := 1, stack := StackRef.bottom },
      { state := 3, alt := 1, stack := two.1, outerReach := 2 }]
    two.2.Used given ∧ (∀ c ∈ cs, c.stack ∈ given) ∧
      ConfigSet.Merges false two.2 given cs ((ConfigSet.empty false).insertAll cs two.2) := by
  intro one two given cs
  have hu : two.2.Used given := .push (some 20) (.push (some 10) .empty rfl) (.inr rfl)
  have hcs : ∀ c ∈ cs, c.stack ∈ given := by simp [cs, given]
  exact ⟨hu, hcs, hu.merges hcs false⟩

/-! ## Where the order is seen -/

/-- A configuration with or without the flag that only a lexer sets. -/
def flagged (passedLazy : Bool) : Config := { state := 1, alt := 1, stack := StackRef.bottom, passedLazy }

/-- The flag is that of the configuration which was added first. -/
theorem ConfigSet.not_perm_of_passedLazy :
    StackGraph.empty.Used {StackRef.bottom} ∧
      (∀ c ∈ [flagged true, flagged false], c.stack ∈ ({StackRef.bottom} : Set StackRef)) ∧
      [flagged true, flagged false].Perm [flagged false, flagged true] ∧
      ¬((empty false).insertAll [flagged true, flagged false] .empty).1.toList.Perm
        ((empty false).insertAll [flagged false, flagged true]
          ((empty false).insertAll [flagged true, flagged false] .empty).2).1.toList := by
  refine ⟨.empty, by simp [flagged], .swap _ _ _, ?_⟩
  have hfirst : ∀ (a b : Bool) (g : StackGraph),
      ((empty false).insertAll [flagged a, flagged b] g).1.toList = [flagged a] := fun _ _ _ => rfl
  rw [hfirst, hfirst, List.perm_singleton]
  simp [flagged]

end AdaptiveLL

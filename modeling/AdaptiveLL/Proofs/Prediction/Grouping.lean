import AdaptiveLL.Proofs.Prediction.Entries
import AdaptiveLL.Proofs.StackGraph.Semilattice

/-! # Configurations gathered by their keys

A set that merges stacks has one entry for each key of the configurations that were added to it.  The entry
stands for the configurations with its key (`Config.Gathers`): their stacks are joined, and their greatest
reach is kept.  Adding a configuration makes a new entry or is joined with that of its key, and what the
entries stood for they still stand for (`ConfigSet.Grouped.insert`).

An entry keeps the commands of the first configuration that was added with its key, and whether that one
passed a decision that prefers to leave.  These are what a lexer collects; a parser's configurations have
neither.
-/
namespace AdaptiveLL

open StackGraph

namespace Config

/-- The configurations with a key. -/
def withKey (cs : List Config) (k : Nat × Nat × Guard) : List Config := cs.filter (·.key = k)

theorem mem_withKey {cs : List Config} {k : Nat × Nat × Guard} {c : Config} :
    c ∈ withKey cs k ↔ c ∈ cs ∧ c.key = k := by
  simp [withKey]

theorem withKey_append_of_eq (cs : List Config) (c : Config) :
    withKey (cs ++ [c]) c.key = withKey cs c.key ++ [c] := by
  simp [withKey]

theorem withKey_append_of_ne (cs : List Config) {c : Config} {k : Nat × Nat × Guard} (h : c.key ≠ k) :
    withKey (cs ++ [c]) k = withKey cs k := by
  simp [withKey, h]

/-- The configuration without what a lexer collects. -/
def forParser (c : Config) : Config := { c with commands := none, passedLazy := false }

/-- An entry stands for the configurations with its key.  What a lexer collects is that of the first. -/
structure Gathers (w : Bool) (g : StackGraph) (cs : List Config) (e : Config) : Prop where
  known : g.knows e.stack
  first : ∃ c, (withKey cs e.key).head? = some c ∧
    e = { c with stack := e.stack, outerReach := e.outerReach }
  reach : IsGreatest (outerReach '' {c | c ∈ withKey cs e.key}) e.outerReach
  stack : IsLUB ((fun c => g.meaning w c.stack) '' {c | c ∈ withKey cs e.key}) (g.meaning w e.stack)
  covers : ∀ s, StackGraph.Covers w (g.stackSet e.stack) s ↔
    ∃ c ∈ withKey cs e.key, StackGraph.Covers w (g.stackSet c.stack) s

namespace Gathers
variable {w : Bool} {g h : StackGraph} {cs : List Config} {c e : Config}

/-- Nodes that are added to the graph make no difference. -/
theorem mono (he : Gathers w g cs e) (hg : g.Truthful) (hh : h.Truthful) (grows : Extends g h)
    (hcs : ∀ c ∈ cs, g.knows c.stack) : Gathers w h cs e where
  known := grows.knows he.known
  first := he.first
  reach := he.reach
  stack := by
    have hsame : (fun c => h.meaning w c.stack) '' {c | c ∈ withKey cs e.key} =
        (fun c => g.meaning w c.stack) '' {c | c ∈ withKey cs e.key} :=
      Set.image_congr fun c hc => grows.meaning hg.toSound hh.toSound (hcs c (mem_withKey.mp hc).1)
    rw [hsame, grows.meaning hg.toSound hh.toSound he.known]
    exact he.stack
  covers s := by
    rw [grows.stackSet hg.toSound hh.toSound he.known, he.covers]
    refine exists_congr fun c => and_congr_right fun hc => ?_
    rw [grows.stackSet hg.toSound hh.toSound (hcs c (mem_withKey.mp hc).1)]

/-- The first configuration with its key. -/
theorem of_new (hc : g.knows c.stack) (hnew : ∀ d ∈ cs, d.key ≠ c.key) : Gathers w g (cs ++ [c]) c := by
  have hgroup : withKey (cs ++ [c]) c.key = [c] := by
    rw [withKey_append_of_eq, withKey, List.filter_eq_nil_iff.mpr fun d hd => by simpa using hnew d hd,
      List.nil_append]
  have hone : {d | d ∈ [c]} = {c} := Set.ext fun d => List.mem_singleton
  constructor
  · exact hc
  · exact ⟨c, by rw [hgroup, List.head?_cons], rfl⟩
  · rw [hgroup, hone, Set.image_singleton]
    exact isGreatest_singleton
  · rw [hgroup, hone, Set.image_singleton]
    exact isLUB_singleton
  · intro s
    rw [hgroup]
    simp

/-- Configurations with another key make no difference. -/
theorem of_ne (he : Gathers w g cs e) (hne : c.key ≠ e.key) : Gathers w g (cs ++ [c]) e := by
  constructor
  · exact he.known
  · rw [withKey_append_of_ne cs hne]
    exact he.first
  · rw [withKey_append_of_ne cs hne]
    exact he.reach
  · rw [withKey_append_of_ne cs hne]
    exact he.stack
  · rw [withKey_append_of_ne cs hne]
    exact he.covers

/-- A configuration with the key is joined. -/
theorem join (he : Gathers w g cs e) (hg : g.Truthful) (hcs : ∀ c ∈ cs, g.knows c.stack)
    (hc : g.knows c.stack) (hkey : e.key = c.key) :
    Gathers w (g.merge e.stack c.stack w).2 (cs ++ [c])
      (ConfigSet.merged e c (g.merge e.stack c.stack w).1) := by
  have m := hg.merge he.known hc w
  have hlater := he.mono hg m.truthful m.grows hcs
  have hgroup : withKey (cs ++ [c]) e.key = withKey cs e.key ++ [c] := hkey ▸ withKey_append_of_eq cs c
  have hinsert : {d | d ∈ withKey cs e.key ++ [c]} = insert c {d | d ∈ withKey cs e.key} := by
    ext d
    simp [or_comm]
  constructor
  · exact m.known
  · obtain ⟨first, hfirst, heq⟩ := he.first
    refine ⟨first, ?_, ?_⟩
    · show (withKey (cs ++ [c]) e.key).head? = some first
      rw [hgroup, List.head?_append, hfirst]
      rfl
    · rw [ConfigSet.merged, heq]
  · show IsGreatest (outerReach '' {d | d ∈ withKey (cs ++ [c]) e.key}) (max e.outerReach c.outerReach)
    rw [hgroup, hinsert, Set.image_insert_eq, max_comm]
    exact he.reach.insert _
  · show IsLUB (_ '' {d | d ∈ withKey (cs ++ [c]) e.key}) (StackGraph.meaning w _ (g.merge e.stack c.stack w).1)
    rw [hgroup, hinsert, Set.image_insert_eq, hg.meaning_merge he.known hc, sup_comm,
      ← m.grows.meaning hg.toSound m.truthful.toSound he.known,
      ← m.grows.meaning hg.toSound m.truthful.toSound hc]
    exact hlater.stack.insert _
  · intro s
    show StackGraph.Covers w (StackGraph.stackSet _ (g.merge e.stack c.stack w).1) s ↔
      ∃ d ∈ withKey (cs ++ [c]) e.key, _
    rw [m.joined, covers_joined_iff, ← m.grows.stackSet hg.toSound m.truthful.toSound he.known,
      ← m.grows.stackSet hg.toSound m.truthful.toSound hc, hlater.covers, hgroup]
    simp only [List.mem_append, List.mem_singleton, or_and_right, exists_or, exists_eq_left]

end Gathers
end Config

section
variable {α : Type} [BEq α] [LawfulBEq α] {k : α} {ks : List α}

theorem eraseDups_concat_of_mem (h : k ∈ ks) : (ks ++ [k]).eraseDups = ks.eraseDups := by
  rw [List.eraseDups_append, List.removeAll, List.filter_eq_nil_iff.mpr fun x hx => by
    simpa [List.mem_singleton.mp hx] using h, List.eraseDups_nil, List.append_nil]

theorem eraseDups_concat_of_notMem (h : k ∉ ks) : (ks ++ [k]).eraseDups = ks.eraseDups ++ [k] := by
  have hkept : [k].removeAll ks = [k] := List.filter_eq_self.mpr fun x hx => by
    simpa [List.mem_singleton.mp hx] using h
  rw [List.eraseDups_append, hkept]
  rfl

end

namespace ConfigSet

/-- A set has gathered some configurations. -/
structure Grouped (g : StackGraph) (cs : List Config) (s : ConfigSet) : Prop where
  isOpen : s.Open
  keys : s.keys = (cs.map Config.key).eraseDups
  distinct : s.keys.Nodup
  entries : ∀ e ∈ s.toList, e.Gathers (!s.fullContext) g cs
  hasGuards : s.hasGuards ↔ ∃ c ∈ cs, c.isGuarded
  dipsOutside : s.dipsOutside ↔ ∃ c ∈ cs, 0 < c.outerReach

namespace Grouped
variable {g h : StackGraph} {cs ds : List Config} {s t : ConfigSet} {c : Config}

theorem empty (g : StackGraph) (fullContext : Bool) : (ConfigSet.empty fullContext).Grouped g [] where
  isOpen := open_empty fullContext
  keys := rfl
  distinct := .nil
  entries _ he := absurd he List.not_mem_nil
  hasGuards := by simp [ConfigSet.empty]
  dipsOutside := by simp [ConfigSet.empty]

/-- The keys of the entries are those of the configurations. -/
theorem mem_keys (hs : s.Grouped g cs) {k : Nat × Nat × Guard} : k ∈ s.keys ↔ ∃ c ∈ cs, c.key = k := by
  rw [hs.keys, List.mem_eraseDups, List.mem_map]

/-- The entries after another configuration was added. -/
theorem entries_insert (hs : s.Grouped g cs) (hg : g.Truthful) (hcs : ∀ c ∈ cs, g.knows c.stack)
    (hc : g.knows c.stack) : ∀ e ∈ (s.insert c g).1.toList,
      e.Gathers (!s.fullContext) (s.insert c g).2 (cs ++ [c]) := by
  intro x hx
  rcases insert_cases hs.isOpen c g with ⟨hnew, hrun⟩ | ⟨i, e, hi, hkey, hlist, hgraph⟩
  · rw [hrun, toList, Array.toList_push] at hx
    rw [hrun]
    rcases List.mem_append.mp hx with hx | hx
    · exact (hs.entries x hx).of_ne fun hkey => hnew (List.mem_map.mpr ⟨x, hx, hkey.symm⟩)
    · obtain rfl := List.mem_singleton.mp hx
      exact .of_new hc fun d hd hkey => hnew (hs.mem_keys.mpr ⟨d, hd, hkey⟩)
  · have he := hs.entries e (List.mem_of_getElem? hi)
    have m := hg.merge he.known hc (!s.fullContext)
    rw [hgraph]
    rw [hlist] at hx
    obtain ⟨j, hj⟩ := List.mem_iff_getElem?.mp hx
    rw [List.getElem?_set] at hj
    by_cases hij : i = j
    · rw [if_pos hij, if_pos (List.getElem?_eq_some_iff.mp hi).1] at hj
      exact Option.some.inj hj ▸ he.join hg hcs hc hkey
    · rw [if_neg hij] at hj
      -- another entry has another key
      have hother : c.key ≠ x.key := fun hx' => by
        have hlt : i < s.keys.length := by
          rw [ConfigSet.keys, List.length_map]
          exact (List.getElem?_eq_some_iff.mp hi).1
        refine hij ((List.getElem?_inj hlt hs.distinct).mp ?_)
        rw [ConfigSet.keys, List.getElem?_map, List.getElem?_map, hi, hj, Option.map_some, Option.map_some,
          hkey, hx']
      exact ((hs.entries x (List.mem_of_getElem? hj)).mono hg m.truthful m.grows hcs).of_ne hother

/-- **Step.**  Adding a configuration. -/
theorem insert (hs : s.Grouped g cs) (hg : g.Truthful) (hcs : ∀ c ∈ cs, g.knows c.stack)
    (hc : g.knows c.stack) : (s.insert c g).1.Grouped (s.insert c g).2 (cs ++ [c]) where
  isOpen := hs.isOpen.insert c g
  keys := by
    rw [keys_insert hs.isOpen, List.map_append, List.map_singleton]
    split
    · next hmem =>
      rw [eraseDups_concat_of_mem (List.mem_map.mpr (hs.mem_keys.mp hmem)), hs.keys]
    · next hnew =>
      rw [eraseDups_concat_of_notMem fun hmem => hnew (hs.mem_keys.mpr (List.mem_map.mp hmem)), hs.keys]
  distinct := nodup_keys_insert hs.isOpen hs.distinct c g
  entries := by
    rw [fullContext_insert]
    exact hs.entries_insert hg hcs hc
  hasGuards := by
    rw [hasGuards_insert, Bool.or_eq_true, hs.hasGuards]
    simp only [List.mem_append, List.mem_singleton, or_and_right, exists_or, exists_eq_left]
  dipsOutside := by
    rw [dipsOutside_insert, Bool.or_eq_true, hs.dipsOutside, decide_eq_true_iff]
    simp only [List.mem_append, List.mem_singleton, or_and_right, exists_or, exists_eq_left]

/-- A configuration makes an entry if none before it had its key. -/
theorem add_fst_iff (hs : s.Grouped g cs) (c : Config) (h : StackGraph) :
    (s.add c h).1 ↔ c.key ∉ cs.map Config.key := by
  rw [ConfigSet.add_fst_iff hs.isOpen, hs.keys, List.mem_eraseDups]

end Grouped

/-! ## Adding several configurations -/

/-- Adding a configuration uses the graph as it may be used. -/
theorem used_insert {g : StackGraph} {given : Set StackRef} (hu : g.Used given) {s : ConfigSet} (hs : s.Open)
    (hstacks : ∀ e ∈ s.toList, e.stack ∈ given) {c : Config} (hc : c.stack ∈ given) :
    Extends g (s.insert c g).2 ∧ ∃ given', given ⊆ given' ∧ (s.insert c g).2.Used given' ∧
      ∀ e ∈ (s.insert c g).1.toList, e.stack ∈ given' := by
  rcases insert_cases hs c g with ⟨-, hrun⟩ | ⟨i, e, hi, -, hlist, hgraph⟩
  · rw [hrun, toList, Array.toList_push]
    exact ⟨Extends.refl g, given, Set.Subset.rfl, hu,
      List.forall_mem_append.mpr ⟨hstacks, List.forall_mem_singleton.mpr hc⟩⟩
  · have he := hstacks e (List.mem_of_getElem? hi)
    obtain ⟨htruthful, hknown⟩ := hu.truthful_known
    rw [hlist, hgraph]
    refine ⟨(htruthful.merge (hknown _ he) (hknown _ hc) _).grows, _, Set.subset_insert _ _,
      hu.merge (!s.fullContext) he hc, fun d hd => ?_⟩
    rcases List.mem_or_eq_of_mem_set hd with hd | rfl
    · exact .inr (hstacks d hd)
    · exact .inl rfl

theorem insertAll_concat (s : ConfigSet) (cs : List Config) (c : Config) (g : StackGraph) :
    s.insertAll (cs ++ [c]) g = (s.insertAll cs g).1.insert c (s.insertAll cs g).2 := by
  rw [insertAll, List.foldl_append]
  rfl

/-- **Run.**  Adding configurations one after another to an empty set. -/
theorem grouped_insertAll {g : StackGraph} {given : Set StackRef} (hu : g.Used given) {cs : List Config}
    (hcs : ∀ c ∈ cs, c.stack ∈ given) (fullContext : Bool) :
    let out := (ConfigSet.empty fullContext).insertAll cs g
    out.1.fullContext = fullContext ∧ Extends g out.2 ∧ out.1.Grouped out.2 cs ∧
      ∃ given', given ⊆ given' ∧ out.2.Used given' ∧ ∀ e ∈ out.1.toList, e.stack ∈ given' := by
  induction cs using List.reverseRecOn with
  | nil =>
    exact ⟨rfl, Extends.refl g, .empty g fullContext, given, Set.Subset.rfl, hu,
      fun e he => absurd he List.not_mem_nil⟩
  | append_singleton cs c ih =>
    have hrest : ∀ d ∈ cs, d.stack ∈ given := fun d hd => hcs d (List.mem_append_left _ hd)
    have hc : c.stack ∈ given := hcs c (List.mem_append_right _ (List.mem_singleton_self c))
    obtain ⟨hfull, hgrows, hgrouped, given₁, hsub, hu₁, hstacks⟩ := ih hrest
    rw [insertAll_concat]
    generalize (ConfigSet.empty fullContext).insertAll cs g = mid at *
    obtain ⟨s, h⟩ := mid
    dsimp only at *
    obtain ⟨htruthful, hknown⟩ := hu₁.truthful_known
    obtain ⟨hgrows', given₂, hsub', hu₂, hstacks'⟩ := used_insert hu₁ hgrouped.isOpen hstacks (hsub hc)
    exact ⟨(fullContext_insert s c h).trans hfull, hgrows.trans hgrows',
      hgrouped.insert htruthful (fun d hd => hknown _ (hsub (hrest d hd))) (hknown _ (hsub hc)),
      given₂, hsub.trans hsub', hu₂, hstacks'⟩

end ConfigSet
end AdaptiveLL

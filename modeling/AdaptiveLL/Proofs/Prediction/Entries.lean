import Mathlib
import AdaptiveLL.Proofs.Prediction.Alike

/-! # The entries of a set

The entries of a set that merges stacks are told apart by state, alternative and guard (`Config.key`).  A
configuration whose key is new becomes the last entry; any other is merged into the entry with its key,
which stays where it is (`ConfigSet.insert_cases`).  So keys are only ever added, and no key occurs twice.
-/
namespace AdaptiveLL

/-- What keeps two configurations of one set apart. -/
def Config.key (c : Config) : Nat × Nat × Guard := (c.state, c.alt, c.guard)

theorem Config.mergesWith_iff {c d : Config} : c.mergesWith d ↔ c.key = d.key := by
  simp only [mergesWith, key, Bool.and_eq_true, decide_eq_true_eq, Prod.mk.injEq, and_assoc]

namespace ConfigSet

/-- The keys of the entries, in order. -/
def keys (s : ConfigSet) : List (Nat × Nat × Guard) := s.toList.map Config.key

variable {s : ConfigSet}

theorem insert_of_new (hs : s.Open) {c : Config} (hnew : c.key ∉ s.keys) (g : StackGraph) :
    s.insert c g = ({ s.noting c with configs := s.configs.push c }, g) := by
  have hnone : s.toList.findIdx? c.mergesWith = none := by
    rw [List.findIdx?_eq_none_iff]
    intro d hd
    rw [Bool.eq_false_iff]
    intro hm
    exact hnew (Config.mergesWith_iff.mp hm ▸ List.mem_map_of_mem hd)
  rw [insert_of_open hs, hnone]

/-- A configuration makes an entry if its key is new. -/
theorem add_fst_iff (hs : s.Open) (c : Config) (g : StackGraph) : (s.add c g).1 ↔ c.key ∉ s.keys := by
  have hfind : (s.add c g).1 = (s.toList.findIdx? c.mergesWith).isNone := by
    unfold add
    simp only [entryFor?_noting hs]
    cases s.toList.findIdx? c.mergesWith with
    | none => rfl
    | some i =>
      have hord : (s.noting c).ordered = false := hs.unordered
      simp only [hord, Bool.false_eq_true, if_false]
      split <;> rfl
  rw [hfind, Option.isNone_iff_eq_none, List.findIdx?_eq_none_iff, keys, List.mem_map, not_exists]
  refine forall_congr' fun d => ?_
  rw [not_and, Bool.eq_false_iff, Ne, Config.mergesWith_iff, eq_comm]

/-- An entry and a configuration that is merged into it. -/
def merged (old c : Config) (stack : StackRef) : Config :=
  { old with stack, outerReach := max old.outerReach c.outerReach }

/-- A configuration becomes the last entry, or it is merged into the entry with its key. -/
theorem insert_cases (hs : s.Open) (c : Config) (g : StackGraph) :
    (c.key ∉ s.keys ∧ s.insert c g = ({ s.noting c with configs := s.configs.push c }, g)) ∨
    ∃ i old, s.toList[i]? = some old ∧ old.key = c.key ∧
      let joint := g.merge old.stack c.stack (!s.fullContext)
      (s.insert c g).1.toList = s.toList.set i (merged old c joint.1) ∧ (s.insert c g).2 = joint.2 := by
  by_cases hnew : c.key ∈ s.keys
  · right
    rw [insert_of_open hs]
    cases hi : s.toList.findIdx? c.mergesWith with
    | none =>
      obtain ⟨d, hd, hkey⟩ := List.mem_map.mp hnew
      have hm := List.findIdx?_eq_none_iff.mp hi d hd
      rw [Config.mergesWith_iff.mpr hkey.symm] at hm
      cases hm
    | some i =>
      obtain ⟨hlt, hm, -⟩ := List.findIdx?_eq_some_iff_getElem.mp hi
      have hold : s.toList[i]? = some s.toList[i] := List.getElem?_eq_getElem hlt
      have hget : s.configs[i]? = some s.toList[i] := by rw [← hold, toList, Array.getElem?_toList]
      refine ⟨i, s.toList[i], hold, (Config.mergesWith_iff.mp hm).symm, ?_⟩
      simp only [hget]
      refine ⟨?_, trivial⟩
      rw [toList, Array.set!_eq_setIfInBounds, Array.toList_setIfInBounds]
      rfl
  · exact .inl ⟨hnew, insert_of_new hs hnew g⟩

/-- An entry is an old one, the configuration itself, or an old one with the configuration. -/
theorem mem_insert (hs : s.Open) {c d : Config} {g : StackGraph} (h : d ∈ (s.insert c g).1.toList) :
    d ∈ s.toList ∨ d = c ∧ (s.insert c g).2 = g ∨
      ∃ old ∈ s.toList, old.key = c.key ∧ d = merged old c (g.merge old.stack c.stack (!s.fullContext)).1 ∧
        (s.insert c g).2 = (g.merge old.stack c.stack (!s.fullContext)).2 := by
  rcases insert_cases hs c g with ⟨-, heq⟩ | ⟨i, old, hold, hkey, hlist, hgraph⟩
  · rw [heq, toList, Array.toList_push, List.mem_append, List.mem_singleton] at h
    rcases h with h | rfl
    · exact .inl h
    · exact .inr (.inl ⟨rfl, congrArg Prod.snd heq⟩)
  · rw [hlist] at h
    rcases List.mem_or_eq_of_mem_set h with h | rfl
    · exact .inl h
    · exact .inr (.inr ⟨old, List.mem_of_getElem? hold, hkey, rfl, hgraph⟩)

/-- A key is added at the end, if it is new. -/
theorem keys_insert (hs : s.Open) (c : Config) (g : StackGraph) :
    (s.insert c g).1.keys = if c.key ∈ s.keys then s.keys else s.keys ++ [c.key] := by
  rcases insert_cases hs c g with ⟨hnew, heq⟩ | ⟨i, old, hold, hkey, hlist, -⟩
  · rw [if_neg hnew, heq, keys, toList, Array.toList_push, List.map_append]
    rfl
  · have hat : s.keys[i]? = some c.key := by rw [keys, List.getElem?_map, hold, ← hkey]; rfl
    obtain ⟨hlt, hget⟩ := List.getElem?_eq_some_iff.mp hat
    have hsame : (merged old c (g.merge old.stack c.stack (!s.fullContext)).1).key = s.keys[i] :=
      hkey.trans hget.symm
    rw [if_pos (List.mem_of_getElem? hat), keys, hlist, List.map_set, hsame]
    exact List.set_getElem_self hlt

/-- No key occurs twice. -/
theorem nodup_keys_insert (hs : s.Open) (hnodup : s.keys.Nodup) (c : Config) (g : StackGraph) :
    (s.insert c g).1.keys.Nodup := by
  rw [keys_insert hs]
  split
  · exact hnodup
  · next hnew => exact List.nodup_append.mpr ⟨hnodup, List.nodup_singleton _, fun a ha b hb hab =>
      hnew (by rwa [← List.mem_singleton.mp hb, ← hab])⟩

end ConfigSet
end AdaptiveLL

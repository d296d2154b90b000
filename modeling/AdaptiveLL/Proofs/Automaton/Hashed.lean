import Mathlib
import AdaptiveLL.Automaton.Hashed
import AdaptiveLL.Proofs.Automaton
import AdaptiveLL.Proofs.Config

/-! # One state for each set of configurations

An automaton with buckets is edited in four ways: states are added, edges are stored, it is said where to
begin, and everything is dropped.  Whatever the edits were, the buckets list each state under the hash of
its configurations and nothing else, and no two states have configurations that count as the same
(`HashedAutomaton.Indexed`).  So looking in one bucket finds what looking through all states would find,
and an automaton with buckets does what the automaton without them does (`HashedAutomaton.plain_add`).

The hash is a parameter.  All that is asked of it is that sets which count as the same have the same hash
(`ConfigSet.IsContentHash`), which `ConfigSet.contentHash` satisfies; other sets may have the same hash too.
-/
namespace AdaptiveLL

/-- Sets that count as the same have the same hash. -/
def ConfigSet.IsContentHash (hash : ConfigSet → UInt64) : Prop :=
  ∀ ⦃s t : ConfigSet⦄, s.same t → hash s = hash t

theorem ConfigSet.isContentHash_contentHash : IsContentHash contentHash := by
  intro s t hsame
  have hcontent := same_iff.mp hsame
  simp only [content, Prod.mk.injEq] at hcontent
  obtain ⟨hfull, -, -, halt, halts, hconfigs⟩ := hcontent
  rw [contentHash, contentHash, hconfigs, hfull, halt, halts]

theorem AutomatonState.configs_eq_of_bare {s t : AutomatonState} (h : s.bare = t.bare) :
    s.configs = t.configs := by
  rw [← configs_bare s, h, configs_bare]

namespace Automaton

/-- No two states have configurations that count as the same. -/
def Distinct (a : Automaton) : Prop :=
  ∀ ⦃i j : Nat⦄ ⦃e f : AutomatonState⦄, a.states[i]? = some e → a.states[j]? = some f →
    e.configs.same f.configs → i = j

variable {a : Automaton} {s : AutomatonState}

/-- Adding a state whose configurations are there already. -/
theorem Distinct.add_known (h : a.Distinct) {i : Nat} {e : AutomatonState} (he : a.states[i]? = some e)
    (hsame : e.configs.same s.configs) : a.add s = (.state i, a) := by
  unfold add
  cases hf : a.states.findIdx? fun t => t.configs.same s.configs with
  | none =>
    have hnone := Array.findIdx?_eq_none_iff.mp hf e (Array.mem_of_getElem? he)
    rw [hsame] at hnone
    contradiction
  | some j =>
    obtain ⟨hj, hfound, -⟩ := Array.findIdx?_eq_some_iff_getElem.mp hf
    have hij : i = j :=
      h he (Array.getElem?_eq_getElem hj) (ConfigSet.same_trans hsame (ConfigSet.same_symm hfound))
    rw [hij]

/-- Adding a state whose configurations are new. -/
theorem add_new (hnew : ∀ e ∈ a.states, ¬ e.configs.same s.configs) :
    a.add s = (.state a.states.size,
      { a with states := a.states.push { s with configs := s.configs.publish } }) := by
  have hf : (a.states.findIdx? fun t => t.configs.same s.configs) = none :=
    Array.findIdx?_eq_none_iff.mpr fun e he => Bool.eq_false_iff.mpr (hnew e he)
  rw [add, hf]

/-- A way to change an automaton. -/
inductive Edit where
  /-- To add a state. -/
  | add (s : AutomatonState)
  /-- To store an edge. -/
  | setEdge (source : Target) (x : Symbol) (t : Target)
  /-- To say where to begin. -/
  | setStart (t : Target)
  /-- To drop everything. -/
  | clear

/-- Changes an automaton. -/
def edit (a : Automaton) : Edit → Automaton
  | .add s => (a.add s).2
  | .setEdge source x t => a.setEdge source x t
  | .setStart t => a.setStart t
  | .clear => a.clear

end Automaton

namespace HashedAutomaton
open Automaton (Edit)

/-- Changes an automaton with buckets. -/
def edit (hash : ConfigSet → UInt64) (m : HashedAutomaton) : Edit → HashedAutomaton
  | .add s => (m.add hash s).2
  | .setEdge source x t => m.setEdge source x t
  | .setStart t => m.setStart t
  | .clear => m.clear

/-- Each state has its position as name, no two have configurations that count as the same, and the buckets
hold the names of the states by the hash of their configurations. -/
structure Indexed (hash : ConfigSet → UInt64) (m : HashedAutomaton) : Prop where
  named : ∀ ⦃i : Nat⦄ ⦃e : NamedState⦄, m.states[i]? = some e → e.name = .state i
  distinct : ∀ ⦃i j : Nat⦄ ⦃e f : NamedState⦄, m.states[i]? = some e → m.states[j]? = some f →
    e.configs.same f.configs → i = j
  bucketed : ∀ (key : UInt64) (t : Target),
    t ∈ m.bucket key ↔ ∃ i e, t = .state i ∧ m.states[i]? = some e ∧ hash e.configs = key

/-- `m'` has the states of `m`, perhaps with more edges, and perhaps more states. -/
def Extends (m m' : HashedAutomaton) : Prop :=
  ∀ ⦃i : Nat⦄ ⦃e : NamedState⦄, m.states[i]? = some e →
    ∃ f, m'.states[i]? = some f ∧ f.name = e.name ∧ f.bare = e.bare

theorem Extends.refl (m : HashedAutomaton) : Extends m m := fun _ e h => ⟨e, h, rfl, rfl⟩

theorem Extends.trans {m m' m'' : HashedAutomaton} (h : Extends m m') (h' : Extends m' m'') :
    Extends m m'' := by
  intro i e he
  obtain ⟨f, hf, hname, hbare⟩ := h he
  obtain ⟨f', hf', hname', hbare'⟩ := h' hf
  exact ⟨f', hf', hname'.trans hname, hbare'.trans hbare⟩

variable {hash : ConfigSet → UInt64} {m : HashedAutomaton} {s : AutomatonState}

/-! ## Looking in a bucket -/

section Looking
variable (h : m.Indexed hash) (hhash : ConfigSet.IsContentHash hash)
include h hhash

/-- In the bucket of a set there is a state with these configurations exactly if there is one at all. -/
theorem find?_eq_some_iff {s : ConfigSet} {t : Target} :
    m.find? hash s = some t ↔ ∃ i e, t = .state i ∧ m.states[i]? = some e ∧ e.configs.same s := by
  have hfound {t : Target} (ht : m.find? hash s = some t) :
      ∃ i e, t = .state i ∧ m.states[i]? = some e ∧ e.configs.same s := by
    obtain ⟨i, e, rfl, he, -⟩ := (h.bucketed _ t).mp (List.mem_of_find?_eq_some ht)
    have hsame := List.find?_some ht
    rw [state?, he] at hsame
    exact ⟨i, e, rfl, he, hsame⟩
  refine ⟨hfound, ?_⟩
  rintro ⟨i, e, rfl, he, hsame⟩
  -- `e` is in the bucket, and what is found there is no other since states are distinct.
  have hmem : .state i ∈ m.bucket (hash s) := (h.bucketed _ _).mpr ⟨i, e, rfl, he, hhash hsame⟩
  cases hf : m.find? hash s with
  | none =>
    have hnone := List.find?_eq_none.mp hf _ hmem
    rw [state?, he] at hnone
    exact absurd hsame hnone
  | some t =>
    obtain ⟨j, f, rfl, hf', hsame'⟩ := hfound hf
    rw [h.distinct he hf' (ConfigSet.same_trans hsame (ConfigSet.same_symm hsame'))]

theorem add_known {i : Nat} {e : NamedState} (he : m.states[i]? = some e)
    (hsame : e.configs.same s.configs) : m.add hash s = (.state i, m) := by
  rw [add, (find?_eq_some_iff h hhash).mpr ⟨i, e, rfl, he, hsame⟩]

theorem add_new (hnew : ∀ e ∈ m.states, ¬ e.configs.same s.configs) :
    m.add hash s = (.state m.states.size, m.push hash s) := by
  cases hf : m.find? hash s.configs with
  | none =>
    rw [add, hf]
    rfl
  | some t =>
    obtain ⟨i, e, -, he, hsame⟩ := (find?_eq_some_iff h hhash).mp hf
    exact absurd hsame (hnew e (Array.mem_of_getElem? he))

/-- Adding a state finds one with the same configurations, or puts it last since there is none. -/
theorem add_cases (s : AutomatonState) :
    (∃ i e, m.states[i]? = some e ∧ e.configs.same s.configs ∧ m.add hash s = (.state i, m)) ∨
      (∀ e ∈ m.states, ¬ e.configs.same s.configs) ∧
        m.add hash s = (.state m.states.size, m.push hash s) := by
  by_cases hknown : ∃ e ∈ m.states, e.configs.same s.configs
  · obtain ⟨e, hmem, hsame⟩ := hknown
    obtain ⟨i, he⟩ := Array.mem_iff_getElem?.mp hmem
    exact .inl ⟨i, e, he, hsame, add_known h hhash he hsame⟩
  · have hnew : ∀ e ∈ m.states, ¬ e.configs.same s.configs := fun e he hsame => hknown ⟨e, he, hsame⟩
    exact .inr ⟨hnew, add_new h hhash hnew⟩

end Looking

/-! ## Edits keep the buckets right -/

theorem indexed_initial (hash : ConfigSet → UInt64) (decision netState : Nat) :
    Indexed hash { decision, netState } where
  named i e he := by simp at he
  distinct i j e f he := by simp at he
  bucketed key t := by simp [bucket]

theorem states_setEdge (m : HashedAutomaton) (i j : Nat) (x : Symbol) (t : Target) :
    (m.setEdge (.state i) x t).states[j]? =
      if i = j then (m.states[j]?).map fun e => { e.toAutomatonState.setEdge x t with name := e.name }
      else m.states[j]? :=
  Array.getElem?_modify

/-- Storing an edge leaves everything else as it is. -/
theorem extends_setEdge (m : HashedAutomaton) (source : Target) (x : Symbol) (t : Target) :
    Extends m (m.setEdge source x t) := by
  cases source with
  | error => exact Extends.refl m
  | state i =>
    intro j e he
    rw [states_setEdge, he]
    by_cases hij : i = j
    · rw [if_pos hij]
      exact ⟨_, rfl, rfl, AutomatonState.bare_setEdge e.toAutomatonState x t⟩
    · rw [if_neg hij]
      exact ⟨e, rfl, rfl, rfl⟩

theorem size_setEdge (m : HashedAutomaton) (source : Target) (x : Symbol) (t : Target) :
    (m.setEdge source x t).states.size = m.states.size := by
  cases source with
  | error => rfl
  | state i => exact Array.size_modify

theorem buckets_setEdge (m : HashedAutomaton) (source : Target) (x : Symbol) (t : Target) :
    (m.setEdge source x t).buckets = m.buckets := by
  cases source <;> rfl

/-- The buckets stay right as long as no state is added. -/
theorem Indexed.of_extends {m' : HashedAutomaton} (h : m.Indexed hash) (hext : Extends m m')
    (hsize : m'.states.size = m.states.size) (hbuckets : m'.buckets = m.buckets) : m'.Indexed hash := by
  -- As there are no more states than before, each is one from before.
  have hback {i : Nat} {f : NamedState} (hf : m'.states[i]? = some f) :
      ∃ e, m.states[i]? = some e ∧ f.name = e.name ∧ f.configs = e.configs := by
    obtain ⟨hi, -⟩ := Array.getElem?_eq_some_iff.mp hf
    have he := Array.getElem?_eq_getElem (hsize ▸ hi)
    obtain ⟨f', hf', hname, hbare⟩ := hext he
    obtain rfl : f = f' := Option.some.inj (hf.symm.trans hf')
    exact ⟨_, he, hname, AutomatonState.configs_eq_of_bare hbare⟩
  refine ⟨fun i f hf => ?_, fun i j f f' hf hf' hsame => ?_, fun key t => ?_⟩
  · obtain ⟨e, he, hname, -⟩ := hback hf
    exact hname.trans (h.named he)
  · obtain ⟨e, he, -, hconfigs⟩ := hback hf
    obtain ⟨e', he', -, hconfigs'⟩ := hback hf'
    rw [hconfigs, hconfigs'] at hsame
    exact h.distinct he he' hsame
  · rw [bucket, hbuckets]
    refine (h.bucketed key t).trans ⟨?_, ?_⟩
    · rintro ⟨i, e, rfl, he, hkey⟩
      obtain ⟨f, hf, -, hbare⟩ := hext he
      have hconfigs : f.configs = e.configs := AutomatonState.configs_eq_of_bare hbare
      exact ⟨i, f, rfl, hf, hconfigs ▸ hkey⟩
    · rintro ⟨i, f, rfl, hf, hkey⟩
      obtain ⟨e, he, -, hconfigs⟩ := hback hf
      exact ⟨i, e, rfl, he, hconfigs ▸ hkey⟩

/-- A state after one was put last is one from before, or that one. -/
theorem getElem?_push {i : Nat} {f : NamedState} :
    (m.push hash s).states[i]? = some f ↔
      m.states[i]? = some f ∨ i = m.states.size ∧ f = m.next s := by
  change (m.states.push (m.next s))[i]? = some f ↔ _
  rw [Array.getElem?_push]
  split
  · next hi =>
    subst hi
    simp [eq_comm]
  · next hi => simp [hi]

/-- The bucket of a state that was put last has its name as well; any other is what it was. -/
theorem bucket_push (key : UInt64) :
    (m.push hash s).bucket key =
      if hash s.configs = key then m.bucket key ++ [.state m.states.size] else m.bucket key := by
  rw [bucket, push, Std.HashMap.getD_insert]
  by_cases hkey : hash s.configs = key
  · simp [hkey, next]
  · simp [hkey, bucket]

theorem extends_push (m : HashedAutomaton) (s : AutomatonState) : Extends m (m.push hash s) :=
  fun _ e he => ⟨e, getElem?_push.mpr (.inl he), rfl, rfl⟩

/-- The buckets stay right when a state with new configurations is put last. -/
theorem Indexed.push (h : m.Indexed hash) (hhash : ConfigSet.IsContentHash hash)
    (hnew : ∀ e ∈ m.states, ¬ e.configs.same s.configs) : (m.push hash s).Indexed hash := by
  have hpublish : s.configs.same s.configs.publish := ConfigSet.same_publish s.configs
  have hfresh {i : Nat} {e : NamedState} (he : m.states[i]? = some e) :
      ¬ e.configs.same (m.next s).configs := fun hsame =>
    hnew e (Array.mem_of_getElem? he) (ConfigSet.same_trans hsame (ConfigSet.same_symm hpublish))
  refine ⟨fun i f hf => ?named, fun i j f f' hf hf' hsame => ?distinct, fun key t => ?bucketed⟩
  case named =>
    rcases getElem?_push.mp hf with he | ⟨rfl, rfl⟩
    · exact h.named he
    · rfl
  case distinct =>
    rcases getElem?_push.mp hf with he | ⟨rfl, rfl⟩ <;>
      rcases getElem?_push.mp hf' with he' | ⟨rfl, rfl⟩
    · exact h.distinct he he' hsame
    · exact absurd hsame (hfresh he)
    · exact absurd (ConfigSet.same_symm hsame) (hfresh he')
    · rfl
  case bucketed =>
    -- The bucket goes by the set that was given, the state has that set sealed: the hashes are the same.
    have hlisted : (∃ i f, t = .state i ∧ (m.push hash s).states[i]? = some f ∧ hash f.configs = key) ↔
        t ∈ m.bucket key ∨ t = .state m.states.size ∧ hash s.configs = key := by
      rw [h.bucketed]
      constructor
      · rintro ⟨i, f, rfl, hf, hkey⟩
        rcases getElem?_push.mp hf with he | ⟨rfl, rfl⟩
        · exact .inl ⟨i, f, rfl, he, hkey⟩
        · exact .inr ⟨rfl, (hhash hpublish).trans hkey⟩
      · rintro (⟨i, f, rfl, he, hkey⟩ | ⟨rfl, hkey⟩)
        · exact ⟨i, f, rfl, getElem?_push.mpr (.inl he), hkey⟩
        · have hlast : (m.push hash s).states[m.states.size]? = some (m.next s) :=
            getElem?_push.mpr (.inr ⟨rfl, rfl⟩)
          exact ⟨_, m.next s, rfl, hlast, (hhash hpublish).symm.trans hkey⟩
    rw [hlisted, bucket_push]
    by_cases hkey : hash s.configs = key
    · simp [hkey]
    · simp [hkey]

/-! ## Without the buckets -/

theorem getElem?_plain {i : Nat} {e : NamedState} (he : m.states[i]? = some e) :
    m.plain.states[i]? = some e.toAutomatonState := by
  rw [plain, Array.getElem?_map, he, Option.map_some]

theorem Indexed.distinct_plain (h : m.Indexed hash) : m.plain.Distinct := by
  intro i j e f he hf hsame
  rw [plain, Array.getElem?_map, Option.map_eq_some_iff] at he hf
  obtain ⟨e, he, rfl⟩ := he
  obtain ⟨f, hf, rfl⟩ := hf
  exact h.distinct he hf hsame

theorem plain_initial (decision netState : Nat) :
    ({ decision, netState } : HashedAutomaton).plain = { decision, netState } := by
  simp [plain]

theorem plain_clear (m : HashedAutomaton) : m.clear.plain = m.plain.clear := by
  simp [clear, plain, Automaton.clear]

theorem plain_setEdge (m : HashedAutomaton) (source : Target) (x : Symbol) (t : Target) :
    (m.setEdge source x t).plain = m.plain.setEdge source x t := by
  cases source with
  | error => rfl
  | state i =>
    have hstates : (m.setEdge (.state i) x t).plain.states = (m.plain.setEdge (.state i) x t).states := by
      refine Array.ext_getElem? fun j => ?_
      rw [Automaton.states_setEdge, plain, plain, Array.getElem?_map, Array.getElem?_map, states_setEdge]
      by_cases hij : i = j
      · simp [hij, Function.comp_def]
      · simp [hij]
    exact congrArg (fun states => { m.plain with states }) hstates

/-! ## Edits -/

section Editing
variable (h : m.Indexed hash) (hhash : ConfigSet.IsContentHash hash)
include h hhash

theorem Indexed.edit (q : Edit) : (m.edit hash q).Indexed hash := by
  cases q with
  | add s =>
    change (m.add hash s).2.Indexed hash
    rcases add_cases h hhash s with ⟨i, e, -, -, heq⟩ | ⟨hnew, heq⟩
    · rw [heq]
      exact h
    · rw [heq]
      exact h.push hhash hnew
  | setEdge source x t =>
    exact h.of_extends (extends_setEdge m source x t) (size_setEdge m source x t)
      (buckets_setEdge m source x t)
  | setStart t => exact ⟨h.named, h.distinct, h.bucketed⟩
  | clear => exact indexed_initial hash m.decision m.netState

/-- Only dropping everything takes a state away or changes more of it than its edges. -/
theorem extends_edit {q : Edit} (hq : q ≠ .clear) : Extends m (m.edit hash q) := by
  cases q with
  | add s =>
    change Extends m (m.add hash s).2
    rcases add_cases h hhash s with ⟨i, e, -, -, heq⟩ | ⟨-, heq⟩
    · rw [heq]
      exact Extends.refl m
    · rw [heq]
      exact extends_push m s
  | setEdge source x t => exact extends_setEdge m source x t
  | setStart t => exact Extends.refl m
  | clear => exact absurd rfl hq

/-- Looking in a bucket and looking through all states come to the same. -/
theorem plain_add (s : AutomatonState) :
    (m.add hash s).1 = (m.plain.add s).1 ∧ (m.add hash s).2.plain = (m.plain.add s).2 := by
  rcases add_cases h hhash s with ⟨i, e, he, hsame, heq⟩ | ⟨hnew, heq⟩
  · rw [heq, h.distinct_plain.add_known (getElem?_plain he) hsame]
    exact ⟨rfl, rfl⟩
  · have hnew' : ∀ e ∈ m.plain.states, ¬ e.configs.same s.configs := by
      intro e he
      obtain ⟨f, hf, rfl⟩ := Array.mem_map.mp he
      exact hnew f hf
    rw [heq, Automaton.add_new hnew']
    simp [plain, push, next]

theorem plain_edit (q : Edit) : (m.edit hash q).plain = m.plain.edit q := by
  cases q with
  | add s => exact (plain_add h hhash s).2
  | setEdge source x t => exact plain_setEdge m source x t
  | setStart t => rfl
  | clear => exact plain_clear m

end Editing

/-! ## Histories -/

/-- What adding a state comes to: it gives the name of a state with the same configurations, and adds one
exactly if there was none. -/
structure Adds (hash : ConfigSet → UInt64) (m : HashedAutomaton) (s : AutomatonState) : Prop where
  named : ∃ i e, (m.add hash s).1 = .state i ∧ (m.add hash s).2.states[i]? = some e ∧
    e.configs.same s.configs
  known : (∃ e ∈ m.states, e.configs.same s.configs) → (m.add hash s).2 = m
  fresh : (∀ e ∈ m.states, ¬ e.configs.same s.configs) →
    (m.add hash s).2.states = m.states.push (m.next s)

theorem Indexed.adds (h : m.Indexed hash) (hhash : ConfigSet.IsContentHash hash)
    (s : AutomatonState) : m.Adds hash s := by
  rcases add_cases h hhash s with ⟨i, e, he, hsame, heq⟩ | ⟨hnew, heq⟩
  · refine ⟨⟨i, e, ?_, ?_, hsame⟩, fun _ => ?_, fun hnew => ?_⟩
    · rw [heq]
    · rw [heq]
      exact he
    · rw [heq]
    · exact absurd hsame (hnew e (Array.mem_of_getElem? he))
  · refine ⟨⟨m.states.size, m.next s, ?_, ?_, ?_⟩, fun ⟨e, he, hsame⟩ => ?_, fun _ => ?_⟩
    · rw [heq]
    · rw [heq]
      exact getElem?_push.mpr (.inr ⟨rfl, rfl⟩)
    · exact ConfigSet.same_symm (ConfigSet.same_publish s.configs)
    · exact absurd hsame (hnew e he)
    · rw [heq]
      rfl

/-- What an automaton with buckets has become. -/
def edited (hash : ConfigSet → UInt64) (m : HashedAutomaton) (edits : List Edit) : HashedAutomaton :=
  edits.foldl (edit hash) m

/-- Any edits keep the buckets right, and do what they do without buckets. -/
theorem Indexed.edited (h : m.Indexed hash) (hhash : ConfigSet.IsContentHash hash)
    (edits : List Edit) :
    (m.edited hash edits).Indexed hash ∧
      (m.edited hash edits).plain = edits.foldl Automaton.edit m.plain := by
  induction edits generalizing m with
  | nil => exact ⟨h, rfl⟩
  | cons q edits ih =>
    have hrest := ih (h.edit hhash q)
    rw [plain_edit h hhash q] at hrest
    exact hrest

/-- As long as not everything is dropped, states stay as they are but for their edges. -/
theorem Indexed.extends_edited (h : m.Indexed hash) (hhash : ConfigSet.IsContentHash hash)
    {edits : List Edit} (hclear : .clear ∉ edits) : Extends m (m.edited hash edits) := by
  induction edits generalizing m with
  | nil => exact Extends.refl m
  | cons q edits ih =>
    have hq : q ≠ .clear := fun heq => hclear (heq ▸ List.mem_cons_self)
    have hedits : .clear ∉ edits := fun hmem => hclear (List.mem_cons_of_mem q hmem)
    exact (extends_edit h hhash hq).trans (ih (h.edit hhash q) hedits)

/-- **One state for each set.**  Whatever the edits were and whatever the hash, as long as it is the same
for sets that count as the same: with buckets the automaton is what it is without them, and the next
state to be added gets the same name; each state's name is its position; no two states have configurations
that count as the same; adding a state gives the name of one with these configurations, and adds it exactly
if there was none; and until everything is dropped, a state that was added changes by its edges only. -/
theorem edited_unique (hash : ConfigSet → UInt64) (hhash : ConfigSet.IsContentHash hash)
    (decision netState : Nat) (edits : List Edit) :
    let m := edited hash { decision, netState } edits
    let a := edits.foldl Automaton.edit { decision, netState }
    (m.plain = a ∧ ∀ s, (m.add hash s).1 = (a.add s).1) ∧
      (∀ (i : Nat) (e : NamedState), m.states[i]? = some e → e.name = .state i) ∧
      (∀ (i j : Nat) (e f : NamedState), m.states[i]? = some e → m.states[j]? = some f →
        e.configs.same f.configs → i = j) ∧
      (∀ s, m.Adds hash s) ∧
      ∀ later : List Edit, .clear ∉ later → Extends m (m.edited hash later) := by
  intro m a
  obtain ⟨hindexed, hplain⟩ := (indexed_initial hash decision netState).edited hhash edits
  have hplain : m.plain = a := calc
    m.plain = edits.foldl Automaton.edit (plain { decision, netState }) := hplain
    _ = a := by rw [plain_initial]
  refine ⟨⟨hplain, fun s => hplain ▸ (plain_add hindexed hhash s).1⟩, fun i e he => hindexed.named he,
    fun i j e f he hf hsame => hindexed.distinct he hf hsame, hindexed.adds hhash,
    fun later hclear => hindexed.extends_edited hhash hclear⟩

/-- All sets of one size share a bucket, in which two of them are told apart. -/
theorem edited_unique_sized :
    let hash (s : ConfigSet) : UInt64 := s.size.toUInt64
    let single (state : Nat) : AutomatonState :=
      .ofConfigs { configs := #[{ state, alt := 1, stack := StackRef.bottom }], fullContext := false }
    let edits : List Edit := [.add (single 4), .add (single 5), .setEdge (.state 0) 7 (.state 1)]
    let m := edited hash { decision := 0, netState := 3 } edits
    let a := edits.foldl Automaton.edit { decision := 0, netState := 3 }
    ConfigSet.IsContentHash hash ∧ m.bucket 1 = [.state 0, .state 1] ∧
      (m.add hash (single 5)).1 = .state 1 ∧
      (m.plain = a ∧ ∀ s, (m.add hash s).1 = (a.add s).1) ∧
      (∀ (i : Nat) (e : NamedState), m.states[i]? = some e → e.name = .state i) ∧
      (∀ (i j : Nat) (e f : NamedState), m.states[i]? = some e → m.states[j]? = some f →
        e.configs.same f.configs → i = j) ∧
      (∀ s, m.Adds hash s) ∧
      ∀ later : List Edit, .clear ∉ later → Extends m (m.edited hash later) := by
  intro hash single edits m a
  have hhash : ConfigSet.IsContentHash hash := by
    intro s t hsame
    have hlength := congrArg List.length (ConfigSet.identity_of_same hsame)
    have hsize : s.size = t.size := by simpa [ConfigSet.toList, ConfigSet.size] using hlength
    exact congrArg Nat.toUInt64 hsize
  exact ⟨hhash, by cbv, by cbv, edited_unique hash hhash 0 3 edits⟩

end HashedAutomaton
end AdaptiveLL

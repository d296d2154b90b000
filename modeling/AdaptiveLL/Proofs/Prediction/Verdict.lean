import Mathlib
import AdaptiveLL.Proofs.Conflict
import AdaptiveLL.Proofs.Prediction.ReachAlike

/-! # What a state recognises is read off its configurations

Classifying records in a set of configurations whether one alternative is left or which are in
conflict.  From this record everything that the state recognises can be read again (`verdict`), so
states with the same configurations and the same record recognise the same.
-/
namespace AdaptiveLL
namespace AutomatonState

/-- What the record of a set of configurations says, guards aside. -/
def unguarded (configs : ConfigSet) : AutomatonState :=
  match configs.uniqueAlt, configs.conflictingAlts with
  | some alt, _ => { configs, isAccept := true, prediction := some alt }
  | none, some alts =>
    { configs, isAccept := true, prediction := alts.min?, needsFullContext := true }
  | none, none => { configs }

/-- What a state with these configurations recognises. -/
def verdict (count : Nat) (configs : ConfigSet) : AutomatonState :=
  applyGuards count (unguarded configs)

/-- A state that recognises what its configurations say. -/
structure Classified (count : Nat) (s : AutomatonState) : Prop where
  eq_verdict : s = verdict count s.configs
  contested : ∀ alts, s.configs.conflictingAlts = some alts → ∃ m, alts.min? = some m

/-- Guards only change what is predicted. -/
theorem exists_applyGuards (count : Nat) (s : AutomatonState) :
    ∃ p gs, s.applyGuards count = { s with prediction := p, guardedAlts := gs } := by
  unfold applyGuards
  split
  · split
    · exact ⟨s.prediction, s.guardedAlts, rfl⟩
    · split
      · next pairs _ => exact ⟨none, some pairs, rfl⟩
      · next alts _ _ _ => exact ⟨alts.min?, s.guardedAlts, rfl⟩
  · exact ⟨s.prediction, s.guardedAlts, rfl⟩

@[simp] theorem configs_applyGuards (count : Nat) (s : AutomatonState) :
    (s.applyGuards count).configs = s.configs := by
  obtain ⟨p, gs, h⟩ := exists_applyGuards count s
  rw [h]

@[simp] theorem isAccept_applyGuards (count : Nat) (s : AutomatonState) :
    (s.applyGuards count).isAccept = s.isAccept := by
  obtain ⟨p, gs, h⟩ := exists_applyGuards count s
  rw [h]

@[simp] theorem edges_applyGuards (count : Nat) (s : AutomatonState) :
    (s.applyGuards count).edges = s.edges := by
  obtain ⟨p, gs, h⟩ := exists_applyGuards count s
  rw [h]

theorem configs_unguarded (configs : ConfigSet) : (unguarded configs).configs = configs := by
  unfold unguarded
  split <;> rfl

theorem edges_verdict (count : Nat) (configs : ConfigSet) : (verdict count configs).edges = [] := by
  rw [verdict, edges_applyGuards]
  unfold unguarded
  split <;> rfl

theorem unguarded_alike {strict : Bool} {g h : StackGraph} {s t : ConfigSet}
    (a : ConfigSet.Alike strict g h s t) : Alike strict g h (unguarded s) (unguarded t) := by
  unfold unguarded
  rw [a.uniqueAlt, a.conflictingAlts]
  cases t.uniqueAlt with
  | some alt => exact ⟨a, rfl, rfl, rfl, rfl⟩
  | none =>
    cases t.conflictingAlts with
    | some alts => exact ⟨a, rfl, rfl, rfl, rfl⟩
    | none => exact ⟨a, rfl, rfl, rfl, rfl⟩

theorem verdict_alike {strict : Bool} {g h : StackGraph} {s t : ConfigSet}
    (a : ConfigSet.Alike strict g h s t) (count : Nat) :
    Alike strict g h (verdict count s) (verdict count t) :=
  (unguarded_alike a).applyGuards count

/-- States that recognise what their configurations say are alike if these are. -/
theorem Classified.alike {strict : Bool} {g h : StackGraph} {count : Nat} {s t : AutomatonState}
    (hs : s.Classified count) (ht : t.Classified count)
    (a : ConfigSet.Alike strict g h s.configs t.configs) : Alike strict g h s t := by
  rw [hs.eq_verdict, ht.eq_verdict]
  exact verdict_alike a count

theorem applyGuards_publish (count : Nat) (s : AutomatonState) :
    applyGuards count { s with configs := s.configs.publish } =
      { applyGuards count s with configs := s.configs.publish } := by
  have hg : ∀ alts, s.configs.publish.guardedAlts? alts count = s.configs.guardedAlts? alts count :=
    fun _ => rfl
  have hq : s.configs.publish.altsInQuestion? = s.configs.altsInQuestion? := rfl
  have hh : s.configs.publish.hasGuards = s.configs.hasGuards := rfl
  unfold applyGuards
  simp only [hg, hq, hh]
  split
  · split
    · rfl
    · split <;> rfl
  · rfl

/-- Sealing the configurations does not change what is recognised. -/
theorem verdict_publish (count : Nat) (configs : ConfigSet) :
    verdict count configs.publish = { verdict count configs with configs := configs.publish } := by
  have hu : unguarded configs.publish =
      { unguarded configs with configs := (unguarded configs).configs.publish } := by
    rw [configs_unguarded]
    unfold unguarded
    change (match configs.uniqueAlt, configs.conflictingAlts with
      | some alt, _ => _ | none, some alts => _ | none, none => _ : AutomatonState) = _
    split <;> rfl
  rw [verdict, hu, applyGuards_publish, configs_unguarded]
  rfl

theorem Classified.publish {count : Nat} {s : AutomatonState} (h : s.Classified count) :
    Classified count { s with configs := s.configs.publish } where
  eq_verdict := by
    change { s with configs := s.configs.publish } = verdict count s.configs.publish
    rw [verdict_publish, ← h.eq_verdict]
  contested := h.contested

/-- A state for configurations that were only collected. -/
theorem classified_ofConfigs {configs : ConfigSet} (h : configs.Open) (count : Nat) :
    (ofConfigs configs).Classified count where
  eq_verdict := by
    have hu : unguarded configs = ofConfigs configs := by
      unfold unguarded
      rw [h.noUnique, h.noConflict]
      rfl
    change ofConfigs configs = verdict count configs
    rw [verdict, hu]
    rfl
  contested alts ha := by
    rw [ofConfigs, h.noConflict] at ha
    contradiction

theorem classified_recognising {configs : ConfigSet} (h : configs.Open) (count alt : Nat) :
    (recognising count alt configs).Classified count where
  eq_verdict := by
    rw [recognising, configs_applyGuards]
    rfl
  contested alts ha := by
    rw [recognising, configs_applyGuards] at ha
    change configs.conflictingAlts = some alts at ha
    rw [h.noConflict] at ha
    contradiction

theorem classified_contested {configs : ConfigSet} (h : configs.Open) (count : Nat) {alts : AltSet}
    {m : Nat} (hm : alts.min? = some m) : (contested count alts configs).Classified count where
  eq_verdict := by
    have hu : unguarded { configs with conflictingAlts := some alts } =
        { configs := { configs with conflictingAlts := some alts }
          isAccept := true
          prediction := alts.min?
          needsFullContext := true } := by
      unfold unguarded
      simp only [h.noUnique]
    rw [contested, configs_applyGuards, verdict, hu]
  contested alts' ha := by
    rw [contested, configs_applyGuards] at ha
    cases ha
    exact ⟨m, hm⟩

/-- Classifying collected configurations gives a state that recognises what these say. -/
theorem classified_classify {configs : ConfigSet} (h : configs.Open) (hne : configs.isEmpty = false)
    (mode : PredictionMode) (n : Network) (count : Nat) (g : StackGraph) :
    (classify mode n count configs g).1.Classified count := by
  unfold classify
  split
  · exact classified_recognising h ..
  · dsimp only
    split
    · obtain ⟨c, hc⟩ : ∃ c, c ∈ configs.toList := by
        cases hl : configs.toList with
        | nil => simp [ConfigSet.isEmpty, ConfigSet.toList] at hne hl; exact absurd hl hne
        | cons c cs => exact ⟨c, List.mem_cons_self⟩
      obtain ⟨m, hm⟩ := AltSet.exists_min? (ConfigSet.mem_findConflictingAlts.mpr ⟨c, hc, rfl⟩)
      exact classified_contested h count hm
    · exact classified_ofConfigs h count

theorem exists_prediction_applyGuards {count : Nat} {s : AutomatonState} {alt : Nat}
    (hp : s.prediction = some alt)
    (hq : ∀ alts, s.configs.altsInQuestion? = some alts → ∃ m, alts.min? = some m)
    (hg : (s.applyGuards count).guardedAlts = none) :
    ∃ alt, (s.applyGuards count).prediction = some alt := by
  unfold applyGuards at hg ⊢
  split
  · next hif =>
    rw [if_pos hif] at hg
    split
    · exact ⟨alt, hp⟩
    · next alts halts =>
      rw [halts] at hg
      split
      · next pairs hpairs => simp [hpairs] at hg
      · exact hq alts halts
  · exact ⟨alt, hp⟩

/-- A state that recognises something without guards recognises an alternative. -/
theorem Classified.exists_prediction {count : Nat} {s : AutomatonState} (h : s.Classified count)
    (ha : s.isAccept) (hg : s.guardedAlts = none) : ∃ alt, s.prediction = some alt := by
  have hq : ∀ alts, s.configs.altsInQuestion? = some alts → ∃ m, alts.min? = some m := by
    intro alts halts
    unfold ConfigSet.altsInQuestion? at halts
    split at halts
    · next hc =>
      cases halts
      exact h.contested _ hc
    · cases halts
      exact ⟨_, rfl⟩
    · contradiction
  have hv := h.eq_verdict
  have hconfigs := configs_unguarded s.configs
  rw [hv, verdict, isAccept_applyGuards] at ha
  rw [hv, verdict] at hg ⊢
  obtain ⟨alt, hp⟩ : ∃ alt, (unguarded s.configs).prediction = some alt := by
    unfold unguarded at ha ⊢
    split at ha
    · next alt _ => exact ⟨alt, rfl⟩
    · next alts _ hc => exact h.contested alts hc
    · simp at ha
  exact exists_prediction_applyGuards hp (by rwa [hconfigs]) hg

end AutomatonState
end AdaptiveLL

import Foundry.Linking.ZkDeployment

/-!
# Whether the queue of the ZKsync linker is worked off

A target goes back to the end of the queue as long as `zksolc` reports that it misses a contract
that is there.  Nothing else keeps the queue from getting shorter, and nothing else than a report
of contracts that are not there takes a target out of it unlinked.
-/

namespace Foundry.Linking.ZkLinker

section

variable (crates : ZkCrates) (orders : ZkOrders) (zkLinker : ZkLinker) (targets : List ArtifactId)
  (libraries : Libraries)

/-- The queue comes to an end, and with a result for each of the targets if there is one. -/
structure LinksAll : Prop where
  ends : ∃ fuel, zkLinker.zkGetLinkedArtifacts crates orders fuel targets libraries ≠ none
  linked : ∀ fuel artifacts,
    zkLinker.zkGetLinkedArtifacts crates orders fuel targets libraries = some (.ok artifacts) →
      ∀ id ∈ targets, id ∈ artifacts.keys

/-- From some call on `zksolc` reports no artifact to lack factory dependencies only, and each
report before names a contract that is there. -/
structure Settles : Prop where
  eventually : ∃ limit, ∀ call id unlinked, zkLinker.Lacks call id unlinked → call < limit
  named : ∀ call id unlinked, zkLinker.Lacks call id unlinked →
    ∃ missing ∈ unlinked.factoryDependencies, ∃ dep ∈ (zkLinker.strippedContracts orders).keys,
      IsMissing zkLinker.linker.root missing dep

end

variable {crates : ZkCrates} {orders : ZkOrders} {self : ZkLinker} {libraries : Libraries}
  {fuel : Nat} {state : Worklist} {targets : List ArtifactId}

/-- Every round but a retry makes the queue shorter. -/
theorem linkTargets_ends {limit : Nat}
    (hlimit : ∀ call id unlinked, self.Lacks call id unlinked → call < limit) (state : Worklist) :
    ∃ fuel, self.linkTargets crates orders libraries fuel state ≠ none := by
  cases htargets : state.targets with
  | nil =>
    refine ⟨1, ?_⟩
    simp only [linkTargets, htargets]
    nofun
  | cons id rest =>
    cases hattempt : self.attempt crates orders libraries state id with
    | error e =>
      refine ⟨1, ?_⟩
      simp only [linkTargets, htargets, hattempt]
      nofun
    | ok outcome =>
      obtain ⟨fuel, hends⟩ := linkTargets_ends hlimit (state.after id rest outcome)
      exact ⟨fuel + 1, by simpa only [linkTargets, htargets, hattempt] using hends⟩
termination_by (limit - state.calls, state.targets.length)
decreasing_by
  rw [Prod.lex_def, htargets]
  rcases attempt_ok hattempt with ⟨rfl, _⟩ | ⟨_, rfl⟩ | ⟨_, hlacks, ⟨rfl, _⟩ | ⟨_, rfl⟩⟩
  · simp [Worklist.after]
  · simp [Worklist.after]
    omega
  all_goals
    have hcalls := hlimit _ _ _ hlacks
    simp [Worklist.after]
    omega

theorem missingIds_ne_nil {contracts : HashMap ArtifactId CompactContractBytecode}
    {fdeps : Finset MissingLibrary} {missing : MissingLibrary} {dep : ArtifactId}
    (hmissing : missing ∈ fdeps) (hdep : dep ∈ contracts.keys)
    (his : IsMissing self.linker.root missing dep) :
    self.missingIds orders contracts fdeps ≠ [] := by
  intro hnil
  have hnone := List.filterMap_eq_nil_iff.mp hnil missing (orders.missing.mem_visit.mpr hmissing)
  exact List.find?_eq_none.mp hnone dep (orders.ids.mem_visit.mpr hdep) (decide_eq_true his)

/-- No target is lost if each report names a contract that is there. -/
theorem mem_linkTargets_of_named (hsettles : Settles orders self)
    (hkeys : (self.strippedContracts orders).keys ⊆ state.contracts.keys)
    {result : List (ArtifactId × CompactContractBytecode)}
    (h : self.linkTargets crates orders libraries fuel state = some (.ok result)) (id : ArtifactId)
    (hid : id ∈ state.linkedArtifacts.map Prod.fst ∨ id ∈ state.targets) :
    id ∈ result.map Prod.fst := by
  induction fuel generalizing state with
  | zero => cases h
  | succ fuel ih =>
    rcases linkTargets_succ_ok h with
      ⟨htargets, rfl⟩ | ⟨first, rest, outcome, htargets, hattempt, h⟩
    · rw [htargets] at hid
      exact hid.resolve_right List.not_mem_nil
    rw [htargets, List.mem_cons] at hid
    rcases attempt_ok hattempt with
      ⟨rfl, hlinked⟩ | ⟨contract, rfl⟩ | ⟨unlinked, hlacks, ⟨rfl, hnil⟩ | ⟨fdeps, rfl⟩⟩
    · refine ih ?_ h ?_
      · exact hkeys
      rcases hid with hid | rfl | hid
      · exact .inl hid
      · exact .inl hlinked
      · exact .inr hid
    · refine ih ?_ h ?_
      · show _ ⊆ (state.contracts.insert first contract).keys
        rw [HashMap.keys_insert]
        exact hkeys.trans (Finset.subset_insert _ _)
      · simp only [Worklist.after, List.map_append, List.mem_append, List.map_cons, List.map_nil,
          List.mem_singleton]
        tauto
    · obtain ⟨missing, hmissing, dep, hdep, his⟩ := hsettles.named _ _ _ hlacks
      exact absurd hnil (missingIds_ne_nil hmissing (hkeys hdep) his)
    · refine ih ?_ h ?_
      · exact hkeys
      simp only [Worklist.after, List.mem_append, List.mem_singleton]
      tauto

theorem zkGetLinkedArtifacts_eq_none :
    self.zkGetLinkedArtifacts crates orders fuel targets libraries = none ↔
      self.linkTargets crates orders libraries fuel (self.worklist orders targets) = none := by
  unfold zkGetLinkedArtifacts
  cases hresult : self.linkTargets crates orders libraries fuel (self.worklist orders targets) with
  | none => exact iff_of_true rfl rfl
  | some result => cases result <;> exact iff_of_false nofun nofun

theorem lacks_linkingBoth {call : Nat} {id : ArtifactId} {unlinked : UnlinkedObject}
    (h : linkingBoth.Lacks call id unlinked) :
    call = 0 ∧ unlinked = ⟨∅, {⟨"F.sol", "F"⟩}⟩ := by
  obtain ⟨input, output, houtput, hunlinked, _⟩ := h
  match call with
  | 0 =>
    cases houtput
    rw [reports, HashMap.get_insert] at hunlinked
    split at hunlinked
    · exact ⟨rfl, (Option.some.inj hunlinked).symm⟩
    · cases hunlinked
  | 1 | 2 =>
    cases houtput
    cases hunlinked

/-- The library and the contract create each other, and each is missed for the other. -/
def creatingEachOther : ZkLinker :=
  { creating [] with
    compiler := fun _ _ => some ⟨.empty, (HashMap.empty.insert (["L.sol"], "L")
      ⟨∅, {⟨"F.sol", "F"⟩}⟩).insert (["F.sol"], "F") ⟨∅, {⟨"L.sol", "L"⟩}⟩, .empty⟩ }

def eachOther : List ArtifactId :=
  [Linker.artifact "L.sol" "L", Linker.artifact "F.sol" "F"].map
    (·.withStrippedFilePrefixes ["", "project"])

theorem creatingEachOther_requeued (targets : List ArtifactId) (calls : Nat) {id : ArtifactId}
    (hid : id ∈ eachOther) :
    ∃ other ∈ eachOther, creatingEachOther.attempt zkSync zkSorted .empty
      ⟨creatingEachOther.strippedContracts zkSorted, targets, [], calls⟩ id =
        .ok (.requeued [other]) := by
  rcases List.mem_pair.mp hid with rfl | rfl
  · exact ⟨_, List.mem_of_mem_tail List.mem_cons_self, rfl⟩
  · exact ⟨_, List.mem_cons_self, rfl⟩

theorem creatingEachOther_retries (fuel calls : Nat) {targets : List ArtifactId}
    (htargets : targets ≠ []) (hids : targets ⊆ eachOther) :
    creatingEachOther.linkTargets zkSync zkSorted .empty fuel
      ⟨creatingEachOther.strippedContracts zkSorted, targets, [], calls⟩ = none := by
  induction fuel generalizing targets calls with
  | zero => rfl
  | succ fuel ih =>
    cases targets with
    | nil => exact absurd rfl htargets
    | cons id rest =>
      obtain ⟨hid, hrest⟩ := List.cons_subset.mp hids
      obtain ⟨other, hother, hattempt⟩ := creatingEachOther_requeued (id :: rest) calls hid
      simp only [linkTargets, hattempt]
      refine ih _ (by simp) ?_
      simp [hrest, hother, hid]

end Foundry.Linking.ZkLinker

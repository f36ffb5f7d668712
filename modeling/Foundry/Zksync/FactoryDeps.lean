import Foundry.Base.Worklist
import Foundry.Zksync.DualCompiledContracts

/-!
# Nested factory dependencies

A deployment carries the bytecodes that the contract may deploy itself, those that they may deploy,
and so on.  The contract of a dependency is looked up as for init code: it is the first in the hash
map whose bytecode starts that of the dependency, which need not be the same bytecode, and need not
be the only contract with it.
-/

namespace Foundry.Zksync.DualCompiledContracts

open Worklist

section

variable (order : Enumeration ContractInfo)

def nestedDeps (self : DualCompiledContracts) (dep : Bytes) : List Bytes :=
  match self.findByZkDeployedBytecode order dep with
  | some (_, contract) => contract.zkFactoryDeps
  | none => []

/-- The queue starts with the dependencies of the root.  The result has the order of the set of
visited bytecodes; there is none if the fuel runs out. -/
def fetchAllFactoryDeps (setOrder : Enumeration Bytes)
    (self : DualCompiledContracts) (root : DualCompiledContract) (fuel : Nat) :
    Option (List Bytes) :=
  (drain (self.nestedDeps order) fuel root.zkFactoryDeps ∅).map setOrder.visit

/-! ## What is wanted -/

/-- A contract of the collection with the bytecode has the dependency. -/
def Depends (self : DualCompiledContracts) (code dep : Bytes) : Prop :=
  ∃ info contract, self.contracts.get info = some contract ∧
    contract.zkDeployedBytecode = code ∧ dep ∈ contract.zkFactoryDeps

/-- With enough fuel there is a result, without repetition, and it is the smallest set with the
dependencies of the root and of the contracts of its members. -/
def FetchesClosure (setOrder : Enumeration Bytes)
    (self : DualCompiledContracts) (root : DualCompiledContract) : Prop :=
  ∃ bound, ∀ fuel, bound ≤ fuel → ∃ deps,
    self.fetchAllFactoryDeps order setOrder root fuel = some deps ∧ deps.Nodup ∧
      IsLeast {s | Closed self.Depends root.zkFactoryDeps s} {dep | dep ∈ deps}

end

/-- Every contract whose bytecode starts a bytecode that is needed has exactly the dependencies of
the contracts with that bytecode. -/
def StartsAgree (self : DualCompiledContracts) (root : DualCompiledContract) : Prop :=
  ∀ code, Reached self.Depends root.zkFactoryDeps code →
    ∀ info contract, self.contracts.get info = some contract →
      contract.zkDeployedBytecode <+: code →
      ∀ dep, dep ∈ contract.zkFactoryDeps ↔ self.Depends code dep

/-! ## The search -/

section Search

variable {self : DualCompiledContracts} {order : Enumeration ContractInfo}
  {setOrder : Enumeration Bytes} {root : DualCompiledContract} {code dep : Bytes}

theorem mem_nestedDeps : dep ∈ self.nestedDeps order code ↔
    ∃ info contract, self.findByBytecode order .zk code = some (info, contract) ∧
      dep ∈ contract.zkFactoryDeps := by
  unfold nestedDeps findByZkDeployedBytecode
  split
  · next info contract h =>
    rw [h]
    constructor
    · exact fun hdep => ⟨info, contract, rfl, hdep⟩
    · rintro ⟨_, _, heq, hdep⟩
      cases heq
      exact hdep
  · next h => simp [h]

def allDeps (order : Enumeration ContractInfo) (self : DualCompiledContracts)
    (root : DualCompiledContract) : Finset Bytes :=
  (root.zkFactoryDeps ++ (self.iter order).flatMap fun entry => entry.2.zkFactoryDeps).toFinset

theorem nestedDeps_mem_allDeps (hdep : dep ∈ self.nestedDeps order code) :
    dep ∈ self.allDeps order root := by
  obtain ⟨info, contract, hfind, hdep⟩ := mem_nestedDeps.mp hdep
  have hmem : (info, contract) ∈ self.iter order := mem_iter.mpr (fits_of_find hfind).1
  rw [allDeps, List.mem_toFinset, List.mem_append, List.mem_flatMap]
  exact .inr ⟨_, hmem, hdep⟩

def rounds (order : Enumeration ContractInfo) (self : DualCompiledContracts)
    (root : DualCompiledContract) : Nat :=
  root.zkFactoryDeps.length + ∑ code ∈ self.allDeps order root, (self.nestedDeps order code).length

theorem fetchAllFactoryDeps_isSome {fuel : Nat} (hfuel : self.rounds order root ≤ fuel) :
    (self.fetchAllFactoryDeps order setOrder root fuel).isSome := by
  rw [fetchAllFactoryDeps, Option.isSome_map]
  have hnested : ∀ code ∈ self.allDeps order root, ∀ dep ∈ self.nestedDeps order code,
      dep ∈ self.allDeps order root :=
    fun code _ dep hdep => nestedDeps_mem_allDeps hdep
  apply isSome_drain hnested
  · intro dep hdep
    rw [allDeps, List.mem_toFinset]
    exact List.mem_append_left _ hdep
  · exact hfuel

/-- The result has what is met on the way, once each. -/
theorem fetchAllFactoryDeps_spec {fuel : Nat} {deps : List Bytes}
    (h : self.fetchAllFactoryDeps order setOrder root fuel = some deps) :
    deps.Nodup ∧ {dep | dep ∈ deps} =
      {dep | Reached (Listed (self.nestedDeps order)) root.zkFactoryDeps dep} := by
  obtain ⟨visited, hvisited, rfl⟩ := Option.map_eq_some_iff.mp h
  refine ⟨setOrder.nodup_visit visited, ?_⟩
  ext dep
  rw [Set.mem_ofPred_eq, Enumeration.mem_visit]
  exact mem_drain hvisited dep

theorem fetchesClosure_iff_reached : FetchesClosure order setOrder self root ↔
    {dep | Reached (Listed (self.nestedDeps order)) root.zkFactoryDeps dep} =
      {dep | Reached self.Depends root.zkFactoryDeps dep} := by
  constructor
  · intro ⟨bound, h⟩
    obtain ⟨deps, hdeps, _, hleast⟩ := h bound le_rfl
    rw [(fetchAllFactoryDeps_spec hdeps).2] at hleast
    exact hleast.unique (isLeast_reached _ _)
  · intro heq
    refine ⟨self.rounds order root, fun fuel hfuel => ?_⟩
    obtain ⟨deps, hdeps⟩ := Option.isSome_iff_exists.mp (fetchAllFactoryDeps_isSome hfuel)
    have hspec := fetchAllFactoryDeps_spec hdeps
    refine ⟨deps, hdeps, hspec.1, ?_⟩
    rw [hspec.2, heq]
    exact isLeast_reached _ _

/-- For a bytecode that is needed the search finds the dependencies that are wanted. -/
theorem StartsAgree.mem_nestedDeps_iff (h : StartsAgree self root)
    (hcode : Reached self.Depends root.zkFactoryDeps code) :
    dep ∈ self.nestedDeps order code ↔ self.Depends code dep := by
  rw [mem_nestedDeps]
  constructor
  · intro ⟨info, contract, hfind, hdep⟩
    have hfits := fits_of_find hfind
    exact (h code hcode info contract hfits.1 hfits.2 dep).mp hdep
  · intro hdepends
    have ⟨info, contract, hget, hexact, _⟩ := hdepends
    cases hfind : self.findByBytecode order .zk code with
    | none => exact absurd ⟨hget, hexact ▸ List.prefix_rfl⟩ (not_fits_of_find hfind info contract)
    | some found =>
      have hfits := fits_of_find hfind
      exact ⟨_, _, rfl, (h code hcode _ _ hfits.1 hfits.2 dep).mpr hdepends⟩

end Search

def withDeps (zk : Bytes) (deps : List Bytes) : DualCompiledContract :=
  ⟨0, zk, deps, 0, [], none, []⟩

/-- Two contracts that may deploy each other. -/
def deployingEachOther : DualCompiledContracts :=
  ⟨(HashMap.empty.insert ⟨"A", none⟩ (withDeps [1] [[2]])).insert ⟨"B", none⟩
    (withDeps [2] [[1], [2]])⟩

/-- The bytecode of `A` starts that of `B`, which `C` depends on. -/
def startingEqual : DualCompiledContracts :=
  ⟨((HashMap.empty.insert ⟨"A", none⟩ (withDeps [1] [[1]])).insert ⟨"B", none⟩
    (withDeps [1, 2] [[7], [1, 2]])).insert ⟨"C", none⟩ (withDeps [5] [[1, 2], [5]])⟩

end Foundry.Zksync.DualCompiledContracts

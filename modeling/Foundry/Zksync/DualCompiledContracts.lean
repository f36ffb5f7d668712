import Foundry.Base.Enumeration
import Foundry.Base.HashMap
import Foundry.Base.Words

/-!
# Contracts compiled for both machines

A contract that was compiled by both compilers is found by its init code: one of its two bytecodes
starts the code, and the constructor arguments follow.  The two searches go through a hash map, and
each stops at the first contract that fits.
-/

namespace Foundry.Zksync

open List

inductive ContractType where
  | zk
  | evm
deriving DecidableEq

structure ContractInfo where
  name : String
  path : Option String
deriving DecidableEq

structure Offsets where
  start : BitVec 32
  length : BitVec 32
deriving DecidableEq

structure DualCompiledContract where
  zkBytecodeHash : B256
  zkDeployedBytecode : Bytes
  zkFactoryDeps : List Bytes
  evmBytecodeHash : B256
  evmDeployedBytecode : Bytes
  evmImmutableReferences : Option (HashMap String (List Offsets))
  evmBytecode : Bytes
deriving DecidableEq

/-- The bytecode that init code for the machine starts with. -/
def DualCompiledContract.bytecode (contract : DualCompiledContract) : ContractType → Bytes
  | .zk => contract.zkDeployedBytecode
  | .evm => contract.evmBytecode

structure FindBytecodeResult where
  type : ContractType
  info : ContractInfo
  contract : DualCompiledContract
  initCode : Bytes
deriving DecidableEq

/-- The part of the init code after the bytecode; `none` is a slice out of bounds. -/
def FindBytecodeResult.constructorArgs (self : FindBytecodeResult) : Option Bytes :=
  let start := (self.contract.bytecode self.type).length
  if start ≤ self.initCode.length then some (self.initCode.drop start) else none

structure DualCompiledContracts where
  contracts : HashMap ContractInfo DualCompiledContract

namespace DualCompiledContracts

section

variable (order : Enumeration ContractInfo) (self : DualCompiledContracts)

def iter : List (ContractInfo × DualCompiledContract) :=
  (order.visit self.contracts.keys).filterMap fun info =>
    (self.contracts.get info).map fun contract => (info, contract)

/-- The first contract whose bytecode for the machine starts the code. -/
def findByBytecode
    (type : ContractType) (code : Bytes) : Option (ContractInfo × DualCompiledContract) :=
  (self.iter order).find? fun entry => (entry.2.bytecode type).isPrefixOf code

def findByZkDeployedBytecode (bytecode : Bytes) : Option (ContractInfo × DualCompiledContract) :=
  self.findByBytecode order .zk bytecode

def findByEvmBytecode (bytecode : Bytes) : Option (ContractInfo × DualCompiledContract) :=
  self.findByBytecode order .evm bytecode

def findBytecode (initCode : Bytes) : Option FindBytecodeResult :=
  match self.findByEvmBytecode order initCode, self.findByZkDeployedBytecode order initCode with
  | some (evmInfo, evm), some (zkInfo, zk) =>
    if evm.evmBytecode.length ≤ zk.zkDeployedBytecode.length then
      some ⟨.zk, zkInfo, zk, initCode⟩
    else
      -- the contract is not that of the info
      some ⟨.evm, evmInfo, zk, initCode⟩
  | some (info, contract), none => some ⟨.evm, info, contract, initCode⟩
  | none, some (info, contract) => some ⟨.zk, info, contract, initCode⟩
  | none, none => none

end

/-! ## The longest match -/

/-- A contract of the collection whose bytecode for the machine starts the code. -/
def Fits (self : DualCompiledContracts) (initCode : Bytes) (type : ContractType)
    (info : ContractInfo) (contract : DualCompiledContract) : Prop :=
  self.contracts.get info = some contract ∧ contract.bytecode type <+: initCode

def NoLonger (self : DualCompiledContracts) (initCode : Bytes) (length : Nat) : Prop :=
  ∀ type info contract, self.Fits initCode type info contract →
    (contract.bytecode type).length ≤ length

/-- The answer for an order of the hash map is one contract with the longest bytecode, and the
arguments are the rest of the code; there is none just if nothing fits. -/
def FindsLongest (self : DualCompiledContracts) (initCode : Bytes)
    (order : Enumeration ContractInfo) : Prop :=
  match self.findBytecode order initCode with
  | none => ∀ type info contract, ¬ self.Fits initCode type info contract
  | some result =>
    self.Fits initCode result.type result.info result.contract ∧
    self.NoLonger initCode (result.contract.bytecode result.type).length ∧
    ∃ args, result.constructorArgs = some args ∧
      initCode = result.contract.bytecode result.type ++ args

/-- Every contract that fits by its zk bytecode fits by the longest, or its evm bytecode is the
longest and no contract fits by that alone; and if none fits by zk bytecode, all that fit are
longest. -/
structure Agrees (collection : DualCompiledContracts) (initCode : Bytes) : Prop where
  zk : ∀ info contract, collection.Fits initCode .zk info contract →
    collection.NoLonger initCode contract.zkDeployedBytecode.length ∨
    collection.Fits initCode .evm info contract ∧
      collection.NoLonger initCode contract.evmBytecode.length ∧
      ∀ info' contract', collection.Fits initCode .evm info' contract' →
        collection.Fits initCode .zk info' contract'
  evm : (∀ info contract, ¬ collection.Fits initCode .zk info contract) →
    ∀ info contract, collection.Fits initCode .evm info contract →
      collection.NoLonger initCode contract.evmBytecode.length

section Search

variable {self : DualCompiledContracts} {initCode : Bytes} {order : Enumeration ContractInfo}
  {type : ContractType} {info info' : ContractInfo} {contract contract' : DualCompiledContract}

theorem mem_iter :
    (info, contract) ∈ self.iter order ↔ self.contracts.get info = some contract := by
  unfold iter
  simp only [mem_filterMap, Enumeration.mem_visit, HashMap.mem_keys, Option.map_eq_some_iff,
    Prod.mk.injEq]
  constructor
  · rintro ⟨_, _, _, hget, rfl, rfl⟩
    exact hget
  · intro hget
    exact ⟨info, ⟨contract, hget⟩, contract, hget, rfl, rfl⟩

theorem fits_of_find (h : self.findByBytecode order type initCode = some (info, contract)) :
    self.Fits initCode type info contract := by
  have hprefix := find?_some h
  exact ⟨mem_iter.mp (mem_of_find?_eq_some h), List.isPrefixOf_iff_prefix.mp hprefix⟩

theorem not_fits_of_find (h : self.findByBytecode order type initCode = none)
    (info : ContractInfo) (contract : DualCompiledContract) :
    ¬ self.Fits initCode type info contract := by
  rintro ⟨hget, hprefix⟩
  have hnot := find?_eq_none.mp h (info, contract) (mem_iter.mpr hget)
  exact hnot (List.isPrefixOf_iff_prefix.mpr hprefix)

theorem iter_front (h : self.contracts.get info = some contract) :
    self.iter (order.front info) = (info, contract) ::
      (order.visit (self.contracts.keys.erase info)).filterMap fun info =>
        (self.contracts.get info).map fun contract => (info, contract) := by
  unfold iter
  rw [Enumeration.front_visit _ (HashMap.mem_keys_of_get h), filterMap_cons, h]
  rfl

theorem find_front (order : Enumeration ContractInfo) (h : self.Fits initCode type info contract) :
    self.findByBytecode (order.front info) type initCode = some (info, contract) := by
  unfold findByBytecode
  rw [iter_front h.1, find?_cons_of_pos]
  exact List.isPrefixOf_iff_prefix.mpr h.2

theorem find_second (order : Enumeration ContractInfo) (h : self.Fits initCode type info contract)
    (hget : self.contracts.get info' = some contract')
    (hnot : ¬ self.Fits initCode type info' contract') :
    self.findByBytecode ((order.front info).front info') type initCode = some (info, contract) := by
  have hne : info ≠ info' := by
    rintro rfl
    rw [h.1] at hget
    cases hget
    exact hnot h
  have hmem : info ∈ self.contracts.keys.erase info' :=
    Finset.mem_erase.mpr ⟨hne, HashMap.mem_keys_of_get h.1⟩
  unfold findByBytecode
  rw [iter_front hget, find?_cons_of_neg, Enumeration.front_visit _ hmem, filterMap_cons, h.1]
  · exact find?_cons_of_pos (List.isPrefixOf_iff_prefix.mpr h.2)
  · exact fun hprefix => hnot ⟨hget, List.isPrefixOf_iff_prefix.mp hprefix⟩

private theorem find?_eq_of_imp {α : Type} {p q : α → Bool} {l : List α} {a b : α}
    (ha : l.find? p = some a) (hb : l.find? q = some b) (hpq : ∀ x ∈ l, p x = true → q x = true)
    (hp : p b = true) : a = b := by
  induction l with
  | nil => cases ha
  | cons x l ih =>
    cases hq : q x with
    | true =>
      rw [find?_cons_of_pos hq] at hb
      cases hb
      rw [find?_cons_of_pos hp] at ha
      exact (Option.some.inj ha).symm
    | false =>
      have hnot : ¬ p x = true := by
        intro hpx
        rw [hpq x mem_cons_self hpx] at hq
        cases hq
      rw [find?_cons_of_neg hnot] at ha
      rw [find?_cons_of_neg (by simp [hq])] at hb
      exact ih ha hb fun x hx => hpq x (mem_cons_of_mem _ hx)

/-- Where all that fit by evm bytecode fit by zk bytecode, the first of the latter is the first
of the former if it is one of them. -/
theorem find_evm_of_zk (hevm : self.findByBytecode order .evm initCode = some (info, contract))
    (hzk : self.findByBytecode order .zk initCode = some (info', contract'))
    (hfits : self.Fits initCode .evm info' contract')
    (hall : ∀ info contract, self.Fits initCode .evm info contract →
      self.Fits initCode .zk info contract) : (info, contract) = (info', contract') := by
  refine find?_eq_of_imp hevm hzk ?_ (List.isPrefixOf_iff_prefix.mpr hfits.2)
  rintro ⟨info, contract⟩ hmem hprefix
  have hfits := hall info contract ⟨mem_iter.mp hmem, List.isPrefixOf_iff_prefix.mp hprefix⟩
  exact List.isPrefixOf_iff_prefix.mpr hfits.2

theorem findsLongest_of_fits
    (h : self.findBytecode order initCode = some ⟨type, info, contract, initCode⟩)
    (hfits : self.Fits initCode type info contract)
    (hlongest : self.NoLonger initCode (contract.bytecode type).length) :
    self.FindsLongest initCode order := by
  unfold FindsLongest
  rw [h]
  refine ⟨hfits, hlongest, _, if_pos hfits.2.length_le, ?_⟩
  obtain ⟨args, hargs⟩ := hfits.2
  rw [← hargs, drop_left]

end Search

section Orders

variable {self : DualCompiledContracts} {initCode : Bytes} {order : Enumeration ContractInfo}
  {info evmInfo zkInfo : ContractInfo} {contract evm zk : DualCompiledContract}

theorem findBytecode_both (hevm : self.findByBytecode order .evm initCode = some (evmInfo, evm))
    (hzk : self.findByBytecode order .zk initCode = some (zkInfo, zk)) :
    self.findBytecode order initCode =
      if evm.evmBytecode.length ≤ zk.zkDeployedBytecode.length then
        some ⟨.zk, zkInfo, zk, initCode⟩
      else some ⟨.evm, evmInfo, zk, initCode⟩ := by
  simp only [findBytecode, findByEvmBytecode, findByZkDeployedBytecode, hevm, hzk]

theorem findBytecode_evm (hevm : self.findByBytecode order .evm initCode = some (evmInfo, evm))
    (hzk : self.findByBytecode order .zk initCode = none) :
    self.findBytecode order initCode = some ⟨.evm, evmInfo, evm, initCode⟩ := by
  simp only [findBytecode, findByEvmBytecode, findByZkDeployedBytecode, hevm, hzk]

theorem findBytecode_zk (hevm : self.findByBytecode order .evm initCode = none)
    (hzk : self.findByBytecode order .zk initCode = some (zkInfo, zk)) :
    self.findBytecode order initCode = some ⟨.zk, zkInfo, zk, initCode⟩ := by
  simp only [findBytecode, findByEvmBytecode, findByZkDeployedBytecode, hevm, hzk]

theorem Agrees.findsLongest (h : self.Agrees initCode) (order : Enumeration ContractInfo) :
    self.FindsLongest initCode order := by
  rcases hevm : self.findByBytecode order .evm initCode with _ | ⟨evmInfo, evm⟩
  · rcases hzk : self.findByBytecode order .zk initCode with _ | ⟨zkInfo, zk⟩
    · unfold FindsLongest
      simp only [findBytecode, findByEvmBytecode, findByZkDeployedBytecode, hevm, hzk]
      rintro (_ | _) info contract
      · exact not_fits_of_find hzk info contract
      · exact not_fits_of_find hevm info contract
    · have hfits := fits_of_find hzk
      refine findsLongest_of_fits (findBytecode_zk hevm hzk) hfits ?_
      rcases h.zk _ _ hfits with hlongest | ⟨hevm', _, _⟩
      · exact hlongest
      · exact absurd hevm' (not_fits_of_find hevm _ _)
  · rcases hzk : self.findByBytecode order .zk initCode with _ | ⟨zkInfo, zk⟩
    · have hfits := fits_of_find hevm
      exact findsLongest_of_fits (findBytecode_evm hevm hzk) hfits
        (h.evm (not_fits_of_find hzk) _ _ hfits)
    have hfind := findBytecode_both hevm hzk
    have hfits := fits_of_find hzk
    rcases h.zk _ _ hfits with hlongest | ⟨hevm', hlongest, hall⟩
    · have hle := hlongest .evm _ _ (fits_of_find hevm)
      unfold DualCompiledContract.bytecode at hle
      rw [if_pos hle] at hfind
      exact findsLongest_of_fits hfind hfits hlongest
    cases find_evm_of_zk hevm hzk hevm' hall
    split at hfind
    · next hle =>
      refine findsLongest_of_fits hfind hfits fun type info contract hfits' => ?_
      exact (hlongest type info contract hfits').trans hle
    · exact findsLongest_of_fits hfind hevm' hlongest

/-- A search that finds two contracts is right only if the zk bytecode is the longest, or the two
are the same contract. -/
theorem FindsLongest.both (h : self.FindsLongest initCode order)
    (hevm : self.findByBytecode order .evm initCode = some (evmInfo, evm))
    (hzk : self.findByBytecode order .zk initCode = some (zkInfo, zk)) :
    self.NoLonger initCode zk.zkDeployedBytecode.length ∨
      evm = zk ∧ self.NoLonger initCode zk.evmBytecode.length := by
  unfold FindsLongest at h
  rw [findBytecode_both hevm hzk] at h
  split at h
  · next hnone =>
    split at hnone
    · cases hnone
    · cases hnone
  · next result hresult =>
    split at hresult
    · cases hresult
      exact .inl h.2.1
    · cases hresult
      have hget := (fits_of_find hevm).1
      rw [h.1.1] at hget
      exact .inr ⟨(Option.some.inj hget).symm, h.2.1⟩

theorem agrees_of_findsLongest (h : ∀ order, self.FindsLongest initCode order) :
    self.Agrees initCode := by
  let order : Enumeration ContractInfo := ⟨Finset.toList, Finset.coe_toList⟩
  constructor
  case zk =>
    intro zkInfo zk hzk
    by_cases hshort : self.NoLonger initCode zk.zkDeployedBytecode.length
    · exact .inl hshort
    right
    have hfinds := h (order.front zkInfo)
    have hfound := find_front order hzk
    rcases hevm : self.findByBytecode (order.front zkInfo) .evm initCode with _ | ⟨evmInfo, evm⟩
    · unfold FindsLongest at hfinds
      rw [findBytecode_zk hevm hfound] at hfinds
      exact absurd hfinds.2.1 hshort
    rcases hfinds.both hevm hfound with hlongest | ⟨rfl, hlongest⟩
    · exact absurd hlongest hshort
    have hfits : self.Fits initCode .evm zkInfo evm := ⟨hzk.1, (fits_of_find hevm).2⟩
    refine ⟨hfits, hlongest, ?_⟩
    intro info contract hcontract
    by_contra hnot
    have hsecond := find_second order hzk hcontract.1 hnot
    rcases (h _).both (find_front _ hcontract) hsecond with hlongest' | ⟨rfl, _⟩
    · exact hshort hlongest'
    · exact hnot ⟨hcontract.1, hzk.2⟩
  case evm =>
    intro hnone info contract hevm
    have hzk : self.findByBytecode (order.front info) .zk initCode = none := by
      cases hfind : self.findByBytecode (order.front info) .zk initCode with
      | none => rfl
      | some entry => exact absurd (fits_of_find hfind) (hnone _ _)
    have hfinds := h (order.front info)
    unfold FindsLongest at hfinds
    rw [findBytecode_evm (find_front order hevm) hzk] at hfinds
    exact hfinds.2.1

end Orders

/-- The longest match is found in every order just if the bytecodes agree. -/
theorem findsLongest_iff_agrees (self : DualCompiledContracts) (initCode : Bytes) :
    (∀ order, self.FindsLongest initCode order) ↔ self.Agrees initCode :=
  ⟨agrees_of_findsLongest, Agrees.findsLongest⟩

theorem find_of_only {self : DualCompiledContracts} {initCode : Bytes} {type : ContractType}
    {info : ContractInfo} {contract : DualCompiledContract}
    (hfits : self.Fits initCode type info contract)
    (honly : ∀ info' contract', self.contracts.get info' = some contract' →
      contract'.bytecode type <+: initCode → info' = info) (order : Enumeration ContractInfo) :
    self.findByBytecode order type initCode = some (info, contract) := by
  rcases hfind : self.findByBytecode order type initCode with _ | ⟨info', contract'⟩
  · exact absurd hfits (not_fits_of_find hfind _ _)
  · have hfits' := fits_of_find hfind
    cases honly _ _ hfits'.1 hfits'.2
    rw [Option.some.inj (hfits.1.symm.trans hfits'.1)]

def compiled (zk evm : Bytes) : DualCompiledContract := ⟨0, zk, [], 0, [], none, evm⟩

/-- The evm bytecode of `A` goes on where the zk bytecode of `B` ends. -/
def overlapping : DualCompiledContracts :=
  ⟨(HashMap.empty.insert ⟨"A", none⟩ (compiled [9] [1, 2, 3])).insert ⟨"B", none⟩
    (compiled [1] [8])⟩

/-- The longest match is the evm bytecode of `A`, and the contract that is returned is `B`. -/
theorem longest_match_has_other_contract :
    (∀ order, overlapping.findBytecode order [1, 2, 3, 4] =
      some ⟨.evm, ⟨"A", none⟩, compiled [1] [8], [1, 2, 3, 4]⟩) ∧
    ∀ order, ¬ overlapping.FindsLongest [1, 2, 3, 4] order := by
  have hevm : ∀ order, overlapping.findByBytecode order .evm [1, 2, 3, 4] =
      some (⟨"A", none⟩, compiled [9] [1, 2, 3]) :=
    find_of_only ⟨by decide, by decide⟩ (by decide +kernel)
  have hzk : ∀ order, overlapping.findByBytecode order .zk [1, 2, 3, 4] =
      some (⟨"B", none⟩, compiled [1] [8]) :=
    find_of_only ⟨by decide, by decide⟩ (by decide +kernel)
  have hfind := fun order => findBytecode_both (hevm order) (hzk order)
  refine ⟨hfind, fun order h => ?_⟩
  unfold FindsLongest at h
  rw [hfind order] at h
  have hget := h.1.1
  revert hget
  decide

end DualCompiledContracts

end Foundry.Zksync

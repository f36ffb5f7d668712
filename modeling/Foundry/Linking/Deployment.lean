import Foundry.Linking.Ethereum

/-!
# Libraries deployed by nonce

The libraries that a target needs are visited in one order; those without an address get the
addresses of consecutive nonces, and their bytecodes are listed in the same order.
-/

namespace Foundry.Linking

open List

namespace Link

variable {α β ε : Type} {f : α → ExceptT ε Option β}

theorem bind_ok {x : ExceptT ε Option α} {b : β}
    (h : (x >>= f) = some (.ok b)) : ∃ a, x = some (.ok a) ∧ f a = some (.ok b) := by
  obtain ⟨result, hresult, h⟩ := Option.bind_eq_some_iff.mp h
  cases result with
  | error e => cases h
  | ok a => exact ⟨a, hresult, h⟩

theorem mapM_ok {l : List α} {l' : List β}
    (h : l.mapM f = some (.ok l')) : List.Forall₂ (fun a b => f a = some (.ok b)) l l' := by
  induction l generalizing l' with
  | nil =>
    cases h
    exact .nil
  | cons a l ih =>
    rw [mapM_cons] at h
    obtain ⟨b, hb, h⟩ := bind_ok h
    obtain ⟨rest, hrest, h⟩ := bind_ok h
    cases h
    exact .cons hb (ih hrest)

theorem foldlM_ok {σ : Type} {P : σ → Prop} {step : σ → α → ExceptT ε Option σ}
    {l : List α} (hstep : ∀ s, ∀ a ∈ l, ∀ s', P s → step s a = some (.ok s') → P s') {s s' : σ}
    (hs : P s) (h : l.foldlM step s = some (.ok s')) : P s' := by
  induction l generalizing s with
  | nil =>
    cases h
    exact hs
  | cons a l ih =>
    rw [foldlM_cons] at h
    obtain ⟨next, hnext, h⟩ := bind_ok h
    refine ih (fun s a ha => hstep s a (mem_cons_of_mem _ ha)) ?_ h
    exact hstep s a mem_cons_self next hs hnext

theorem mapM_cases {f : α → Link β} {g : α → β} {e : Failure} {P : α → Prop}
    (hok : ∀ {a}, P a → f a = some (.ok (g a))) (hfail : ∀ {a}, ¬ P a → f a = some (.error e))
    (l : List α) :
    ((∀ a ∈ l, P a) ∧ l.mapM f = some (.ok (l.map g))) ∨
      (∃ a ∈ l, ¬ P a) ∧ l.mapM f = some (.error e) := by
  induction l with
  | nil => exact .inl ⟨nofun, rfl⟩
  | cons a l ih =>
    rw [mapM_cons]
    by_cases ha : P a
    · rw [hok ha]
      rcases ih with ⟨hl, hmap⟩ | ⟨⟨b, hb, he⟩, hmap⟩ <;> rw [hmap]
      · exact .inl ⟨forall_mem_cons.mpr ⟨ha, hl⟩, rfl⟩
      · exact .inr ⟨⟨b, mem_cons_of_mem _ hb, he⟩, rfl⟩
    · rw [hfail ha]
      exact .inr ⟨⟨a, mem_cons_self, ha⟩, rfl⟩

end Link

namespace Linker

variable {crates : Crates} {orders : Orders} {self : Linker} {sender : Address}

/-! ## The assignment of addresses -/

/-- What going over `ids` does: the artifacts `deployed` get addresses, from one nonce on. -/
structure Assigns (crates : Crates) (linker : Linker) (sender : Address) (ids : List ArtifactId)
    (state next : Assignment) (deployed : List ArtifactId) : Prop where
  libsToDeploy : next.libsToDeploy.map Prod.fst = state.libsToDeploy.map Prod.fst ++ deployed
  subset : ∀ id ∈ deployed, id ∈ ids
  fresh : ∀ id ∈ deployed, state.libraries.lookup (linker.convertArtifactIdToLibPath id) = none
  distinct : (deployed.map linker.convertArtifactIdToLibPath).Nodup
  all : ∀ id ∈ ids, state.libraries.lookup (linker.convertArtifactIdToLibPath id) = none →
    linker.convertArtifactIdToLibPath id ∈ deployed.map linker.convertArtifactIdToLibPath
  others : ∀ library ∉ deployed.map linker.convertArtifactIdToLibPath,
    next.libraries.lookup library = state.libraries.lookup library
  address : ∀ k id, deployed[k]? = some id →
    next.libraries.lookup (linker.convertArtifactIdToLibPath id) =
      some (crates.toChecksum (crates.create sender (state.nonce + BitVec.ofNat 64 k)))

section Assign

variable {id : ArtifactId} {ids : List ArtifactId} {state next : Assignment}
  {deployed : List ArtifactId}

theorem Assigns.kept {text : String} (h : Assigns crates self sender ids state next deployed)
    (hlookup : state.libraries.lookup (self.convertArtifactIdToLibPath id) = some text) :
    Assigns crates self sender (id :: ids) state next deployed := by
  refine ⟨h.libsToDeploy, ?_, h.fresh, h.distinct, ?_, h.others, h.address⟩
  · exact fun id' hmem => mem_cons_of_mem _ (h.subset id' hmem)
  · intro id' hmem hnone
    rcases mem_cons.mp hmem with rfl | hmem
    · rw [hlookup] at hnone
      cases hnone
    · exact h.all id' hmem hnone

/-- A library without an address gets that of the next nonce. -/
theorem Assigns.added
    (h : Assigns crates self sender ids (self.assign crates sender state id) next deployed)
    (hlookup : state.libraries.lookup (self.convertArtifactIdToLibPath id) = none) :
    Assigns crates self sender (id :: ids) state next (id :: deployed) := by
  obtain ⟨hlibs, hsubset, hfresh, hdistinct, hall, hothers, haddress⟩ := h
  simp only [assign, hlookup] at hlibs hfresh hall hothers haddress
  have hfresh' : ∀ id' ∈ deployed,
      self.convertArtifactIdToLibPath id' ≠ self.convertArtifactIdToLibPath id ∧
        state.libraries.lookup (self.convertArtifactIdToLibPath id') = none := by
    intro id' hmem
    have hnone := hfresh id' hmem
    rw [Libraries.lookup_insert] at hnone
    split at hnone
    · cases hnone
    · next hne => exact ⟨hne, hnone⟩
  have hnew : self.convertArtifactIdToLibPath id ∉
      deployed.map self.convertArtifactIdToLibPath := by
    intro hmem
    obtain ⟨id', hmem, heq⟩ := mem_map.mp hmem
    exact (hfresh' id' hmem).1 heq
  refine ⟨?_, cons_subset_cons id hsubset, ?_, ?_, ?_, ?_, ?_⟩
  · rw [hlibs, map_append, append_assoc]
    rfl
  · rw [forall_mem_cons]
    exact ⟨hlookup, fun id' hmem => (hfresh' id' hmem).2⟩
  · exact nodup_cons.mpr ⟨hnew, hdistinct⟩
  · intro id' hmem hnone
    rw [map_cons, mem_cons]
    by_cases hsame : self.convertArtifactIdToLibPath id' = self.convertArtifactIdToLibPath id
    · exact .inl hsame
    · rcases mem_cons.mp hmem with rfl | hmem
      · exact absurd rfl hsame
      · refine .inr (hall id' hmem ?_)
        rw [Libraries.lookup_insert, if_neg hsame]
        exact hnone
  · intro library hmem
    rw [map_cons, mem_cons, not_or] at hmem
    rw [hothers library hmem.2, Libraries.lookup_insert, if_neg hmem.1]
  · intro k id' hk
    cases k with
    | zero =>
      cases hk
      rw [hothers _ hnew, Libraries.lookup_insert, if_pos rfl, BitVec.add_zero]
    | succ k =>
      rw [haddress k id' hk, Nat.add_comm k 1, BitVec.ofNat_add, BitVec.add_assoc]
      rfl

theorem Assigns.isSome_of_mem
    (h : Assigns crates self sender ids state next deployed) (hmem : id ∈ ids) :
    (next.libraries.lookup (self.convertArtifactIdToLibPath id)).isSome := by
  by_cases hdeployed : self.convertArtifactIdToLibPath id ∈
      deployed.map self.convertArtifactIdToLibPath
  · obtain ⟨id', hid', hpath⟩ := mem_map.mp hdeployed
    obtain ⟨k, hk⟩ := mem_iff_getElem?.mp hid'
    rw [← hpath, h.address k id' hk]
    rfl
  · rw [h.others _ hdeployed]
    cases hlookup : state.libraries.lookup (self.convertArtifactIdToLibPath id) with
    | some text => rfl
    | none => exact absurd (h.all id hmem hlookup) hdeployed

theorem exists_assigns (crates : Crates) (self : Linker) (sender : Address)
    (ids : List ArtifactId) (state : Assignment) :
    ∃ deployed, deployed.Sublist ids ∧ Assigns crates self sender ids state
      (ids.foldl (self.assign crates sender) state) deployed := by
  induction ids generalizing state with
  | nil =>
    refine ⟨[], .refl _, (append_nil _).symm, nofun, nofun, nodup_nil, nofun, ?_, nofun⟩
    exact fun library _ => rfl
  | cons id ids ih =>
    rw [foldl_cons]
    obtain ⟨deployed, hsub, h⟩ := ih (self.assign crates sender state id)
    cases hlookup : state.libraries.lookup (self.convertArtifactIdToLibPath id) with
    | some text =>
      simp only [assign, hlookup] at h ⊢
      exact ⟨deployed, hsub.cons id, h.kept hlookup⟩
    | none => exact ⟨id :: deployed, hsub.cons_cons id, h.added hlookup⟩

end Assign

/-! ## What is deployed -/

/-- The user's libraries, by their paths below the root. -/
def given (self : Linker) (crates : Crates) (libraries : Libraries) : Libraries :=
  crates.withStrippedFilePrefixes libraries self.root

/-- The libraries that the search finds from the target. -/
def Needs (self : Linker) (orders : Orders) (target id : ArtifactId) : Prop :=
  Relation.TransGen (DepthFirst.Child (self.referenced orders)) target id

section Output

variable {libraries : Libraries} {nonce : U64} {target id id' : ArtifactId}
  {deployed ids : List ArtifactId} {output : LinkOutput} {next : Assignment}

def LinkedCode (crates : Crates) (orders : Orders) (self : Linker) (libraries : Libraries)
    (id : ArtifactId) (code : Bytes) : Prop :=
  ∃ contract, self.link crates orders id libraries = .ok contract ∧
    contract.getBytecodeBytes = some code

theorem linkWithNonceOrAddress_ok
    (h : self.linkWithNonceOrAddress crates orders libraries sender nonce [target] =
      some (.ok output)) :
    ∃ ids next deployed, (∀ id, id ∈ ids ↔ self.Needs orders target id) ∧
      Assigns crates self sender ids ⟨self.given crates libraries, nonce, []⟩ next deployed ∧
      output.libraries = next.libraries ∧
      List.Forall₂ (LinkedCode crates orders self next.libraries) deployed output.libsToDeploy := by
  obtain ⟨needed, hneeded, h⟩ := Link.bind_ok h
  obtain ⟨codes, hcodes, h⟩ := Link.bind_ok h
  cases h
  obtain ⟨needed', hcollect, hneeded⟩ := Link.bind_ok hneeded
  cases hneeded
  obtain ⟨deployed, _, hassigns⟩ := exists_assigns crates self sender (orders.ids.visit needed)
    ⟨self.given crates libraries, nonce, []⟩
  refine ⟨_, _, deployed, ?_, hassigns, rfl, ?_⟩
  · intro id
    rw [orders.ids.mem_visit]
    exact DepthFirst.mem_of_collect_ok hcollect
  have hlibs := hassigns.libsToDeploy
  rw [map_nil, nil_append] at hlibs
  rw [← hlibs, List.forall₂_map_left_iff]
  refine (Link.mapM_ok hcodes).imp fun pair code hcode => ?_
  obtain ⟨contract, hcontract, hcode⟩ := Link.bind_ok hcode
  refine ⟨contract, Option.some.inj hcontract, ?_⟩
  split at hcode
  · next hbytes =>
    cases hcode
    exact hbytes
  · cases hcode

theorem Needs.version (h : self.Needs orders target id) : id.version = target.version := by
  induction h with
  | single hchild => exact (child_mem hchild).2
  | tail _ hchild ih => exact (child_mem hchild).2.trans ih

theorem Needs.find (h : self.Needs orders target id) :
    self.findArtifactIdByLibraryPath orders (self.convertArtifactIdToLibPath id)
      (some target.version) = some id := by
  obtain ⟨a, hreach, hchild⟩ := Relation.TransGen.tail'_iff.mp h
  have hversion : a.version = target.version := by
    rw [← (child_mem hchild).2]
    exact Needs.version h
  obtain ⟨_, _, library, _, hfind⟩ := child_referenced_iff.mp hchild
  rw [(find_eq_some hfind).2.2, ← hversion]
  exact hfind

theorem Needs.eq_of_path (h : self.Needs orders target id) (h' : self.Needs orders target id')
    (hpath : self.convertArtifactIdToLibPath id = self.convertArtifactIdToLibPath id') :
    id = id' := by
  have hfind := h.find
  rw [hpath, h'.find] at hfind
  exact (Option.some.inj hfind).symm

/-- The addresses of the user are kept, and the needed libraries without one are deployed at
the addresses of consecutive nonces. -/
structure Deploys (crates : Crates) (orders : Orders) (linker : Linker) (libraries : Libraries)
    (sender : Address) (nonce : U64) (target : ArtifactId) (output : LinkOutput) : Prop where
  kept : ∀ library text, (linker.given crates libraries).lookup library = some text →
    output.libraries.lookup library = some text
  deployed : ∃ ids : List ArtifactId,
    (ids.map linker.convertArtifactIdToLibPath).Nodup ∧
    (∀ id, id ∈ ids ↔ linker.Needs orders target id ∧
      (linker.given crates libraries).lookup (linker.convertArtifactIdToLibPath id) = none) ∧
    ids.length = output.libsToDeploy.length ∧
    ∀ k id, ids[k]? = some id →
      output.libraries.lookup (linker.convertArtifactIdToLibPath id) =
        some (crates.toChecksum (crates.create sender (nonce + BitVec.ofNat 64 k))) ∧
      ∃ code, output.libsToDeploy[k]? = some code ∧
        LinkedCode crates orders linker output.libraries id code

theorem Assigns.mem_deployed_iff (hids : ∀ id, id ∈ ids ↔ self.Needs orders target id)
    {state next : Assignment} (h : Assigns crates self sender ids state next deployed)
    (id : ArtifactId) :
    id ∈ deployed ↔ self.Needs orders target id ∧
      state.libraries.lookup (self.convertArtifactIdToLibPath id) = none := by
  constructor
  · exact fun hid => ⟨(hids id).mp (h.subset id hid), h.fresh id hid⟩
  · rintro ⟨hneeds, hnone⟩
    obtain ⟨id', hmem, hpath⟩ := mem_map.mp (h.all id ((hids id).mpr hneeds) hnone)
    have hneeds' := (hids id').mp (h.subset id' hmem)
    rw [← hneeds'.eq_of_path hneeds hpath]
    exact hmem

theorem Assigns.lookup_of_some {state next : Assignment} {library : Path × String} {text : String}
    (h : Assigns crates self sender ids state next deployed)
    (hlookup : state.libraries.lookup library = some text) :
    next.libraries.lookup library = some text := by
  rw [h.others, hlookup]
  intro hmem
  obtain ⟨id, hid, rfl⟩ := mem_map.mp hmem
  rw [h.fresh id hid] at hlookup
  cases hlookup

end Output

/-! ## An artifact set -/

def artifact (file : String) (name : String) : ArtifactId :=
  ⟨["out", name], name, ["", "project", file], ⟨0, 8, 30⟩, "", "default"⟩

def inFile (file : String) (names : List String) : LinkReferences :=
  HashMap.empty.insert [file] names.toFinset

def openIn (file : String) (names : List String) : CompactBytecode :=
  ⟨.unlinked (names.map (.placeholder [file])), inFile file names⟩

def closed (code : Bytes) : CompactBytecode := ⟨.bytecode code, .empty⟩

def pair : Linker where
  root := ["", "project"]
  contracts := ((HashMap.empty.insert (artifact "T.sol" "T")
      ⟨some (openIn "L.sol" ["A", "B"]), some ⟨some (openIn "L.sol" ["A", "B"])⟩⟩).insert
    (artifact "L.sol" "A") ⟨some (closed [1]), some ⟨some (closed [1])⟩⟩).insert
    (artifact "L.sol" "B") ⟨some (closed [2]), some ⟨some (closed [2])⟩⟩

def userAddress : String := "0x0000000000000000000000000000000000000003"

end Linker

end Foundry.Linking

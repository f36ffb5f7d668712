import Foundry.Linking.Completeness

/-!
# Libraries deployed by CREATE2

The address of a library is computed from its linked code, so a library can be deployed only
when those it refers to have addresses.  The linker deploys any library whose code is linked,
puts its address into the others, and gives up when all that are left are open.
-/

namespace Foundry.Linking.Linker

open Relation List

variable {crates : Crates} {orders : Orders} {self : Linker} {libraries : Libraries}
  {sender : Address} {salt : B256} {target id : ArtifactId}

def creation (self : Linker) (id : ArtifactId) : CompactBytecode :=
  ((self.contracts.get id).bind (·.bytecode)).getD ⟨.bytecode [], .empty⟩

theorem WellFormed.creation (hwell : self.WellFormed crates) (id : ArtifactId) :
    crates.Emitted (self.creation id) := by
  unfold Linker.creation
  cases hcontract : self.contracts.get id with
  | none => exact crates.emitted_bytecode []
  | some contract =>
    rw [Option.bind_some]
    cases hbytecode : contract.bytecode with
    | none => exact crates.emitted_bytecode []
    | some bytecode =>
      exact (hwell id (HashMap.mem_keys_of_get hcontract) contract hcontract).1 _ hbytecode

/-! ## The loop -/

def deployedEntry (crates : Crates) (self : Linker) (sender : Address) (salt : B256) :
    ArtifactId × Bytes → Path × String × Address
  | (id, code) =>
    ((self.convertArtifactIdToLibPath id).1, (self.convertArtifactIdToLibPath id).2,
      crates.create2FromCode sender salt code)

/-- The codes that are not deployed yet, linked with the addresses known so far. -/
def pendingWith (crates : Crates) (self : Linker) (entries : Crates.Entries)
    (ids : List ArtifactId) : List (ArtifactId × CompactBytecode) :=
  ids.map fun id => (id, crates.linkAll entries (self.creation id))

def record (crates : Crates) (self : Linker) (sender : Address) (salt : B256)
    (output : LinkOutput) : ArtifactId × Bytes → LinkOutput
  | (id, code) =>
    ⟨output.libraries.insert (self.convertArtifactIdToLibPath id)
        (crates.toChecksum (crates.create2FromCode sender salt code)),
      output.libsToDeploy ++ [code]⟩

/-- Each code is what linking with the entries and the libraries before it gives. -/
def LinkedInTurn (crates : Crates) (self : Linker) (sender : Address) (salt : B256) :
    Crates.Entries → List (ArtifactId × Bytes) → Prop
  | _, [] => True
  | entries, (id, code) :: deployed =>
    (crates.linkAll entries (self.creation id)).object = .bytecode code ∧
      LinkedInTurn crates self sender salt
        (entries ++ [deployedEntry crates self sender salt (id, code)]) deployed

section Loop

variable {entries : Crates.Entries} {ids : List ArtifactId} {output : LinkOutput}

theorem pendingWith_of_perm {pending : List (ArtifactId × CompactBytecode)}
    {first : ArtifactId × CompactBytecode}
    (h : (first :: pending).Perm (self.pendingWith crates entries ids)) :
    first.2 = crates.linkAll entries (self.creation first.1) ∧
      pending = self.pendingWith crates entries (pending.map Prod.fst) ∧
      (first.1 :: pending.map Prod.fst).Perm ids := by
  have hmem : ∀ p ∈ first :: pending, p.2 = crates.linkAll entries (self.creation p.1) := by
    intro p hp
    obtain ⟨id, _, rfl⟩ := mem_map.mp (h.mem_iff.mp hp)
    rfl
  refine ⟨hmem first mem_cons_self, ?_, ?_⟩
  · unfold pendingWith
    rw [List.map_map]
    have hsame : pending.map id = pending.map
        ((fun id => (id, crates.linkAll entries (self.creation id))) ∘ Prod.fst) := by
      refine map_congr_left fun p hp => ?_
      exact Prod.ext rfl (hmem p (mem_cons_of_mem _ hp))
    rw [← hsame, map_id]
  · have hids := h.map Prod.fst
    rw [pendingWith, List.map_map] at hids
    exact hids.trans (List.Perm.of_eq (List.map_id ids))

theorem map_link_pendingWith (crates : Crates) (self : Linker) (entries : Crates.Entries)
    (ids : List ArtifactId) (file : Path) (name : String) (address : Address) :
    ((self.pendingWith crates entries ids).map fun (id, bytecode) =>
        (id, crates.link bytecode file name address)) =
      self.pendingWith crates (entries ++ [(file, name, address)]) ids := by
  unfold pendingWith
  rw [List.map_map]
  refine List.map_congr_left fun id _ => ?_
  rw [Crates.linkAll, List.foldl_append]
  rfl

/-- One round: all codes are open, or a linked one is deployed and its address put into the
others. -/
theorem deployAll_step (hne : ids ≠ []) (fuel : Nat) :
    ((∀ id ∈ ids, (crates.linkAll entries (self.creation id)).object.isUnlinked = true) ∧
      self.deployAll crates sender salt (fuel + 1) (self.pendingWith crates entries ids) output =
        some (.error (.error .cyclicDependency))) ∨
    ∃ id code rest, (id :: rest).Perm ids ∧
      (crates.linkAll entries (self.creation id)).object = .bytecode code ∧
      self.deployAll crates sender salt (fuel + 1) (self.pendingWith crates entries ids) output =
        self.deployAll crates sender salt fuel
          (self.pendingWith crates
            (entries ++ [deployedEntry crates self sender salt (id, code)]) rest)
          (record crates self sender salt output (id, code)) := by
  obtain ⟨head, tail, hcons⟩ : ∃ head tail, self.pendingWith crates entries ids = head :: tail :=
    exists_cons_of_ne_nil (mt map_eq_nil_iff.mp hne)
  cases hindex : (head :: tail).findIdx? fun (_, bytecode) => !bytecode.object.isUnlinked with
  | none =>
    left
    refine ⟨?_, ?_⟩
    · intro id hid
      rw [findIdx?_eq_none_iff, ← hcons] at hindex
      have hlinked := hindex (id, crates.linkAll entries (self.creation id))
        (mem_map.mpr ⟨id, hid, rfl⟩)
      simpa using hlinked
    · rw [hcons, deployAll, hindex]
      rfl
  | some index =>
    right
    obtain ⟨hlt, hlinked, _⟩ := findIdx?_eq_some_iff_getElem.mp hindex
    obtain ⟨⟨id, bytecode⟩, rest, hremove⟩ := swapRemove_of_lt hlt
    have hget := getElem?_of_swapRemove hremove
    rw [getElem?_eq_getElem hlt] at hget
    rw [Option.some.inj hget] at hlinked
    have hperm := swapRemove_perm hremove
    rw [← hcons] at hperm
    obtain ⟨hbytecode, hrest, hids⟩ := pendingWith_of_perm hperm
    dsimp only at hlinked
    cases hobject : bytecode.object with
    | unlinked code =>
      rw [hobject] at hlinked
      cases hlinked
    | bytecode code =>
      refine ⟨id, code, rest.map Prod.fst, hids, hbytecode ▸ hobject, ?_⟩
      rw [hcons, deployAll, hindex]
      dsimp only
      rw [hremove]
      dsimp only
      rw [hobject]
      dsimp only [BytecodeObject.asBytes]
      nth_rewrite 1 [hrest]
      rw [map_link_pendingWith]
      rfl

/-- All rounds: the codes are deployed in turn, until none is left or all that are left are
open. -/
theorem deployAll_run (entries : Crates.Entries) (output : LinkOutput) {fuel : Nat}
    (hfuel : ids.length < fuel) :
    ∃ deployed, LinkedInTurn crates self sender salt entries deployed ∧
      (((deployed.map Prod.fst).Perm ids ∧
        self.deployAll crates sender salt fuel (self.pendingWith crates entries ids) output =
          some (.ok (deployed.foldl (record crates self sender salt) output))) ∨
      ∃ rest, rest ≠ [] ∧ (deployed.map Prod.fst ++ rest).Perm ids ∧
        (∀ id ∈ rest,
          (crates.linkAll (entries ++ deployed.map (deployedEntry crates self sender salt))
            (self.creation id)).object.isUnlinked = true) ∧
        self.deployAll crates sender salt fuel (self.pendingWith crates entries ids) output =
          some (.error (.error .cyclicDependency))) := by
  induction fuel generalizing ids entries output with
  | zero => exact absurd hfuel (Nat.not_lt_zero _)
  | succ fuel ih =>
    by_cases hne : ids = []
    · subst hne
      exact ⟨[], trivial, .inl ⟨List.Perm.refl _, rfl⟩⟩
    rcases deployAll_step hne fuel with ⟨hopen, hcyclic⟩ | ⟨id, code, rest, hperm, hcode, hnext⟩
    · refine ⟨[], trivial, .inr ⟨ids, hne, List.Perm.refl _, ?_, hcyclic⟩⟩
      rw [map_nil, append_nil]
      exact hopen
    have hlength := hperm.length_eq
    rw [length_cons] at hlength
    have hfuel' : rest.length < fuel := by omega
    obtain ⟨deployed, hturn, hends⟩ :=
      ih (entries ++ [deployedEntry crates self sender salt (id, code)])
        (record crates self sender salt output (id, code)) hfuel'
    refine ⟨(id, code) :: deployed, ⟨hcode, hturn⟩, ?_⟩
    rw [hnext]
    rcases hends with ⟨hids, hok⟩ | ⟨left, hleft, hids, hopen, hcyclic⟩
    · exact .inl ⟨(hids.cons id).trans hperm, hok⟩
    · refine .inr ⟨left, hleft, (hids.cons id).trans hperm, ?_, hcyclic⟩
      rw [append_assoc] at hopen
      exact hopen

end Loop

/-! ## What is deployed -/

section Turns

variable {entries : Crates.Entries} {deployed : List (ArtifactId × Bytes)}
  {library : Path × String}

theorem LinkedInTurn.references (hwell : self.WellFormed crates)
    {before after : List (ArtifactId × Bytes)} {code : Bytes}
    (h : LinkedInTurn crates self sender salt entries (before ++ (id, code) :: after))
    (hhas : (self.creation id).linkReferences.Has library.1 library.2) :
    (∃ address, (library.1, library.2, address) ∈ entries) ∨
      ∃ p ∈ before, self.convertArtifactIdToLibPath p.1 = library := by
  induction before generalizing entries with
  | nil =>
    obtain ⟨hcode, _⟩ := h
    left
    by_contra hnone
    rw [not_exists] at hnone
    have hopen := (Crates.isUnlinked_linkAll_iff (hwell.creation id) entries).mpr
      ⟨library.1, library.2, hhas, hnone⟩
    rw [hcode] at hopen
    cases hopen
  | cons first before ih =>
    obtain ⟨_, hrest⟩ := h
    rcases ih hrest with ⟨address, hmem⟩ | ⟨p, hp, hpath⟩
    · rcases mem_append.mp hmem with hmem | hmem
      · exact .inl ⟨address, hmem⟩
      · right
        refine ⟨first, mem_cons_self, ?_⟩
        have heq := mem_singleton.mp hmem
        simp only [deployedEntry, Prod.mk.injEq] at heq
        exact Prod.ext heq.1.symm heq.2.1.symm
    · exact .inr ⟨p, mem_cons_of_mem _ hp, hpath⟩

theorem libsToDeploy_record (deployed : List (ArtifactId × Bytes)) (output : LinkOutput) :
    (deployed.foldl (record crates self sender salt) output).libsToDeploy =
      output.libsToDeploy ++ deployed.map Prod.snd := by
  induction deployed generalizing output with
  | nil => exact (append_nil _).symm
  | cons first deployed ih =>
    rw [foldl_cons, ih]
    exact append_assoc _ _ _

theorem lookup_record_of_not_mem (output : LinkOutput)
    (h : library ∉ (deployed.map Prod.fst).map self.convertArtifactIdToLibPath) :
    (deployed.foldl (record crates self sender salt) output).libraries.lookup library =
      output.libraries.lookup library := by
  induction deployed generalizing output with
  | nil => rfl
  | cons first deployed ih =>
    rw [map_cons, map_cons, mem_cons, not_or] at h
    rw [foldl_cons, ih _ h.2]
    unfold record
    rw [Libraries.lookup_insert, if_neg h.1]

theorem lookup_record {code : Bytes} (output : LinkOutput)
    (hdistinct : ((deployed.map Prod.fst).map self.convertArtifactIdToLibPath).Nodup)
    (hmem : (id, code) ∈ deployed) :
    (deployed.foldl (record crates self sender salt) output).libraries.lookup
        (self.convertArtifactIdToLibPath id) =
      some (crates.toChecksum (crates.create2FromCode sender salt code)) := by
  induction deployed generalizing output with
  | nil => cases hmem
  | cons first deployed ih =>
    rw [map_cons, map_cons, nodup_cons] at hdistinct
    rw [foldl_cons]
    rcases mem_cons.mp hmem with heq | hmem
    · subst heq
      rw [lookup_record_of_not_mem _ hdistinct.1]
      unfold record
      rw [Libraries.lookup_insert, if_pos rfl]
    · exact ih _ hdistinct.2 hmem

end Turns

/-! ## When it fails -/

/-- A library that is needed and has no address yet. -/
def Pending (self : Linker) (crates : Crates) (orders : Orders) (libraries : Libraries)
    (target id : ArtifactId) : Prop :=
  self.Needs orders target id ∧
    (self.given crates libraries).lookup (self.convertArtifactIdToLibPath id) = none

/-- The code of one pending library refers to another. -/
def Awaits (self : Linker) (crates : Crates) (orders : Orders) (libraries : Libraries)
    (target a b : ArtifactId) : Prop :=
  self.Pending crates orders libraries target a ∧ self.Pending crates orders libraries target b ∧
    (self.creation a).linkReferences.Has (self.convertArtifactIdToLibPath b).1
      (self.convertArtifactIdToLibPath b).2

def HasCycle (self : Linker) (crates : Crates) (orders : Orders) (libraries : Libraries)
    (target : ArtifactId) : Prop :=
  ∃ id, TransGen (self.Awaits crates orders libraries target) id id

/-- The addresses of the user can be read, and the library has code. -/
def Ready (crates : Crates) (orders : Orders) (self : Linker) (libraries : Libraries)
    (id : ArtifactId) : Prop :=
  (parse crates orders (self.given crates libraries)).isSome ∧
    ∃ contract ∈ self.contracts.get id, contract.bytecode.isSome

/-- All references that are found lead to artifacts, and all pending libraries can be linked
with the addresses of the user. -/
structure Linkable (crates : Crates) (orders : Orders) (linker : Linker) (libraries : Libraries)
    (target : ArtifactId) : Prop where
  found : ∀ a, ReflTransGen (DepthFirst.Child (linker.referenced orders)) target a →
    ∀ e, ¬ DepthFirst.Fails (linker.referenced orders) e a
  ready : ∀ id, linker.Pending crates orders libraries target id →
    Ready crates orders linker libraries id

/-- The code of a pending library refers only to libraries with an address and to pending
ones. -/
def Met (self : Linker) (crates : Crates) (orders : Orders) (libraries : Libraries)
    (target : ArtifactId) : Prop :=
  ∀ id, self.Pending crates orders libraries target id → ∀ library : Path × String,
    (self.creation id).linkReferences.Has library.1 library.2 →
      ((self.given crates libraries).lookup library).isSome ∨
        ∃ id', self.Pending crates orders libraries target id' ∧
          self.convertArtifactIdToLibPath id' = library

def givenEntries (crates : Crates) (orders : Orders) (self : Linker) (libraries : Libraries) :
    Crates.Entries :=
  (parse crates orders (self.given crates libraries)).getD []

section Ends

variable {entries : Crates.Entries} {deployed : List (ArtifactId × Bytes)}
  {ids rest : List ArtifactId}

theorem lookup_of_mem_givenEntries {library : Path × String} {address : Address}
    (h : (library.1, library.2, address) ∈ givenEntries crates orders self libraries) :
    ∃ text, (self.given crates libraries).lookup library = some text := by
  unfold givenEntries at h
  cases hparse : parse crates orders (self.given crates libraries) with
  | none =>
    rw [hparse] at h
    cases h
  | some entries =>
    rw [hparse] at h
    obtain ⟨text, htext, _⟩ := (mem_parse hparse).mp h
    exact ⟨text, htext⟩

theorem linkProvided_of_ready (h : Ready crates orders self libraries id) :
    self.linkProvided crates orders (self.given crates libraries) id =
      some (.ok (id, crates.linkAll (givenEntries crates orders self libraries)
        (self.creation id))) := by
  obtain ⟨hparse, contract, hcontract, hbytecode⟩ := h
  obtain ⟨entries, hparse⟩ := Option.isSome_iff_exists.mp hparse
  obtain ⟨bytecode, hbytecode⟩ := Option.isSome_iff_exists.mp hbytecode
  have hcreation : self.creation id = bytecode := by
    unfold creation
    rw [hcontract, Option.bind_some, hbytecode]
    rfl
  unfold linkProvided givenEntries
  rw [link_of_parse hcontract hparse]
  dsimp only
  rw [CompactContractBytecode.bytecode_linkAll, hbytecode, hparse, hcreation]
  rfl

theorem linkProvided_of_not_ready (h : ¬ Ready crates orders self libraries id) :
    self.linkProvided crates orders (self.given crates libraries) id = some (.error .panic) := by
  unfold linkProvided
  cases hlink : self.link crates orders id (self.given crates libraries) with
  | error e => rfl
  | ok contract =>
    obtain ⟨original, entries, hget, hparse, rfl⟩ := parse_of_link hlink
    dsimp only
    rw [CompactContractBytecode.bytecode_linkAll]
    cases hbytecode : original.bytecode with
    | none => rfl
    | some bytecode =>
      refine absurd ⟨?_, original, hget, ?_⟩ h
      · rw [hparse]
        rfl
      · rw [hbytecode]
        rfl

theorem error_ne_cyclic {e : Failure} {a : ArtifactId}
    (h : DepthFirst.Fails (self.referenced orders) e a) : e ≠ .error .cyclicDependency := by
  unfold DepthFirst.Fails referenced at h
  rintro rfl
  cases hcontract : self.contracts.get a with
  | none =>
    rw [hcontract] at h
    rcases h with h | ⟨list, h, _⟩
    · cases h
    · cases h
  | some contract =>
    rw [hcontract] at h
    rcases h with h | ⟨list, h, hmem⟩
    · cases h
    · cases h
      obtain ⟨library, _, hfound⟩ := mem_map.mp hmem
      split at hfound <;> cases hfound

def pendingIds (crates : Crates) (orders : Orders) (self : Linker) (libraries : Libraries)
    (needed : Finset ArtifactId) : List ArtifactId :=
  (orders.ids.visit needed).filter fun id =>
    (self.given crates libraries).lookup (self.convertArtifactIdToLibPath id) = none

theorem linkWithCreate2_of_needed {target : ArtifactId} {needed : Finset ArtifactId}
    (hcollect : self.collectDependencies orders target ∅ = some (.ok needed)) (sender : Address)
    (salt : B256) :
    self.linkWithCreate2 crates orders libraries sender salt target =
      ((pendingIds crates orders self libraries needed).mapM
          (self.linkProvided crates orders (self.given crates libraries)) >>= fun pending =>
        self.deployAll crates sender salt (pending.length + 1) pending
          ⟨self.given crates libraries, []⟩ : Link LinkOutput) := by
  unfold linkWithCreate2
  rw [hcollect]
  rfl

/-- The link fails in another way because it cannot be made, or goes through the rounds of the
pending libraries. -/
theorem linkWithCreate2_cases (crates : Crates) (orders : Orders) (self : Linker)
    (libraries : Libraries) (sender : Address) (salt : B256) (target : ArtifactId) :
    (¬ Linkable crates orders self libraries target ∧
      ∃ e, e ≠ .error .cyclicDependency ∧
        self.linkWithCreate2 crates orders libraries sender salt target = some (.error e)) ∨
    Linkable crates orders self libraries target ∧ ∃ ids : List ArtifactId, ids.Nodup ∧
      (∀ id, id ∈ ids ↔ self.Pending crates orders libraries target id) ∧
      self.linkWithCreate2 crates orders libraries sender salt target =
        self.deployAll crates sender salt (ids.length + 1)
          (self.pendingWith crates (givenEntries crates orders self libraries) ids)
          ⟨self.given crates libraries, []⟩ := by
  have hsome := collectDependencies_isSome orders self target
  obtain ⟨result, hcollect⟩ := Option.isSome_iff_exists.mp hsome
  cases result with
  | error e =>
    obtain ⟨a, hreach, hfails⟩ := DepthFirst.collect_error hcollect
    refine .inl ⟨fun hlinkable => hlinkable.found a hreach e hfails, e, error_ne_cyclic hfails, ?_⟩
    unfold linkWithCreate2
    rw [hcollect]
    rfl
  | ok needed =>
    have hids : ∀ id, id ∈ pendingIds crates orders self libraries needed ↔
        self.Pending crates orders libraries target id := by
      intro id
      unfold pendingIds
      rw [mem_filter, orders.ids.mem_visit, decide_eq_true_iff]
      exact and_congr_left fun _ => DepthFirst.mem_of_collect_ok hcollect
    rcases Link.mapM_cases linkProvided_of_ready linkProvided_of_not_ready
      (pendingIds crates orders self libraries needed) with ⟨hready, hmap⟩ | ⟨⟨id, hid, hnot⟩, hmap⟩
    · refine .inr ⟨⟨?_, ?_⟩, pendingIds crates orders self libraries needed,
        (orders.ids.nodup_visit needed).filter _, hids, ?_⟩
      · intro a hreach e
        exact (DepthFirst.expanded_of_collect_ok hcollect hreach).not_fails
      · exact fun id hpending => hready id ((hids id).mpr hpending)
      · have hlength : (self.pendingWith crates (givenEntries crates orders self libraries)
            (pendingIds crates orders self libraries needed)).length =
              (pendingIds crates orders self libraries needed).length := length_map _
        rw [linkWithCreate2_of_needed hcollect, hmap, ← hlength]
        rfl
    · refine .inl ⟨fun hlinkable => ?_, .panic, nofun, ?_⟩
      · exact hnot (hlinkable.ready id ((hids id).mp hid))
      · rw [linkWithCreate2_of_needed hcollect, hmap]
        rfl

section

variable (hwell : self.WellFormed crates)

include hwell

section

variable
  (h : LinkedInTurn crates self sender salt (givenEntries crates orders self libraries) deployed)
  (hmem : ∀ id, id ∈ deployed.map Prod.fst ↔ self.Pending crates orders libraries target id)

include h hmem

theorem LinkedInTurn.idxOf_lt (hdistinct : (deployed.map Prod.fst).Nodup)
    {a b : ArtifactId} (hawaits : self.Awaits crates orders libraries target a b) :
    (deployed.map Prod.fst).idxOf b < (deployed.map Prod.fst).idxOf a := by
  obtain ⟨ha, hb, hhas⟩ := hawaits
  obtain ⟨⟨a', code⟩, hdeployed, rfl⟩ := mem_map.mp ((hmem a).mpr ha)
  obtain ⟨before, after, rfl⟩ := append_of_mem hdeployed
  rw [map_append] at hdistinct ⊢
  have hnot : a' ∉ before.map Prod.fst := by
    intro hbefore
    exact (nodup_append.mp hdistinct).2.2 a' hbefore a' mem_cons_self rfl
  rcases h.references hwell hhas with ⟨address, haddress⟩ | ⟨p, hp, hpath⟩
  · obtain ⟨text, htext⟩ := lookup_of_mem_givenEntries haddress
    rw [hb.2] at htext
    cases htext
  have hp' : p.1 ∈ (before ++ (a', code) :: after).map Prod.fst := by
    rw [map_append]
    exact mem_append_left _ (mem_map_of_mem hp)
  have hsame : p.1 = b := ((hmem p.1).mp hp').1.eq_of_path hb.1 hpath
  have hbefore : b ∈ before.map Prod.fst := hsame ▸ mem_map_of_mem hp
  rw [idxOf_append_of_mem hbefore, idxOf_append_of_notMem hnot]
  have hlt := idxOf_lt_length_of_mem hbefore
  omega

theorem LinkedInTurn.not_hasCycle (hdistinct : (deployed.map Prod.fst).Nodup) :
    ¬ self.HasCycle crates orders libraries target := by
  rintro ⟨id, hcycle⟩
  exact DepthFirst.not_cycle_of_lt
    (fun a b hawaits => h.idxOf_lt hwell hmem hdistinct hawaits) id hcycle

theorem LinkedInTurn.met : self.Met crates orders libraries target := by
  intro id hpending library hhas
  obtain ⟨⟨id, code⟩, hdeployed, rfl⟩ := mem_map.mp ((hmem id).mpr hpending)
  obtain ⟨before, after, rfl⟩ := append_of_mem hdeployed
  rcases h.references hwell hhas with ⟨address, haddress⟩ | ⟨p, hp, hpath⟩
  · exact .inl (Option.isSome_iff_exists.mpr (lookup_of_mem_givenEntries haddress))
  · refine .inr ⟨p.1, (hmem p.1).mp ?_, hpath⟩
    exact mem_map_of_mem (mem_append_left _ hp)

end

section

variable (hmet : self.Met crates orders libraries target)
  (hids : ∀ id, id ∈ deployed.map Prod.fst ++ rest ↔ self.Pending crates orders libraries target id)
  (hopen : ∀ id ∈ rest, (crates.linkAll (givenEntries crates orders self libraries ++
      deployed.map (deployedEntry crates self sender salt)) (self.creation id)).object.isUnlinked =
        true)

include hmet hids hopen

theorem exists_awaits (hready : ∀ id ∈ rest, Ready crates orders self libraries id)
    (hid : id ∈ rest) : ∃ id' ∈ rest, self.Awaits crates orders libraries target id id' := by
  obtain ⟨file, name, hhas, hnone⟩ :=
    (Crates.isUnlinked_linkAll_iff (hwell.creation id) _).mp (hopen id hid)
  have hpending := (hids id).mp (mem_append_right _ hid)
  rcases hmet id hpending (file, name) hhas with hgiven | ⟨id', hpending', hpath⟩
  · obtain ⟨text, htext⟩ := Option.isSome_iff_exists.mp hgiven
    obtain ⟨entries, hparse⟩ := Option.isSome_iff_exists.mp (hready id hid).1
    obtain ⟨address, haddress⟩ := exists_mem_parse hparse htext
    refine absurd (mem_append_left _ ?_) (hnone address)
    unfold givenEntries
    rw [hparse]
    exact haddress
  · refine ⟨id', ?_, hpending, hpending', ?_⟩
    · rcases mem_append.mp ((hids id').mpr hpending') with hdeployed | hrest
      · obtain ⟨⟨id'', code⟩, hmem, rfl⟩ := mem_map.mp hdeployed
        refine absurd ?_ (hnone (crates.create2FromCode sender salt code))
        refine mem_append_right _ (mem_map.mpr ⟨_, hmem, ?_⟩)
        rw [deployedEntry, hpath]
      · exact hrest
    · rw [hpath]
      exact hhas

theorem hasCycle_of_open (hready : ∀ id ∈ rest, Ready crates orders self libraries id)
    (hrest : rest ≠ []) : self.HasCycle crates orders libraries target :=
  DepthFirst.exists_cycle hrest fun _ hid => exists_awaits hwell hmet hids hopen hready hid

end

end

end Ends

/-- The call ends; what it deploys is linked in turn and recorded under the addresses of the
codes; and it finds a cyclic dependency just if there is one. -/
structure DeploysInTurn (crates : Crates) (orders : Orders) (linker : Linker)
    (libraries : Libraries) (sender : Address) (salt : B256) (target : ArtifactId) : Prop where
  ends : ∃ result, linker.linkWithCreate2 crates orders libraries sender salt target = some result
  deployed : ∀ output,
    linker.linkWithCreate2 crates orders libraries sender salt target = some (.ok output) →
    ∃ deployed : List (ArtifactId × Bytes),
      output.libsToDeploy = deployed.map Prod.snd ∧ (deployed.map Prod.fst).Nodup ∧
      (∀ id, id ∈ deployed.map Prod.fst ↔ linker.Pending crates orders libraries target id) ∧
      LinkedInTurn crates linker sender salt (givenEntries crates orders linker libraries)
        deployed ∧
      ∀ id code, (id, code) ∈ deployed →
        output.libraries.lookup (linker.convertArtifactIdToLibPath id) =
          some (crates.toChecksum (crates.create2FromCode sender salt code))
  cyclic : linker.linkWithCreate2 crates orders libraries sender salt target =
      some (.error (.error .cyclicDependency)) ↔
    linker.HasCycle crates orders libraries target

/-- With a cycle the link has to be possible otherwise; without one, no reference of a pending
library may be lost. -/
theorem linkWithCreate2_deploysInTurn_iff (hwell : self.WellFormed crates) (orders : Orders)
    (libraries : Libraries) (sender : Address) (salt : B256) (target : ArtifactId) :
    DeploysInTurn crates orders self libraries sender salt target ↔
      (self.HasCycle crates orders libraries target →
        Linkable crates orders self libraries target) ∧
      (¬ self.HasCycle crates orders libraries target →
        Linkable crates orders self libraries target →
          self.Met crates orders libraries target) := by
  rcases linkWithCreate2_cases crates orders self libraries sender salt target with
    ⟨hlinkable, e, hne, hresult⟩ | ⟨hlinkable, ids, hdistinct, hids, hresult⟩
  · have hcyclic : ¬ self.linkWithCreate2 crates orders libraries sender salt target =
        some (.error (.error .cyclicDependency)) := by
      rw [hresult]
      intro heq
      cases heq
      exact hne rfl
    constructor
    · intro h
      refine ⟨fun hcycle => absurd (h.cyclic.mpr hcycle) hcyclic, ?_⟩
      exact fun _ hlinkable' => absurd hlinkable' hlinkable
    · intro ⟨hcycle, _⟩
      refine ⟨⟨_, hresult⟩, fun output houtput => ?_, ?_⟩
      · cases hresult.symm.trans houtput
      · exact iff_of_false hcyclic fun h => hlinkable (hcycle h)
  · obtain ⟨deployed, hturn, hends⟩ := deployAll_run
      (givenEntries crates orders self libraries) ⟨self.given crates libraries, []⟩
      (Nat.lt_succ_self ids.length)
    rw [← hresult] at hends
    rcases hends with ⟨hperm, hok⟩ | ⟨rest, hrest, hperm, hopen, hcyclic⟩
    · have hmem : ∀ id,
          id ∈ deployed.map Prod.fst ↔ self.Pending crates orders libraries target id :=
        fun id => hperm.mem_iff.trans (hids id)
      have hdistinct' : (deployed.map Prod.fst).Nodup := hperm.nodup_iff.mpr hdistinct
      have hnone := hturn.not_hasCycle hwell hmem hdistinct'
      refine iff_of_true ⟨⟨_, hok⟩, ?_, ?_⟩
        ⟨fun h => absurd h hnone, fun _ _ => hturn.met hwell hmem⟩
      · intro output houtput
        rw [hok] at houtput
        cases houtput
        have hpaths := List.Nodup.map_on (fun a ha b hb hpath =>
          ((hmem a).mp ha).1.eq_of_path ((hmem b).mp hb).1 hpath) hdistinct'
        refine ⟨deployed, ?_, hdistinct', hmem, hturn, fun id code => lookup_record _ hpaths⟩
        rw [libsToDeploy_record]
        rfl
      · refine iff_of_false ?_ hnone
        rw [hok]
        nofun
    · have hmem : ∀ id, id ∈ deployed.map Prod.fst ++ rest ↔
          self.Pending crates orders libraries target id := fun id => hperm.mem_iff.trans (hids id)
      constructor
      · intro h
        exact ⟨fun _ => hlinkable, fun hnone => absurd (h.cyclic.mp hcyclic) hnone⟩
      · intro ⟨_, hmet⟩
        refine ⟨⟨_, hcyclic⟩, fun output houtput => ?_, iff_of_true hcyclic ?_⟩
        · cases hcyclic.symm.trans houtput
        · by_contra hnone
          have hready : ∀ id ∈ rest, Ready crates orders self libraries id := fun id hid =>
            hlinkable.ready id ((hmem id).mp (mem_append_right _ hid))
          exact hnone (hasCycle_of_open hwell (hmet hnone hlinkable) hmem hopen hready hrest)

theorem not_hasCycle_of_rank (rank : Path × String → Nat)
    (h : ∀ a ∈ self.contracts.keys, ∀ library ∈ (self.creation a).linkReferences.libraries,
      rank library < rank (self.convertArtifactIdToLibPath a)) :
    ¬ self.HasCycle crates orders libraries target := by
  rintro ⟨id, hcycle⟩
  have hlower : ∀ a b, self.Awaits crates orders libraries target a b →
      rank (self.convertArtifactIdToLibPath b) < rank (self.convertArtifactIdToLibPath a) := by
    rintro a b ⟨hpending, _, hhas⟩
    obtain ⟨_, _, hchild⟩ := TransGen.tail'_iff.mp hpending.1
    exact h a (child_mem hchild).1 _ (LinkReferences.mem_libraries.mpr hhas)
  exact DepthFirst.not_cycle_of_lt hlower id hcycle

theorem met_of_closed (h : ∀ a ∈ self.contracts.keys, ∀ contract ∈ self.contracts.get a,
      ∀ library ∈ contract.references.libraries, ∀ b ∈ self.contracts.keys,
        self.convertArtifactIdToLibPath b = library →
          (self.creation b).linkReferences.libraries = ∅) :
    self.Met crates orders libraries target := by
  intro id hpending library hhas
  obtain ⟨a, _, hchild⟩ := TransGen.tail'_iff.mp hpending.1
  obtain ⟨contract, hcontract, library', hlibrary, hfind⟩ := child_referenced_iff.mp hchild
  obtain ⟨hmem, _, hpath⟩ := find_eq_some hfind
  have hnone := h a (HashMap.mem_keys_of_get hcontract) contract hcontract library'
    (LinkReferences.mem_libraries.mpr hlibrary) id hmem hpath
  rw [← LinkReferences.mem_libraries, hnone] at hhas
  exact absurd hhas (Finset.notMem_empty _)

theorem linkWithCreate2_deploysInTurn_pair :
    DeploysInTurn ethereum .sorted pair .empty 10 0 (artifact "T.sol" "T") := by
  have hnone : ¬ pair.HasCycle ethereum .sorted .empty (artifact "T.sol" "T") :=
    not_hasCycle_of_rank (fun library => if library.1 = ["T.sol"] then 1 else 0) (by decide +kernel)
  have hwell : pair.WellFormed ethereum := by decide +kernel
  refine (linkWithCreate2_deploysInTurn_iff hwell _ _ _ _ _).mpr ⟨fun h => absurd h hnone, ?_⟩
  exact fun _ _ => met_of_closed (by decide +kernel)

/-- A library whose constructor uses one more library of a file. -/
def layered : Linker where
  root := ["", "project"]
  contracts := (((HashMap.empty.insert (artifact "T.sol" "T")
      ⟨some (openIn "M.sol" ["M"]), some ⟨some (openIn "M.sol" ["M"])⟩⟩).insert
    (artifact "M.sol" "M")
      ⟨some (openIn "L.sol" ["A", "B"]), some ⟨some (openIn "L.sol" ["B"])⟩⟩).insert
    (artifact "L.sol" "A") ⟨some (closed [1]), some ⟨some (closed [1])⟩⟩).insert
    (artifact "L.sol" "B") ⟨some (closed [2]), some ⟨some (closed [2])⟩⟩

/-- A cyclic dependency is reported, and there is none. -/
theorem cyclicDependency_without_cycle :
    layered.WellFormed ethereum ∧
      layered.linkWithCreate2 ethereum .sorted .empty 10 0 (artifact "T.sol" "T") =
        some (.error (.error .cyclicDependency)) ∧
      ¬ layered.HasCycle ethereum .sorted .empty (artifact "T.sol" "T") ∧
      ¬ DeploysInTurn ethereum .sorted layered .empty 10 0 (artifact "T.sol" "T") := by
  have hcyclic : layered.linkWithCreate2 ethereum .sorted .empty 10 0 (artifact "T.sol" "T") =
      some (.error (.error .cyclicDependency)) := by
    change @Eq (Option (Except Failure LinkOutput)) _ _
    decide +kernel
  have hnone : ¬ layered.HasCycle ethereum .sorted .empty (artifact "T.sol" "T") :=
    not_hasCycle_of_rank
      (fun library => if library.1 = ["T.sol"] then 2 else if library.1 = ["M.sol"] then 1 else 0)
      (by decide +kernel)
  exact ⟨by decide +kernel, hcyclic, hnone, fun h => hnone (h.cyclic.mp hcyclic)⟩

end Foundry.Linking.Linker

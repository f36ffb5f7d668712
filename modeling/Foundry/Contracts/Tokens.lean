import Foundry.Base.Ledger
import Foundry.Base.Runs

/-!
# The token contracts

A fungible token with allowances, and a token of numbered items.  A call that reverts changes
nothing.
-/

namespace Foundry.Contracts

open Runs HashMap Option

/-! ## The fungible token -/

structure Mytoken where
  totalSupply : U256
  balanceOf : HashMap Address U256
  /-- How much an owner lets another party spend. -/
  allowance : HashMap (Address × Address) U256

namespace Mytoken

def decimals : Nat := 18

/-- The constructor, which reverts if the supply does not fit. -/
def deployed (sender : Address) (initial : U256) : Option Mytoken :=
  if initial.toNat * 10 ^ decimals < 2 ^ 256 then
    let totalSupply := BitVec.ofNat 256 (initial.toNat * 10 ^ decimals)
    some ⟨totalSupply, HashMap.empty.insert sender totalSupply, .empty⟩
  else none

def transfer (sender target : Address) (value : U256) (s : Mytoken) : Option Mytoken :=
  if s.balanceOf.amount sender > value then
    (s.balanceOf.move sender target value).map fun balanceOf => { s with balanceOf := balanceOf }
  else none

def approve (sender spender : Address) (value : U256) (s : Mytoken) : Mytoken :=
  { s with allowance := s.allowance.insert (sender, spender) value }

def transferFrom (sender source target : Address) (value : U256) (s : Mytoken) : Option Mytoken :=
  if s.balanceOf.amount source ≥ value ∧ s.allowance.amount (source, sender) ≥ value then
    (s.balanceOf.move source target value).bind fun balanceOf =>
      (s.allowance.debit (source, sender) value).map fun allowance =>
        { s with balanceOf := balanceOf, allowance := allowance }
  else none

inductive Call where
  | transfer (sender target : Address) (value : U256)
  | approve (sender spender : Address) (value : U256)
  | transferFrom (sender source target : Address) (value : U256)

def Call.apply : Call → Mytoken → Option Mytoken
  | .transfer sender target value, s => Mytoken.transfer sender target value s
  | .approve sender spender value, s => some (Mytoken.approve sender spender value s)
  | .transferFrom sender source target value, s => Mytoken.transferFrom sender source target value s

def step (s : Mytoken) (call : Call) : Mytoken := (call.apply s).getD s

/-- The call is an approval of the spender by the owner. -/
def Call.Approves (owner spender : Address) : Call → Prop
  | .approve sender party _ => sender = owner ∧ party = spender
  | _ => False

/-- What the spender moves for the owner by a call. -/
def Call.moves (owner spender : Address) (s : Mytoken) : Call → Nat
  | .transferFrom sender source target value =>
    if sender = spender ∧ source = owner ∧ (s.transferFrom sender source target value).isSome then
      value.toNat
    else 0
  | _ => 0

/-- What the spender moves for the owner by the calls of a run. -/
def moved (owner spender : Address) : Mytoken → List Call → Nat
  | _, [] => 0
  | s, call :: calls => call.moves owner spender s + moved owner spender (step s call) calls

variable {owner spender sender source target : Address} {value : U256} {s s' : Mytoken}
  {call : Call}

def Conserved (s : Mytoken) : Prop := s.balanceOf.total = s.totalSupply.toNat

theorem transfer_eq_some (h : transfer sender target value s = some s') :
    ∃ balanceOf, s.balanceOf.move sender target value = some balanceOf ∧
      s' = { s with balanceOf := balanceOf } := by
  unfold transfer at h
  split at h
  · obtain ⟨balanceOf, hmove, rfl⟩ := map_eq_some_iff.mp h
    exact ⟨balanceOf, hmove, rfl⟩
  · cases h

theorem transferFrom_eq_some (h : transferFrom sender source target value s = some s') :
    ∃ balanceOf allowance, s.balanceOf.move source target value = some balanceOf ∧
      s.allowance.debit (source, sender) value = some allowance ∧
      s' = { s with balanceOf := balanceOf, allowance := allowance } := by
  unfold transferFrom at h
  split at h
  · obtain ⟨balanceOf, hmove, h⟩ := bind_eq_some_iff.mp h
    obtain ⟨allowance, hdebit, rfl⟩ := map_eq_some_iff.mp h
    exact ⟨balanceOf, allowance, hmove, hdebit, rfl⟩
  · cases h

theorem conserved_deployed {initial : U256} (h : deployed sender initial = some s) :
    s.Conserved := by
  unfold deployed at h
  split at h
  · cases h
    have htotal := total_insert (HashMap.empty : HashMap Address U256) sender
      (BitVec.ofNat 256 (initial.toNat * 10 ^ decimals))
    exact htotal.trans (Nat.zero_add _)
  · cases h

section

variable (hs : s.Conserved)

include hs

theorem conserved_step (call : Call) : (step s call).Conserved := by
  unfold step
  cases h : call.apply s with
  | none => exact hs
  | some s' =>
    cases call with
    | transfer sender target value =>
      obtain ⟨balanceOf, hmove, rfl⟩ := transfer_eq_some h
      exact (total_of_move hmove).trans hs
    | approve sender spender value =>
      cases h
      exact hs
    | transferFrom sender source target value =>
      obtain ⟨balanceOf, _, hmove, _, rfl⟩ := transferFrom_eq_some h
      exact (total_of_move hmove).trans hs

theorem conserved_run (calls : List Call) : (run step s calls).Conserved := by
  induction calls generalizing s with
  | nil => exact hs
  | cons call calls ih => exact ih (conserved_step hs call)

theorem move_isSome :
    (s.balanceOf.move source target value).isSome ↔ value ≤ s.balanceOf.amount source := by
  apply HashMap.move_isSome
  rw [hs]
  exact s.totalSupply.isLt

private theorem transfer_isSome :
    (transfer sender target value s).isSome ↔ value < s.balanceOf.amount sender := by
  unfold transfer
  split
  · next hlt =>
    rw [isSome_map, move_isSome hs]
    exact ⟨fun _ => hlt, fun _ => BitVec.le_of_lt hlt⟩
  · next hlt =>
    rw [isSome_none, Bool.false_eq_true, false_iff]
    exact hlt

theorem transferFrom_isSome :
    (transferFrom sender source target value s).isSome ↔
      value ≤ s.balanceOf.amount source ∧ value ≤ s.allowance.amount (source, sender) := by
  unfold transferFrom
  split
  · next hguard =>
    have hmoves : (s.balanceOf.move source target value).isSome := (move_isSome hs).mpr hguard.1
    obtain ⟨balanceOf, hmove⟩ := isSome_iff_exists.mp hmoves
    rw [hmove, bind_some, isSome_map, debit_isSome]
    exact ⟨fun _ => hguard, fun h => h.2⟩
  · next hguard =>
    rw [isSome_none, Bool.false_eq_true, false_iff]
    exact hguard

end

theorem moves_add_allowance (h : ¬ call.Approves owner spender) :
    call.moves owner spender s + ((step s call).allowance.amount (owner, spender)).toNat =
      (s.allowance.amount (owner, spender)).toNat := by
  unfold step
  cases call with
  | transfer sender target value =>
    cases happly : (Call.transfer sender target value).apply s with
    | none => simp [Call.moves]
    | some s' =>
      obtain ⟨balanceOf, _, rfl⟩ := transfer_eq_some happly
      simp [Call.moves]
  | approve sender party value =>
    have hne : (owner, spender) ≠ (sender, party) := by
      intro heq
      cases heq
      exact h ⟨rfl, rfl⟩
    simp [Call.moves, Call.apply, approve, amount_insert, hne]
  | transferFrom sender source target value =>
    unfold Call.moves
    cases happly : transferFrom sender source target value s with
    | none => simp [Call.apply, happly]
    | some s' =>
      obtain ⟨balanceOf, allowance, _, hdebit, rfl⟩ := transferFrom_eq_some happly
      have hcredited := credited_of_debit hdebit
      simp only [Call.apply, happly, getD_some, isSome_some, and_true]
      split
      · next hboth =>
        obtain ⟨rfl, rfl⟩ := hboth
        rw [hcredited.self, Nat.add_comm]
      · next hother =>
        rw [Nat.zero_add, hcredited.other]
        intro heq
        cases heq
        exact hother ⟨rfl, rfl⟩

theorem moved_le {calls : List Call} (h : ∀ call ∈ calls, ¬ call.Approves owner spender) :
    moved owner spender s calls ≤ (s.allowance.amount (owner, spender)).toNat := by
  induction calls generalizing s with
  | nil => exact Nat.zero_le _
  | cons call calls ih =>
    have hfirst := moves_add_allowance (s := s) (h call List.mem_cons_self)
    have hrest := ih (s := step s call) fun other hmem => h other (List.mem_cons_of_mem _ hmem)
    unfold moved
    omega

/-- The ledger is right, and an amount can be moved by its owner just if the owner has it. -/
structure Sound (owner : Address) (value : U256) (s : Mytoken) : Prop where
  supply : s.balanceOf.total = s.totalSupply.toNat
  fits : ∀ a b v, v ≤ s.balanceOf.amount a → (s.balanceOf.move a b v).isSome
  holds : ∀ target, (transfer owner target value s).isSome ↔ value ≤ s.balanceOf.amount owner
  approved : ∀ spender target, value ≤ s.allowance.amount (owner, spender) →
    ((transfer owner target value s).isSome ↔ (transferFrom spender owner target value s).isSome)
  spent : ∀ spender approval calls, (∀ call ∈ calls, ¬ Call.Approves owner spender call) →
    moved owner spender (approve owner spender approval s) calls ≤ approval.toNat

/-- In every state of a deployed token the ledger is right and an owner can move an amount, unless
it is all that the owner has. -/
theorem sound_iff_not_all {creator : Address} {initial : U256} {token : Mytoken}
    (h : deployed creator initial = some token) (calls : List Call) (owner : Address)
    (value : U256) :
    (run step token calls).Sound owner value ↔
      value ≠ (run step token calls).balanceOf.amount owner := by
  have hs := conserved_run (conserved_deployed h) calls
  generalize run step token calls = s at hs
  constructor
  · rintro hsound rfl
    exact BitVec.lt_irrefl _ ((transfer_isSome hs).mp ((hsound.holds 0).mpr (BitVec.le_refl _)))
  · intro hne
    have hlt : value < s.balanceOf.amount owner ↔ value ≤ s.balanceOf.amount owner :=
      ⟨BitVec.le_of_lt, fun hle => BitVec.lt_of_le_ne hle hne⟩
    constructor
    · exact hs
    · exact fun a b v => (move_isSome hs).mpr
    · intro target
      rw [transfer_isSome hs, hlt]
    · intro spender target happroved
      rw [transfer_isSome hs, transferFrom_isSome hs, hlt]
      exact ⟨fun hle => ⟨hle, happroved⟩, fun hboth => hboth.1⟩
    · intro spender approval calls hcalls
      have hmoved := moved_le (s := approve owner spender approval s) hcalls
      rwa [approve, amount_insert, if_pos rfl] at hmoved

/-- The creator of one token gives a part of it away. -/
theorem sound_part : ∃ token, deployed 1 1 = some token ∧
    (run step token [.transfer 1 2 500]).Sound 2 100 := by
  obtain ⟨token, htoken⟩ := isSome_iff_exists.mp
    (show (deployed 1 1).isSome = true by decide)
  have hamount : (deployed 1 1).map (fun token =>
      (run step token [.transfer 1 2 500]).balanceOf.amount 2) = some 500 := by decide
  rw [htoken, map_some, Option.some.injEq] at hamount
  refine ⟨token, htoken, (sound_iff_not_all htoken _ 2 _).mpr ?_⟩
  rw [hamount]
  decide

/-- The creator cannot give the whole supply away. -/
theorem not_sound_whole_supply :
    ¬ ∀ token, deployed 1 1 = some token → ∀ value, token.Sound 1 value := by
  intro h
  have hfacts : (deployed 1 1).map (fun token =>
      ((transfer 1 2 (token.balanceOf.amount 1) token).isSome)) = some false := by decide
  obtain ⟨token, htoken, hnone⟩ := map_eq_some_iff.mp hfacts
  have hsome := ((h token htoken _).holds 2).mpr (BitVec.le_refl _)
  rw [hnone] at hsome
  cases hsome

end Mytoken

/-! ## The numbered token -/

structure SimpleNFT where
  ownerOf : HashMap U256 Address
  balanceOf : HashMap Address U256
  nextTokenId : U256

namespace SimpleNFT

def deployed : SimpleNFT := ⟨.empty, .empty, 0⟩

/-- The owner of an item; the zero address where none is written. -/
def owner (s : SimpleNFT) (tokenId : U256) : Address := (s.ownerOf.get tokenId).getD 0

def mint (sender : Address) (s : SimpleNFT) : Option SimpleNFT :=
  if s.nextTokenId.toNat + 1 < 2 ^ 256 then
    (s.balanceOf.credit sender 1).map fun balanceOf =>
      { ownerOf := s.ownerOf.insert s.nextTokenId sender
        balanceOf := balanceOf
        nextTokenId := s.nextTokenId + 1 }
  else none

/-- `transferFrom`.  The source compares the owner with the receiver where it should assign, and
the comparison has no effect. -/
def transferFrom (sender source target : Address) (tokenId : U256) (s : SimpleNFT) :
    Option SimpleNFT :=
  if s.owner tokenId = source ∧ sender = source then
    (s.balanceOf.credit source 1).bind fun balanceOf =>
      (balanceOf.debit target 1).map fun balanceOf => { s with balanceOf := balanceOf }
  else none

inductive Call where
  | mint (sender : Address)
  | transferFrom (sender source target : Address) (tokenId : U256)

def Call.apply : Call → SimpleNFT → Option SimpleNFT
  | .mint sender, s => SimpleNFT.mint sender s
  | .transferFrom sender source target tokenId, s =>
    SimpleNFT.transferFrom sender source target tokenId s

def step (s : SimpleNFT) (call : Call) : SimpleNFT := (call.apply s).getD s

def owned (s : SimpleNFT) (a : Address) : Nat :=
  (List.range s.nextTokenId.toNat).countP fun n => s.owner (BitVec.ofNat 256 n) = a

def Counted (s : SimpleNFT) : Prop := ∀ a, (s.balanceOf.amount a).toNat = s.owned a

/-- A call leaves the balances right; a transfer that goes through gives the item, and no other, to
its receiver, and the owner's transfer goes through. -/
def Books (s : SimpleNFT) (call : Call) : Prop :=
  (step s call).Counted ∧
    match call with
    | .mint _ => True
    | .transferFrom sender source target tokenId =>
      (∀ s', s.transferFrom sender source target tokenId = some s' →
        s'.owner tokenId = target ∧ ∀ other, other ≠ tokenId → s'.owner other = s.owner other) ∧
      (sender = source → s.owner tokenId = source →
        (s.transferFrom sender source target tokenId).isSome)

/-- The owner transfers an item to nobody else, and does not own every item there can be. -/
def KeepsItems (s : SimpleNFT) : Call → Prop
  | .mint _ => True
  | .transferFrom sender source target tokenId => sender = source → s.owner tokenId = source →
      target = source ∧ (s.balanceOf.amount source).toNat + 1 < 2 ^ 256

variable {s s' : SimpleNFT} {sender source target : Address} {tokenId : U256}

theorem counted_deployed : deployed.Counted := fun _ => rfl

theorem transferFrom_eq_some (h : s.transferFrom sender source target tokenId = some s') :
    s.owner tokenId = source ∧ s'.ownerOf = s.ownerOf ∧ s'.nextTokenId = s.nextTokenId := by
  unfold transferFrom at h
  split at h
  · next hguard =>
    obtain ⟨credited, _, h⟩ := bind_eq_some_iff.mp h
    obtain ⟨balanceOf, _, rfl⟩ := map_eq_some_iff.mp h
    exact ⟨hguard.1, rfl, rfl⟩
  · cases h

private theorem transferFrom_self (hsource : s.owner tokenId = source)
    (hroom : (s.balanceOf.amount source).toNat + 1 < 2 ^ 256) :
    ∃ s', s.transferFrom source source source tokenId = some s' ∧
      ∀ a, s'.balanceOf.amount a = s.balanceOf.amount a := by
  obtain ⟨credited, hcredit⟩ := isSome_iff_exists.mp
    (credit_isSome (v := 1).mpr hroom)
  have hafter := credited_of_eq_some hcredit
  have hself : (credited.amount source).toNat = (s.balanceOf.amount source).toNat + 1 := hafter.self
  obtain ⟨balanceOf, hdebit⟩ := isSome_iff_exists.mp
    (debit_isSome.mpr (show 1 ≤ credited.amount source by
      rw [BitVec.le_def, hself]
      exact Nat.le_add_left 1 _))
  have hbefore := credited_of_debit hdebit
  refine ⟨{ s with balanceOf := balanceOf }, ?_, fun a => ?_⟩
  · rw [transferFrom, if_pos ⟨hsource, rfl⟩, hcredit, bind_some, hdebit, map_some]
  · by_cases ha : a = source
    · subst ha
      have hback : (credited.amount a).toNat = (balanceOf.amount a).toNat + 1 := hbefore.self
      exact BitVec.eq_of_toNat_eq (by change (balanceOf.amount a).toNat = _; omega)
    · exact (hbefore.other a ha).symm.trans (hafter.other a ha)

theorem owned_mint {balanceOf : HashMap Address U256} (hnext : s.nextTokenId.toNat + 1 < 2 ^ 256)
    (a : Address) :
    owned ⟨s.ownerOf.insert s.nextTokenId sender, balanceOf, s.nextTokenId + 1⟩ a =
      s.owned a + if sender = a then 1 else 0 := by
  have hid : (s.nextTokenId + 1).toNat = s.nextTokenId.toNat + 1 := by
    exact Nat.mod_eq_of_lt hnext
  unfold owned
  rw [hid, List.range_succ, List.countP_append]
  congr 1
  · apply List.countP_congr
    intro n hn
    have hlt := List.mem_range.mp hn
    have hne : BitVec.ofNat 256 n ≠ s.nextTokenId := by
      intro heq
      rw [← heq, BitVec.toNat_ofNat, Nat.mod_eq_of_lt (by omega)] at hlt
      exact Nat.lt_irrefl _ hlt
    rw [decide_eq_true_iff, decide_eq_true_iff, owner, owner, get_insert_of_ne _ _ hne]
  · simp [owner]

theorem counted_mint (hs : s.Counted) : (step s (.mint sender)).Counted := by
  change ((mint sender s).getD s).Counted
  unfold mint
  split
  · next hnext =>
    have hle : s.owned sender ≤ s.nextTokenId.toNat :=
      List.countP_le_length.trans List.length_range.le
    have hroom : (s.balanceOf.amount sender).toNat + (1 : U256).toNat < 2 ^ 256 := by
      rw [hs sender]
      change s.owned sender + 1 < 2 ^ 256
      omega
    obtain ⟨balanceOf, hcredit⟩ := isSome_iff_exists.mp (credit_isSome.mpr hroom)
    have hcredited := credited_of_eq_some hcredit
    rw [hcredit, map_some, getD_some]
    intro a
    rw [owned_mint hnext]
    by_cases ha : a = sender
    · subst ha
      rw [if_pos rfl, ← hs a]
      exact hcredited.self
    · rw [if_neg (Ne.symm ha), ← hs a]
      exact congrArg BitVec.toNat (hcredited.other a ha)
  · exact hs

theorem books_iff (hs : s.Counted) (call : Call) : s.Books call ↔ s.KeepsItems call := by
  cases call with
  | mint sender => exact ⟨fun _ => trivial, fun _ => ⟨counted_mint hs, trivial⟩⟩
  | transferFrom sender source target tokenId =>
    by_cases hguard : s.owner tokenId = source ∧ sender = source
    · obtain ⟨hsource, rfl⟩ := hguard
      constructor
      · rintro ⟨hcounted, hgives, hgoes⟩ _ _
        obtain ⟨s', h⟩ := isSome_iff_exists.mp (hgoes rfl hsource)
        have htarget : target = sender := by
          rw [← (hgives s' h).1, owner, (transferFrom_eq_some h).2.1]
          exact hsource
        refine ⟨htarget, ?_⟩
        unfold transferFrom at h
        rw [if_pos ⟨hsource, rfl⟩] at h
        obtain ⟨credited, hcredit, _⟩ := bind_eq_some_iff.mp h
        exact credit_isSome.mp (by rw [hcredit]; rfl)
      · intro hkeeps
        obtain ⟨rfl, hroom⟩ := hkeeps rfl hsource
        obtain ⟨s', h, hamount⟩ := transferFrom_self hsource hroom
        obtain ⟨_, howner, hnext⟩ := transferFrom_eq_some h
        refine ⟨?_, ?_, fun _ _ => by rw [h]; rfl⟩
        · rw [step, Call.apply, h]
          intro a
          change (s'.balanceOf.amount a).toNat = s'.owned a
          rw [hamount, hs a]
          unfold owned owner
          rw [howner, hnext]
        · intro s'' h''
          cases h.symm.trans h''
          unfold owner
          rw [howner]
          exact ⟨hsource, fun _ _ => rfl⟩
    · have hnone : s.transferFrom sender source target tokenId = none := if_neg hguard
      constructor
      · intro _ hsender hsource
        exact absurd ⟨hsource, hsender⟩ hguard
      · intro _
        refine ⟨?_, ?_, fun hsender hsource => absurd ⟨hsource, hsender⟩ hguard⟩
        · rw [step, Call.apply, hnone]
          exact hs
        · intro s' h
          rw [hnone] at h
          cases h

/-- The books are right in a run just if no owner transfers an item to somebody else. -/
theorem every_books_iff (calls : List Call) :
    Every step Books deployed calls ↔ Every step KeepsItems deployed calls := by
  have hstep (s : SimpleNFT) (call : Call) (hs : s.Counted) (hkeeps : s.KeepsItems call) :
      (step s call).Counted := ((books_iff hs call).mpr hkeeps).1
  exact every_iff (fun s call hs => books_iff hs call) hstep counted_deployed calls

/-- Two owners of an item each: a transfer of the one to the other leaves both as owners. -/
theorem not_books_transfer : ¬ ∀ calls, Every step Books deployed calls := by
  intro h
  have hgives := (h [.mint 1, .mint 2, .transferFrom 1 1 2 0]).2.2.1.2.1
  have howner : (transferFrom 1 1 2 0 (step (step deployed (.mint 1)) (.mint 2))).map
      (fun s => s.owner 0) = some 1 := by decide
  obtain ⟨s', h', hone⟩ := map_eq_some_iff.mp howner
  exact absurd (hone.symm.trans (hgives s' h').1) (by decide)

end SimpleNFT

end Foundry.Contracts

import Foundry.Base.HashMap
import Foundry.Cheatcodes.Inputs

/-!
# Pranks

A prank lets the calls and creates of a contract come from another address, and from another origin
of the transaction.  Pranks are kept by the depth of the frame that asked for them: the hooks of a
call and of a create apply the prank of the greatest depth that is not deeper, and the hooks of
their ends drop it if it was for one call.
-/

namespace Foundry.Cheatcodes

structure Prank where
  prankCaller : Address
  prankOrigin : Address
  newCaller : Address
  newOrigin : Option Address
  depth : Nat
  singleCall : Bool
  delegateCall : Bool
  used : Bool
deriving DecidableEq

/-- The prank as it is when it was applied, if that is for the first time. -/
def Prank.firstTimeApplied (prank : Prank) : Option Prank :=
  if prank.used then none else some { prank with used := true }

/-- The pranks, and the origin of the transaction. -/
structure Pranks where
  pranks : HashMap Nat Prank
  txCaller : Address
deriving DecidableEq

/-- What the cheatcode finds: whether the account can be loaded, whether it has code, and whether
a transaction is being broadcast. -/
structure PrankEnv where
  loads : Bool
  hasCode : Bool
  broadcast : Bool

namespace Pranks

/-- The prank at a depth, or else at the next lower depth that has one. -/
def getPrank (self : Pranks) : Nat → Option Prank
  | 0 => self.pranks.get 0
  | depth + 1 => (self.pranks.get (depth + 1)).or (self.getPrank depth)

/-! ## Calls and creates -/

/-- Records that the prank was applied, at the depth where it was. -/
def markApplied (self : Pranks) (depth : Nat) (prank : Prank) : Pranks :=
  match prank.firstTimeApplied with
  | some appliedPrank => { self with pranks := self.pranks.insert depth appliedPrank }
  | none => self

def setOrigin (self : Pranks) (prank : Prank) : Pranks :=
  match prank.newOrigin with
  | some newOrigin => { self with txCaller := newOrigin }
  | none => self

/-- The prank for a delegate call: it is made as if by the new caller. -/
def delegatePrank (balance : Address → U256) (self : Pranks) (depth : Nat) (prank : Prank)
    (call : CallInputs) : Pranks × CallInputs :=
  if prank.delegateCall ∧ depth = prank.depth ∧ call.scheme = .delegateCall then
    (self.setOrigin prank, { call with
      targetAddress := prank.newCaller
      caller := prank.newCaller
      value := .apparent (balance prank.newCaller) })
  else (self, call)

/-- The caller after the prank, at its depth, or deeper. -/
def pranked (prank : Prank) (depth : Nat) (caller : Address) : Address :=
  if depth = prank.depth then prank.newCaller else caller

/-- The prank is applied to what its caller does, here or deeper. -/
def callerPrank (self : Pranks) (depth : Nat) (prank : Prank) (caller : Address) :
    Pranks × Address :=
  if prank.depth ≤ depth ∧ caller = prank.prankCaller then
    let applied := self.setOrigin prank
    if depth = prank.depth ∨ prank.newOrigin.isSome then
      (applied.markApplied depth prank, pranked prank depth caller)
    else (applied, caller)
  else (self, caller)

def call (balance : Address → U256) (self : Pranks) (depth : Nat) (call : CallInputs) :
    Pranks × CallInputs :=
  match self.getPrank depth with
  | none => (self, call)
  | some prank =>
    let (self, call) := self.delegatePrank balance depth prank call
    let (self, caller) := self.callerPrank depth prank call.caller
    (self, { call with caller })

def create (self : Pranks) (depth : Nat) (create : CreateInputs) : Pranks × CreateInputs :=
  match self.getPrank depth with
  | none => (self, create)
  | some prank =>
    let (self, caller) := self.callerPrank depth prank create.caller
    (self, { create with caller })

/-! ## Cheatcodes -/

def ensurePrank (env : PrankEnv) (self : Pranks) (depth : Nat) (singleCall delegateCall : Bool) :
    Except String Unit := do
  if !env.loads then throw "failed to load account"
  if delegateCall && !env.hasCode then throw "cannot `prank` delegate call from an EOA"
  match self.getPrank depth with
  | some current =>
    if !current.used then throw "cannot overwrite a prank until it is applied at least once"
    if singleCall != current.singleCall then
      throw <| "cannot override an ongoing prank with a single vm.prank; " ++
        "use vm.startPrank to override the current prank"
  | none => pure ()
  if env.broadcast then
    throw <| "cannot `prank` for a broadcasted transaction; " ++
      "pass the desired `tx.origin` into the `broadcast` cheatcode call"

def prank (env : PrankEnv) (self : Pranks) (depth : Nat) (caller newCaller : Address)
    (newOrigin : Option Address) (singleCall delegateCall : Bool) : Except String Pranks := do
  self.ensurePrank env depth singleCall delegateCall
  let prank : Prank :=
    ⟨caller, self.txCaller, newCaller, newOrigin, depth, singleCall, delegateCall, false⟩
  return { self with pranks := self.pranks.insert depth prank }

def stopPrank (self : Pranks) (depth : Nat) : Pranks :=
  { self with pranks := self.pranks.remove depth }

/-! ## Ends of calls and creates -/

/-- The end of a call drops the prank of its depth, if it is for one call. -/
def callEnd (self : Pranks) (depth : Nat) (cheatcodeCall : Bool) : Pranks :=
  if cheatcodeCall then self
  else
    match self.getPrank depth with
    | none => self
    | some prank =>
      if depth = prank.depth then
        { pranks := if prank.singleCall then self.pranks.remove depth else self.pranks
          txCaller := prank.prankOrigin }
      else self

/-- The end of a create drops all pranks, if the one of its depth is for one call. -/
def createEnd (self : Pranks) (depth : Nat) : Pranks :=
  match self.getPrank depth with
  | none => self
  | some prank =>
    if depth = prank.depth then
      { pranks := if prank.singleCall then .empty else self.pranks
        txCaller := prank.prankOrigin }
    else self

/-! ## The prank that is found -/

section Found

variable {self : Pranks} {depth : Nat} {prank : Prank}

theorem getPrank_of_get (h : self.pranks.get depth = some prank) :
    self.getPrank depth = some prank := by
  cases depth with
  | zero => exact h
  | succ depth => simp [getPrank, h]

theorem exists_of_getPrank (h : self.getPrank depth = some prank) :
    ∃ k ≤ depth, self.pranks.get k = some prank := by
  induction depth with
  | zero => exact ⟨0, le_refl 0, h⟩
  | succ depth ih =>
    rw [getPrank, Option.or_eq_some_iff] at h
    rcases h with h | ⟨_, h⟩
    · exact ⟨depth + 1, le_refl _, h⟩
    · obtain ⟨k, hk, hget⟩ := ih h
      exact ⟨k, by omega, hget⟩

theorem single_or_not (self : Pranks) (depth : Nat) :
    (∃ prank, self.getPrank depth = some prank ∧ prank.depth = depth ∧ prank.singleCall = true) ∨
    ∀ prank, self.getPrank depth = some prank → prank.depth = depth → prank.singleCall = false := by
  by_cases h : ∃ prank, self.getPrank depth = some prank ∧ prank.depth = depth ∧
      prank.singleCall = true
  · exact .inl h
  · right
    intro prank hget hdepth
    by_contra htrue
    exact h ⟨prank, hget, hdepth, by simpa using htrue⟩

end Found

/-! ## What a prank changes -/

section Applied

variable {self : Pranks} {depth : Nat} {prank : Prank}

@[simp] theorem pranks_setOrigin (self : Pranks) (prank : Prank) :
    (self.setOrigin prank).pranks = self.pranks := by
  unfold setOrigin
  split <;> rfl

theorem delegatePrank_of_ne (h : prank.depth ≠ depth) (balance : Address → U256)
    (call : CallInputs) : self.delegatePrank balance depth prank call = (self, call) := by
  simp [delegatePrank, Ne.symm h]

@[simp] theorem pranks_delegatePrank (balance : Address → U256) (call : CallInputs) :
    (self.delegatePrank balance depth prank call).1.pranks = self.pranks := by
  unfold delegatePrank
  split <;> simp

theorem pranks_callerPrank (caller : Address) :
    (self.callerPrank depth prank caller).1.pranks =
      if prank.depth ≤ depth ∧ caller = prank.prankCaller ∧
          (depth = prank.depth ∨ prank.newOrigin.isSome) ∧ prank.used = false then
        self.pranks.insert depth { prank with used := true }
      else self.pranks := by
  by_cases hcaller : prank.depth ≤ depth ∧ caller = prank.prankCaller
  · by_cases happlied : depth = prank.depth ∨ prank.newOrigin.isSome
    · cases hused : prank.used <;>
        simp [callerPrank, markApplied, Prank.firstTimeApplied, hcaller, happlied, hused]
    · simp [callerPrank, hcaller, happlied]
  · have hnot : ¬ (prank.depth ≤ depth ∧ caller = prank.prankCaller ∧
        (depth = prank.depth ∨ prank.newOrigin.isSome) ∧ prank.used = false) :=
      fun h => hcaller ⟨h.1, h.2.1⟩
    simp only [callerPrank, if_neg hcaller, if_neg hnot]

theorem pranks_call (hget : self.getPrank depth = some prank) (balance : Address → U256)
    (inputs : CallInputs) :
    (self.call balance depth inputs).1.pranks = (self.callerPrank depth prank
      (self.delegatePrank balance depth prank inputs).2.caller).1.pranks := by
  simp [call, hget, pranks_callerPrank]

theorem pranks_create (hget : self.getPrank depth = some prank) (inputs : CreateInputs) :
    (self.create depth inputs).1.pranks =
      (self.callerPrank depth prank inputs.caller).1.pranks := by
  simp [create, hget]

end Applied

theorem prank_ok {env : PrankEnv} {self next : Pranks} {depth : Nat} {caller newCaller : Address}
    {newOrigin : Option Address} {singleCall delegateCall : Bool}
    (h : self.prank env depth caller newCaller newOrigin singleCall delegateCall = .ok next) :
    next.pranks = self.pranks.insert depth ⟨caller, self.txCaller, newCaller, newOrigin, depth,
      singleCall, delegateCall, false⟩ := by
  unfold prank at h
  cases hensure : self.ensurePrank env depth singleCall delegateCall with
  | error e =>
    rw [hensure] at h
    cases h
  | ok _ =>
    rw [hensure] at h
    cases h
    rfl

/-! ## What an end drops -/

inductive End where
  | call
  | create
deriving DecidableEq

def endHook (self : Pranks) (depth : Nat) : End → Pranks
  | .call => self.callEnd depth false
  | .create => self.createEnd depth

/-- The prank that was set at a depth is for one call. -/
def singleAt (self : Pranks) (depth : Nat) : Bool :=
  (self.pranks.get depth).any fun prank => prank.depth = depth && prank.singleCall

/-- The table without the prank that was set at the depth, if it is for one call. -/
def withoutSingle (self : Pranks) (depth : Nat) : HashMap Nat Prank :=
  if self.singleAt depth then self.pranks.remove depth else self.pranks

/-- The prank that was set at the depth is dropped if it is for one call, and no other is. -/
def DropsOwn (self : Pranks) (depth : Nat) (hook : End) : Prop :=
  (self.endHook depth hook).pranks = self.withoutSingle depth

/-- A create that ends where a prank for one call was set finds no other prank. -/
def Alone (self : Pranks) (depth : Nat) : End → Prop
  | .call => True
  | .create => ∀ prank, self.getPrank depth = some prank → prank.depth = depth →
      prank.singleCall = true → ∀ k, k ≠ depth → self.pranks.get k = none

section Ends

variable {self : Pranks} {depth : Nat} {prank : Prank}

theorem withoutSingle_of_get (h : self.pranks.get depth = some prank) :
    self.withoutSingle depth =
      if prank.depth = depth ∧ prank.singleCall = true then self.pranks.remove depth
      else self.pranks := by
  simp [withoutSingle, singleAt, h]

theorem withoutSingle_of_none (h : self.pranks.get depth = none) :
    self.withoutSingle depth = self.pranks := by
  simp [withoutSingle, singleAt, h]

theorem pranks_callEnd (self : Pranks) (depth : Nat) :
    (self.callEnd depth false).pranks = self.withoutSingle depth := by
  unfold callEnd
  cases hget : self.pranks.get depth with
  | some prank =>
    rw [getPrank_of_get hget, withoutSingle_of_get hget]
    by_cases hdepth : depth = prank.depth
    · simp [← hdepth]
    · simp [hdepth, Ne.symm hdepth]
  | none =>
    rw [withoutSingle_of_none hget]
    cases self.getPrank depth with
    | none => rfl
    | some prank =>
      by_cases hdepth : depth = prank.depth
      · simp [← hdepth, HashMap.remove_of_get_none hget]
      · simp [hdepth]

theorem pranks_createEnd_of_single (h : self.getPrank depth = some prank)
    (hdepth : prank.depth = depth) (hsingle : prank.singleCall = true) :
    (self.createEnd depth).pranks = .empty := by
  simp [createEnd, h, hdepth, hsingle]

section

variable (h : ∀ prank, self.getPrank depth = some prank → prank.depth = depth →
  prank.singleCall = false)

include h

theorem pranks_createEnd_of_not_single : (self.createEnd depth).pranks = self.pranks := by
  unfold createEnd
  cases hget : self.getPrank depth with
  | none => rfl
  | some prank =>
    by_cases hdepth : depth = prank.depth
    · simp [← hdepth, h prank hget hdepth.symm]
    · simp [hdepth]

theorem withoutSingle_of_not_single : self.withoutSingle depth = self.pranks := by
  cases hget : self.pranks.get depth with
  | none => exact withoutSingle_of_none hget
  | some prank =>
    rw [withoutSingle_of_get hget, if_neg]
    intro ⟨hdepth, hsingle⟩
    simp [h prank (getPrank_of_get hget) hdepth] at hsingle

end

theorem withoutSingle_eq_empty (h : self.getPrank depth = some prank)
    (hdepth : prank.depth = depth) (hsingle : prank.singleCall = true)
    (hothers : ∀ k, k ≠ depth → self.pranks.get k = none) :
    self.withoutSingle depth = .empty := by
  obtain ⟨k, _, hget⟩ := exists_of_getPrank h
  have hk : k = depth := by
    by_contra hne
    simp [hothers k hne] at hget
  subst hk
  rw [withoutSingle_of_get hget, if_pos ⟨hdepth, hsingle⟩]
  apply HashMap.ext
  intro j
  by_cases hj : j = k
  · simp [hj]
  · simp [HashMap.get_remove_of_ne _ hj, hothers j hj]

end Ends

/-- The end of a call drops its own prank only; the end of a create does just if its own is the
only one, or is not dropped. -/
theorem dropsOwn_iff_alone (self : Pranks) (depth : Nat) (hook : End) :
    self.DropsOwn depth hook ↔ self.Alone depth hook := by
  cases hook with
  | call => simp [DropsOwn, Alone, endHook, pranks_callEnd]
  | create =>
    rcases self.single_or_not depth with ⟨prank, hget, hdepth, hsingle⟩ | hnot
    · unfold DropsOwn endHook
      rw [pranks_createEnd_of_single hget hdepth hsingle]
      constructor
      · intro hempty prank' _ _ _ k hk
        have hget' : (self.withoutSingle depth).get k = none := by simp [← hempty]
        unfold withoutSingle at hget'
        split at hget'
        · rw [HashMap.get_remove_of_ne _ hk] at hget'
          exact hget'
        · exact hget'
      · intro hothers
        exact (withoutSingle_eq_empty hget hdepth hsingle (hothers prank hget hdepth hsingle)).symm
    · refine iff_of_true ?_ ?_
      · unfold DropsOwn endHook
        rw [pranks_createEnd_of_not_single hnot, withoutSingle_of_not_single hnot]
      · intro prank hget hdepth htrue
        simp [hnot prank hget hdepth] at htrue

def prankAt (depth : Nat) (singleCall : Bool) : Prank :=
  ⟨1, 9, 2, none, depth, singleCall, false, true⟩

/-- A contract of the test pranks for one call under the prank of the test. -/
def nestedPranks : Pranks :=
  ⟨(HashMap.empty.insert 1 (prankAt 1 false)).insert 2 (prankAt 2 true), 9⟩

/-- A create under the inner prank ends the outer one, and a call does not. -/
theorem create_drops_outer :
    ¬ nestedPranks.DropsOwn 2 .create ∧ (nestedPranks.createEnd 2).pranks = .empty ∧
      (nestedPranks.callEnd 2 false).getPrank 2 = some (prankAt 1 false) := by
  unfold DropsOwn
  decide +kernel

end Pranks

end Foundry.Cheatcodes

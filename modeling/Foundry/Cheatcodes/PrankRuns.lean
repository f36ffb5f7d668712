import Foundry.Base.Runs
import Foundry.Cheatcodes.Prank

/-!
# Executions with pranks

Calls and creates nest, each frame may ask for pranks and stop them, and every call and create goes
through the hooks.  The observer keeps the pranks that were set and not stopped or used up since; a
prank that was stopped must not change a call or create any more.
-/

namespace Foundry.Cheatcodes

open Runs HashMap

inductive Answer where
  /-- By the hook, before pranks are looked at. -/
  | early
  /-- Without a frame. -/
  | immediate
  | frame
deriving DecidableEq

inductive Frame where
  | call (inputs : CallInputs)
  | create
deriving DecidableEq

inductive PrankEvent where
  | call (balance : Address → U256) (inputs : CallInputs) (answer : Answer)
  | create (inputs : CreateInputs) (answer : Answer)
  /-- The frame ends. -/
  | finish
  | prank (env : PrankEnv) (caller newCaller : Address) (newOrigin : Option Address)
      (singleCall delegateCall : Bool)
  | stopPrank

/-- The pranks, the open frames (innermost first), and the pranks that may have an effect. -/
structure Execution where
  pranks : Pranks
  frames : List Frame
  live : HashMap Nat Prank

def Prank.fresh (prank : Prank) : Prank := { prank with used := false }

/-- A prank for one call is over when a call or create at its depth ends. -/
def endSingle (live : HashMap Nat Prank) (depth : Nat) : HashMap Nat Prank :=
  if (live.get depth).any (·.singleCall) then live.remove depth else live

namespace Execution

def new (txCaller : Address) : Execution := ⟨⟨.empty, txCaller⟩, [], .empty⟩

def depth (self : Execution) : Nat := self.frames.length

def callEnd (self : Execution) (inputs : CallInputs) : Execution :=
  { self with
    pranks := self.pranks.callEnd self.depth inputs.cheatcodeCall
    live := if inputs.cheatcodeCall then self.live else endSingle self.live self.depth }

def createEnd (self : Execution) : Execution :=
  { self with
    pranks := self.pranks.createEnd self.depth
    live := endSingle self.live self.depth }

def call (self : Execution) (balance : Address → U256) (inputs : CallInputs) (answer : Answer) :
    Execution :=
  if answer = .early then self.callEnd inputs
  else
    let (pranks, inputs) :=
      if inputs.cheatcodeCall then (self.pranks, inputs)
      else self.pranks.call balance self.depth inputs
    let self := { self with pranks }
    if answer = .frame then { self with frames := .call inputs :: self.frames }
    else self.callEnd inputs

def create (self : Execution) (inputs : CreateInputs) (answer : Answer) : Execution :=
  if answer = .early then self.createEnd
  else
    let self := { self with pranks := (self.pranks.create self.depth inputs).1 }
    if answer = .frame then { self with frames := .create :: self.frames }
    else self.createEnd

def finish (self : Execution) : Execution :=
  match self.frames with
  | [] => self
  | .call inputs :: frames => { self with frames }.callEnd inputs
  | .create :: frames => { self with frames }.createEnd

def step (self : Execution) : PrankEvent → Execution
  | .call balance inputs answer => self.call balance inputs answer
  | .create inputs answer => self.create inputs answer
  | .finish => self.finish
  | .prank env caller newCaller newOrigin singleCall delegateCall =>
    match self.pranks.prank env self.depth caller newCaller newOrigin singleCall delegateCall with
    | .error _ => self
    | .ok pranks =>
      { self with
        pranks
        live := self.live.insert self.depth ⟨caller, self.pranks.txCaller, newCaller,
          newOrigin, self.depth, singleCall, delegateCall, false⟩ }
  | .stopPrank =>
    { self with
      pranks := self.pranks.stopPrank self.depth
      live := self.live.remove self.depth }

/-- The prank changes the caller or the origin of a call or create. -/
def ChangedBy (self : Execution) (prank : Prank) : PrankEvent → Prop
  | .call balance inputs answer =>
    answer ≠ .early ∧ inputs.cheatcodeCall = false ∧
      self.pranks.getPrank self.depth = some prank ∧
      ((self.pranks.call balance self.depth inputs).2.caller ≠ inputs.caller ∨
        (self.pranks.call balance self.depth inputs).1.txCaller ≠ self.pranks.txCaller)
  | .create inputs answer =>
    answer ≠ .early ∧ self.pranks.getPrank self.depth = some prank ∧
      ((self.pranks.create self.depth inputs).2.caller ≠ inputs.caller ∨
        (self.pranks.create self.depth inputs).1.txCaller ≠ self.pranks.txCaller)
  | .finish | .prank .. | .stopPrank => False

/-- Every prank is kept under its depth, and only pranks that were not stopped have an effect. -/
structure Confined (execution : Execution) (event : PrankEvent) : Prop where
  keyed : ∀ depth prank, (execution.step event).pranks.pranks.get depth = some prank →
    prank.depth = depth
  live : ∀ prank, execution.ChangedBy prank event →
    execution.live.get prank.depth = some prank.fresh

/-- A prank with an origin has been applied before its caller makes a call deeper down. -/
def UsedFirst (self : Execution) (caller : Address) : Prop :=
  ∀ prank, self.pranks.getPrank self.depth = some prank → prank.depth < self.depth →
    caller = prank.prankCaller → prank.newOrigin.isSome → prank.used = true

def OwnDepthFirst (self : Execution) : PrankEvent → Prop
  | .call _ inputs answer =>
    answer ≠ .early → inputs.cheatcodeCall = false → self.UsedFirst inputs.caller
  | .create inputs answer => answer ≠ .early → self.UsedFirst inputs.caller
  | .finish | .prank .. | .stopPrank => True

end Execution

/-! ## Tables of live pranks -/

/-- Every prank of the table is live, and kept under its depth. -/
def Tracked (pranks live : HashMap Nat Prank) : Prop :=
  ∀ depth prank, pranks.get depth = some prank →
    prank.depth = depth ∧ live.get depth = some prank.fresh

variable {self : Pranks} {prank : Prank} {answer : Answer} {depth : Nat}

namespace Tracked

variable {pranks live : HashMap Nat Prank} {depth : Nat}

theorem depth_of_getPrank (h : Tracked self.pranks live) (hget : self.getPrank depth = some prank) :
    self.pranks.get prank.depth = some prank ∧ prank.depth ≤ depth := by
  obtain ⟨k, hk, hget⟩ := Pranks.exists_of_getPrank hget
  obtain ⟨rfl, _⟩ := h k prank hget
  exact ⟨hget, hk⟩

private theorem insert_applied (h : Tracked pranks live) (hget : pranks.get depth = some prank) :
    Tracked (pranks.insert depth { prank with used := true }) live := by
  intro depth' prank' hget'
  rw [get_insert] at hget'
  split at hget'
  · next heq =>
    cases hget'
    subst heq
    exact h depth' prank hget
  · exact h depth' prank' hget'

private theorem insert_fresh (h : Tracked pranks live) (hdepth : prank.depth = depth)
    (hused : prank.used = false) :
    Tracked (pranks.insert depth prank) (live.insert depth prank) := by
  intro depth' prank' hget'
  have hfresh : prank.fresh = prank := by
    unfold Prank.fresh
    rw [← hused]
  rw [get_insert] at hget' ⊢
  split at hget'
  · next heq =>
    cases hget'
    rw [if_pos heq, hfresh, hdepth]
    exact ⟨heq.symm, rfl⟩
  · next hne =>
    rw [if_neg hne]
    exact h depth' prank' hget'

theorem remove (h : Tracked pranks live) (depth : Nat) :
    Tracked (pranks.remove depth) (live.remove depth) := by
  intro depth' prank' hget'
  rw [get_remove] at hget' ⊢
  split at hget'
  · cases hget'
  · next hne =>
    rw [if_neg hne]
    exact h depth' prank' hget'

theorem empty (live : HashMap Nat Prank) : Tracked .empty live := by
  intro depth prank hget
  simp at hget

theorem endSingle_of_not_single (h : Tracked self.pranks live)
    (hnot : ∀ prank, self.getPrank depth = some prank → prank.depth = depth →
      prank.singleCall = false) : Tracked self.pranks (endSingle live depth) := by
  intro depth' prank' hget'
  obtain ⟨hdepth, hlive⟩ := h depth' prank' hget'
  refine ⟨hdepth, ?_⟩
  unfold endSingle
  split
  · next hany =>
    rw [get_remove]
    split
    · next heq =>
      subst heq
      have hfalse := hnot prank' (Pranks.getPrank_of_get hget') hdepth
      rw [hlive] at hany
      simp [Prank.fresh, hfalse] at hany
    · exact hlive
  · exact hlive

theorem callEnd (h : Tracked self.pranks live) (depth : Nat) :
    Tracked (self.callEnd depth false).pranks (endSingle live depth) := by
  rw [Pranks.pranks_callEnd]
  rcases self.single_or_not depth with ⟨prank, hget, hdepth, hsingle⟩ | hnot
  · have hget := (h.depth_of_getPrank hget).1
    rw [hdepth] at hget
    have hany : (live.get depth).any (·.singleCall) = true := by
      simp [(h depth prank hget).2, Prank.fresh, hsingle]
    rw [Pranks.withoutSingle_of_get hget, if_pos ⟨hdepth, hsingle⟩, endSingle, if_pos hany]
    exact h.remove depth
  · rw [Pranks.withoutSingle_of_not_single hnot]
    exact h.endSingle_of_not_single hnot

theorem createEnd (h : Tracked self.pranks live) (depth : Nat) :
    Tracked (self.createEnd depth).pranks (endSingle live depth) := by
  rcases self.single_or_not depth with ⟨prank, hget, hdepth, hsingle⟩ | hnot
  · rw [Pranks.pranks_createEnd_of_single hget hdepth hsingle]
    exact empty _
  · rw [Pranks.pranks_createEnd_of_not_single hnot]
    exact h.endSingle_of_not_single hnot

theorem callerPrank (h : Tracked self.pranks live) {caller : Address}
    (hget : self.getPrank depth = some prank)
    (hused : prank.depth < depth → caller = prank.prankCaller → prank.newOrigin.isSome →
      prank.used = true) :
    Tracked (self.callerPrank depth prank caller).1.pranks live := by
  rw [Pranks.pranks_callerPrank]
  split
  · next hfirst =>
    obtain ⟨hle, hcaller, happlied, hunused⟩ := hfirst
    have hdepth : prank.depth = depth := by
      rcases happlied with heq | horigin
      · exact heq.symm
      · by_contra hne
        have htrue := hused (by omega) hcaller horigin
        rw [hunused] at htrue
        cases htrue
    have hget := (h.depth_of_getPrank hget).1
    rw [hdepth] at hget
    exact h.insert_applied hget
  · exact h

end Tracked

theorem callEnd_deeper (hget : self.pranks.get depth = some prank) (hlt : prank.depth < depth)
    (cheatcode : Bool) : (self.callEnd depth cheatcode).pranks.get depth = some prank := by
  have hne : depth ≠ prank.depth := by omega
  cases cheatcode <;> simp [Pranks.callEnd, Pranks.getPrank_of_get hget, hne, hget]

theorem createEnd_deeper (hget : self.pranks.get depth = some prank) (hlt : prank.depth < depth) :
    (self.createEnd depth).pranks.get depth = some prank := by
  have hne : depth ≠ prank.depth := by omega
  simp [Pranks.createEnd, Pranks.getPrank_of_get hget, hne, hget]

namespace Execution

variable {self : Execution}

def Inv (self : Execution) : Prop := Tracked self.pranks.pranks self.live

section

variable (h : self.Inv) {inputs : CreateInputs} {event : PrankEvent}

include h

theorem Inv.callEnd (inputs : CallInputs) : (self.callEnd inputs).Inv := by
  unfold Execution.callEnd
  cases hcheatcode : inputs.cheatcodeCall with
  | true => simpa [Pranks.callEnd] using h
  | false => exact Tracked.callEnd h self.depth

theorem Inv.createEnd : self.createEnd.Inv := Tracked.createEnd h self.depth

theorem Inv.finish : self.finish.Inv := by
  have hframes : ∀ frames, { self with frames }.Inv := fun _ => h
  unfold Execution.finish
  split
  · exact h
  · exact (hframes _).callEnd _
  · exact (hframes _).createEnd

/-- The hook of a call keeps the table tracked if pranks are used at their own depth first. -/
theorem tracked_call (balance : Address → U256) {inputs : CallInputs}
    (hused : self.UsedFirst inputs.caller) :
    Tracked (self.pranks.call balance self.depth inputs).1.pranks self.live := by
  cases hget : self.pranks.getPrank self.depth with
  | none =>
    simp only [Pranks.call, hget]
    exact h
  | some prank =>
    rw [Pranks.pranks_call hget]
    refine Tracked.callerPrank h hget fun hlt hcaller => ?_
    rw [Pranks.delegatePrank_of_ne hlt.ne] at hcaller
    exact hused prank hget hlt hcaller

theorem tracked_create (hused : self.UsedFirst inputs.caller) :
    Tracked (self.pranks.create self.depth inputs).1.pranks self.live := by
  cases hget : self.pranks.getPrank self.depth with
  | none =>
    simp only [Pranks.create, hget]
    exact h
  | some prank =>
    rw [Pranks.pranks_create hget]
    exact Tracked.callerPrank h hget (hused prank hget)

theorem Inv.call {balance : Address → U256} {inputs : CallInputs}
    (hfirst : self.OwnDepthFirst (.call balance inputs answer)) :
    (self.call balance inputs answer).Inv := by
  unfold Execution.call
  split
  · exact h.callEnd inputs
  · next hanswer =>
    cases hcheatcode : inputs.cheatcodeCall with
    | true =>
      simp only
      split
      · exact h
      · exact h.callEnd inputs
    | false =>
      have hinv : { self with
          pranks := (self.pranks.call balance self.depth inputs).1 }.Inv :=
        tracked_call h balance (hfirst hanswer hcheatcode)
      simp only
      split
      · exact hinv
      · exact hinv.callEnd _

theorem Inv.create
    (hfirst : self.OwnDepthFirst (.create inputs answer)) : (self.create inputs answer).Inv := by
  unfold Execution.create
  split
  · exact h.createEnd
  · next hanswer =>
    have hinv : { self with pranks := (self.pranks.create self.depth inputs).1 }.Inv :=
      tracked_create h (hfirst hanswer)
    split
    · exact hinv
    · exact hinv.createEnd

theorem Inv.step (hfirst : self.OwnDepthFirst event) : (self.step event).Inv := by
  cases event with
  | call balance inputs answer => exact h.call hfirst
  | create inputs answer => exact h.create hfirst
  | finish => exact h.finish
  | prank env caller newCaller newOrigin singleCall delegateCall =>
    unfold Execution.step
    dsimp only
    split
    · exact h
    · next pranks hok =>
      unfold Inv
      rw [Pranks.prank_ok hok]
      exact Tracked.insert_fresh h rfl rfl
  | stopPrank => exact Tracked.remove h self.depth

theorem Inv.live (hget : self.pranks.getPrank self.depth = some prank) :
    self.live.get prank.depth = some prank.fresh :=
  (h _ _ (Tracked.depth_of_getPrank h hget).1).2

theorem Inv.confined (hfirst : self.OwnDepthFirst event) : self.Confined event := by
  refine ⟨fun depth prank hget => (h.step hfirst depth prank hget).1, fun prank hchanged => ?_⟩
  cases event with
  | call balance inputs answer => exact h.live hchanged.2.2.1
  | create inputs answer => exact h.live hchanged.2.1
  | finish => cases hchanged
  | prank env caller newCaller newOrigin singleCall delegateCall => cases hchanged
  | stopPrank => cases hchanged

end

/-- A prank with an origin that its caller meets first deeper down is kept there from then on. -/
theorem exists_deeper {caller : Address} (h : ¬ self.UsedFirst caller) :
    ∃ prank, self.pranks.getPrank self.depth = some prank ∧ prank.depth < self.depth ∧
      (self.pranks.callerPrank self.depth prank caller).1.pranks.get self.depth =
        some { prank with used := true } := by
  simp only [UsedFirst, not_forall, Bool.not_eq_true] at h
  obtain ⟨prank, hget, hlt, hcaller, horigin, hunused⟩ := h
  refine ⟨prank, hget, hlt, ?_⟩
  rw [Pranks.pranks_callerPrank, if_pos ⟨hlt.le, hcaller, .inr horigin, hunused⟩]
  exact get_insert_self ..

theorem ownDepthFirst_of_confined {event : PrankEvent} (h : self.Confined event) :
    self.OwnDepthFirst event := by
  cases event with
  | call balance inputs answer =>
    intro hanswer hcheatcode
    by_contra hfirst
    obtain ⟨prank, hget, hlt, hafter⟩ := exists_deeper hfirst
    have hcall := Pranks.pranks_call hget balance inputs
    rw [Pranks.delegatePrank_of_ne hlt.ne] at hcall
    rw [← hcall] at hafter
    refine hlt.ne (h.keyed self.depth { prank with used := true } ?_)
    simp only [step, Execution.call, if_neg hanswer, hcheatcode]
    split
    · exact hafter
    · exact callEnd_deeper hafter hlt _
  | create inputs answer =>
    intro hanswer
    by_contra hfirst
    obtain ⟨prank, hget, hlt, hafter⟩ := exists_deeper hfirst
    rw [← Pranks.pranks_create hget] at hafter
    refine hlt.ne (h.keyed self.depth { prank with used := true } ?_)
    simp only [step, Execution.create, if_neg hanswer]
    split
    · exact hafter
    · exact createEnd_deeper hafter hlt
  | finish => trivial
  | prank env caller newCaller newOrigin singleCall delegateCall => trivial
  | stopPrank => trivial

/-- In every execution pranks are confined to their depth and to the time they are live just if
they are used at their own depth first. -/
theorem every_confined_iff (txCaller : Address) (events : List PrankEvent) :
    Every step Confined (new txCaller) events ↔ Every step OwnDepthFirst (new txCaller) events := by
  have hnew : (new txCaller).Inv := Tracked.empty _
  refine every_iff ?_ ?_ hnew events
  · intro execution event hinv
    exact ⟨ownDepthFirst_of_confined, hinv.confined⟩
  · intro execution event hinv hfirst
    exact hinv.step hfirst

def callFrom (scheme : CallScheme) (caller : Address) : CallInputs :=
  ⟨[], 0, 200, 100, caller, .transfer 0, scheme, false⟩

/-- The test calls its library before anything else, which makes a call; then it stops the prank
and does the same again. -/
def viaLibrary : List PrankEvent :=
  [.call (fun _ => 0) (callFrom .call 50) .frame,
    .prank ⟨true, true, false⟩ 100 7 (some 8) false false,
    .call (fun _ => 0) (callFrom .delegateCall 50) .frame,
    .call (fun _ => 0) (callFrom .call 100) .immediate, .finish, .stopPrank,
    .call (fun _ => 0) (callFrom .delegateCall 50) .frame,
    .call (fun _ => 0) (callFrom .call 100) .frame]

/-- The call after the prank was stopped has the origin of the prank. -/
theorem stopped_prank_sets_origin :
    (run step (new 50) viaLibrary).pranks.txCaller = 8 ∧
      (run step (new 50) viaLibrary).live = .empty ∧
      ¬ Every step Confined (new 50) viaLibrary := by
  refine ⟨by decide +kernel, by decide +kernel, ?_⟩
  intro h
  have hkeyed := h.2.2.2.1.keyed 2 ⟨100, 50, 7, some 8, 1, false, false, true⟩ (by decide +kernel)
  cases hkeyed

end Execution

end Foundry.Cheatcodes

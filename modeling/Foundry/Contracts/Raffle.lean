import Foundry.Base.Reentrancy
import Foundry.Base.Words

/-!
# The raffle

Players enter while the raffle is open, a draw asks the coordinator for a random word, and the
coordinator calls back with it, once for each request.  The callback pays the winner, who may be a
contract that calls the raffle again.
-/

namespace Foundry.Contracts

open Reentrancy List

/-! ## The contract -/

inductive RaffleState where
  | OPEN
  | CALCULATING
deriving DecidableEq

/-- The storage of the raffle and its balance, the time, the requests that the coordinator has not
answered, and the times of the payouts. -/
structure Raffle where
  entranceFee : U256
  interval : Nat
  players : List Address
  lastTimeStamp : Nat
  recentWinner : Option Address
  raffleState : RaffleState
  balance : Nat
  timestamp : Nat
  outstanding : List Nat
  payouts : List Nat

namespace Raffle

def deployed (entranceFee : U256) (interval timestamp : Nat) : Raffle where
  entranceFee := entranceFee
  interval := interval
  players := []
  lastTimeStamp := timestamp
  recentWinner := none
  raffleState := .OPEN
  balance := 0
  timestamp := timestamp
  outstanding := []
  payouts := []

def enterRaffle (sender : Address) (value : U256) (s : Raffle) : Option Raffle :=
  if value < s.entranceFee then none
  else if s.raffleState ≠ .OPEN then none
  else some { s with players := s.players ++ [sender], balance := s.balance + value.toNat }

/-- The guard of `pickWinner`; the subtraction reverts below zero. -/
def intervalPassed (s : Raffle) : Prop :=
  s.lastTimeStamp ≤ s.timestamp ∧ s.interval ≤ s.timestamp - s.lastTimeStamp

instance (s : Raffle) : Decidable s.intervalPassed := inferInstanceAs (Decidable (_ ∧ _))

/-- `pickWinner`, with the request that the coordinator issues, or `none` if it reverts. -/
def pickWinner (request : Option Nat) (s : Raffle) : Option Raffle :=
  if s.intervalPassed then
    request.map fun requestId =>
      { s with raffleState := .CALCULATING, outstanding := s.outstanding ++ [requestId] }
  else none

/-- `fulfillRandomWords` up to its call of the winner, which takes the whole balance along.  The
index is taken modulo the number of players, which reverts without players. -/
def fulfillRandomWords (randomWord : U256) (s : Raffle) : Option Raffle :=
  if s.players.length = 0 then none
  else
    (s.players[randomWord.toNat % s.players.length]?).map fun recentWinner =>
      { s with
        recentWinner := some recentWinner
        raffleState := .OPEN
        players := []
        lastTimeStamp := s.timestamp
        balance := 0
        payouts := s.payouts ++ [s.timestamp] }

/-- What happens without a call to another party. -/
inductive Entry where
  | enterRaffle (sender : Address) (value : U256)
  | pickWinner (request : Option Nat)
  | wait (seconds : Nat)

structure Callback where
  requestId : Nat
  randomWord : U256

def Entry.apply : Entry → Raffle → Option Raffle
  | .enterRaffle sender value, s => Raffle.enterRaffle sender value s
  | .pickWinner request, s => Raffle.pickWinner request s
  | .wait seconds, s => some { s with timestamp := s.timestamp + seconds }

def answer (requestId : Nat) (s : Raffle) : Raffle :=
  { s with outstanding := s.outstanding.erase requestId }

/-- The raffle among its players and the coordinator, which calls back for a request that it has
not answered and counts the request as answered also if the callback reverts. -/
def contract : Contract Raffle Entry Callback where
  act entry s := (entry.apply s).getD s
  enter callback s :=
    if s.outstanding.contains callback.requestId then
      fulfillRandomWords callback.randomWord (s.answer callback.requestId)
    else none
  abort callback s := s.answer callback.requestId

/-! ## Serialised draws -/

/-- At most one request is outstanding, the state says whether there is one, and payouts are an
interval apart. -/
structure Serialised (s : Raffle) : Prop where
  one : s.outstanding.length ≤ 1
  calculating : s.raffleState = .CALCULATING ↔ s.outstanding ≠ []
  apart : s.payouts.Pairwise fun earlier later => earlier + s.interval ≤ later

/-- A draw that passes the guard starts in the open state, with players. -/
def DrawsWhenOpen : Entry → Raffle → Prop
  | .pickWinner _, s => s.intervalPassed → s.raffleState = .OPEN ∧ s.players ≠ []
  | _, _ => True

def WinnerAccepts (_ : Callback) (accepted : Bool) (_ : Raffle) : Prop := accepted = true

/-- What the calls keep: a request is outstanding only after the interval and with players. -/
structure Inv (s : Raffle) : Prop extends Serialised s where
  past : s.lastTimeStamp ≤ s.timestamp
  paid : ∀ time ∈ s.payouts, time ≤ s.lastTimeStamp
  waited : s.outstanding ≠ [] → s.lastTimeStamp + s.interval ≤ s.timestamp
  entered : s.outstanding ≠ [] → s.players ≠ []

theorem inv_deployed (entranceFee : U256) (interval timestamp : Nat) :
    (deployed entranceFee interval timestamp).Inv where
  one := by simp [deployed]
  calculating := by simp [deployed]
  apart := by simp [deployed]
  past := by simp [deployed]
  paid := by simp [deployed]
  waited := by simp [deployed]
  entered := by simp [deployed]

theorem inv_pickWinner {request : Option Nat} {s s' : Raffle} (hs : s.Inv)
    (hdraw : DrawsWhenOpen (.pickWinner request) s) (h : pickWinner request s = some s') :
    s'.Inv := by
  unfold pickWinner at h
  split at h
  · next hpassed =>
    rw [Option.map_eq_some_iff] at h
    obtain ⟨requestId, _, rfl⟩ := h
    obtain ⟨hopen, hplayers⟩ := hdraw hpassed
    obtain ⟨_, hinterval⟩ := hpassed
    have hnone : s.outstanding = [] := by
      by_contra hne
      rw [hs.calculating.mpr hne] at hopen
      cases hopen
    exact { hs with
      one := by simp [hnone]
      calculating := by simp
      waited := fun _ => by
        change s.lastTimeStamp + s.interval ≤ s.timestamp
        omega
      entered := fun _ => hplayers }
  · cases h

section

variable {requestId : Nat} (randomWord : U256) {s : Raffle}

theorem outstanding_ne_nil (h : s.outstanding.contains requestId = true) : s.outstanding ≠ [] := by
  intro hnil
  rw [hnil] at h
  cases h

theorem outstanding_answer (hone : s.outstanding.length ≤ 1)
    (h : s.outstanding.contains requestId = true) : (s.answer requestId).outstanding = [] := by
  have hmem : requestId ∈ s.outstanding := contains_iff_mem.mp h
  have hlength := length_erase_of_mem hmem
  apply eq_nil_of_length_eq_zero
  change (s.outstanding.erase requestId).length = 0
  omega

theorem inv_fulfillRandomWords {randomWord : U256} {s' : Raffle}
    (hs : s.Inv) (hmem : s.outstanding.contains requestId = true)
    (h : fulfillRandomWords randomWord (s.answer requestId) = some s') : s'.Inv := by
  have hnone := outstanding_answer hs.one hmem
  have hwaited := hs.waited (outstanding_ne_nil hmem)
  unfold fulfillRandomWords at h
  split at h
  · cases h
  rw [Option.map_eq_some_iff] at h
  obtain ⟨recentWinner, _, rfl⟩ := h
  constructor
  · constructor
    · simp [hnone]
    · simp [hnone]
    · change (s.payouts ++ [s.timestamp]).Pairwise _
      rw [pairwise_append]
      refine ⟨hs.apart, pairwise_singleton _ _, ?_⟩
      intro earlier hearlier later hlater
      rw [mem_singleton] at hlater
      have hle := hs.paid earlier hearlier
      change earlier + s.interval ≤ later
      omega
  · exact Nat.le_refl _
  · intro time htime
    change time ∈ s.payouts ++ [s.timestamp] at htime
    rw [mem_append, mem_singleton] at htime
    change time ≤ s.timestamp
    cases htime with
    | inl hold =>
      have hle := hs.paid time hold
      omega
    | inr hnew => omega
  · intro hne
    exact absurd hnone hne
  · intro hne
    exact absurd hnone hne

theorem fulfillRandomWords_of_players (h : s.players ≠ []) :
    ∃ winner ∈ s.players, fulfillRandomWords randomWord s = some { s with
      recentWinner := some winner
      raffleState := .OPEN
      players := []
      lastTimeStamp := s.timestamp
      balance := 0
      payouts := s.payouts ++ [s.timestamp] } := by
  have hlength : s.players.length ≠ 0 := by simpa using h
  have hlt : randomWord.toNat % s.players.length < s.players.length :=
    Nat.mod_lt _ (Nat.pos_of_ne_zero hlength)
  refine ⟨s.players[randomWord.toNat % s.players.length], getElem_mem hlt, ?_⟩
  rw [fulfillRandomWords, if_neg hlength, getElem?_eq_getElem hlt, Option.map_some]

private theorem answer_of_not_contains
    (h : s.outstanding.contains requestId = false) : s.answer requestId = s := by
  have hmem : requestId ∉ s.outstanding := by
    intro hmem
    rw [contains_iff_mem.mpr hmem] at h
    cases h
  unfold answer
  rw [erase_of_not_mem hmem]

end

/-- Draws that start in the open state, and are paid, maintain the invariant. -/
theorem keeps_inv : Maintains contract DrawsWhenOpen WinnerAccepts Inv where
  act entry s hs hdraw := by
    change ((entry.apply s).getD s).Inv
    cases h : entry.apply s with
    | none => exact hs
    | some s' =>
      cases entry with
      | enterRaffle sender value =>
        change enterRaffle sender value s = some s' at h
        unfold enterRaffle at h
        split at h
        · cases h
        · split at h
          · cases h
          · cases h
            exact { hs with entered := fun _ => by simp }
      | pickWinner request => exact inv_pickWinner hs hdraw h
      | wait seconds =>
        cases h
        exact { hs with
          past := Nat.le_add_right_of_le hs.past
          waited := fun h => Nat.le_add_right_of_le (hs.waited h) }
  enter callback accepted s s' hs _ h := by
    simp only [contract] at h
    split at h
    · next hmem => exact inv_fulfillRandomWords hs hmem h
    · cases h
  abort callback accepted s hs haccepts hfailed := by
    change (s.answer callback.requestId).Inv
    cases hmem : s.outstanding.contains callback.requestId with
    | false =>
      rw [answer_of_not_contains hmem]
      exact hs
    | true =>
      cases hfailed with
      | inl hnone =>
        simp only [contract, hmem] at hnone
        obtain ⟨winner, -, heq⟩ := fulfillRandomWords_of_players callback.randomWord
          (s := s.answer callback.requestId) (hs.entered (outstanding_ne_nil hmem))
        cases hnone.symm.trans heq
      | inr hfalse =>
        rw [haccepts] at hfalse
        cases hfalse

/-- In every run in which draws start in the open state with players and winners accept their
payouts, draws are serialised in every state reached. -/
theorem serialised_of_draws_when_open (entranceFee : U256) (interval timestamp : Nat)
    (calls : List (Call Entry Callback))
    (hmeets : MeetsAll contract DrawsWhenOpen WinnerAccepts calls
      (deployed entranceFee interval timestamp)) :
    ∀ s ∈ reached contract calls (deployed entranceFee interval timestamp), s.Serialised :=
  fun s hs =>
    (reached_inv keeps_inv (inv_deployed entranceFee interval timestamp) hmeets s hs).toSerialised

/-- A draw after the interval, whose winner enters again while it is paid. -/
def oneDraw : List (Call Entry Callback) :=
  [.plain (.enterRaffle 1 1), .plain (.wait 30), .plain (.pickWinner (some 7)),
    .handover ⟨7, 0⟩ [.plain (.enterRaffle 1 1)] true]

theorem serialised_oneDraw :
    (execAll contract oneDraw (deployed 1 30 0)).payouts = [30] ∧
      (execAll contract oneDraw (deployed 1 30 0)).Serialised := by
  have hmeets : MeetsAll contract DrawsWhenOpen WinnerAccepts oneDraw (deployed 1 30 0) :=
    ⟨trivial, trivial, fun _ => by decide, ⟨rfl, fun _ _ => ⟨trivial, trivial⟩⟩, trivial⟩
  exact ⟨by decide, serialised_of_draws_when_open 1 30 0 oneDraw hmeets _
    (execAll_mem_reached contract oneDraw _)⟩

/-- Two draws before the first callback leave two requests, and pay twice at the same time. -/
def twoDraws : List (Call Entry Callback) :=
  [.plain (.enterRaffle 1 1), .plain (.wait 30), .plain (.pickWinner (some 7)),
    .plain (.pickWinner (some 8)), .handover ⟨7, 0⟩ [] true, .plain (.enterRaffle 2 1),
    .handover ⟨8, 0⟩ [] true]

theorem not_serialised_twoDraws :
    ¬ ∀ calls, ∀ s ∈ reached contract calls (deployed 1 30 0), s.Serialised := by
  intro h
  have hlast := h twoDraws (execAll contract twoDraws (deployed 1 30 0))
    (execAll_mem_reached contract twoDraws _)
  have hapart := hlast.apart
  exact absurd hapart (by decide)

/-! ## Draws that come to an end -/

/-- The raffle with a record of who entered since the last payout. -/
def tracked : Contract (Raffle × List Address) Entry Callback where
  act entry s :=
    (contract.act entry s.1,
      match entry with
      | .enterRaffle sender value =>
        if (Raffle.enterRaffle sender value s.1).isSome then s.2 ++ [sender] else s.2
      | _ => s.2)
  enter callback s := (contract.enter callback s.1).map fun next => (next, [])
  abort callback s := (contract.abort callback s.1, s.2)

/-- A callback for any outstanding request pays the whole balance to somebody who entered since the
last payout, and opens the raffle for new players. -/
def Unstuck (s : Raffle × List Address) : Prop :=
  ∀ requestId, s.1.outstanding.contains requestId = true → ∀ randomWord, ∃ next winner,
    contract.enter ⟨requestId, randomWord⟩ s.1 = some next ∧ next.recentWinner = some winner ∧
      winner ∈ s.2 ∧ next.balance = 0 ∧ next.players = [] ∧ next.raffleState = .OPEN ∧
      ∀ sender value, ¬ value < next.entranceFee → (enterRaffle sender value next).isSome

/-- A draw that passes the guard starts with no request outstanding, and with players. -/
def DrawsAlone : Entry → Raffle × List Address → Prop
  | .pickWinner _, s => s.1.intervalPassed → s.1.outstanding = [] ∧ s.1.players ≠ []
  | _, _ => True

/-- There are players while a request is outstanding. -/
structure Drawn (s : Raffle × List Address) : Prop where
  entered : s.1.players = s.2
  one : s.1.outstanding.length ≤ 1
  players : s.1.outstanding ≠ [] → s.1.players ≠ []

theorem drawn_act {entry : Entry} {s : Raffle × List Address} (hs : Drawn s)
    (hdraw : DrawsAlone entry s) : Drawn (tracked.act entry s) := by
  obtain ⟨s, entered⟩ := s
  cases entry with
  | enterRaffle sender value =>
    unfold tracked contract Entry.apply enterRaffle
    dsimp only
    split
    · exact hs
    · split
      · exact hs
      · exact ⟨congrArg (· ++ [sender]) hs.entered, hs.one, fun _ => by simp⟩
  | pickWinner request =>
    unfold tracked contract Entry.apply pickWinner
    dsimp only
    split
    · next hpassed =>
      obtain ⟨hnone, hplayers⟩ := hdraw hpassed
      cases request with
      | none => exact hs
      | some requestId =>
        refine ⟨hs.entered, ?_, fun _ => hplayers⟩
        rw [show s.outstanding = [] from hnone]
        exact Nat.le_refl 1
    · exact hs
  | wait seconds => exact ⟨hs.entered, hs.one, hs.players⟩

theorem unstuck_of_drawn {s : Raffle × List Address} (hs : Drawn s) : Unstuck s := by
  intro requestId hmem randomWord
  have hplayers : (s.1.answer requestId).players ≠ [] := hs.players (outstanding_ne_nil hmem)
  obtain ⟨winner, hwinner, heq⟩ := fulfillRandomWords_of_players randomWord hplayers
  have henter : contract.enter ⟨requestId, randomWord⟩ s.1 = _ := (if_pos hmem).trans heq
  refine ⟨_, winner, henter, rfl, hs.entered ▸ hwinner, rfl, rfl, rfl, fun sender value hfee => ?_⟩
  rw [enterRaffle, if_neg hfee]
  rfl

theorem keeps_drawn : Maintains tracked DrawsAlone (fun _ _ _ => True) Drawn where
  act entry s hs hdraw := drawn_act hs hdraw
  enter callback accepted s s' hs _ h := by
    obtain ⟨next, henter, rfl⟩ := Option.map_eq_some_iff.mp h
    simp only [contract] at henter
    split at henter
    · next hmem =>
      obtain ⟨winner, -, heq⟩ := fulfillRandomWords_of_players callback.randomWord
        (s := s.1.answer callback.requestId) (hs.players (outstanding_ne_nil hmem))
      rw [heq] at henter
      cases henter
      have hnone := outstanding_answer hs.one hmem
      exact ⟨rfl, by rw [hnone]; exact Nat.zero_le 1, fun hne => absurd hnone hne⟩
    · cases henter
  abort callback accepted s hs _ _ := by
    refine ⟨hs.entered, erase_sublist.length_le.trans hs.one, fun hne => ?_⟩
    apply hs.players
    intro hnil
    apply hne
    change s.1.outstanding.erase callback.requestId = []
    rw [hnil]
    rfl

/-- In every run in which draws start with players and with no request outstanding, no state
reached is stuck. -/
theorem unstuck_of_draws_alone (entranceFee : U256) (interval timestamp : Nat)
    (calls : List (Call Entry Callback))
    (hmeets : MeetsAll tracked DrawsAlone (fun _ _ _ => True) calls
      (deployed entranceFee interval timestamp, [])) :
    ∀ s ∈ reached tracked calls (deployed entranceFee interval timestamp, []), Unstuck s :=
  fun s hs =>
    have hstart : Drawn (deployed entranceFee interval timestamp, []) :=
      ⟨rfl, Nat.zero_le 1, fun hne => absurd rfl hne⟩
    unstuck_of_drawn (reached_inv keeps_drawn hstart hmeets s hs)

/-- A draw with one player, before the callback. -/
theorem unstuck_before_callback :
    (execAll tracked (oneDraw.take 3) (deployed 1 30 0, [])).1.outstanding = [7] ∧
      Unstuck (execAll tracked (oneDraw.take 3) (deployed 1 30 0, [])) := by
  have hmeets : MeetsAll tracked DrawsAlone (fun _ _ _ => True) (oneDraw.take 3)
      (deployed 1 30 0, []) := ⟨trivial, trivial, fun _ => by decide, trivial⟩
  exact ⟨by decide, unstuck_of_draws_alone 1 30 0 _ hmeets _ (execAll_mem_reached tracked _ _)⟩

/-- A draw without players, whose callback reverts. -/
theorem not_unstuck_without_players :
    ¬ ∀ calls, ∀ s ∈ reached tracked calls (deployed 1 30 0, []), Unstuck s := by
  intro h
  obtain ⟨next, _, henter, _⟩ := h [.plain (.wait 30), .plain (.pickWinner (some 7))] _
    (execAll_mem_reached tracked _ _) 7 (by decide) 0
  cases henter

end Raffle

end Foundry.Contracts

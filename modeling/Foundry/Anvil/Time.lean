import Foundry.Base.Words
import Mathlib.Algebra.Order.Ring.Int

/-!
# Block time

The manager of block timestamps follows the wall clock with an offset, unless an interval or
an exact timestamp is set.  The offset and the interval can lead beyond the last `u64`; up to
there the timestamps are those that unbounded integers would give, and never go back.
-/

namespace Foundry.Anvil

def saturatingAddI128 (x y : Int) : Int := max (-2 ^ 127) (min (x + y) (2 ^ 127 - 1))

structure TimeManager where
  /-- An `i128`. -/
  offset : Int
  lastTimestamp : U64
  nextExactTimestamp : Option U64
  interval : Option U64

namespace TimeManager

section

variable (self : TimeManager)

/-- The wall clock shows `current` seconds since the epoch. -/
def reset (current startTimestamp : U64) : TimeManager :=
  { self with
    lastTimestamp := startTimestamp
    offset := (startTimestamp.toNat : Int) - current.toNat
    nextExactTimestamp := none }

def new (current startTimestamp : U64) : TimeManager :=
  reset ⟨0, 0, none, none⟩ current startTimestamp

/-- Adds the given offset to the already tracked offset and returns the result. -/
def addOffset (offset : Int) : TimeManager × Int :=
  let next := saturatingAddI128 self.offset offset
  ({ self with offset := next }, next)

def increaseTime (seconds : U64) : TimeManager × Int := self.addOffset seconds.toNat

/-- Fails if the timestamp is before the last one. -/
def setNextBlockTimestamp (timestamp : U64) : Except String TimeManager :=
  if timestamp < self.lastTimestamp then
    .error (toString timestamp.toNat ++ " is lower than previous block's timestamp")
  else .ok { self with nextExactTimestamp := some timestamp }

def setBlockTimestampInterval (interval : U64) : TimeManager :=
  { self with interval := some interval }

def removeBlockTimestampInterval : TimeManager × Bool :=
  ({ self with interval := none }, self.interval.isSome)

def computeNextTimestamp (current : U64) : U64 × Option Int :=
  let (nextTimestamp, updateOffset) :=
    match self.nextExactTimestamp, self.interval with
    | some next, _ => (next, true)
    | none, some interval => (saturatingAdd self.lastTimestamp interval, false)
    | none, none => (BitVec.ofInt 64 (saturatingAddI128 current.toNat self.offset), false)
  let nextTimestamp :=
    if nextTimestamp < self.lastTimestamp then self.lastTimestamp + 1 else nextTimestamp
  (nextTimestamp,
    if updateOffset then some ((nextTimestamp.toNat : Int) - current.toNat) else none)

end

def nextTimestamp (self : TimeManager) (current : U64) : TimeManager × U64 :=
  let (nextTimestamp, nextOffset) := self.computeNextTimestamp current
  ({ self with
      nextExactTimestamp := none
      offset := nextOffset.getD self.offset
      lastTimestamp := nextTimestamp }, nextTimestamp)

/-- The timestamp for a call, which updates nothing. -/
def currentCallTimestamp (self : TimeManager) (current : U64) : U64 :=
  (self.computeNextTimestamp current).1

/-- What `computeNextTimestamp` computes if its casts and additions are unbounded. -/
def unboundedTimestamp (self : TimeManager) (current : U64) : Int :=
  let nextTimestamp : Int :=
    match self.nextExactTimestamp, self.interval with
    | some next, _ => next.toNat
    | none, some interval => (saturatingAdd self.lastTimestamp interval).toNat
    | none, none => saturatingAddI128 current.toNat self.offset
  if nextTimestamp < self.lastTimestamp.toNat then self.lastTimestamp.toNat + 1
  else nextTimestamp

section Compute

variable {self : TimeManager}

theorem nextTimestamp_cases (self : TimeManager) :
    (∃ t, self.nextExactTimestamp = some t) ∨
      (∃ i, self.nextExactTimestamp = none ∧ self.interval = some i) ∨
      self.nextExactTimestamp = none ∧ self.interval = none := by
  cases self.nextExactTimestamp with
  | some t => exact .inl ⟨t, rfl⟩
  | none =>
    cases self.interval with
    | some i => exact .inr (.inl ⟨i, rfl, rfl⟩)
    | none => exact .inr (.inr ⟨rfl, rfl⟩)

theorem compute_exact {t : U64} (h : self.nextExactTimestamp = some t)
    (hle : self.lastTimestamp ≤ t) (current : U64) :
    self.computeNextTimestamp current = (t, some ((t.toNat : Int) - current.toNat)) := by
  unfold computeNextTimestamp
  rw [h]
  dsimp only
  rw [if_neg (BitVec.not_lt.mpr hle), if_pos rfl]

theorem compute_interval {i : U64} (hexact : self.nextExactTimestamp = none)
    (h : self.interval = some i) (current : U64) :
    self.computeNextTimestamp current = (saturatingAdd self.lastTimestamp i, none) := by
  unfold computeNextTimestamp
  rw [hexact, h]
  dsimp only
  rw [if_neg (BitVec.not_lt.mpr (le_saturatingAdd _ _)), if_neg Bool.false_ne_true]

theorem compute_clock (hexact : self.nextExactTimestamp = none) (h : self.interval = none)
    (current : U64) :
    self.computeNextTimestamp current =
      (if BitVec.ofInt 64 (saturatingAddI128 current.toNat self.offset) < self.lastTimestamp
        then self.lastTimestamp + 1
        else BitVec.ofInt 64 (saturatingAddI128 current.toNat self.offset), none) := by
  unfold computeNextTimestamp
  rw [hexact, h]
  rfl

section

variable (hexact : self.nextExactTimestamp = none)

include hexact

theorem unbounded_clock (h : self.interval = none) (current : U64) :
    self.unboundedTimestamp current =
      if saturatingAddI128 current.toNat self.offset < self.lastTimestamp.toNat
        then (self.lastTimestamp.toNat : Int) + 1
        else saturatingAddI128 current.toNat self.offset := by
  unfold unboundedTimestamp
  rw [hexact, h]

/-- Where the clock with the offset fits, and there is room above the last timestamp if that is
later, nothing wraps. -/
theorem compute_clock_unbounded (h : self.interval = none) {current : U64}
    (hnonneg : 0 ≤ (current.toNat : Int) + self.offset)
    (hle : (current.toNat : Int) + self.offset ≤ 2 ^ 64 - 1)
    (hroom : self.lastTimestamp.toNat = 2 ^ 64 - 1 →
      2 ^ 64 - 1 ≤ (current.toNat : Int) + self.offset) :
    (self.computeNextTimestamp current).1.toNat = self.unboundedTimestamp current := by
  have hsum : saturatingAddI128 current.toNat self.offset =
      (current.toNat : Int) + self.offset := by
    unfold saturatingAddI128
    omega
  have hcast : ((BitVec.ofInt 64 ((current.toNat : Int) + self.offset)).toNat : Int) =
      (current.toNat : Int) + self.offset := by
    rw [BitVec.toNat_ofInt]
    omega
  rw [compute_clock hexact h, unbounded_clock hexact h, hsum]
  by_cases hlow : (current.toNat : Int) + self.offset < self.lastTimestamp.toNat
  · have hlow' : BitVec.ofInt 64 ((current.toNat : Int) + self.offset) < self.lastTimestamp := by
      rw [BitVec.lt_def]
      omega
    have hone : (1 : U64).toNat = 1 := rfl
    rw [if_pos hlow', BitVec.toNat_add]
    omega
  · have hlow' : ¬ BitVec.ofInt 64 ((current.toNat : Int) + self.offset) < self.lastTimestamp := by
      rw [BitVec.lt_def]
      omega
    rw [if_neg hlow', if_neg hlow, hcast]

end

end Compute

end TimeManager

/-! ## Runs -/

inductive TimeCall where
  | increaseTime (seconds : U64)
  | setNextBlockTimestamp (timestamp : U64)
  | setBlockTimestampInterval (interval : U64)
  | removeBlockTimestampInterval
  | nextTimestamp

/-- The manager with what its callers saw: the timestamp that was returned last, and the one
that was set since. -/
structure Observed where
  manager : TimeManager
  returned : Option U64
  requested : Option U64

namespace Observed

def new (current startTimestamp : U64) : Observed := ⟨.new current startTimestamp, none, none⟩

def call (self : Observed) (current : U64) : TimeCall → Observed
  | .increaseTime seconds => { self with manager := (self.manager.increaseTime seconds).1 }
  | .setNextBlockTimestamp timestamp =>
    match self.manager.setNextBlockTimestamp timestamp with
    | .ok manager => { self with manager := manager, requested := some timestamp }
    | .error _ => self
  | .setBlockTimestampInterval interval =>
    { self with manager := self.manager.setBlockTimestampInterval interval }
  | .removeBlockTimestampInterval =>
    { self with manager := self.manager.removeBlockTimestampInterval.1 }
  | .nextTimestamp =>
    let (manager, timestamp) := self.manager.nextTimestamp current
    ⟨manager, some timestamp, none⟩

/-- `P` holds at every call of `next_timestamp` and the time of the wall clock then. -/
def EveryNext (P : Observed → U64 → Prop) : Observed → List (U64 × TimeCall) → Prop
  | _, [] => True
  | self, (current, c) :: calls =>
    (match c with
      | .nextTimestamp => P self current
      | _ => True) ∧ EveryNext P (self.call current c) calls

instance decidableEveryNext (P : Observed → U64 → Prop)
    [∀ observed current, Decidable (P observed current)] :
    (self : Observed) → (calls : List (U64 × TimeCall)) → Decidable (EveryNext P self calls)
  | _, [] => isTrue trivial
  | self, (current, c) :: calls =>
    have := decidableEveryNext P (self.call current c) calls
    match c with
    | .nextTimestamp => inferInstanceAs (Decidable (P self current ∧ _))
    | .increaseTime _ => inferInstanceAs (Decidable (True ∧ _))
    | .setNextBlockTimestamp _ => inferInstanceAs (Decidable (True ∧ _))
    | .setBlockTimestampInterval _ => inferInstanceAs (Decidable (True ∧ _))
    | .removeBlockTimestampInterval => inferInstanceAs (Decidable (True ∧ _))

/-- The next timestamp is not before the last one, is not changed by a cast or an addition that
wraps, and is the one that was set. -/
structure Faithful (observed : Observed) (current : U64) : Prop where
  forward : ∀ last ∈ observed.returned, last ≤ (observed.manager.nextTimestamp current).2
  unbounded : ((observed.manager.nextTimestamp current).2.toNat : Int) =
    observed.manager.unboundedTimestamp current
  requested : ∀ timestamp ∈ observed.requested,
    (observed.manager.nextTimestamp current).2 = timestamp

/-- Where the timestamp follows the wall clock, it is a `u64`, and the last timestamp can be
exceeded if it has to be. -/
def InRange (self : Observed) (current : U64) : Prop :=
  self.manager.nextExactTimestamp = none → self.manager.interval = none →
    (current.toNat : Int) + self.manager.offset ≤ 2 ^ 64 - 1 ∧
      (self.manager.lastTimestamp = BitVec.allOnes 64 →
        2 ^ 64 - 1 ≤ (current.toNat : Int) + self.manager.offset)

instance (self : Observed) (current : U64) : Decidable (self.InRange current) :=
  inferInstanceAs (Decidable (_ → _ → _ ∧ (_ → _)))

/-- What holds after each call, at a time `clock` of the wall clock. -/
structure Settled (observed : Observed) (clock : U64) : Prop where
  returned : ∀ last ∈ observed.returned, last ≤ observed.manager.lastTimestamp
  requested : observed.requested = observed.manager.nextExactTimestamp
  exact : ∀ timestamp ∈ observed.manager.nextExactTimestamp,
    observed.manager.lastTimestamp ≤ timestamp
  offset : -(clock.toNat : Int) ≤ observed.manager.offset

section Calls

variable {self : Observed} {clock current : U64}

theorem settled_new (current startTimestamp : U64) :
    (new current startTimestamp).Settled current := by
  refine ⟨nofun, rfl, nofun, ?_⟩
  change -(current.toNat : Int) ≤ (startTimestamp.toNat : Int) - current.toNat
  omega

section

variable (h : self.Settled clock)

include h

/-- Every call leaves the manager settled at its time. -/
theorem Settled.call (hclock : clock ≤ current) (c : TimeCall) :
    (self.call current c).Settled current := by
  have hoffset : -(current.toNat : Int) ≤ self.manager.offset := by
    have hle := h.offset
    rw [BitVec.le_def] at hclock
    omega
  cases c with
  | increaseTime seconds =>
    refine ⟨h.returned, h.requested, h.exact, ?_⟩
    change _ ≤ saturatingAddI128 self.manager.offset seconds.toNat
    unfold saturatingAddI128
    omega
  | setNextBlockTimestamp timestamp =>
    dsimp only [Observed.call]
    unfold TimeManager.setNextBlockTimestamp
    by_cases hlow : timestamp < self.manager.lastTimestamp
    · rw [if_pos hlow]
      exact ⟨h.returned, h.requested, h.exact, hoffset⟩
    · rw [if_neg hlow]
      refine ⟨h.returned, rfl, ?_, hoffset⟩
      rintro t ⟨⟩
      exact BitVec.not_lt.mp hlow
  | setBlockTimestampInterval interval => exact ⟨h.returned, h.requested, h.exact, hoffset⟩
  | removeBlockTimestampInterval => exact ⟨h.returned, h.requested, h.exact, hoffset⟩
  | nextTimestamp =>
    refine ⟨?_, rfl, nofun, ?_⟩
    · rintro t ⟨⟩
      exact BitVec.le_refl _
    change _ ≤ (self.manager.computeNextTimestamp current).2.getD self.manager.offset
    rcases self.manager.nextTimestamp_cases with ⟨t, ht⟩ | ⟨i, ht, hi⟩ | ⟨ht, hi⟩
    · rw [TimeManager.compute_exact ht (h.exact t ht) current]
      change _ ≤ (t.toNat : Int) - current.toNat
      omega
    · rw [TimeManager.compute_interval ht hi current]
      exact hoffset
    · rw [TimeManager.compute_clock ht hi current]
      exact hoffset

theorem Settled.faithful
    (hforward : self.manager.lastTimestamp ≤ (self.manager.computeNextTimestamp current).1)
    (hunbounded : ((self.manager.computeNextTimestamp current).1.toNat : Int) =
      self.manager.unboundedTimestamp current)
    (hexact : ∀ t ∈ self.manager.nextExactTimestamp,
      (self.manager.computeNextTimestamp current).1 = t) : self.Faithful current := by
  refine ⟨fun last hlast => ?_, hunbounded, ?_⟩
  · exact BitVec.le_trans (h.returned last hlast) hforward
  · rw [h.requested]
    exact hexact

theorem Settled.faithful_of_target {t : U64} (hle : self.manager.lastTimestamp ≤ t)
    (hnext : (self.manager.computeNextTimestamp current).1 = t)
    (htarget : self.manager.unboundedTimestamp current =
      if (t.toNat : Int) < self.manager.lastTimestamp.toNat
        then (self.manager.lastTimestamp.toNat : Int) + 1 else t.toNat)
    (hexact : ∀ t' ∈ self.manager.nextExactTimestamp, t = t') : self.Faithful current := by
  refine h.faithful ?_ ?_ ?_
  · rw [hnext]
    exact hle
  · rw [BitVec.le_def] at hle
    rw [hnext, htarget, if_neg (by omega)]
  · intro t' ht'
    rw [hnext]
    exact hexact t' ht'

theorem Settled.faithful_clock_iff (hclock : clock ≤ current)
    (hexact : self.manager.nextExactTimestamp = none) (hinterval : self.manager.interval = none) :
    self.Faithful current ↔
      (current.toNat : Int) + self.manager.offset ≤ 2 ^ 64 - 1 ∧
      (self.manager.lastTimestamp = BitVec.allOnes 64 →
        2 ^ 64 - 1 ≤ (current.toNat : Int) + self.manager.offset) := by
  have hmax : self.manager.lastTimestamp = BitVec.allOnes 64 ↔
      self.manager.lastTimestamp.toNat = 2 ^ 64 - 1 := by
    rw [← BitVec.toNat_inj, BitVec.toNat_allOnes]
  have hunbounded := TimeManager.unbounded_clock hexact hinterval current
  have hnonneg : 0 ≤ (current.toNat : Int) + self.manager.offset := by
    have hoffset := h.offset
    rw [BitVec.le_def] at hclock
    omega
  rw [hmax]
  constructor
  · intro hfaithful
    have heq := hfaithful.unbounded
    rw [hunbounded] at heq
    unfold saturatingAddI128 at heq
    split at heq <;> omega
  · intro ⟨hle, hroom⟩
    have hnext := TimeManager.compute_clock_unbounded hexact hinterval hnonneg hle hroom
    refine h.faithful ?_ hnext ?_
    · rw [BitVec.le_def]
      rw [hunbounded] at hnext
      split at hnext <;> omega
    · rw [hexact]
      nofun

theorem Settled.faithful_iff (hclock : clock ≤ current) :
    self.Faithful current ↔ self.InRange current := by
  rcases self.manager.nextTimestamp_cases with ⟨t, ht⟩ | ⟨i, ht, hi⟩ | ⟨ht, hi⟩
  · have hle := h.exact t ht
    refine iff_of_true ?_ fun hnone => ?_
    · refine h.faithful_of_target hle ?_ ?_ ?_
      · rw [TimeManager.compute_exact ht hle]
      · rw [TimeManager.unboundedTimestamp, ht]
      · exact fun t' ht' => Option.some.inj (ht.symm.trans ht')
    · rw [ht] at hnone
      cases hnone
  · refine iff_of_true ?_ fun _ hnone => ?_
    · refine h.faithful_of_target (le_saturatingAdd _ i) ?_ ?_ ?_
      · rw [TimeManager.compute_interval ht hi]
      · rw [TimeManager.unboundedTimestamp, ht, hi]
      · rw [ht]
        nofun
    · rw [hi] at hnone
      cases hnone
  · rw [h.faithful_clock_iff hclock ht hi]
    exact ⟨fun hrange _ _ => hrange, fun hrange => hrange ht hi⟩

theorem Settled.everyNext_iff {calls : List (U64 × TimeCall)}
    (hclock : (clock :: calls.map (·.1)).Pairwise (· ≤ ·)) :
    EveryNext Faithful self calls ↔ EveryNext InRange self calls := by
  induction calls generalizing self clock with
  | nil => exact Iff.rfl
  | cons next calls ih =>
    obtain ⟨current, c⟩ := next
    have hle : clock ≤ current := (List.pairwise_cons.mp hclock).1 current List.mem_cons_self
    have hrest := ih (h.call hle c) (List.pairwise_cons.mp hclock).2
    refine and_congr ?_ hrest
    cases c with
    | nextTimestamp => exact h.faithful_iff hle
    | _ => exact Iff.rfl

end

end Calls

/-- While the wall clock does not go back, every timestamp is faithful just when every call of
`next_timestamp` finds itself in range. -/
theorem everyNext_faithful_iff (current startTimestamp : U64) {calls : List (U64 × TimeCall)}
    (hclock : (current :: calls.map (·.1)).Pairwise (· ≤ ·)) :
    EveryNext Faithful (new current startTimestamp) calls ↔
      EveryNext InRange (new current startTimestamp) calls :=
  (settled_new current startTimestamp).everyNext_iff hclock

theorem everyNext_faithful_ahead :
    EveryNext Faithful (new 5 100)
      [(5, .increaseTime 60), (6, .nextTimestamp), (6, .setNextBlockTimestamp 200),
        (7, .nextTimestamp), (9, .setBlockTimestampInterval 12), (9, .nextTimestamp)] := by
  refine (everyNext_faithful_iff 5 100 (by decide)).mpr ?_
  decide +kernel

def timestamps : Observed → List (U64 × TimeCall) → List U64
  | _, [] => []
  | self, (current, c) :: calls =>
    match c with
    | .nextTimestamp =>
      (self.manager.nextTimestamp current).2 :: timestamps (self.call current c) calls
    | _ => timestamps (self.call current c) calls

/-- One second after the last possible timestamp, and again when an interval has led there and
is removed, time starts over. -/
theorem timestamps_start_over :
    timestamps (new 0 0) [(0, .setNextBlockTimestamp (BitVec.allOnes 64)), (0, .nextTimestamp),
          (1, .nextTimestamp)] = [BitVec.allOnes 64, 0] ∧
      timestamps (new 7 5)
        [(7, .setBlockTimestampInterval (BitVec.allOnes 64)), (7, .nextTimestamp),
          (7, .removeBlockTimestampInterval), (7, .nextTimestamp)] = [BitVec.allOnes 64, 0] ∧
      ¬ EveryNext Faithful (new 0 0)
        [(0, .setNextBlockTimestamp (BitVec.allOnes 64)), (0, .nextTimestamp),
          (1, .nextTimestamp)] := by
  refine ⟨by decide +kernel, by decide +kernel, ?_⟩
  intro h
  have hforward := h.2.2.1.forward (BitVec.allOnes 64) (by decide +kernel)
  revert hforward
  decide +kernel

end Observed

end Foundry.Anvil

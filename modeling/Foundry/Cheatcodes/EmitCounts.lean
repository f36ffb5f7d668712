import Foundry.Base.Segments
import Foundry.Cheatcodes.ExpectEmit

/-!
# Counts of expected logs

What an expectation asks for, and how the counts in the queue stand to the logs it has seen: the
map counts by address, and an expectation without an emitter is found by the count of one address.
-/

namespace Foundry.Cheatcodes

open Segments List HashMap Option

structure Expectation where
  checks : Checks
  address : Option Address
  anonymous : Bool
  count : Nat
  template : Log
  fills : anonymous = true ∨ template.data.topics ≠ []
  count_pos : 0 < count

namespace Expectation

section

variable (e : Expectation) (seen : List Log)

/-- The log has the topics and the data that are checked. -/
def passes (log : Log) : Bool := checksTopicsAndData e.checks e.template.data log.data

def isMatch (log : Log) : Bool := e.passes log && e.address.all (log.address = ·)

/-- The segment ends with the log that meets the expectation for the last time. -/
def Meets (segment : List Log) : Prop := EndsAt e.isMatch e.count segment

/-- Where any emitter will do, all logs of the segment that match have the same one. -/
def OneEmitter (segment : List Log) : Prop :=
  e.address = none → ∀ log ∈ segment, ∀ log' ∈ segment, e.isMatch log = true →
    e.isMatch log' = true → log.address = log'.address

/-- The expectation in the queue, when it is filled. -/
def emit (depth : Nat) (mismatchError : Option EmitMismatch) : ExpectedEmit where
  depth := depth
  log := some e.template.data
  checks := e.checks
  address := e.address
  anonymous := e.anonymous
  found := false
  count := e.count
  mismatchError := mismatchError

def passing (seen : List Log) : List Log := seen.filter e.passes

def tally (seen : List Log) (address : Address) : Nat :=
  (e.passing seen).countP (·.address = address)

theorem passing_concat (log : Log) :
    e.passing (seen ++ [log]) = e.passing seen ++ if e.passes log then [log] else [] := by
  unfold passing
  rw [filter_append, filter_singleton]
  cases e.passes log <;> rfl

theorem tally_concat (log : Log) (address : Address) :
    e.tally (seen ++ [log]) address =
      e.tally seen address + if e.passes log ∧ log.address = address then 1 else 0 := by
  unfold tally
  rw [passing_concat]
  by_cases hpasses : e.passes log = true
  · by_cases haddress : log.address = address
    · simp [hpasses]
    · simp [hpasses]
  · simp [hpasses]

end

theorem passes_of_isMatch {e : Expectation} {log : Log} (h : e.isMatch log = true) :
    e.passes log = true :=
  ((Bool.and_eq_true _ _).mp h).1

theorem countP_isMatch_some {e : Expectation} {emitter : Address} (h : e.address = some emitter)
    (seen : List Log) : seen.countP e.isMatch = e.tally seen emitter := by
  unfold tally passing
  rw [countP_filter]
  refine countP_congr fun log _ => ?_
  unfold isMatch
  rw [h, all_some, Bool.and_comm]

theorem countP_isMatch_none {e : Expectation} (h : e.address = none) (seen : List Log) :
    seen.countP e.isMatch = (e.passing seen).length := by
  unfold passing
  rw [← countP_eq_length_filter]
  refine countP_congr fun log _ => ?_
  unfold isMatch
  rw [h, all_none, Bool.and_true]

end Expectation

/-! ## The counts of the queue -/

namespace LogCountMap

def AllPass (logs : LogCountMap) : Prop := ∀ log ∈ logs.map.keys, logs.satisfiesChecks log = true

theorem checks_insert (logs : LogCountMap) (log : RawLog) :
    (logs.insert log).checks = logs.checks ∧ (logs.insert log).expectedLog = logs.expectedLog := by
  unfold insert
  split
  · exact ⟨rfl, rfl⟩
  · split <;> exact ⟨rfl, rfl⟩

private theorem insert_of_pass {logs : LogCountMap} {log : RawLog} (h : logs.AllPass)
    (hpass : logs.satisfiesChecks log = true) :
    (logs.insert log).AllPass ∧ (logs.insert log).countUnchecked = logs.countUnchecked + 1 := by
  have hkeys : ∀ count, (logs.map.insert log count).keys = Insert.insert log logs.map.keys :=
    keys_insert logs.map log
  have hall : ∀ count, (LogCountMap.mk logs.checks logs.expectedLog
      (logs.map.insert log count)).AllPass := by
    intro count log' hmem
    rcases Finset.mem_insert.mp (hkeys count ▸ hmem) with rfl | hmem
    · exact hpass
    · exact h log' hmem
  unfold insert HashMap.contains HashMap.update
  cases hget : logs.map.get log with
  | some count =>
    refine ⟨hall (count + 1), ?_⟩
    have hweight := weight_insert_of_get (w := count + 1) id hget
    change (logs.map.insert log (count + 1)).weight id = logs.map.weight id + 1
    simp only [id_eq] at hweight
    omega
  | none =>
    rw [hpass]
    exact ⟨hall 1, weight_insert_of_none id hget⟩

private theorem insert_of_not_pass {logs : LogCountMap} {log : RawLog} (h : logs.AllPass)
    (hpass : ¬ logs.satisfiesChecks log = true) : logs.insert log = logs := by
  unfold insert
  rw [if_neg, if_pos (by simpa using hpass)]
  intro hcontains
  obtain ⟨count, hget⟩ := isSome_iff_exists.mp hcontains
  exact hpass (h log (mem_keys_of_get hget))

end LogCountMap

structure Counted (e : Expectation) (seen : List Log) (countMap : HashMap Address LogCountMap) :
    Prop where
  absent : ∀ address, countMap.get address = none → e.tally seen address = 0
  present : ∀ address logs, countMap.get address = some logs →
    logs.checks = e.checks ∧ logs.expectedLog = e.template.data ∧ logs.AllPass ∧
      logs.countUnchecked = e.tally seen address ∧ 0 < e.tally seen address
  total : countMap.weight LogCountMap.countUnchecked = (e.passing seen).length

section Counts

variable {e : Expectation} {seen : List Log} {countMap : HashMap Address LogCountMap}
  {address : Address} {logs : LogCountMap} {log : Log}

theorem counted_empty (e : Expectation) : Counted e [] .empty := ⟨fun _ _ => rfl, nofun, rfl⟩

section

variable (h : Counted e seen countMap)

include h

theorem Counted.satisfiesChecks (hget : countMap.get address = some logs) (log : Log) :
    logs.satisfiesChecks log.data = e.passes log := by
  obtain ⟨hchecks, hexpected, _⟩ := h.present address logs hget
  unfold LogCountMap.satisfiesChecks Expectation.passes
  rw [hchecks, hexpected]

theorem Counted.count (hget : countMap.get address = some logs)
    (hpasses : e.passes log = true) : logs.count log.data = e.tally seen address := by
  unfold LogCountMap.count
  rw [h.satisfiesChecks hget, hpasses]
  exact (h.present address logs hget).2.2.2.1

theorem Counted.skip (hpasses : ¬ e.passes log = true) : Counted e (seen ++ [log]) countMap := by
  have htally : ∀ address, e.tally (seen ++ [log]) address = e.tally seen address := by
    intro address
    rw [Expectation.tally_concat, if_neg fun hboth => hpasses hboth.1, Nat.add_zero]
  refine ⟨?_, ?_, ?_⟩
  · intro address hget
    rw [htally]
    exact h.absent address hget
  · intro address logs hget
    rw [htally]
    exact h.present address logs hget
  · rw [Expectation.passing_concat, if_neg hpasses, append_nil]
    exact h.total

theorem Counted.add (hpasses : e.passes log = true)
    (hchecks : logs.checks = e.checks ∧ logs.expectedLog = e.template.data) (hall : logs.AllPass)
    (hcount : logs.countUnchecked = e.tally seen log.address + 1)
    (hweight : (countMap.insert log.address logs).weight LogCountMap.countUnchecked =
      countMap.weight LogCountMap.countUnchecked + 1) :
    Counted e (seen ++ [log]) (countMap.insert log.address logs) := by
  have hself : e.tally (seen ++ [log]) log.address = e.tally seen log.address + 1 := by
    rw [Expectation.tally_concat, if_pos ⟨hpasses, rfl⟩]
  have hother : ∀ address, address ≠ log.address →
      e.tally (seen ++ [log]) address = e.tally seen address := by
    intro address hne
    rw [Expectation.tally_concat, if_neg fun hboth => hne hboth.2.symm, Nat.add_zero]
  refine ⟨?_, ?_, ?_⟩
  · intro address hget
    rw [get_insert] at hget
    split at hget
    · cases hget
    · next hne => rw [hother address hne, h.absent address hget]
  · intro address logs' hget
    rw [get_insert] at hget
    split at hget
    · next heq =>
      cases hget
      rw [heq, hself]
      exact ⟨hchecks.1, hchecks.2, hall, hcount, Nat.succ_pos _⟩
    · next hne =>
      rw [hother address hne]
      exact h.present address logs' hget
  · rw [hweight, h.total, Expectation.passing_concat, if_pos hpasses, length_append]
    rfl

/-- The counts stay those of the logs seen when one more is counted. -/
theorem Counted.countLog (log : Log) :
    Counted e (seen ++ [log]) (countLog e.checks e.template.data countMap log) := by
  unfold Cheatcodes.countLog
  cases hget : countMap.get log.address with
  | some logs =>
    dsimp only
    obtain ⟨hchecks, hexpected, hall, hcount, _⟩ := h.present log.address logs hget
    by_cases hpasses : e.passes log = true
    · have hpass := (h.satisfiesChecks hget log).trans hpasses
      obtain ⟨hall', hcount'⟩ := LogCountMap.insert_of_pass hall hpass
      obtain ⟨hchecks', hexpected'⟩ := logs.checks_insert log.data
      have hweight := weight_insert_of_get (w := logs.insert log.data)
        LogCountMap.countUnchecked hget
      refine h.add hpasses ⟨hchecks'.trans hchecks, hexpected'.trans hexpected⟩ hall' ?_ ?_
      · rw [hcount', hcount]
      · omega
    · have hpass : ¬ logs.satisfiesChecks log.data = true := by
        rw [h.satisfiesChecks hget]
        exact hpasses
      rw [LogCountMap.insert_of_not_pass hall hpass, insert_of_get hget]
      exact h.skip hpasses
  | none =>
    dsimp only
    have hnew : (LogCountMap.new e.checks e.template.data).satisfiesChecks log.data =
        e.passes log := rfl
    rw [hnew]
    by_cases hpasses : e.passes log = true
    · rw [if_pos hpasses]
      have hempty : (LogCountMap.new e.checks e.template.data).AllPass := by
        intro log' hmem
        exact absurd hmem (Finset.notMem_empty log')
      obtain ⟨hall, hcount⟩ := LogCountMap.insert_of_pass hempty (hnew.trans hpasses)
      refine h.add hpasses (LogCountMap.checks_insert _ _) hall ?_ ?_
      · rw [hcount, h.absent _ hget]
        rfl
      · rw [weight_insert_of_none _ hget, hcount]
        rfl
    · rw [if_neg hpasses]
      exact h.skip hpasses

theorem Counted.emittedCount {emit : ExpectedEmit}
    (hlog : emit.log = some e.template.data) (haddress : emit.address = e.address) :
    emittedCount emit countMap = seen.countP e.isMatch := by
  have hself : e.passes e.template = true := checksTopicsAndData_self _ _
  unfold Cheatcodes.emittedCount
  rw [hlog, haddress]
  cases hemitter : e.address with
  | some emitter =>
    rw [Expectation.countP_isMatch_some hemitter]
    dsimp only
    cases hget : countMap.get emitter with
    | none => exact (h.absent emitter hget).symm
    | some logs => exact h.count hget hself
  | none =>
    rw [Expectation.countP_isMatch_none hemitter, ← h.total]
    refine weight_congr fun address logs hget => ?_
    rw [h.count hget hself]
    exact (h.present address logs hget).2.2.2.1.symm

end

end Counts

/-! ## When an expectation is found -/

section Found

variable {e : Expectation} {seen : List Log} {countMap : HashMap Address LogCountMap} {log : Log}
  {order : Enumeration Address} {depth : Nat} {mismatchError : Option EmitMismatch}

/-- The segment meets the expectation with the logs of one emitter. -/
def Expectation.MeetsOne (e : Expectation) (segment : List Log) : Prop :=
  e.Meets segment ∧ e.OneEmitter segment

theorem checkLog_eq (order : Enumeration Address) (emit : ExpectedEmit) (expected : RawLog)
    (countMap : HashMap Address LogCountMap) (log : Log) :
    ∃ error, checkLog order emit expected countMap log =
      { emit with
        found := (checkLog order emit expected countMap log).found
        mismatchError := error } := by
  unfold checkLog
  split
  · exact ⟨_, rfl⟩
  · split
    · split <;> exact ⟨_, rfl⟩
    · exact ⟨_, rfl⟩

theorem found_checkLog (order : Enumeration Address) (emit : ExpectedEmit) (expected : RawLog)
    (countMap : HashMap Address LogCountMap) (log : Log) :
    (checkLog order emit expected countMap log).found =
      ((checksTopicsAndData emit.checks expected log.data && emit.address.all (log.address = ·)) &&
        match emit.address with
        | some emitter => (countMap.get emitter).any fun logs => emit.count ≤ logs.count log.data
        | none =>
          (((order.visit countMap.keys).filterMap countMap.get).find?
            (·.satisfiesChecks log.data)).any fun logs => emit.count ≤ logs.count log.data) := by
  unfold checkLog
  cases checksTopicsAndData emit.checks expected log.data with
  | false => rfl
  | true =>
    cases emit.address with
    | none => rfl
    | some emitter =>
      by_cases heq : log.address = emitter
      · simp [heq]
      · simp [heq, Ne.symm heq]

/-- An expectation is found when a log matches, and one address has reached the count. -/
theorem Counted.of_found (h : Counted e (seen ++ [log]) countMap)
    (hfound : (checkLog order (e.emit depth mismatchError) e.template.data countMap log).found =
      true) :
    e.isMatch log = true ∧ ∃ address, e.count ≤ e.tally (seen ++ [log]) address ∧
      ∀ emitter ∈ e.address, address = emitter := by
  rw [found_checkLog, Bool.and_eq_true] at hfound
  obtain ⟨hmatch, hany⟩ := hfound
  dsimp only [Expectation.emit] at hany
  have hpasses := Expectation.passes_of_isMatch hmatch
  refine ⟨hmatch, ?_⟩
  cases hemitter : e.address with
  | some emitter =>
    rw [hemitter] at hany
    obtain ⟨logs, hget, hcount⟩ := any_eq_true _ _ |>.mp hany
    refine ⟨emitter, ?_, fun _ heq => Option.some.inj heq⟩
    rw [← h.count hget hpasses]
    exact of_decide_eq_true hcount
  | none =>
    rw [hemitter] at hany
    obtain ⟨logs, hfind, hcount⟩ := any_eq_true _ _ |>.mp hany
    obtain ⟨address, _, hget⟩ := mem_filterMap.mp (mem_of_find?_eq_some hfind)
    refine ⟨address, ?_, nofun⟩
    rw [← h.count hget hpasses]
    exact of_decide_eq_true hcount

/-- Where any emitter will do, a segment of one emitter is counted for its address. -/
theorem Expectation.OneEmitter.tally_eq {segment : List Log} {address : Address}
    (h : e.OneEmitter segment) (hemitter : e.address = none)
    (hpos : 0 < e.tally segment address) :
    e.tally segment address = (e.passing segment).length := by
  have hmatch : ∀ log ∈ e.passing segment, log ∈ segment ∧ e.isMatch log = true := by
    intro log hmem
    obtain ⟨hmem, hpasses⟩ := mem_filter.mp hmem
    refine ⟨hmem, ?_⟩
    unfold Expectation.isMatch
    rw [hpasses, hemitter]
    rfl
  obtain ⟨log, hlog, haddress⟩ := countP_pos_iff.mp hpos
  refine countP_eq_length.mpr fun log' hlog' => decide_eq_true ?_
  rw [← of_decide_eq_true haddress]
  exact h hemitter log' (hmatch log' hlog').1 log (hmatch log hlog).1 (hmatch log' hlog').2
    (hmatch log hlog).2

section

variable (h : Counted e (seen ++ [log]) countMap)

include h

theorem Counted.exists_get
    (hpasses : e.passes log = true) : ∃ logs, countMap.get log.address = some logs := by
  have hself : 0 < e.tally (seen ++ [log]) log.address := by
    rw [Expectation.tally_concat, if_pos ⟨hpasses, rfl⟩]
    exact Nat.succ_pos _
  cases hget : countMap.get log.address with
  | some logs => exact ⟨logs, rfl⟩
  | none =>
    have hzero := h.absent log.address hget
    omega

theorem Counted.exists_find (order : Enumeration Address) (hpasses : e.passes log = true) :
    ∃ first, ((order.visit countMap.keys).filterMap countMap.get).find?
      (·.satisfiesChecks log.data) = some first := by
  obtain ⟨logs, hlogs⟩ := h.exists_get hpasses
  refine isSome_iff_exists.mp (find?_isSome.mpr
    ⟨logs, mem_filterMap.mpr ⟨log.address, ?_, hlogs⟩, ?_⟩)
  · exact order.mem_visit.mpr (mem_keys_of_get hlogs)
  · exact (h.satisfiesChecks hlogs log).trans hpasses

theorem Counted.found_of_meetsOne (hmeets : e.MeetsOne (seen ++ [log])) :
    (checkLog order (e.emit depth mismatchError) e.template.data countMap log).found = true := by
  obtain ⟨⟨_, last, hlast, hmatch, hcount⟩, hone⟩ := hmeets
  obtain ⟨_, hlast⟩ := append_inj' hlast rfl
  cases hlast
  have hpasses := Expectation.passes_of_isMatch hmatch
  rw [found_checkLog]
  refine (Bool.and_eq_true _ _).mpr ⟨hmatch, ?_⟩
  dsimp only [Expectation.emit]
  cases hemitter : e.address with
  | some emitter =>
    rw [Expectation.countP_isMatch_some hemitter] at hcount
    dsimp only
    cases hget : countMap.get emitter with
    | none =>
      have hzero := h.absent emitter hget
      have hpos := e.count_pos
      omega
    | some logs =>
      rw [any_some, h.count hget hpasses, hcount]
      exact decide_eq_true (le_refl _)
  | none =>
    rw [Expectation.countP_isMatch_none hemitter] at hcount
    obtain ⟨first, hfirst⟩ := h.exists_find order hpasses
    obtain ⟨address, _, hget⟩ := mem_filterMap.mp (mem_of_find?_eq_some hfirst)
    refine (any_eq_true _ _).mpr ⟨first, hfirst, decide_eq_true ?_⟩
    have hpos := (h.present address first hget).2.2.2.2
    rw [h.count hget hpasses, hone.tally_eq hemitter hpos, hcount]

section

variable
  (hfound : (checkLog order (e.emit depth mismatchError) e.template.data countMap log).found = true)

include hfound

/-- What is found with the right count at the end is a segment of one emitter. -/
theorem Counted.meetsOne_of_found
    (hcount : (seen ++ [log]).countP e.isMatch = e.count) : e.MeetsOne (seen ++ [log]) := by
  obtain ⟨hmatch, address, hle, _⟩ := h.of_found hfound
  refine ⟨⟨seen, log, rfl, hmatch, hcount⟩, ?_⟩
  intro hemitter first hfirst second hsecond hmatch₁ hmatch₂
  rw [Expectation.countP_isMatch_none hemitter] at hcount
  have hall : e.tally (seen ++ [log]) address = (e.passing (seen ++ [log])).length :=
    le_antisymm countP_le_length (hcount.trans_le hle)
  have haddress : ∀ log' ∈ seen ++ [log], e.isMatch log' = true → log'.address = address := by
    intro log' hmem hmatch'
    have hmem' := mem_filter.mpr ⟨hmem, Expectation.passes_of_isMatch hmatch'⟩
    exact of_decide_eq_true (countP_eq_length.mp hall log' hmem')
  rw [haddress first hfirst hmatch₁, haddress second hsecond hmatch₂]

theorem Counted.not_meets_of_found
    {more : List Log} (hmore : more ≠ []) : ¬ e.Meets (seen ++ [log] ++ more) := by
  intro hmeets
  have hlt := hmeets.countP_lt hmore
  obtain ⟨_, address, hle, hemitters⟩ := h.of_found hfound
  cases hemitter : e.address with
  | some emitter =>
    rw [Expectation.countP_isMatch_some hemitter, ← hemitters emitter hemitter] at hlt
    omega
  | none =>
    rw [Expectation.countP_isMatch_none hemitter] at hlt
    have hall : e.tally (seen ++ [log]) address ≤ (e.passing (seen ++ [log])).length :=
      countP_le_length
    omega

end

end

end Found

end Foundry.Cheatcodes

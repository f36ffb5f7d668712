import Foundry.Base.Enumeration
import Foundry.Base.HashMap
import Foundry.Base.Words

/-!
# Expected logs

The `expectEmit` cheatcodes put expectations into a queue.  The next log fills an expectation;
the logs after that are compared with the one at the front of the queue, which goes to the back
when it was met often enough.  The end of the call checks the queue.
-/

namespace Foundry.Cheatcodes

structure RawLog where
  topics : List B256
  data : Bytes
  length_le : topics.length ≤ 4
deriving DecidableEq

structure Log where
  address : Address
  data : RawLog
deriving DecidableEq

/-- Which of the four topics to check, and whether the data. -/
abbrev Checks := Vector Bool 5

def checksTopicsAndData (checks : Checks) (expected log : RawLog) : Bool :=
  if log.topics.length ≠ expected.topics.length then false
  else if ¬ (log.topics.zipIdx.filter fun (_, i) => checks[i]?.getD false).all fun (topic, i) =>
      expected.topics[i]? = some topic then false
  else if checks[4] ∧ expected.data ≠ log.data then false
  else true

theorem checksTopicsAndData_self (checks : Checks) (log : RawLog) :
    checksTopicsAndData checks log log = true := by
  unfold checksTopicsAndData
  rw [if_neg (not_not.mpr rfl), if_neg, if_neg fun h => h.2 rfl]
  rw [not_not, List.all_eq_true]
  rintro ⟨topic, i⟩ hmem
  have hget := List.mk_mem_zipIdx_iff_getElem?.mp (List.mem_of_mem_filter hmem)
  exact decide_eq_true hget

/-! ## Counts of logs -/

structure LogCountMap where
  checks : Checks
  expectedLog : RawLog
  map : HashMap RawLog Nat

namespace LogCountMap

def new (checks : Checks) (expectedLog : RawLog) : LogCountMap := ⟨checks, expectedLog, .empty⟩

def satisfiesChecks (logs : LogCountMap) (log : RawLog) : Bool :=
  checksTopicsAndData logs.checks logs.expectedLog log

def insert (logs : LogCountMap) (log : RawLog) : LogCountMap :=
  if logs.map.contains log then { logs with map := logs.map.update log (· + 1) }
  else if !logs.satisfiesChecks log then logs
  else { logs with map := logs.map.insert log 1 }

def countUnchecked (logs : LogCountMap) : Nat := logs.map.weight id

def count (logs : LogCountMap) (log : RawLog) : Nat :=
  if !logs.satisfiesChecks log then 0 else logs.countUnchecked

end LogCountMap

/-! ## The queue -/

/-- What an error message about a log is made from. -/
inductive EmitMismatch where
  | log (expected actual : RawLog)
  | emitter (expected actual : Address)
deriving DecidableEq

structure ExpectedEmit where
  depth : Nat
  log : Option RawLog
  checks : Checks
  address : Option Address
  anonymous : Bool
  found : Bool
  count : Nat
  mismatchError : Option EmitMismatch

abbrev ExpectedEmitTracker := List (ExpectedEmit × HashMap Address LogCountMap)

/-- New expectations go before those that were found. -/
def expectEmit (expectedEmits : ExpectedEmitTracker) (depth : Nat) (checks : Checks)
    (address : Option Address) (anonymous : Bool) (count : Nat) : ExpectedEmitTracker :=
  let expectedEmit : ExpectedEmit :=
    { depth, log := none, checks, address, anonymous, found := false, count, mismatchError := none }
  match expectedEmits.findIdx? (·.1.found) with
  | some foundEmitPos => expectedEmits.insertIdx foundEmitPos (expectedEmit, .empty)
  | none => expectedEmits ++ [(expectedEmit, .empty)]

/-- Counts a log for its address, if it passes the checks. -/
def countLog (checks : Checks) (expected : RawLog) (countMap : HashMap Address LogCountMap)
    (log : Log) : HashMap Address LogCountMap :=
  match countMap.get log.address with
  | some logCountMap => countMap.insert log.address (logCountMap.insert log.data)
  | none =>
    let logCountMap := LogCountMap.new checks expected
    if logCountMap.satisfiesChecks log.data then
      countMap.insert log.address (logCountMap.insert log.data)
    else countMap

/-- Whether the log is what was expected, and was counted often enough.  Without an emitter the
count is that of one address, the first in the order of the map. -/
def checkLog (order : Enumeration Address) (emit : ExpectedEmit) (expected : RawLog)
    (countMap : HashMap Address LogCountMap) (log : Log) : ExpectedEmit :=
  if !checksTopicsAndData emit.checks expected log.data then
    { emit with found := false, mismatchError := some (.log expected log.data) }
  else
    match emit.address with
    | some emitter =>
      if emitter ≠ log.address then
        { emit with found := false, mismatchError := some (.emitter emitter log.address) }
      else
        { emit with found := (countMap.get emitter).any fun logMap =>
            emit.count ≤ logMap.count log.data }
    | none =>
      let values := (order.visit countMap.keys).filterMap countMap.get
      { emit with found := (values.find? (·.satisfiesChecks log.data)).any fun logMap =>
          emit.count ≤ logMap.count log.data }

/-- Fills or checks an expectation.  The text is the reason of a revert; `none` is a panic. -/
def handleExpectEmit (order : Enumeration Address) (expectedEmits : ExpectedEmitTracker)
    (log : Log) : Option (ExpectedEmitTracker × Option String) :=
  if expectedEmits.all (·.1.found) then some (expectedEmits, none)
  else
    let shouldFillLogs := expectedEmits.any (·.1.log.isNone)
    let index :=
      if shouldFillLogs then
        (expectedEmits.findIdx? (·.1.found)).getD expectedEmits.length - 1
      else 0
    match expectedEmits[index]? with
    | none => none
    | some (emit, countMap) =>
      let rest := expectedEmits.eraseIdx index
      match emit.log with
      | none =>
        if emit.anonymous || !log.data.topics.isEmpty then
          some (rest.insertIdx index ({ emit with log := some log.data }, countMap), none)
        else some (rest, some "use vm.expectEmitAnonymous to match anonymous events")
      | some expected =>
        let countMap := countLog emit.checks expected countMap log
        let emit := checkLog order emit expected countMap log
        if emit.found then some (rest ++ [(emit, countMap)], none)
        else some ((emit, countMap) :: rest, none)

def onLog (order : Enumeration Address) (expectedEmits : ExpectedEmitTracker) (log : Log) :
    Option (ExpectedEmitTracker × Option String) :=
  if expectedEmits.isEmpty then some (expectedEmits, none)
  else handleExpectEmit order expectedEmits log

/-! ## The end of a call -/

def emittedCount (expected : ExpectedEmit) (countMap : HashMap Address LogCountMap) : Nat :=
  match expected.address with
  | some emitter =>
    match countMap.get emitter with
    | some logCount => expected.log.elim logCount.countUnchecked logCount.count
    | none => 0
  | none =>
    match expected.log with
    | some log => countMap.weight (·.count log)
    | none => countMap.weight (·.countUnchecked)

/-- What the end of a call says about the logs; the last three revert. -/
inductive EmitVerdict where
  | unchecked
  | matched
  | mismatch (error : Option EmitMismatch)
  | wrongCount (count expected : Nat)
  | callReverted
deriving DecidableEq

def EmitVerdict.accepted : EmitVerdict → Bool
  | unchecked | matched => true
  | mismatch _ | wrongCount _ _ | callReverted => false

def callEnd (currDepth : Nat) (isStatic isOk : Bool) (expectedEmits : ExpectedEmitTracker) :
    EmitVerdict × ExpectedEmitTracker :=
  let shouldCheckEmits := expectedEmits.any (fun (expected, _) => expected.depth = currDepth) &&
    !isStatic
  if shouldCheckEmits then
    let expectedCounts := expectedEmits.filter fun (expected, countMap) =>
      emittedCount expected countMap ≠ expected.count
    match expectedEmits.find? fun (expected, _) => !expected.found && 0 < expected.count with
    | some (expected, _) => (.mismatch expected.mismatchError, expectedEmits)
    | none =>
      match expectedCounts with
      | (expected, countMap) :: _ =>
        if isOk then
          (.wrongCount (emittedCount expected countMap) expected.count, expectedEmits)
        else (.callReverted, expectedEmits)
      | [] => (.matched, [])
  else (.unchecked, expectedEmits)

end Foundry.Cheatcodes

import Foundry.Cheatcodes.EmitCounts

/-!
# Expected logs by segments

What a call must emit to be accepted: its logs are cut into segments, one for each expectation,
and each segment ends with the log that meets its expectation as often as it says.
-/

namespace Foundry.Cheatcodes

open Segments List

/-! ## The queue during a call -/

def waiting (depth : Nat) (expectations : List Expectation) : ExpectedEmitTracker :=
  expectations.map fun e => (e.emit depth none, .empty)

/-- A cheatcode, and the log that fills the expectation. -/
def declare (order : Enumeration Address) (depth : Nat) (expectedEmits : ExpectedEmitTracker)
    (e : Expectation) : Option ExpectedEmitTracker :=
  (onLog order (expectEmit expectedEmits depth e.checks e.address e.anonymous e.count)
    e.template).map Prod.fst

/-- The logs of a call; the hash maps may have another order at each of them. -/
def emitAll (orders : Nat → Enumeration Address) (expectedEmits : ExpectedEmitTracker) :
    List Log → Option ExpectedEmitTracker
  | [] => some expectedEmits
  | log :: logs =>
    (onLog (orders 0) expectedEmits log).bind fun (expectedEmits, _) =>
      emitAll (fun k => orders (k + 1)) expectedEmits logs

def Accepts (orders : Nat → Enumeration Address) (depth : Nat) (isOk : Bool)
    (expectations : List Expectation) (logs : List Log) : Prop :=
  ∃ before after, expectations.foldlM (declare (orders 0) depth) [] = some before ∧
    emitAll orders before logs = some after ∧ (callEnd depth false isOk after).1.accepted = true

/-- The expectation is filled, and from the depth of the call. -/
def Filled (depth : Nat) (entry : ExpectedEmit × HashMap Address LogCountMap) : Prop :=
  entry.1.log.isSome ∧ entry.1.depth = depth

section Queue

variable {order : Enumeration Address} {depth : Nat} {isOk : Bool}
  {expectedEmits : ExpectedEmitTracker} {emit : ExpectedEmit}
  {countMap : HashMap Address LogCountMap}

theorem onLog_fill {log : Log}
    (hfound : ∀ entry ∈ expectedEmits ++ [(emit, countMap)], entry.1.found = false)
    (hlog : emit.log = none) (hfills : emit.anonymous = true ∨ log.data.topics ≠ []) :
    onLog order (expectedEmits ++ [(emit, countMap)]) log =
      some (expectedEmits ++ [({ emit with log := some log.data }, countMap)], none) := by
  have hlast : (emit, countMap) ∈ expectedEmits ++ [(emit, countMap)] :=
    mem_append_right _ (mem_singleton_self _)
  have hall : ¬ (expectedEmits ++ [(emit, countMap)]).all (·.1.found) = true := by
    rw [all_eq_true]
    intro hall
    exact Bool.false_ne_true ((hfound _ hlast).symm.trans (hall _ hlast))
  have hany : (expectedEmits ++ [(emit, countMap)]).any (·.1.log.isNone) = true := by
    refine any_eq_true.mpr ⟨_, hlast, ?_⟩
    rw [hlog]
    rfl
  have hpos : (expectedEmits ++ [(emit, countMap)]).findIdx? (·.1.found) = none :=
    findIdx?_eq_none_iff.mpr hfound
  have hfill : (emit.anonymous || !log.data.topics.isEmpty) = true := by
    rcases hfills with hanonymous | htopics
    · rw [hanonymous, Bool.true_or]
    · rw [isEmpty_eq_false_iff.mpr htopics]
      exact Bool.or_true _
  unfold onLog handleExpectEmit
  rw [if_neg (by simp), if_neg hall]
  dsimp only
  rw [if_pos hany, hpos, Option.getD_none, length_append, length_singleton,
    Nat.add_sub_cancel, getElem?_concat_length]
  dsimp only
  rw [hlog]
  rw [if_pos hfill, eraseIdx_append_of_length_le (le_refl _), Nat.sub_self,
    eraseIdx_cons_zero, append_nil, insertIdx_length_self]

theorem onLog_expectEmit (hfound : ∀ entry ∈ expectedEmits, entry.1.found = false)
    (checks : Checks) (address : Option Address) {anonymous : Bool} (count : Nat) {log : Log}
    (hfills : anonymous = true ∨ log.data.topics ≠ []) :
    (onLog order (expectEmit expectedEmits depth checks address anonymous count) log).map Prod.fst =
      some (expectedEmits ++
        [(⟨depth, some log.data, checks, address, anonymous, false, count, none⟩, .empty)]) := by
  have hnone : expectedEmits.findIdx? (·.1.found) = none := findIdx?_eq_none_iff.mpr hfound
  unfold expectEmit
  rw [hnone]
  rw [onLog_fill _ rfl hfills, Option.map_some]
  intro entry hmem
  rcases mem_append.mp hmem with hmem | hmem
  · exact hfound entry hmem
  · cases mem_singleton.mp hmem
    rfl

theorem foldlM_concat {α β : Type} {step : List β → α → Option (List β)} {f : α → β}
    (hstep : ∀ (done : List α) (a : α), step (done.map f) a = some (done.map f ++ [f a]))
    (list : List α) :
    list.foldlM step [] = some (list.map f) := by
  suffices h : ∀ done : List α,
      list.foldlM step (done.map f) = some ((done ++ list).map f) from h []
  induction list with
  | nil =>
    intro done
    rw [append_nil]
    rfl
  | cons a list ih =>
    intro done
    have hrest := ih (done ++ [a])
    rw [append_assoc, map_append] at hrest
    rw [foldlM_cons, hstep]
    exact hrest

theorem declare_all (order : Enumeration Address) (depth : Nat) (expectations : List Expectation) :
    expectations.foldlM (declare order depth) [] = some (waiting depth expectations) := by
  refine foldlM_concat (fun declared e => ?_) expectations
  exact onLog_expectEmit (fun entry hmem => by
    obtain ⟨e', _, rfl⟩ := mem_map.mp hmem
    rfl) e.checks e.address e.count e.fills

theorem onLog_front
    {expected : RawLog} (hfound : emit.found = false) (hlog : emit.log = some expected)
    (hfilled : ∀ entry ∈ expectedEmits, entry.1.log.isSome) (log : Log) :
    onLog order ((emit, countMap) :: expectedEmits) log =
      let countMap := countLog emit.checks expected countMap log
      let emit := checkLog order emit expected countMap log
      some (if emit.found then expectedEmits ++ [(emit, countMap)]
        else (emit, countMap) :: expectedEmits, none) := by
  have hall : ¬ ((emit, countMap) :: expectedEmits).all (·.1.found) = true := by
    rw [all_cons, hfound]
    exact Bool.false_ne_true
  have hany : ¬ ((emit, countMap) :: expectedEmits).any (·.1.log.isNone) = true := by
    rw [any_eq_true]
    rintro ⟨entry, hmem, hnone⟩
    rcases mem_cons.mp hmem with rfl | hmem
    · rw [hlog] at hnone
      cases hnone
    · have hsome := hfilled entry hmem
      rw [Option.isNone_iff_eq_none.mp hnone] at hsome
      cases hsome
  unfold onLog handleExpectEmit
  rw [if_neg (by exact Bool.false_ne_true), if_neg hall]
  dsimp only
  rw [if_neg hany, getElem?_cons_zero]
  dsimp only
  rw [hlog]
  dsimp only
  split <;> rfl

theorem emitAll_found (orders : Nat → Enumeration Address)
    (hfound : ∀ entry ∈ expectedEmits, entry.1.found = true) (logs : List Log) :
    emitAll orders expectedEmits logs = some expectedEmits := by
  induction logs generalizing orders with
  | nil => rfl
  | cons log logs ih =>
    have honLog : onLog (orders 0) expectedEmits log = some (expectedEmits, none) := by
      unfold onLog handleExpectEmit
      rw [if_pos (all_eq_true.mpr hfound)]
      split <;> rfl
    rw [emitAll, honLog]
    exact ih _

/-- A call ends well just if each expectation was found with its count. -/
theorem accepted_callEnd_filled (hfilled : ∀ entry ∈ expectedEmits, Filled depth entry) :
    (callEnd depth false isOk expectedEmits).1.accepted = true ↔
      ∀ entry ∈ expectedEmits, (entry.1.found = true ∨ entry.1.count = 0) ∧
        emittedCount entry.1 entry.2 = entry.1.count := by
  cases expectedEmits with
  | nil => exact ⟨fun _ => nofun, fun _ => rfl⟩
  | cons front rest =>
    have hcheck : ((front :: rest).any (fun entry => entry.1.depth = depth) && !false) = true := by
      rw [any_cons, decide_eq_true (hfilled front mem_cons_self).2]
      rfl
    unfold callEnd
    dsimp only
    rw [if_pos hcheck]
    split
    · next expected countMap hfind =>
      have hmem := mem_of_find?_eq_some hfind
      have hnot := find?_some hfind
      refine ⟨nofun, fun hall => ?_⟩
      simp only [Bool.and_eq_true, Bool.not_eq_true', decide_eq_true_eq] at hnot
      have hfound := (hall _ hmem).1
      simp only [hnot.1, Bool.false_eq_true, false_or] at hfound
      omega
    · next hfind =>
      have hfound : ∀ entry ∈ front :: rest, entry.1.found = true ∨ entry.1.count = 0 := by
        intro entry hmem
        have hnot := find?_eq_none.mp hfind entry hmem
        by_cases hcount : entry.1.count = 0
        · exact .inr hcount
        · have hpos : 0 < entry.1.count := by omega
          exact .inl (by simpa [hpos] using hnot)
      split
      · next expected countMap others hfilter =>
        have hmem : (expected, countMap) ∈ (front :: rest).filter fun entry =>
            decide (emittedCount entry.1 entry.2 ≠ entry.1.count) :=
          hfilter ▸ mem_cons_self
        obtain ⟨hmem, hwrong⟩ := mem_filter.mp hmem
        refine ⟨fun haccepted => ?_, fun hall => ?_⟩
        · cases isOk <;> cases haccepted
        · exact absurd (hall _ hmem).2 (of_decide_eq_true hwrong)
      · next hfilter =>
        refine ⟨fun _ entry hmem => ⟨hfound entry hmem, ?_⟩, fun _ => rfl⟩
        have hnot := filter_eq_nil_iff.mp hfilter entry hmem
        simpa using hnot

end Queue

/-! ## The logs of a call -/

/-- With the logs the queue comes to an end that is accepted just if `p`. -/
def Decides (orders : Nat → Enumeration Address) (depth : Nat) (isOk : Bool)
    (expectedEmits : ExpectedEmitTracker) (logs : List Log) (p : Prop) : Prop :=
  ∃ after, emitAll orders expectedEmits logs = some after ∧
    ((callEnd depth false isOk after).1.accepted = true ↔ p)

/-- The expectations that were found were found with the right count. -/
def DoneRight (done : ExpectedEmitTracker) : Prop :=
  ∀ entry ∈ done, emittedCount entry.1 entry.2 = entry.1.count

theorem doneRight_concat (done : ExpectedEmitTracker)
    (entry : ExpectedEmit × HashMap Address LogCountMap) :
    DoneRight (done ++ [entry]) ↔
      DoneRight done ∧ emittedCount entry.1 entry.2 = entry.1.count := by
  unfold DoneRight
  rw [forall_mem_append, forall_mem_singleton]

theorem Decides.accepts_iff {orders : Nat → Enumeration Address} {depth : Nat} {isOk : Bool}
    {queue : ExpectedEmitTracker} {logs : List Log} {p : Prop}
    (h : Decides orders depth isOk queue logs (DoneRight [] ∧ p))
    {declared : Option ExpectedEmitTracker} (hdeclared : declared = some queue) :
    (∃ before after, declared = some before ∧ emitAll orders before logs = some after ∧
      (callEnd depth false isOk after).1.accepted = true) ↔ p := by
  obtain ⟨after, hafter, haccepted⟩ := h
  have hright : DoneRight [] := nofun
  simp [hdeclared, hafter, haccepted, hright]

/-- How a queue is decided once its own expectations are at the front, whatever was found. -/
def Continues (depth : Nat) (isOk : Bool) (tail : ExpectedEmitTracker)
    (condition : List Log → Prop) : Prop :=
  ∀ (orders : Nat → Enumeration Address) (done : ExpectedEmitTracker) (logs : List Log),
    (∀ entry ∈ done, entry.1.found = true ∧ Filled depth entry) →
    Decides orders depth isOk (tail ++ done) logs (DoneRight done ∧ condition logs)

/-- How the logs decide a queue whose front has seen logs before, and which goes on with others
after some expectations. -/
def DecidesFront (depth : Nat) (isOk : Bool) (tail : ExpectedEmitTracker)
    (condition : List Log → Prop) (logs : List Log) : Prop :=
  ∀ (orders : Nat → Enumeration Address) (e : Expectation) (seen : List Log)
    (countMap : HashMap Address LogCountMap) (error : Option EmitMismatch)
    (expectations : List Expectation) (done : ExpectedEmitTracker),
    Counted e seen countMap →
    (∀ entry ∈ done, entry.1.found = true ∧ Filled depth entry) →
    Decides orders depth isOk
      ((e.emit depth error, countMap) :: (waiting depth expectations ++ (tail ++ done))) logs
      (DoneRight done ∧ ∃ segment rest, segment ≠ [] ∧ logs = segment ++ rest ∧
        e.MeetsOne (seen ++ segment) ∧
          CuttableThen Expectation.MeetsOne expectations condition rest)

section Logs

variable {depth : Nat} {isOk : Bool} {logs : List Log} {tail : ExpectedEmitTracker}
  {condition : List Log → Prop} {rest : ExpectedEmitTracker}

theorem Expectation.MeetsOne.ne_nil {e : Expectation} {segment : List Log}
    (h : e.MeetsOne segment) : segment ≠ [] := by
  obtain ⟨⟨init, last, rfl, _⟩, _⟩ := h
  exact append_ne_nil_of_right_ne_nil _ (cons_ne_nil _ _)

theorem continues_nil : Continues depth isOk [] fun _ => True := by
  intro orders done logs hdone
  refine ⟨done, emitAll_found orders (fun entry hmem => (hdone entry hmem).1) logs, ?_⟩
  rw [accepted_callEnd_filled fun entry hmem => (hdone entry hmem).2, and_true]
  constructor
  · exact fun hall entry hmem => (hall entry hmem).2
  · exact fun hright entry hmem => ⟨.inl (hdone entry hmem).1, hright entry hmem⟩

theorem DecidesFront.waiting (h : DecidesFront depth isOk tail condition logs)
    (htail : Continues depth isOk tail condition) (orders : Nat → Enumeration Address)
    (expectations : List Expectation) (done : ExpectedEmitTracker)
    (hdone : ∀ entry ∈ done, entry.1.found = true ∧ Filled depth entry) :
    Decides orders depth isOk (waiting depth expectations ++ (tail ++ done)) logs
      (DoneRight done ∧ CuttableThen Expectation.MeetsOne expectations condition logs) := by
  cases expectations with
  | nil =>
    rw [cuttableThen_nil]
    exact htail orders done logs hdone
  | cons e expectations =>
    obtain ⟨after, hafter, haccepted⟩ :=
      h orders e [] .empty none expectations done (counted_empty e) hdone
    refine ⟨after, hafter, haccepted.trans (and_congr_right fun _ => ?_)⟩
    rw [cuttableThen_cons]
    constructor
    · rintro ⟨segment, rest, _, hlogs, hmeets, hrest⟩
      exact ⟨segment, rest, hlogs, hmeets, hrest⟩
    · rintro ⟨segment, rest, hlogs, hmeets, hrest⟩
      exact ⟨segment, rest, hmeets.ne_nil, hlogs, hmeets, hrest⟩

theorem filled_rest (expectations : List Expectation) {done : ExpectedEmitTracker}
    (htail : ∀ entry ∈ tail, Filled depth entry)
    (hdone : ∀ entry ∈ done, entry.1.found = true ∧ Filled depth entry) :
    ∀ entry ∈ waiting depth expectations ++ (tail ++ done), Filled depth entry := by
  intro entry hmem
  rcases mem_append.mp hmem with hmem | hmem
  · obtain ⟨e, _, rfl⟩ := mem_map.mp hmem
    exact ⟨rfl, rfl⟩
  · rcases mem_append.mp hmem with hmem | hmem
    · exact htail entry hmem
    · exact (hdone entry hmem).2

/-- A log at the front of the queue: the expectation is found, or waits on. -/
theorem emitAll_front (hrest : ∀ entry ∈ rest, Filled depth entry)
    (orders : Nat → Enumeration Address) {emit : ExpectedEmit} {expected : RawLog}
    (hfound : emit.found = false) (hlog : emit.log = some expected)
    (countMap : HashMap Address LogCountMap) (log : Log) (logs : List Log) :
    ∃ error,
      emitAll orders ((emit, countMap) :: rest) (log :: logs) =
        let countMap' := countLog emit.checks expected countMap log
        let found := (checkLog (orders 0) emit expected countMap' log).found
        emitAll (fun k => orders (k + 1))
          (if found then rest ++ [({ emit with found := true, mismatchError := error }, countMap')]
            else ({ emit with mismatchError := error }, countMap') :: rest) logs := by
  obtain ⟨error, hcheck⟩ := checkLog_eq (orders 0) emit expected
    (countLog emit.checks expected countMap log) log
  refine ⟨error, ?_⟩
  rw [emitAll, onLog_front hfound hlog (fun entry hmem => (hrest entry hmem).1)]
  dsimp only
  split
  · next hnow =>
    rw [hnow] at hcheck
    exact congrArg (fun emit => emitAll _ (rest ++ [(emit, _)]) logs) hcheck
  · next hnow =>
    rw [Bool.not_eq_true] at hnow
    rw [hnow, ← hfound] at hcheck
    exact congrArg (fun emit => emitAll _ ((emit, _) :: rest) logs) hcheck

section Split

variable {e : Expectation} {seen : List Log} {log : Log} {order : Enumeration Address}
  {countMap : HashMap Address LogCountMap} {error : Option EmitMismatch} {P : List Log → Prop}

theorem exists_segment_cons {Q : List Log → Prop} :
    (∃ segment rest, segment ≠ [] ∧ log :: logs = segment ++ rest ∧ Q segment ∧ P rest) ↔
      (Q [log] ∧ P logs) ∨
        ∃ segment rest, segment ≠ [] ∧ logs = segment ++ rest ∧ Q (log :: segment) ∧ P rest := by
  constructor
  · rintro ⟨segment, rest, hne, hlogs, hmeets, hrest⟩
    obtain ⟨_, more, rfl⟩ := exists_cons_of_ne_nil hne
    obtain ⟨rfl, rfl⟩ := List.cons.inj hlogs
    cases more with
    | nil => exact .inl ⟨hmeets, hrest⟩
    | cons next more => exact .inr ⟨_, rest, cons_ne_nil next more, rfl, hmeets, hrest⟩
  · rintro (⟨hmeets, hrest⟩ | ⟨segment, rest, _, rfl, hmeets, hrest⟩)
    · exact ⟨[log], logs, cons_ne_nil _ _, rfl, hmeets, hrest⟩
    · exact ⟨log :: segment, rest, cons_ne_nil _ _, rfl, hmeets, hrest⟩

theorem Counted.segment_of_found (h : Counted e (seen ++ [log]) countMap)
    (hfound : (checkLog order (e.emit depth error) e.template.data countMap log).found = true) :
    (∃ segment rest, segment ≠ [] ∧ log :: logs = segment ++ rest ∧
        e.MeetsOne (seen ++ segment) ∧ P rest) ↔
      e.MeetsOne (seen ++ [log]) ∧ P logs := by
  rw [exists_segment_cons, or_iff_left]
  rintro ⟨segment, rest, hne, -, hmeets, -⟩
  rw [← singleton_append, ← append_assoc] at hmeets
  exact h.not_meets_of_found hfound hne hmeets.1

end Split

theorem decidesFront (hfilled : ∀ entry ∈ tail, Filled depth entry)
    (htail : Continues depth isOk tail condition) (logs : List Log) :
    DecidesFront depth isOk tail condition logs := by
  induction logs with
  | nil =>
    intro orders e seen countMap error expectations done hcounted hdone
    refine ⟨_, rfl, ?_⟩
    rw [accepted_callEnd_filled]
    · constructor
      · intro hall
        have hpos := e.count_pos
        rcases (hall _ mem_cons_self).1 with hfound | hzero
        · exact absurd hfound Bool.false_ne_true
        · exact absurd hzero (Nat.ne_of_gt hpos)
      · rintro ⟨_, segment, rest, hne, hlogs, _⟩
        exact absurd (append_eq_nil_iff.mp hlogs.symm).1 hne
    · exact forall_mem_cons.mpr ⟨⟨rfl, rfl⟩, filled_rest expectations hfilled hdone⟩
  | cons log logs ih =>
    intro orders e seen countMap error expectations done hcounted hdone
    have hcounted' := hcounted.countLog log
    have hwaits : (e.emit depth error).found = false := rfl
    obtain ⟨error', hstep⟩ := emitAll_front (filled_rest expectations hfilled hdone) orders hwaits
      rfl countMap log logs
    unfold Decides
    rw [hstep]
    dsimp only
    split
    · next hfound =>
      rw [append_assoc, append_assoc, hcounted'.segment_of_found hfound]
      have hdone' : ∀ entry ∈ done ++ [({ e.emit depth error' with found := true },
          countLog e.checks e.template.data countMap log)],
          entry.1.found = true ∧ Filled depth entry := by
        exact forall_mem_append.mpr ⟨hdone, forall_mem_singleton.mpr ⟨rfl, rfl, rfl⟩⟩
      obtain ⟨after, hafter, haccepted⟩ :=
        ih.waiting htail (fun k => orders (k + 1)) expectations _ hdone'
      refine ⟨after, hafter, haccepted.trans ?_⟩
      rw [doneRight_concat, hcounted'.emittedCount rfl rfl, and_assoc]
      refine and_congr_right fun _ => and_congr_left fun _ => ?_
      exact ⟨hcounted'.meetsOne_of_found hfound, fun hmeets => hmeets.1.countP_eq⟩
    · next hfound =>
      have hrest := ih (fun k => orders (k + 1)) e (seen ++ [log]) _ error' expectations done
        hcounted' hdone
      simp only [append_assoc] at hrest
      rw [exists_segment_cons, or_iff_right fun hmeets =>
        hfound (hcounted'.found_of_meetsOne hmeets.1)]
      exact hrest

end Logs

/-! ## What is accepted -/

section Verdict

variable {orders : Nat → Enumeration Address} {depth : Nat} {isOk : Bool}
  {expectations : List Expectation} {logs : List Log}

/-- The logs are accepted just if they can be cut into segments of one emitter each, whatever the
orders of the hash maps. -/
theorem accepts_iff :
    Accepts orders depth isOk expectations logs ↔
      Cuttable Expectation.MeetsOne expectations logs := by
  have hfront : DecidesFront depth isOk [] (fun _ => True) logs :=
    decidesFront (by simp) continues_nil logs
  have hdecides := hfront.waiting continues_nil orders expectations [] nofun
  rw [append_nil, append_nil, cuttableThen_true] at hdecides
  exact hdecides.accepts_iff (declare_all _ _ _)

/-- The logs are accepted just if they can be cut into segments that meet the expectations, and
other orders of the hash maps change nothing. -/
def JudgesBySegments (orders : Nat → Enumeration Address) (depth : Nat) (isOk : Bool)
    (expectations : List Expectation) (logs : List Log) : Prop :=
  (Accepts orders depth isOk expectations logs ↔ Cuttable Expectation.Meets expectations logs) ∧
  ∀ orders', Accepts orders' depth isOk expectations logs ↔
    Accepts orders depth isOk expectations logs

/-- The end of a call judges by segments just if, in the cut of the logs, the matching logs of
each segment without an expected emitter come from one address. -/
theorem judgesBySegments_iff (orders : Nat → Enumeration Address) (depth : Nat) (isOk : Bool)
    (expectations : List Expectation) (logs : List Log) :
    JudgesBySegments orders depth isOk expectations logs ↔
      ∀ segments rest, IsCut Expectation.Meets expectations logs segments rest →
        List.Forall₂ Expectation.OneEmitter expectations segments := by
  constructor
  · rintro ⟨hjudges, _⟩ segments rest hcut
    obtain ⟨segments', rest', hcut'⟩ := accepts_iff.mp (hjudges.mpr ⟨segments, rest, hcut⟩)
    have hfree : ∀ e : Expectation, PrefixFree e.Meets := fun e => EndsAt.prefixFree _ _
    rw [hcut.unique hfree (hcut'.imp fun _ _ hmeets => hmeets.1)]
    exact hcut'.met.imp fun _ _ hmeets => hmeets.2
  · intro hone
    refine ⟨?_, fun orders' => accepts_iff.trans accepts_iff.symm⟩
    rw [accepts_iff]
    constructor
    · rintro ⟨segments, rest, hcut⟩
      exact ⟨segments, rest, hcut.imp fun _ _ hmeets => hmeets.1⟩
    · rintro ⟨segments, rest, hcut⟩
      exact ⟨segments, rest, hcut.and (hone segments rest hcut)⟩

end Verdict

def transfer (emitter : Address) : Log := ⟨emitter, ⟨[7], [], by decide⟩⟩

def twice : Expectation where
  checks := Vector.replicate 5 true
  address := none
  anonymous := false
  count := 2
  template := transfer 1
  fills := .inr (by decide)
  count_pos := by decide

/-- Two emitters emit the expected log once each, which is not accepted. -/
theorem two_emitters_rejected :
    ¬ JudgesBySegments (fun _ => .sortedBy BitVec.toNat fun _ _ => BitVec.eq_of_toNat_eq) 1 true
      [twice] [transfer 20, transfer 30] := by
  rintro ⟨hjudges, _⟩
  have hcut : Cuttable Expectation.Meets [twice] [transfer 20, transfer 30] :=
    ⟨[[transfer 20, transfer 30]], [], rfl,
      .cons ⟨[transfer 20], transfer 30, rfl, by decide, by decide⟩ .nil⟩
  obtain ⟨before, after, hbefore, hafter, hverdict⟩ := hjudges.mpr hcut
  have hrejected : (([twice].foldlM
      (declare (.sortedBy BitVec.toNat fun _ _ => BitVec.eq_of_toNat_eq) 1) []).bind fun before =>
        (emitAll (fun _ => .sortedBy BitVec.toNat fun _ _ => BitVec.eq_of_toNat_eq) before
          [transfer 20, transfer 30]).map fun after =>
            (callEnd 1 false true after).1.accepted) = some false := by
    decide +kernel
  rw [hbefore, Option.bind_some, hafter, Option.map_some, hverdict] at hrejected
  cases hrejected

end Foundry.Cheatcodes

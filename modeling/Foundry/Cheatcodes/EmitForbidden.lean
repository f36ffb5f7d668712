import Foundry.Cheatcodes.EmitSegments
import Mathlib.Data.List.TakeWhile

/-!
# Logs that must not be emitted

An expectation with the count zero forbids its log.  It stays at the front of the queue as long as
no log matches it, so that the expectations after it see no log; once one matches, the end of the
call finds a count that is wrong.
-/

namespace Foundry.Cheatcodes

open Segments List

/-- What a cheatcode declares, with the log that fills it; the count may be zero. -/
structure EmitDeclaration where
  checks : Checks
  address : Option Address
  anonymous : Bool
  count : Nat
  template : Log
  fills : anonymous = true ∨ template.data.topics ≠ []

namespace EmitDeclaration

def pattern (d : EmitDeclaration) : Expectation where
  checks := d.checks
  address := d.address
  anonymous := d.anonymous
  count := max d.count 1
  template := d.template
  fills := d.fills
  count_pos := by omega

def isMatch (d : EmitDeclaration) (log : Log) : Bool := d.pattern.isMatch log

/-- The declaration in the queue, when it is filled. -/
def emit (d : EmitDeclaration) (depth : Nat) (mismatchError : Option EmitMismatch) :
    ExpectedEmit :=
  { d.pattern.emit depth mismatchError with count := d.count }

def waiting (depth : Nat) (ds : List EmitDeclaration) : ExpectedEmitTracker :=
  ds.map fun d => (d.emit depth none, .empty)

/-- A cheatcode, and the log that fills the declaration. -/
def declare (order : Enumeration Address) (depth : Nat) (expectedEmits : ExpectedEmitTracker)
    (d : EmitDeclaration) : Option ExpectedEmitTracker :=
  (onLog order (expectEmit expectedEmits depth d.checks d.address d.anonymous d.count)
    d.template).map Prod.fst

def Accepts (orders : Nat → Enumeration Address) (depth : Nat) (isOk : Bool)
    (ds : List EmitDeclaration) (logs : List Log) : Prop :=
  ∃ before after, ds.foldlM (declare (orders 0) depth) [] = some before ∧
    emitAll orders before logs = some after ∧ (callEnd depth false isOk after).1.accepted = true

def expecting (ds : List EmitDeclaration) : List EmitDeclaration := ds.filter (0 < ·.count)

/-- No log matches a declaration that forbids it. -/
def Unseen (ds : List EmitDeclaration) (logs : List Log) : Prop :=
  ∀ d ∈ ds, d.count = 0 → ∀ log ∈ logs, ¬ d.isMatch log

instance (ds : List EmitDeclaration) (logs : List Log) : Decidable (Unseen ds logs) :=
  inferInstanceAs (Decidable (∀ d ∈ ds, d.count = 0 → ∀ log ∈ logs, ¬ d.isMatch log))

/-- A declaration with the count zero forbids its log and changes nothing else. -/
def ForbidsOnly (orders : Nat → Enumeration Address) (depth : Nat) (isOk : Bool)
    (ds : List EmitDeclaration) (logs : List Log) : Prop :=
  Accepts orders depth isOk ds logs ↔ Unseen ds logs ∧ Accepts orders depth isOk (expecting ds) logs

/-- If a log is expected after one is forbidden, a forbidden log is emitted or the expected ones
are not.  Otherwise, if the logs after those that are expected do not match the first declaration
that forbids one, no forbidden log is emitted at all. -/
def ForbidsApart (ds : List EmitDeclaration) (logs : List Log) : Prop :=
  match ds.dropWhile (0 < ·.count) with
  | [] => True
  | first :: others =>
    if ∀ d ∈ others, d.count = 0 then
      ∀ segments rest,
        IsCut Expectation.MeetsOne ((expecting ds).map pattern) logs segments rest →
        (∀ log ∈ rest, ¬ first.isMatch log) → Unseen ds logs
    else Unseen ds logs → ¬ Cuttable Expectation.MeetsOne ((expecting ds).map pattern) logs

/-! ## A queue with a wrong count -/

section Wrong

variable {depth : Nat} {isOk : Bool} {unfound done : ExpectedEmitTracker}
  (hunfound : ∀ entry ∈ unfound, entry.1.found = false ∧ Filled depth entry)
  (hdone : ∀ entry ∈ done, entry.1.found = true ∧ Filled depth entry) (hwrong : ¬ DoneRight done)

include hunfound hdone hwrong

theorem not_accepted_of_not_doneRight :
    ¬ (callEnd depth false isOk (unfound ++ done)).1.accepted = true := by
  rw [accepted_callEnd_filled]
  · exact fun hall => hwrong fun entry hmem => (hall entry (mem_append_right _ hmem)).2
  · exact forall_mem_append.mpr
      ⟨fun entry hmem => (hunfound entry hmem).2, fun entry hmem => (hdone entry hmem).2⟩

theorem decides_of_not_doneRight (logs : List Log) (orders : Nat → Enumeration Address) :
    Decides orders depth isOk (unfound ++ done) logs False := by
  induction logs generalizing orders unfound done with
  | nil =>
    exact ⟨_, rfl, iff_false_intro (not_accepted_of_not_doneRight hunfound hdone hwrong)⟩
  | cons log logs ih =>
    cases unfound with
    | nil =>
      refine ⟨done, emitAll_found orders (fun entry hmem => (hdone entry hmem).1) _, ?_⟩
      exact iff_false_intro (not_accepted_of_not_doneRight hunfound hdone hwrong)
    | cons front unfound =>
      obtain ⟨emit, countMap⟩ := front
      obtain ⟨hfront, hrest⟩ := forall_mem_cons.mp hunfound
      obtain ⟨hfound, hlog, hdepth⟩ := hfront
      obtain ⟨expected, hexpected⟩ := Option.isSome_iff_exists.mp hlog
      have hfilled : ∀ entry ∈ unfound ++ done, Filled depth entry :=
        forall_mem_append.mpr
          ⟨fun entry hmem => (hrest entry hmem).2, fun entry hmem => (hdone entry hmem).2⟩
      obtain ⟨error, hstep⟩ := emitAll_front hfilled orders hfound hexpected countMap log logs
      unfold Decides
      rw [cons_append, hstep]
      dsimp only
      split
      · rw [append_assoc]
        refine ih hrest ?_ (fun hright => hwrong ((doneRight_concat _ _).mp hright).1) _
        exact forall_mem_append.mpr ⟨hdone, forall_mem_singleton.mpr ⟨rfl, hlog, hdepth⟩⟩
      · rw [← cons_append]
        refine ih ?_ hdone hwrong _
        exact forall_mem_cons.mpr ⟨⟨hfound, hlog, hdepth⟩, hrest⟩

end Wrong

/-! ## A forbidden log -/

section Forbidden

variable {depth : Nat} {isOk : Bool} {d : EmitDeclaration} {ds : List EmitDeclaration}
  {seen : List Log} {log : Log} {countMap : HashMap Address LogCountMap}
  {order : Enumeration Address} {error : Option EmitMismatch} {done : ExpectedEmitTracker}

theorem waiting_unfound : ∀ entry ∈ waiting depth ds,
    entry.1.found = false ∧ Filled depth entry := by
  intro entry hmem
  obtain ⟨d, _, rfl⟩ := mem_map.mp hmem
  exact ⟨rfl, rfl, rfl⟩

theorem declare_all (order : Enumeration Address) (depth : Nat) (ds : List EmitDeclaration) :
    ds.foldlM (declare order depth) [] = some (waiting depth ds) := by
  refine foldlM_concat (fun declared d => ?_) ds
  exact onLog_expectEmit (fun entry hmem => (waiting_unfound entry hmem).1) d.checks d.address
    d.count d.fills

private theorem found_forbidden (hcounted : Counted d.pattern (seen ++ [log]) countMap)
    (hzero : d.count = 0) :
    (checkLog order (d.emit depth error) d.template.data countMap log).found = d.isMatch log := by
  have hcount : (d.emit depth error).count = 0 := hzero
  rw [found_checkLog]
  change (d.isMatch log && _) = _
  cases hmatch : d.isMatch log with
  | false => rfl
  | true =>
    have hpasses := Expectation.passes_of_isMatch hmatch
    cases haddress : (d.emit depth error).address with
    | none =>
      obtain ⟨first, hfirst⟩ := hcounted.exists_find order hpasses
      simp [hfirst, hcount]
    | some emitter =>
      have hemitter : log.address = emitter := by
        have hall := ((Bool.and_eq_true _ _).mp hmatch).2
        rw [show d.pattern.address = some emitter from haddress] at hall
        exact of_decide_eq_true hall
      obtain ⟨logs, hlogs⟩ := hcounted.exists_get hpasses
      rw [hemitter] at hlogs
      simp [hlogs, hcount]

private theorem emittedCount_forbidden (hcounted : Counted d.pattern seen countMap) (error) :
    emittedCount (d.emit depth error) countMap = seen.countP d.isMatch :=
  hcounted.emittedCount rfl rfl

theorem filled_waiting (hdone : ∀ entry ∈ done, entry.1.found = true ∧ Filled depth entry) :
    ∀ entry ∈ waiting depth ds ++ done, Filled depth entry :=
  forall_mem_append.mpr
    ⟨fun entry hmem => (waiting_unfound entry hmem).2, fun entry hmem => (hdone entry hmem).2⟩

theorem accepted_callEnd_forbidden (hzero : d.count = 0)
    (hcounted : Counted d.pattern seen countMap) (hseen : ∀ log ∈ seen, ¬ d.isMatch log)
    (hdone : ∀ entry ∈ done, entry.1.found = true ∧ Filled depth entry) :
    (callEnd depth false isOk
        (((d.emit depth error, countMap) :: waiting depth ds) ++ done)).1.accepted = true ↔
      DoneRight done ∧ ∀ other ∈ ds, other.count = 0 := by
  have hfilled : ∀ entry ∈ ((d.emit depth error, countMap) :: waiting depth ds) ++ done,
      Filled depth entry :=
    forall_mem_cons.mpr ⟨⟨rfl, rfl⟩, filled_waiting hdone⟩
  have hfront : emittedCount (d.emit depth error) countMap = 0 := by
    rw [emittedCount_forbidden hcounted]
    exact countP_eq_zero.mpr hseen
  rw [accepted_callEnd_filled hfilled, forall_mem_append, forall_mem_cons]
  constructor
  · rintro ⟨⟨-, hwaiting⟩, hright⟩
    refine ⟨fun entry hmem => (hright entry hmem).2, fun other hother => ?_⟩
    have hentry := hwaiting (other.emit depth none, .empty) (mem_map_of_mem hother)
    exact hentry.1.resolve_left Bool.false_ne_true
  · rintro ⟨hright, hothers⟩
    refine ⟨⟨⟨.inr hzero, hfront.trans hzero.symm⟩, ?_⟩, ?_⟩
    · intro entry hmem
      obtain ⟨other, hother, rfl⟩ := mem_map.mp hmem
      have hcount := hothers other hother
      exact ⟨.inr hcount, (emittedCount_forbidden (counted_empty _) none).trans hcount.symm⟩
    · exact fun entry hmem => ⟨.inl (hdone entry hmem).1, hright entry hmem⟩

theorem not_doneRight_forbidden (hzero : d.count = 0)
    (hcounted : Counted d.pattern (seen ++ [log]) countMap) (hmatch : d.isMatch log = true) :
    ¬ DoneRight (done ++ [({ d.emit depth error with found := true }, countMap)]) := by
  rw [doneRight_concat, hcounted.emittedCount rfl rfl]
  rintro ⟨-, hcount⟩
  change (seen ++ [log]).countP d.isMatch = d.count at hcount
  rw [hzero] at hcount
  exact countP_eq_zero.mp hcount log (by simp) hmatch

private theorem continues_forbidden (hzero : d.count = 0) :
    Continues depth isOk (waiting depth (d :: ds)) fun logs =>
      (∀ log ∈ logs, ¬ d.isMatch log) ∧ ∀ other ∈ ds, other.count = 0 := by
  suffices h : ∀ (logs : List Log) (orders : Nat → Enumeration Address) (seen : List Log)
      (countMap : HashMap Address LogCountMap) (error : Option EmitMismatch)
      (done : ExpectedEmitTracker), Counted d.pattern seen countMap →
      (∀ log ∈ seen, ¬ d.isMatch log) →
      (∀ entry ∈ done, entry.1.found = true ∧ Filled depth entry) →
      Decides orders depth isOk (((d.emit depth error, countMap) :: waiting depth ds) ++ done) logs
        (DoneRight done ∧ (∀ log ∈ logs, ¬ d.isMatch log) ∧ ∀ other ∈ ds, other.count = 0) from
    fun orders done logs => h logs orders [] .empty none done (counted_empty _) nofun
  intro logs
  induction logs with
  | nil =>
    intro orders seen countMap error done hcounted hseen hdone
    refine ⟨_, rfl, ?_⟩
    rw [accepted_callEnd_forbidden hzero hcounted hseen hdone]
    simp
  | cons log logs ih =>
    intro orders seen countMap error done hcounted hseen hdone
    have hcounted' := hcounted.countLog log
    have hwaits : (d.emit depth error).found = false := rfl
    obtain ⟨error', hstep⟩ := emitAll_front (filled_waiting hdone) orders hwaits rfl countMap
      log logs
    unfold Decides
    rw [cons_append, hstep]
    dsimp only
    split
    · next hnow =>
      have hmatch := (found_forbidden hcounted' hzero).symm.trans hnow
      rw [append_assoc]
      have hdone' : ∀ entry ∈ done ++ [({ d.emit depth error' with found := true },
          countLog d.pattern.checks d.pattern.template.data countMap log)],
          entry.1.found = true ∧ Filled depth entry :=
        forall_mem_append.mpr ⟨hdone, forall_mem_singleton.mpr ⟨rfl, rfl, rfl⟩⟩
      obtain ⟨after, hafter, hrejected⟩ :=
        decides_of_not_doneRight waiting_unfound hdone'
          (not_doneRight_forbidden hzero hcounted' hmatch) logs fun k => orders (k + 1)
      refine ⟨after, hafter, hrejected.trans ?_⟩
      exact iff_of_false not_false fun h => h.2.1 log mem_cons_self hmatch
    · next hnow =>
      have hmatch : ¬ d.isMatch log = true := fun hmatch =>
        hnow ((found_forbidden hcounted' hzero).trans hmatch)
      have hseen' : ∀ log' ∈ seen ++ [log], ¬ d.isMatch log' :=
        forall_mem_append.mpr ⟨hseen, forall_mem_singleton.mpr hmatch⟩
      obtain ⟨after, hafter, haccepted⟩ :=
        ih (fun k => orders (k + 1)) (seen ++ [log]) _ error' done hcounted' hseen' hdone
      refine ⟨after, hafter, haccepted.trans ?_⟩
      rw [forall_mem_cons, and_iff_right hmatch]

end Forbidden

/-! ## What is accepted -/

section Verdict

variable {orders : Nat → Enumeration Address} {depth : Nat} {isOk : Bool}
  {ds : List EmitDeclaration} {logs : List Log} {first : EmitDeclaration}
  {others : List EmitDeclaration}

/-- What the declarations after the first ones that expect logs ask for. -/
def Rest : List EmitDeclaration → List Log → Prop
  | [], _ => True
  | d :: ds, logs => (∀ log ∈ logs, ¬ d.isMatch log) ∧ ∀ other ∈ ds, other.count = 0

private theorem waiting_eq (depth : Nat) (ds : List EmitDeclaration) :
    waiting depth ds =
      Cheatcodes.waiting depth ((ds.takeWhile (0 < ·.count)).map pattern) ++
        waiting depth (ds.dropWhile (0 < ·.count)) := by
  have htake : waiting depth (ds.takeWhile (0 < ·.count)) =
      Cheatcodes.waiting depth ((ds.takeWhile (0 < ·.count)).map pattern) := by
    unfold waiting Cheatcodes.waiting
    rw [map_map]
    refine map_congr_left fun d hmem => ?_
    have hpos := mem_takeWhile_imp hmem
    have hcount : max d.count 1 = d.count := Nat.max_eq_left (of_decide_eq_true hpos)
    simp only [Function.comp_apply, emit, Expectation.emit, pattern, hcount]
  rw [← htake]
  unfold waiting
  rw [← map_append, takeWhile_append_dropWhile]

theorem first_forbids (h : ds.dropWhile (0 < ·.count) = first :: others) : first.count = 0 := by
  have hne : ds.dropWhile (0 < ·.count) ≠ [] := by simp [h]
  have hfirst := head_dropWhile_not _ hne
  simpa [h] using hfirst

/-- If all declarations after the first forbidden log forbid theirs, those that expect logs are
the ones before it. -/
theorem expecting_eq_takeWhile
    (hdrop : ds.dropWhile (0 < ·.count) = first :: others) (hothers : ∀ d ∈ others, d.count = 0) :
    expecting ds = ds.takeWhile (0 < ·.count) := by
  have hnone : (first :: others).filter (0 < ·.count) = [] := by
    rw [filter_cons_of_neg (by simp [first_forbids hdrop]), filter_eq_nil_iff]
    intro d hmem
    simp [hothers d hmem]
  unfold expecting
  nth_rewrite 1 [← ds.takeWhile_append_dropWhile (p := (0 < ·.count))]
  rw [hdrop, filter_append, hnone, append_nil]
  refine filter_eq_self.mpr fun d hmem => ?_
  have hpos := mem_takeWhile_imp hmem
  exact hpos

theorem continues_rest (ds : List EmitDeclaration) :
    Continues depth isOk (waiting depth (ds.dropWhile (0 < ·.count)))
      (Rest (ds.dropWhile (0 < ·.count))) := by
  cases hdrop : ds.dropWhile (0 < ·.count) with
  | nil => exact continues_nil
  | cons d others =>
    exact continues_forbidden (first_forbids hdrop)

/-- The logs are accepted just if they can be cut for the first declarations, and what comes after
them is as the others ask for. -/
theorem accepts_declarations_iff :
    Accepts orders depth isOk ds logs ↔
      CuttableThen Expectation.MeetsOne ((ds.takeWhile (0 < ·.count)).map pattern)
        (Rest (ds.dropWhile (0 < ·.count))) logs := by
  have hfront : DecidesFront depth isOk (waiting depth (ds.dropWhile (0 < ·.count)))
      (Rest (ds.dropWhile (0 < ·.count))) logs :=
    decidesFront (fun entry hmem => (waiting_unfound entry hmem).2) (continues_rest ds) logs
  have hdecides := hfront.waiting (continues_rest ds) orders
    ((ds.takeWhile (0 < ·.count)).map pattern) [] nofun
  rw [append_nil, ← waiting_eq] at hdecides
  exact hdecides.accepts_iff (declare_all _ _ _)

theorem accepts_expecting_iff :
    Accepts orders depth isOk (expecting ds) logs ↔
      Cuttable Expectation.MeetsOne ((expecting ds).map pattern) logs := by
  have hall : ∀ d ∈ expecting ds, decide (0 < d.count) = true := fun d hmem =>
    (mem_filter.mp hmem).2
  rw [accepts_declarations_iff, takeWhile_eq_self_iff.mpr hall, dropWhile_eq_nil_iff.mpr hall]
  exact cuttableThen_true

/-- A declaration with the count zero only forbids its log just if it is declared after those that
expect logs, or the logs tell them apart. -/
theorem forbidsOnly_iff (orders : Nat → Enumeration Address) (depth : Nat) (isOk : Bool)
    (ds : List EmitDeclaration) (logs : List Log) :
    ForbidsOnly orders depth isOk ds logs ↔ ForbidsApart ds logs := by
  unfold ForbidsOnly ForbidsApart
  rw [accepts_expecting_iff, accepts_declarations_iff]
  cases hdrop : ds.dropWhile (0 < ·.count) with
  | nil =>
    have hall := dropWhile_eq_nil_iff.mp hdrop
    have hexpecting : expecting ds = ds := filter_eq_self.mpr hall
    have hunseen : Unseen ds logs := by
      intro d hmem hzero
      have hpos := of_decide_eq_true (hall d hmem)
      omega
    rw [hexpecting, takeWhile_eq_self_iff.mpr hall, and_iff_right hunseen]
    exact iff_true_intro cuttableThen_true
  | cons first others =>
    have hzero := first_forbids hdrop
    have hfirst : first ∈ ds :=
      (dropWhile_suffix (0 < ·.count)).subset (hdrop ▸ mem_cons_self)
    by_cases hothers : ∀ d ∈ others, d.count = 0
    · dsimp only
      rw [if_pos hothers, ← expecting_eq_takeWhile hdrop hothers]
      constructor
      · intro hiff segments rest hcut hrest
        exact (hiff.mp ⟨segments, rest, hcut, hrest, hothers⟩).1
      · intro hapart
        constructor
        · rintro ⟨segments, rest, hcut, hrest, -⟩
          exact ⟨hapart segments rest hcut hrest, segments, rest, hcut⟩
        · rintro ⟨hunseen, segments, rest, hcut⟩
          refine ⟨segments, rest, hcut, fun log hmem => ?_, hothers⟩
          exact hunseen first hfirst hzero log (hcut.split ▸ mem_append_right _ hmem)
    · have hrejected : ¬ CuttableThen Expectation.MeetsOne
          ((ds.takeWhile (0 < ·.count)).map pattern) (Rest (first :: others)) logs :=
        fun ⟨_, _, _, hrest⟩ => hothers hrest.2
      dsimp only
      rw [if_neg hothers, iff_false_left hrejected, not_and]

end Verdict

def ofTopic (topic : B256) (count : Nat) : EmitDeclaration where
  checks := Vector.replicate 5 true
  address := none
  anonymous := false
  count := count
  template := ⟨1, ⟨[topic], [], by simp⟩⟩
  fills := .inr (by simp)

/-- A log is forbidden before another is expected.  Only the other is emitted, and rejected. -/
theorem forbidden_first_rejects :
    ¬ ForbidsOnly (fun _ => .sortedBy BitVec.toNat fun _ _ => BitVec.eq_of_toNat_eq) 1 true
      [ofTopic 8 0, ofTopic 7 1] [⟨20, ⟨[7], [], by decide⟩⟩] := by
  intro hforbids
  have hcut : Cuttable Expectation.MeetsOne [(ofTopic 7 1).pattern]
      [⟨20, ⟨[7], [], by decide⟩⟩] := by
    refine ⟨[[⟨20, ⟨[7], [], by decide⟩⟩]], [], rfl, .cons ⟨⟨[], _, rfl, ?_, ?_⟩, ?_⟩ .nil⟩
    · decide
    · decide
    · intro _ log hlog log' hlog' _ _
      rw [mem_singleton.mp hlog, mem_singleton.mp hlog']
  have haccepts := hforbids.mpr ⟨by decide, accepts_expecting_iff.mpr hcut⟩
  obtain ⟨_, _, _, -, hothers⟩ := accepts_declarations_iff.mp haccepts
  have hzero := hothers (ofTopic 7 1) (mem_singleton_self _)
  exact absurd hzero (by decide)

end EmitDeclaration

end Foundry.Cheatcodes

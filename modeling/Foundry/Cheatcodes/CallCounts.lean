import Foundry.Cheatcodes.ExpectCall

/-!
# Counts of expected calls

The table keeps one entry for all registrations of a target and calldata, with the value and the
gas of the first of them.  The count of the entry is compared with the calls that match it.
-/

namespace Foundry.Cheatcodes

open List Option

/-! ## The table after the registrations -/

/-- What is expected of a target with a calldata, and how often it was seen. -/
def ExpectedCalls.lookup (self : ExpectedCalls) (target : Address) (calldata : Bytes) :
    Option (ExpectedCallData × Nat) :=
  (self.get target).bind (·.get calldata)

theorem ExpectedCalls.lookup_insert (self : ExpectedCalls) (target target' : Address)
    (calldata calldata' : Bytes) (entry : ExpectedCallData × Nat) :
    ExpectedCalls.lookup
        (self.insert target (((self.get target).getD .empty).insert calldata entry))
        target' calldata' =
      if target' = target ∧ calldata' = calldata then some entry
      else self.lookup target' calldata' := by
  unfold ExpectedCalls.lookup
  rw [HashMap.get_insert]
  by_cases htarget : target' = target
  · subst htarget
    rw [if_pos rfl, bind_some, HashMap.get_insert]
    by_cases hcalldata : calldata' = calldata
    · simp [hcalldata]
    · cases self.get target' <;> simp
  · simp [htarget]

namespace CallRegistration

/-- One more registration of a target and calldata. -/
def merge (registration : CallRegistration) :
    Option (ExpectedCallData × Nat) → ExpectedCallData × Nat
  | none => (registration.data, 0)
  | some (first, actualCount) => ({ first with count := first.count + 1 }, actualCount)

/-- A registration changes the entry of its target and calldata; there is one only if neither it
nor the registration has a count. -/
theorem apply_lookup {calls next : ExpectedCalls} {registration : CallRegistration}
    (h : apply calls registration = .ok next) :
    (∀ entry ∈ calls.lookup registration.target registration.calldata,
      registration.count = none ∧ entry.1.callType = .nonCount) ∧
    ∀ target calldata, next.lookup target calldata =
      if target = registration.target ∧ calldata = registration.calldata then
        some (registration.merge (calls.lookup registration.target registration.calldata))
      else calls.lookup target calldata := by
  have hlookup : calls.lookup registration.target registration.calldata =
      ((calls.get registration.target).getD .empty).get registration.calldata := by
    unfold ExpectedCalls.lookup
    cases calls.get registration.target <;> rfl
  rw [hlookup]
  unfold apply ExpectedCalls.expectCall at h
  cases hcount : registration.count with
  | some count =>
    have htype : registration.callType = .count := by simp [callType, hcount]
    simp only [htype] at h
    split at h
    · cases h
    · next hnew =>
      rw [HashMap.contains, Bool.not_eq_true, isSome_eq_false_iff, isNone_iff_eq_none] at hnew
      cases h
      rw [hnew]
      refine ⟨nofun, fun target calldata => ?_⟩
      rw [ExpectedCalls.lookup_insert]
      simp [merge, data, htype]
  | none =>
    have htype : registration.callType = .nonCount := by simp [callType, hcount]
    simp only [htype] at h
    split at h
    · next first actualCount hfirst =>
      split at h
      · next hfirstType =>
        cases h
        rw [hfirst]
        refine ⟨fun entry hentry => ?_, fun target calldata => ?_⟩
        · cases hentry
          exact ⟨rfl, hfirstType⟩
        · rw [ExpectedCalls.lookup_insert]
          rfl
      · cases h
    · next hnew =>
      cases h
      rw [hnew]
      refine ⟨nofun, fun target calldata => ?_⟩
      rw [ExpectedCalls.lookup_insert]
      simp [merge, data, htype]

/-- The entry of some registrations with one target and calldata. -/
def stored : List CallRegistration → Option ExpectedCallData
  | [] => none
  | first :: rest => some { first.data with count := first.count.getD (rest.length + 1) }

theorem stored_append {earlier : List CallRegistration} {registration : CallRegistration}
    (h : ∀ expected ∈ stored earlier, registration.count = none ∧ expected.callType = .nonCount) :
    stored (earlier ++ [registration]) =
      some (registration.merge ((stored earlier).map (·, 0))).1 := by
  cases earlier with
  | nil => rfl
  | cons first rest =>
    obtain ⟨-, htype⟩ := h _ rfl
    have hcount : first.count = none := by
      by_contra hsome
      simp [data, callType, hsome] at htype
    simp [stored, merge, hcount]

theorem keyed_append (registrations : List CallRegistration) (registration : CallRegistration)
    (target : Address) (calldata : Bytes) :
    keyed (registrations ++ [registration]) target calldata =
      if target = registration.target ∧ calldata = registration.calldata then
        keyed registrations target calldata ++ [registration]
      else keyed registrations target calldata := by
  unfold keyed
  split
  · next h => simp [h.1, h.2]
  · next h =>
    have hne : ¬ (registration.target = target ∧ registration.calldata = calldata) :=
      fun heq => h ⟨heq.1.symm, heq.2.symm⟩
    simp [hne]

/-- After the registrations each target and calldata has the conditions of the first of them, and
their number. -/
theorem applyAll_lookup {registrations : List CallRegistration} {state : ExpectedCalls}
    (h : applyAll registrations = .ok state) (target : Address) (calldata : Bytes) :
    state.lookup target calldata = (stored (keyed registrations target calldata)).map (·, 0) := by
  induction registrations using List.reverseRecOn generalizing state target calldata with
  | nil =>
    cases h
    simp [ExpectedCalls.lookup, keyed, stored]
  | append_singleton registrations registration ih =>
    rw [applyAll, foldlM_append] at h
    cases hearlier : registrations.foldlM apply .empty with
    | error message =>
      rw [hearlier] at h
      cases h
    | ok earlier =>
      rw [hearlier] at h
      have hstep : apply earlier registration = .ok state := by
        rw [← h]
        cases happly : apply earlier registration <;>
          simp [happly, bind, Except.bind, pure, Except.pure]
      obtain ⟨hentry, hnext⟩ := apply_lookup hstep
      rw [hnext, keyed_append]
      split
      · next hkey =>
        obtain ⟨rfl, rfl⟩ := hkey
        rw [ih hearlier] at hentry ⊢
        rw [stored_append]
        · cases stored (keyed registrations registration.target registration.calldata) <;> rfl
        · intro expected hexpected
          exact hentry (expected, 0) (by rw [hexpected]; rfl)
      · exact ih hearlier target calldata

end CallRegistration

/-! ## The table after the calls -/

namespace ExpectedCalls

/-- A call that is counted for a target and calldata. -/
def counts (target : Address) (calldata : Bytes) (expected : ExpectedCallData)
    (call : CallInputs) : Bool :=
  !call.cheatcodeCall && call.bytecodeAddress = target && expected.isMatch calldata call

theorem lookup_call (self : ExpectedCalls) (inputs : CallInputs) (target : Address)
    (calldata : Bytes) :
    (self.call inputs).lookup target calldata =
      (self.lookup target calldata).map fun entry =>
        (entry.1, if counts target calldata entry.1 inputs then entry.2 + 1 else entry.2) := by
  unfold call
  split
  · next hcheat =>
    simp [counts, hcheat]
  · next hcheat =>
    unfold lookup
    rw [HashMap.get_update]
    by_cases htarget : target = inputs.bytecodeAddress
    · subst htarget
      rw [if_pos rfl]
      cases self.get inputs.bytecodeAddress with
      | none => rfl
      | some expecteds =>
        simp only [map_some, bind_some, HashMap.get_mapValues]
        simp [counts, hcheat]
        rfl
    · simp [htarget, counts, Ne.symm htarget]

theorem lookup_calls (self : ExpectedCalls) (calls : List CallInputs) (target : Address)
    (calldata : Bytes) :
    (calls.foldl call self).lookup target calldata =
      (self.lookup target calldata).map fun entry =>
        (entry.1, entry.2 + calls.countP (counts target calldata entry.1)) := by
  induction calls generalizing self with
  | nil => simp
  | cons inputs calls ih =>
    rw [foldl_cons, ih, lookup_call, Option.map_map]
    apply congrArg (Option.map · _)
    funext entry
    by_cases h : counts target calldata entry.1 inputs
    · simp [h, Nat.add_assoc, Nat.add_comm]
    · simp [h]

theorem rootCallEnd_isSome (addresses : Enumeration Address)
    (calldatas : Address → Enumeration Bytes) (self : ExpectedCalls) :
    (self.rootCallEnd addresses calldatas false).isSome ↔
      ∃ target calldata expected actualCount,
        self.lookup target calldata = some (expected, actualCount) ∧
          expected.failed actualCount := by
  unfold rootCallEnd lookup
  simp only [Bool.false_eq_true, if_false, findSome?_isSome_iff, Enumeration.mem_visit,
    HashMap.mem_keys, bind_eq_some_iff]
  constructor
  · rintro ⟨target, ⟨expecteds, hexpecteds⟩, hfound⟩
    rw [hexpecteds, bind_some, findSome?_isSome_iff] at hfound
    obtain ⟨calldata, hcalldata, hfound⟩ := hfound
    rw [Enumeration.mem_visit, HashMap.mem_keys] at hcalldata
    obtain ⟨⟨expected, actualCount⟩, hentry⟩ := hcalldata
    rw [hentry] at hfound
    refine ⟨target, calldata, expected, actualCount, ⟨expecteds, hexpecteds, hentry⟩, ?_⟩
    by_contra hfailed
    simp [hfailed] at hfound
  · rintro ⟨target, calldata, expected, actualCount, ⟨expecteds, hexpecteds, hentry⟩, hfailed⟩
    refine ⟨target, ⟨expecteds, hexpecteds⟩, ?_⟩
    rw [hexpecteds, bind_some, findSome?_isSome_iff]
    refine ⟨calldata, (Enumeration.mem_visit _).mpr (HashMap.mem_keys_of_get hentry), ?_⟩
    simp [hentry, hfailed]

end ExpectedCalls

/-! ## Registrations that are met -/

namespace CallRegistration

variable {registrations : List CallRegistration} {calls : List CallInputs}
  {registration : CallRegistration} {state : ExpectedCalls} {first : CallRegistration}
  {target : Address} {calldata : Bytes}

theorem mem_siblings (h : registration ∈ registrations) :
    registration ∈ registration.siblings registrations := by
  simp [siblings, keyed, h]

theorem siblings_of_keyed (h : first ∈ keyed registrations target calldata) :
    first ∈ registrations ∧ first.target = target ∧ first.calldata = calldata ∧
      first.siblings registrations = keyed registrations target calldata := by
  unfold keyed at h
  rw [mem_filter, decide_eq_true_eq] at h
  obtain ⟨hmem, htarget, hcalldata⟩ := h
  refine ⟨hmem, htarget, hcalldata, ?_⟩
  rw [siblings, htarget, hcalldata]

theorem failed_stored_iff {rest : List CallRegistration}
    {expected : ExpectedCallData} (hstored : stored (first :: rest) = some expected)
    (actualCount : Nat) :
    expected.failed actualCount ↔
      match first.count with
      | some count => actualCount ≠ count
      | none => actualCount < rest.length + 1 := by
  cases hstored
  cases hcount : first.count with
  | some count =>
    simp only [ExpectedCallData.failed, data, callType, hcount]
    simpa using ne_comm
  | none => simp [ExpectedCallData.failed, data, callType, hcount]

theorem counts_data (first : CallRegistration) (count : Nat) :
    ExpectedCalls.counts first.target first.calldata { first.data with count := count } =
      (first.Seen ·) := by
  funext call
  simp [ExpectedCalls.counts, Seen, ExpectedCallData.isMatch, Bool.and_assoc]

theorem lookup_calls_stored (h : applyAll registrations = .ok state)
    (calls : List CallInputs)
    {rest : List CallRegistration} (hkeyed : keyed registrations target calldata = first :: rest) :
    ∃ expected, stored (first :: rest) = some expected ∧
      (calls.foldl ExpectedCalls.call state).lookup target calldata =
        some (expected, calls.countP (first.Seen ·)) := by
  have hfirst : first ∈ keyed registrations target calldata := by simp [hkeyed]
  obtain ⟨-, rfl, rfl, -⟩ := siblings_of_keyed hfirst
  refine ⟨_, rfl, ?_⟩
  rw [ExpectedCalls.lookup_calls, applyAll_lookup h, hkeyed]
  simp [stored, counts_data]

/-- The test fails if a registration is missed. -/
theorem rootCallEnd_iff_missed (h : applyAll registrations = .ok state) (calls : List CallInputs)
    (addresses : Enumeration Address) (calldatas : Address → Enumeration Bytes) :
    ((calls.foldl ExpectedCalls.call state).rootCallEnd addresses calldatas false).isSome ↔
      ∃ registration ∈ registrations, registration.Missed registrations calls := by
  rw [ExpectedCalls.rootCallEnd_isSome]
  constructor
  · rintro ⟨target, calldata, expected, actualCount, hentry, hfailed⟩
    cases hkeyed : keyed registrations target calldata with
    | nil =>
      rw [ExpectedCalls.lookup_calls, applyAll_lookup h, hkeyed] at hentry
      cases hentry
    | cons first rest =>
      obtain ⟨expected', hstored, hlookup⟩ := lookup_calls_stored h calls hkeyed
      rw [hlookup] at hentry
      cases hentry
      have hfirst : first ∈ keyed registrations target calldata := by simp [hkeyed]
      obtain ⟨hmem, -, -, hsiblings⟩ := siblings_of_keyed hfirst
      refine ⟨first, hmem, ?_⟩
      unfold Missed
      rw [hsiblings, hkeyed]
      exact (failed_stored_iff hstored _).mp hfailed
  · rintro ⟨registration, -, hmissed⟩
    unfold Missed at hmissed
    cases hkeyed : registration.siblings registrations with
    | nil =>
      rw [hkeyed] at hmissed
      exact hmissed.elim
    | cons first rest =>
      rw [hkeyed] at hmissed
      obtain ⟨expected, hstored, hlookup⟩ := lookup_calls_stored h calls hkeyed
      exact ⟨_, _, _, _, hlookup, (failed_stored_iff hstored _).mpr hmissed⟩

theorem addStipend_toNat {gas : U64} (h : gas.toNat + registration.stipend < 2 ^ 64) :
    ∃ limit : U64, addStipend registration.value (some gas) = some limit ∧
      limit.toNat = gas.toNat + registration.stipend := by
  unfold stipend addStipend at *
  cases hvalue : registration.value with
  | none => exact ⟨gas, rfl, rfl⟩
  | some value =>
    by_cases hpos : 0 < value
    · simp only [hvalue, any_some, hpos, decide_true, if_true] at h ⊢
      refine ⟨gas + positiveValueCostStipend, rfl, ?_⟩
      rw [BitVec.toNat_add, Nat.mod_eq_of_lt h]
    · exact ⟨gas, if_neg hpos, by simp only [any_some, hpos]; rfl⟩

theorem addStipend_none (value : Option U256) : addStipend value none = none := by
  cases value with
  | none => rfl
  | some value => exact ite_self none

theorem Regular.seen_iff (h : registration.Regular registrations calls) {call : CallInputs}
    (hcall : call ∈ calls) : registration.Seen call ↔ registration.Matches call := by
  obtain ⟨-, hgas, hminGas, hcheat⟩ := h
  have hprefix : registration.calldata <+: call.input ↔
      registration.calldata.length ≤ call.input.length ∧
        registration.calldata = call.input.take registration.calldata.length := by
    rw [prefix_iff_eq_take]
    constructor
    · exact fun h => ⟨(prefix_iff_eq_take.mpr h).length_le, h⟩
    · exact fun h => h.2
  have hgasMatch : (registration.data.gas.all fun gas => gas = call.gasLimit) ↔
      ∀ gas ∈ registration.gas, call.gasLimit.toNat = gas.toNat + registration.stipend := by
    cases hsome : registration.gas with
    | none => simp [data, hsome, addStipend_none]
    | some gas =>
      obtain ⟨limit, hlimit, hval⟩ := addStipend_toNat (hgas gas hsome)
      simp [data, hsome, hlimit, ← hval, BitVec.toNat_inj, eq_comm]
  have hminGasMatch : (registration.data.minGas.all fun minGas => minGas ≤ call.gasLimit) ↔
      ∀ minGas ∈ registration.minGas,
        minGas.toNat + registration.stipend ≤ call.gasLimit.toNat := by
    cases hsome : registration.minGas with
    | none => simp [data, hsome, addStipend_none]
    | some minGas =>
      obtain ⟨limit, hlimit, hval⟩ := addStipend_toNat (hminGas minGas hsome)
      simp [data, hsome, hlimit, ← hval, BitVec.le_def]
  have hvalueMatch : (registration.data.value.all fun value => some value = call.transferValue) ↔
      ∀ value ∈ registration.value, call.transferValue = some value := by
    cases hsome : registration.value <;> simp [data, hsome, eq_comm]
  have hmatch : registration.data.isMatch registration.calldata call ∧
      call.bytecodeAddress = registration.target ↔ registration.Matches call := by
    unfold ExpectedCallData.isMatch Matches
    simp only [Bool.and_eq_true, decide_eq_true_eq]
    tauto
  unfold Seen
  rw [and_comm (b := _ = true), hmatch]
  constructor
  · exact fun h => h.2
  · intro hmatches
    refine ⟨?_, hmatches⟩
    by_contra hcheatcode
    exact hcheat call hcall (Bool.not_eq_false _ ▸ hcheatcode) hmatches

theorem Regular.missed_iff (h : registration.Regular registrations calls)
    (hmem : registration ∈ registrations) :
    registration.Missed registrations calls ↔ registration.Unmet registrations calls := by
  have hseen : calls.countP (registration.Seen ·) = calls.countP (registration.Matches ·) :=
    countP_congr fun call hcall => by simpa using h.seen_iff hcall
  have hcount : registrations.count registration =
      (registration.siblings registrations).length := by
    rw [← count_eq_length.mpr fun other hother => (h.1 other hother).symm]
    exact (count_filter (by simp)).symm
  unfold Missed Unmet
  cases hsiblings : registration.siblings registrations with
  | nil => exact absurd (mem_siblings hmem) (by simp [hsiblings])
  | cons first rest =>
    have hfirst : first = registration := h.1 first (by simp [hsiblings])
    subst hfirst
    rw [hsiblings, length_cons] at hcount
    simp only [hseen, hcount]

/-- The verdict on the test is the documented one if all registrations are regular. -/
theorem fails_iff_unmet (h : applyAll registrations = .ok state) (calls : List CallInputs)
    (hregular : ∀ registration ∈ registrations, registration.Regular registrations calls)
    (addresses : Enumeration Address) (calldatas : Address → Enumeration Bytes) :
    ((calls.foldl ExpectedCalls.call state).rootCallEnd addresses calldatas false).isSome ↔
      ∃ registration ∈ registrations, registration.Unmet registrations calls := by
  rw [rootCallEnd_iff_missed h]
  exact exists_congr fun registration => and_congr_right fun hmem =>
    (hregular registration hmem).missed_iff hmem

def valueCall (value : U256) : CallInputs :=
  ⟨[7, 8], 5000, 20, 20, 10, .transfer value, .call, false⟩

theorem exists_applyAll (h : (applyAll registrations).toOption.isSome) :
    ∃ state, applyAll registrations = .ok state := by
  cases happly : applyAll registrations with
  | error message => simp [happly, Except.toOption] at h
  | ok state => exact ⟨state, rfl⟩

def twiceAndCounted : List CallRegistration :=
  [expectCall2 20 1 [7], expectCall1 21 [] 0, expectCall2 20 1 [7]]

theorem fails_iff_unmet_twiceAndCounted :
    ∃ state, applyAll twiceAndCounted = .ok state ∧
      ∀ addresses calldatas,
        (((([1, 2].map valueCall).foldl ExpectedCalls.call state).rootCallEnd addresses calldatas
            false).isSome ∧
          ¬ ((([1, 1].map valueCall).foldl ExpectedCalls.call state).rootCallEnd addresses
            calldatas false).isSome) := by
  obtain ⟨state, hstate⟩ := exists_applyAll
    (show (applyAll twiceAndCounted).toOption.isSome by decide +kernel)
  refine ⟨state, hstate, fun addresses calldatas => ?_⟩
  rw [fails_iff_unmet hstate _ (by decide +kernel), fails_iff_unmet hstate _ (by decide +kernel)]
  decide +kernel

/-- Calls with the values 1 and 2 are expected.  The second registration only makes the first
expected twice: two calls with the value 1 pass, and one call with each value does not. -/
theorem second_value_is_not_expected :
    ∃ state, applyAll [expectCall2 20 1 [7], expectCall2 20 2 [7]] = .ok state ∧
      (∀ addresses calldatas,
        ((([1, 2].map valueCall).foldl ExpectedCalls.call state).rootCallEnd addresses calldatas
          false).isSome ∧
        ¬ ((([1, 1].map valueCall).foldl ExpectedCalls.call state).rootCallEnd addresses
          calldatas false).isSome) ∧
      (∀ registration ∈ [expectCall2 20 1 [7], expectCall2 20 2 [7]],
        ¬ registration.Unmet [expectCall2 20 1 [7], expectCall2 20 2 [7]] ([1, 2].map valueCall)) ∧
      (expectCall2 20 2 [7]).Unmet [expectCall2 20 1 [7], expectCall2 20 2 [7]]
        ([1, 1].map valueCall) := by
  obtain ⟨state, hstate⟩ := exists_applyAll
    (show (applyAll [expectCall2 20 1 [7], expectCall2 20 2 [7]]).toOption.isSome by
      decide +kernel)
  refine ⟨state, hstate, fun addresses calldatas => ?_, by decide +kernel, by decide +kernel⟩
  rw [rootCallEnd_iff_missed hstate, rootCallEnd_iff_missed hstate]
  decide +kernel

end CallRegistration

end Foundry.Cheatcodes

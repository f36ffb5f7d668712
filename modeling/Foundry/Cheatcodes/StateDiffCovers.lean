import Foundry.Cheatcodes.StateDiffRuns

/-!
# The log in the vectors

The log is cut at the accesses of the open calls and creates: each vector of the stack holds one of
the parts.  What the innermost frame does is added to the last part; its end joins the last two.
-/

namespace Foundry.Cheatcodes

open List

/-! ## Marks -/

@[simp] theorem AccountAccess.marks_markReverted (access : AccountAccess) :
    access.markReverted.marks = access.marks.map fun mark => ⟨mark.touched, true⟩ := by
  simp [AccountAccess.marks, AccountAccess.markReverted, AccountAccess.origin,
    StorageAccess.mark, StorageAccess.origin]

@[simp] theorem Ending.marks_update (ending : Ending) (call : Option CallInputs)
    (access : AccountAccess) : (ending.update call access).marks = access.marks := by
  unfold Ending.update updateCall updateCreate
  split <;> split <;> rfl

@[simp] theorem marksOf_nil : marksOf [] = [] := rfl

@[simp] theorem marksOf_cons (access : AccountAccess) (accesses : List AccountAccess) :
    marksOf (access :: accesses) = access.marks ++ marksOf accesses := rfl

@[simp] theorem marksOf_append (accesses accesses' : List AccountAccess) :
    marksOf (accesses ++ accesses') = marksOf accesses ++ marksOf accesses' := by
  simp [marksOf]

theorem marksOf_markReverted (accesses : List AccountAccess) :
    marksOf (accesses.map AccountAccess.markReverted) =
      (marksOf accesses).map fun mark => ⟨mark.touched, true⟩ := by
  induction accesses with
  | nil => rfl
  | cons access accesses ih => simp [ih]

theorem exists_of_marksOf {accesses : List AccountAccess} {origin : AccountAccess} {b : Bool}
    {marks : List Mark} (h : marksOf accesses = ⟨.account origin, b⟩ :: marks) :
    ∃ first others, accesses = first :: others ∧ first.origin = origin ∧ first.reverted = b := by
  cases accesses with
  | nil => simp at h
  | cons first others =>
    simp only [marksOf_cons, AccountAccess.marks, cons_append, List.cons.injEq,
      Mark.mk.injEq, Touched.account.injEq] at h
    exact ⟨first, others, rfl, h.1.1, h.1.2⟩

section Undone

variable {id : Nat} {undone : List Nat} {entries : List Entry}

private theorem Entry.mark_cons_of_not_mem {entry : Entry} (h : id ∉ entry.calls) :
    entry.mark (id :: undone) = entry.mark undone := by
  have hcall : ∀ call ∈ entry.calls, (call = id ∨ call ∈ undone) ↔ call ∈ undone := by
    intro call hmem
    have hne : call ≠ id := fun heq => h (heq ▸ hmem)
    simp [hne]
  refine congrArg (Mark.mk _) (Bool.eq_iff_iff.mpr ?_)
  simp only [any_eq_true, decide_eq_true_eq, mem_cons]
  exact exists_congr fun call => and_congr_right (hcall call)

theorem Entry.mark_cons_of_mem {entry : Entry} (h : id ∈ entry.calls) :
    entry.mark (id :: undone) = ⟨entry.touched, true⟩ := by
  simp only [Entry.mark, Mark.mk.injEq, true_and, any_eq_true]
  exact ⟨id, h, by simp⟩

private theorem Entry.map_mark_cons (h : ∀ entry ∈ entries, id ∉ entry.calls) :
    entries.map (Entry.mark (id :: undone)) = entries.map (Entry.mark undone) :=
  map_congr_left fun entry hentry => mark_cons_of_not_mem (h entry hentry)

end Undone

/-! ## The parts of the log -/

variable {vector : List AccountAccess} {frame : RecordedFrame}

/-- The vectors of the stack hold the parts of the log between the accesses of the open frames. -/
inductive Covers (outer : Nat) (undone : List Nat) :
    List RecordedFrame → AccessStack → List Entry → Prop
  | start : Covers outer undone [] [] []
  | root {vector : List AccountAccess} {origin : AccountAccess} {calls : List Nat}
      {rest : List Entry} (hdepth : outer + 1 ≤ origin.depth)
      (hmarks : marksOf vector = (⟨.account origin, calls⟩ :: rest).map (Entry.mark undone)) :
      Covers outer undone [] [vector] (⟨.account origin, calls⟩ :: rest)
  | frame {frame : RecordedFrame} {frames : List RecordedFrame} {vector : List AccountAccess}
      {stack : AccessStack} {before rest : List Entry}
      (below : Covers outer undone frames stack before)
      (hid : frame.id = before.length)
      (hdepth : frame.origin.depth = outer + 1 + frames.length)
      (hmarks : marksOf vector =
        (⟨.account frame.origin, frame.id :: frames.map RecordedFrame.id⟩ :: rest).map
          (Entry.mark undone))
      (hrest : ∀ entry ∈ rest, ∀ open' ∈ frame :: frames, open'.id ∈ entry.calls)
      (hbefore : ∀ entry ∈ before, frame.id ∉ entry.calls)
      (hundone : frame.id ∉ undone) :
      Covers outer undone (frame :: frames) (vector :: stack)
        (before ++ ⟨.account frame.origin, frame.id :: frames.map RecordedFrame.id⟩ :: rest)

namespace Covers

variable {outer : Nat} {undone : List Nat} {frames : List RecordedFrame} {stack : AccessStack}
  {log : List Entry} {vector' : List AccountAccess} {rest : List Entry}

section

variable (h : Covers outer undone frames stack log)

include h

theorem length_eq : stack.length =
      frames.length + if log ≠ [] ∧ 0 ∉ frames.map RecordedFrame.id then 1 else 0 := by
  induction h with
  | start => simp
  | root => simp
  | @frame frame frames vector stack before rest below hid _ _ _ _ _ ih =>
    have hroot : (before ≠ [] ∧ 0 ∉ frames.map RecordedFrame.id) ↔
        0 ∉ (frame :: frames).map RecordedFrame.id := by
      rw [map_cons, mem_cons, not_or, hid, eq_comm, length_eq_zero_iff]
    simp only [length_cons, ih, hroot, ne_eq, append_eq_nil_iff, reduceCtorEq,
      and_false, not_false_eq_true, true_and]
    omega

theorem marks_eq : marksOf stack.reverse.flatten = log.map (Entry.mark undone) := by
  induction h with
  | start => rfl
  | root _ hmarks => simpa using hmarks
  | frame _ _ _ hmarks _ _ _ ih =>
    simp only [reverse_cons, flatten_append, flatten_cons, flatten_nil,
      append_nil, marksOf_append, ih, hmarks, map_append]

theorem not_mem_undone : ∀ frame ∈ frames, frame.id ∉ undone := by
  induction h with
  | start => simp
  | root => simp
  | frame _ _ _ _ _ _ hundone ih => simpa [hundone] using ih

theorem any_calls :
    ((frames.map RecordedFrame.id).any fun call => decide (call ∈ undone)) = false := by
  simpa using h.not_mem_undone

end

theorem top (h : Covers outer undone frames (vector :: stack) log)
    (hmarks : marksOf vector' = marksOf vector) :
    Covers outer undone frames (vector' :: stack) log := by
  cases h with
  | root hdepth hvector => exact .root hdepth (hmarks.trans hvector)
  | frame below hid hdepth hvector hrest hbefore hundone =>
    exact .frame below hid hdepth (hmarks.trans hvector) hrest hbefore hundone

/-- A call that ended is undone: nothing changes for accesses that do not belong to it. -/
theorem undo {id : Nat} (h : Covers outer undone frames stack log)
    (hlog : ∀ entry ∈ log, id ∉ entry.calls) (hframes : ∀ frame ∈ frames, frame.id ≠ id) :
    Covers outer (id :: undone) frames stack log := by
  induction h with
  | start => exact .start
  | root hdepth hmarks => exact .root hdepth (by rw [hmarks, Entry.map_mark_cons hlog])
  | @frame frame frames vector stack before rest below hid hdepth hmarks hrest hbefore hundone ih =>
    have hmarks' := hmarks.trans (Entry.map_mark_cons fun entry hentry =>
      hlog entry (mem_append_right before hentry)).symm
    refine .frame (ih ?_ ?_) hid hdepth hmarks' hrest hbefore ?_
    · exact fun entry hentry => hlog entry (mem_append_left _ hentry)
    · exact fun open' hopen => hframes open' (mem_cons_of_mem _ hopen)
    · simpa [hundone] using hframes frame mem_cons_self

theorem eq_nil (h : Covers outer undone frames [] log) : frames = [] ∧ log = [] := by
  cases h
  exact ⟨rfl, rfl⟩

theorem log_ne_nil (h : Covers outer undone frames (vector :: stack) log) : log ≠ [] := by
  cases h <;> simp

theorem vector_ne_nil (h : Covers outer undone frames (vector :: stack) log) : vector ≠ [] := by
  rintro rfl
  cases h with
  | root _ hmarks => simp at hmarks
  | frame _ _ _ hmarks => simp at hmarks

theorem id_lt (h : Covers outer undone frames stack log) :
    ∀ frame ∈ frames, frame.id < log.length := by
  induction h with
  | start => simp
  | root => simp
  | frame _ hid _ _ _ _ _ ih =>
    intro frame hframe
    rcases mem_cons.mp hframe with rfl | hframe
    · simp [hid]
    · have := ih frame hframe
      simp only [length_append]
      omega

theorem length_eq_one (h : Covers outer undone (frame :: frames) stack log)
    (hlength : stack.length =
      frames.length + if log ≠ [] ∧ 0 ∉ frames.map RecordedFrame.id then 1 else 0) :
    stack.length = 1 := by
  cases h with
  | @frame _ _ vector stack before rest below hid _ _ _ _ _ =>
    have hbelow := below.length_eq
    rw [length_cons] at hlength
    have hbefore : before = [] := by
      by_contra hne
      by_cases hzero : 0 ∉ frames.map RecordedFrame.id
      · rw [if_pos ⟨hne, hzero⟩] at hbelow
        split at hlength <;> omega
      · rw [if_neg fun hroot => hzero hroot.2] at hlength
        omega
    have hframes : frames = [] := by
      refine eq_nil_iff_forall_not_mem.mpr fun frame hframe => ?_
      have := below.id_lt frame hframe
      simp [hbefore] at this
    simpa [hbefore, hframes] using hbelow

theorem extend {entries : List Entry} (h : Covers outer undone frames (vector :: stack) log)
    (hmarks : marksOf vector' = marksOf vector ++ entries.map (Entry.mark undone))
    (hentries : ∀ entry ∈ entries, ∀ frame ∈ frames, frame.id ∈ entry.calls) :
    Covers outer undone frames (vector' :: stack) (log ++ entries) := by
  cases h with
  | root hdepth hvector => exact .root hdepth (by simp [hmarks, hvector])
  | frame below hid hdepth hvector hrest hbefore hundone =>
    rw [append_assoc]
    refine .frame below hid hdepth (by simp [hmarks, hvector]) ?_ hbefore hundone
    intro entry hentry
    rcases mem_append.mp hentry with hentry | hentry
    · exact hrest entry hentry
    · exact hentries entry hentry

theorem enter {access : AccountAccess} {call : Option RecordableCall}
    (h : Covers outer undone frames stack log)
    (hfresh : access.marks = [⟨.account access.origin, false⟩])
    (hdepth : access.depth = outer + 1 + frames.length)
    (hlog : ∀ entry ∈ log, log.length ∉ entry.calls) (hundone : log.length ∉ undone) :
    Covers outer undone (⟨call, log.length, access.origin⟩ :: frames) ([access] :: stack)
      (log ++ [⟨.account access.origin, log.length :: frames.map RecordedFrame.id⟩]) := by
  refine .frame h rfl hdepth ?_ (by simp) hlog hundone
  simpa [hfresh, Entry.mark, hundone] using h.not_mem_undone

theorem merge {origin : AccountAccess} {calls : List Nat}
    (h : Covers outer undone frames stack log) (hdepth : origin.depth = outer + 1 + frames.length)
    (hmarks : marksOf vector = (⟨.account origin, calls⟩ :: rest).map (Entry.mark undone))
    (hentries : ∀ entry ∈ (⟨.account origin, calls⟩ :: rest : List Entry),
      ∀ frame ∈ frames, frame.id ∈ entry.calls) :
    Covers outer undone frames (mergeInto vector stack)
      (log ++ ⟨.account origin, calls⟩ :: rest) := by
  cases stack with
  | nil =>
    cases h
    exact .root (by simp [hdepth]) hmarks
  | cons parent below => exact h.extend (by rw [marksOf_append, hmarks]) hentries

theorem mem_calls_of_mem
    (hrest : ∀ entry ∈ rest, ∀ open' ∈ frame :: frames, open'.id ∈ entry.calls) :
    ∀ entry ∈ (⟨.account frame.origin, frame.id :: frames.map RecordedFrame.id⟩ :: rest :
        List Entry), ∀ open' ∈ frame :: frames, open'.id ∈ entry.calls := by
  intro entry hentry open' hopen
  rcases mem_cons.mp hentry with rfl | hentry
  · exact mem_map_of_mem hopen
  · exact hrest entry hentry open' hopen

theorem leave (h : Covers outer undone (frame :: frames) (vector :: stack) log)
    (hmarks : marksOf vector' = marksOf vector) :
    Covers outer undone frames (mergeInto vector' stack) log := by
  cases h with
  | frame below hid hdepth hvector hrest hbefore hundone =>
    have hcalls := mem_calls_of_mem hrest
    refine below.merge hdepth (hmarks.trans hvector) ?_
    intro entry hentry open' hopen
    exact hcalls entry hentry open' (mem_cons_of_mem _ hopen)

theorem leave_undone (h : Covers outer undone (frame :: frames) (vector :: stack) log)
    (hmarks : marksOf vector' = (marksOf vector).map fun mark => ⟨mark.touched, true⟩) :
    Covers outer (frame.id :: undone) frames (mergeInto vector' stack) log := by
  cases h with
  | frame below hid hdepth hvector hrest hbefore hundone =>
    have hframes : ∀ open' ∈ frames, open'.id ≠ frame.id := fun open' hopen =>
      hid ▸ Nat.ne_of_lt (below.id_lt open' hopen)
    have hcalls := mem_calls_of_mem hrest
    refine (below.undo hbefore hframes).merge hdepth ?_ ?_
    · rw [hmarks, hvector, map_map]
      refine map_congr_left fun entry hentry => (Entry.mark_cons_of_mem ?_).symm
      exact hcalls entry hentry frame mem_cons_self
    · intro entry hentry open' hopen
      exact hcalls entry hentry open' (mem_cons_of_mem _ hopen)

end Covers

/-! ## Storage accesses -/

def Mark.account? (mark : Mark) : Option AccountAccess :=
  match mark.touched with
  | .account origin => some origin
  | .storage _ => none

private theorem filterMap_marksOf (accesses : List AccountAccess) :
    (marksOf accesses).filterMap Mark.account? = accesses.map AccountAccess.origin := by
  have hstorage : ∀ storage : List StorageAccess,
      (storage.map StorageAccess.mark).filterMap Mark.account? = [] := by
    intro storage
    simp [Mark.account?, StorageAccess.mark]
  induction accesses with
  | nil => rfl
  | cons access accesses ih =>
    simp [AccountAccess.marks, hstorage, ih, Mark.account?]

theorem marks_addStorage (access : AccountAccess) (storage : StorageAccess) :
    (access.addStorage storage).marks = access.marks ++ [storage.mark] := by
  simp [AccountAccess.marks, AccountAccess.addStorage, AccountAccess.origin]

/-- The three cases of a storage access, by the accesses since the start of the context. -/
theorem marksOf_appendStorageAccess {storage : StorageAccess} {depth : Nat}
    {first : AccountAccess} (others : List AccountAccess) (hdepth : first.depth < depth) :
    marksOf (appendStorageAccess storage depth (first :: others)) =
      marksOf (first :: others) ++
        match (others.map AccountAccess.origin).getLast? with
        | none => [storage.mark]
        | some last =>
          if last.kind = .resume then [storage.mark]
          else
            [⟨.account (first.origin.resume storage).origin, first.reverted⟩, storage.mark] := by
  simp only [appendStorageAccess, if_pos hdepth, getLast?_map]
  cases hlast : others.getLast? with
  | none =>
    have hnil : others = [] := getLast?_eq_none_iff.mp hlast
    simp [hnil, marks_addStorage]
  | some last =>
    have hothers : others = others.dropLast ++ [last] :=
      (dropLast_append_getLast? last hlast).symm
    by_cases hkind : last.kind = .resume
    · simp only [hkind, Option.map_some, AccountAccess.origin]
      conv_rhs => rw [hothers]
      simp [marks_addStorage]
    · simp only [hkind, Option.map_some, AccountAccess.origin]
      simp [AccountAccess.marks, AccountAccess.resume, AccountAccess.origin]

theorem Covers.appendStorageAccess_root {outer : Nat} {undone : List Nat} {stack : AccessStack}
    {log : List Entry} (h : Covers outer undone [] (vector :: stack) log)
    (storage : StorageAccess) :
    appendStorageAccess storage (outer + 1) vector = vector := by
  cases h with
  | root hdepth hmarks =>
    obtain ⟨first, others, rfl, rfl, _⟩ := exists_of_marksOf hmarks
    have hshallow : ¬ first.depth < outer + 1 := Nat.not_lt.mpr hdepth
    simp [appendStorageAccess, hshallow]

namespace Recording

variable {self : Recording}

theorem storageEntries_calls {storage : StorageAccess} :
    ∀ entry ∈ self.storageEntries storage, entry.calls = self.calls := by
  intro entry hentry
  unfold storageEntries at hentry
  split at hentry
  · simp at hentry
  · split at hentry
    · rw [mem_singleton.mp hentry]
    · split at hentry
      · rw [mem_singleton.mp hentry]
      · rcases mem_pair.mp hentry with rfl | rfl <;> rfl

theorem marksOf_storageEntries {frames : List RecordedFrame} {stack : AccessStack}
    (hframes : self.frames = frame :: frames)
    (h : Covers self.outer self.undone self.frames (vector :: stack) self.log)
    {storage : StorageAccess} (hfresh : storage.reverted = false) :
    marksOf (appendStorageAccess storage self.depth vector) =
      marksOf vector ++ (self.storageEntries storage).map (Entry.mark self.undone) := by
  have hany : (self.calls.any fun call => decide (call ∈ self.undone)) = false := h.any_calls
  have hmark : storage.mark = Entry.mark self.undone ⟨.storage storage.origin, self.calls⟩ := by
    simp [StorageAccess.mark, Entry.mark, hfresh, hany]
  rw [hframes] at h
  generalize hlog : self.log = log at h
  cases h with
  | @frame _ _ _ _ before rest below hid horiginDepth hmarks hrest hbefore hundone =>
    obtain ⟨first, others, rfl, horigin, hreverted⟩ := exists_of_marksOf hmarks
    have hdepth : first.depth < self.depth := by
      have hfirst : first.origin.depth = self.outer + 1 + frames.length := by
        rw [horigin, horiginDepth]
      simp only [Recording.depth, hframes]
      exact hfirst ▸ Nat.lt_succ_self _
    have hothers : others.map AccountAccess.origin = rest.filterMap Entry.account? := by
      have haccounts := congrArg (List.filterMap Mark.account?) hmarks
      rw [filterMap_marksOf, filterMap_map] at haccounts
      change _ = List.filterMap Entry.account? _ at haccounts
      simpa [Entry.account?, horigin] using haccounts
    have hdrop : self.log.drop (frame.id + 1) = rest := by simp [hlog, hid]
    have hfalse : first.reverted = false := by
      rw [hreverted, ← hany, Recording.calls, hframes, map_cons]
    rw [marksOf_appendStorageAccess others hdepth, hothers, hfalse, horigin]
    simp only [storageEntries, hframes, hdrop]
    cases (rest.filterMap Entry.account?).getLast? with
    | none => simp [hmark]
    | some last =>
      by_cases hkind : last.kind = .resume
      · simp [hkind, hmark]
      · simp [hkind, hmark, Entry.mark, hany]

end Recording

end Foundry.Cheatcodes

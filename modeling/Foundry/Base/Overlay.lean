import Foundry.Base.HashMap

/-!
# Records laid over records

A record has marks and slots.  Parts of one record are taken over into another one, either the whole
of it or one slot at a time.  A record that is not there yet is made from the source, with its
marks.
-/

namespace Foundry.Overlay

open HashMap

structure Stored (M K V : Type) where
  marks : M
  slots : HashMap K V

inductive Share (K : Type) where
  | whole
  | slot (k : K)

variable {M K V : Type} [DecidableEq K]

def restrict (slots : HashMap K V) (k : K) : HashMap K V :=
  match slots.get k with
  | none => .empty
  | some v => HashMap.empty.insert k v

def takePart (source : Stored M K V) (target : Option (Stored M K V)) : Share K → Stored M K V
  | .whole =>
    { source with
      slots :=
        match target with
        | none => source.slots
        | some target => target.slots.extend source.slots }
  | .slot k =>
    match target with
    | none => { source with slots := restrict source.slots k }
    | some target => { target with slots := target.slots.extend (restrict source.slots k) }

/-- Nothing is taken over from a source that is not there. -/
def takeParts (source target : Option (Stored M K V)) (parts : List (Share K)) :
    Option (Stored M K V) :=
  match source with
  | none => target
  | some source => parts.foldl (fun target part => some (takePart source target part)) target

def slotOf (record : Option (Stored M K V)) (k : K) : Option V := record.bind (·.slots.get k)

def covers (parts : List (Share K)) (k : K) : Bool :=
  parts.any fun
    | .whole => true
    | .slot k' => decide (k' = k)

def hasWhole (parts : List (Share K)) : Bool :=
  parts.any fun
    | .whole => true
    | .slot _ => false

/-- The marks after parts are taken over: those of the source where it is taken as a whole, or where
the target was not there. -/
def marksAfter (source target : Option (Stored M K V)) (parts : List (Share K)) : Option M :=
  match source with
  | none => target.map (·.marks)
  | some source =>
    if hasWhole parts then some source.marks
    else
      match target with
      | some target => some target.marks
      | none => if parts.isEmpty then none else some source.marks

section

variable (source target : Option (Stored M K V)) (parts : List (Share K))

theorem takeParts_append (parts parts' : List (Share K)) :
    takeParts source target (parts ++ parts') =
      takeParts source (takeParts source target parts) parts' := by
  cases source with
  | none => rfl
  | some source => exact List.foldl_append

@[simp] theorem takeParts_nil : takeParts source target [] = target := by
  cases source <;> rfl

theorem view_foldl {α σ : Type} {source : Option (Stored M K V)} {step : σ → α → σ}
    (view : σ → Option (Stored M K V)) {parts : α → List (Share K)}
    (hstep : ∀ s a, view (step s a) = takeParts source (view s) (parts a)) (l : List α) (s : σ) :
    view (l.foldl step s) = takeParts source (view s) (l.flatMap parts) := by
  induction l generalizing s with
  | nil => rw [List.foldl_nil, List.flatMap_nil, takeParts_nil]
  | cons a l ih => rw [List.foldl_cons, ih, hstep, List.flatMap_cons, takeParts_append]

theorem view_insert {C A : Type} [DecidableEq C] {source target merged : HashMap C A} {c : C}
    {view : A → Stored M K V} {part : Share K} (hnone : source.get c = none → merged = target)
    (hsome : ∀ a, source.get c = some a → ∃ b, merged = target.insert c b ∧
      view b = takePart (view a) ((target.get c).map view) part) (c' : C) :
    (merged.get c').map view =
      takeParts ((source.get c').map view) ((target.get c').map view)
        (if c = c' then [part] else []) := by
  cases hget : source.get c with
  | none =>
    rw [hnone hget]
    split
    · next hc => rw [← hc, hget]; rfl
    · rw [takeParts_nil]
  | some a =>
    obtain ⟨b, hmerged, hview⟩ := hsome a hget
    rw [hmerged]
    split
    · next hc =>
      rw [← hc, hget, get_insert_self, Option.map_some, hview]
      rfl
    · next hc => rw [takeParts_nil, get_insert_of_ne _ _ (Ne.symm hc)]

theorem get_restrict (slots : HashMap K V) (k k' : K) :
    (restrict slots k).get k' = if k = k' then slots.get k' else none := by
  unfold restrict
  by_cases hk : k = k'
  · subst hk
    rw [if_pos rfl]
    cases hget : slots.get k with
    | none => rfl
    | some v => exact get_insert_self _ k v
  · rw [if_neg hk]
    cases slots.get k with
    | none => rfl
    | some v => exact get_insert_of_ne _ v (Ne.symm hk)

/-- One step: a slot of the source wins where the part covers it. -/
theorem get_takePart (source : Stored M K V) (target : Option (Stored M K V)) (part : Share K)
    (k : K) : (takePart source target part).slots.get k =
      if covers [part] k then (source.slots.get k).or (slotOf target k) else slotOf target k := by
  cases part with
  | whole =>
    cases target with
    | none => exact Option.or_none.symm
    | some target => exact get_extend ..
  | slot k' =>
    cases target with
    | none =>
      simp only [takePart, get_restrict, covers, List.any_cons, List.any_nil, Bool.or_false,
        decide_eq_true_eq, slotOf, Option.bind_none, Option.or_none]
    | some target =>
      simp only [takePart, get_extend, get_restrict, covers, List.any_cons,
        List.any_nil, Bool.or_false, decide_eq_true_eq]
      split <;> rfl

theorem covers_cons (part : Share K) (parts : List (Share K)) (k : K) :
    covers (part :: parts) k = (covers [part] k || covers parts k) := by
  simp [covers]

/-- All steps: a slot of the source wins where some part covers it. -/
theorem slotOf_takeParts (k : K) :
    slotOf (takeParts source target parts) k =
      if covers parts k then (slotOf source k).or (slotOf target k) else slotOf target k := by
  cases source with
  | none =>
    have hnone : slotOf (none : Option (Stored M K V)) k = none := rfl
    rw [hnone, Option.none_or, ite_self]
    rfl
  | some source =>
    induction parts generalizing target with
    | nil => rfl
    | cons part parts ih =>
      have hstep : slotOf (some (takePart source target part)) k = _ :=
        get_takePart source target part k
      refine (ih (some (takePart source target part))).trans ?_
      rw [hstep, covers_cons part parts k]
      have hsource : slotOf (some source) k = source.slots.get k := rfl
      rw [hsource]
      cases covers [part] k <;> cases covers parts k <;> cases source.slots.get k <;> rfl

theorem marks_takeParts :
    (takeParts source target parts).map (·.marks) = marksAfter source target parts := by
  cases source with
  | none => rfl
  | some source =>
    induction parts generalizing target with
    | nil => cases target <;> rfl
    | cons part parts ih =>
      refine (ih (some (takePart source target part))).trans ?_
      cases part with
      | whole =>
        have hwhole : marksAfter (some source) target (.whole :: parts) = some source.marks := rfl
        rw [hwhole]
        simp only [marksAfter, takePart, ite_self]
      | slot k =>
        cases target with
        | some target => rfl
        | none =>
          rfl

/-- Without the whole of the source the marks are those of the target, or of the source where the
target was not there. -/
theorem marks_takeParts_of_no_whole {parts : List (Share K)} (h : hasWhole parts = false) :
    (takeParts source target parts).map (·.marks) = target.map (·.marks) ∨
      target = none ∧ ∃ record, source = some record ∧
        (takeParts source target parts).map (·.marks) = some record.marks := by
  rw [marks_takeParts]
  cases source with
  | none => exact .inl rfl
  | some record =>
    cases target with
    | some target => exact .inl (by simp [marksAfter, h])
    | none =>
      cases parts with
      | nil => exact .inl rfl
      | cons part parts => exact .inr ⟨rfl, record, rfl, by simp [marksAfter, h]⟩

end

end Foundry.Overlay

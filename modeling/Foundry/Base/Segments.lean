import Mathlib.Data.List.Forall2

/-!
# Cutting a list into segments

A list of demands on segments, and a list that is to be cut so that the first segments meet the
demands in turn.  If no segment that meets a demand is the start of another, there is at most
one cut.
-/

namespace Foundry.Segments

open List

variable {ι α : Type} {meets : ι → List α → Prop}

/-- The segments meet the demands, one each, and the list goes on with `rest`. -/
structure IsCut (meets : ι → List α → Prop) (demands : List ι) (list : List α)
    (segments : List (List α)) (rest : List α) : Prop where
  split : list = segments.flatten ++ rest
  met : List.Forall₂ meets demands segments

def Cuttable (meets : ι → List α → Prop) (demands : List ι) (list : List α) : Prop :=
  ∃ segments rest, IsCut meets demands list segments rest

/-- The list can be cut so that the rest has a property. -/
def CuttableThen (meets : ι → List α → Prop) (demands : List ι) (continues : List α → Prop)
    (list : List α) : Prop :=
  ∃ segments rest, IsCut meets demands list segments rest ∧ continues rest

variable {list rest : List α} {demands : List ι} {segments : List (List α)}
  {meets' : ι → List α → Prop} {continues : List α → Prop} {test : α → Bool}

theorem cuttableThen_nil : CuttableThen meets [] continues list ↔ continues list := by
  constructor
  · rintro ⟨_, rest, ⟨rfl, hmet⟩, hrest⟩
    cases hmet
    exact hrest
  · exact fun hrest => ⟨[], list, ⟨rfl, .nil⟩, hrest⟩

theorem cuttableThen_cons {demand : ι} :
    CuttableThen meets (demand :: demands) continues list ↔
      ∃ segment rest, list = segment ++ rest ∧ meets demand segment ∧
        CuttableThen meets demands continues rest := by
  constructor
  · rintro ⟨_, rest, ⟨rfl, hmet⟩, hthen⟩
    cases hmet with
    | @cons _ segment _ segments hmeets hrest =>
      refine ⟨segment, segments.flatten ++ rest, ?_, hmeets, segments, rest, ⟨rfl, hrest⟩, hthen⟩
      rw [flatten_cons, append_assoc]
  · rintro ⟨segment, _, rfl, hmeets, segments, rest, ⟨rfl, hmet⟩, hthen⟩
    refine ⟨segment :: segments, rest, ⟨?_, .cons hmeets hmet⟩, hthen⟩
    rw [flatten_cons, append_assoc]

theorem cuttableThen_true :
    CuttableThen meets demands (fun _ => True) list ↔ Cuttable meets demands list := by
  simp [CuttableThen, Cuttable]

theorem IsCut.imp (himp : ∀ demand segment, meets demand segment → meets' demand segment)
    (h : IsCut meets demands list segments rest) : IsCut meets' demands list segments rest :=
  ⟨h.split, h.met.imp himp⟩

theorem IsCut.and (h : IsCut meets demands list segments rest)
    (h' : List.Forall₂ meets' demands segments) :
    IsCut (fun demand segment => meets demand segment ∧ meets' demand segment) demands list
      segments rest := by
  obtain ⟨hsplit, hmet⟩ := h
  refine ⟨hsplit, ?_⟩
  clear hsplit
  induction hmet with
  | nil => exact .nil
  | cons hmeets _ ih =>
    cases h' with
    | cons hmeets' hrest => exact .cons ⟨hmeets, hmeets'⟩ (ih hrest)

/-- Of two starts of one list that meet the demand, neither is longer. -/
def PrefixFree (meets : List α → Prop) : Prop :=
  ∀ segment segment' rest rest' : List α, meets segment → meets segment' →
    segment ++ rest = segment' ++ rest' → segment = segment'

theorem IsCut.unique (hfree : ∀ demand, PrefixFree (meets demand)) {segments' : List (List α)}
    {rest' : List α} (h : IsCut meets demands list segments rest)
    (h' : IsCut meets demands list segments' rest') : segments = segments' := by
  obtain ⟨hlist, hmet⟩ := h
  obtain ⟨hlist', hmet'⟩ := h'
  rw [hlist] at hlist'
  clear hlist
  induction hmet generalizing segments' with
  | nil =>
    cases hmet'
    rfl
  | cons hmeets _ ih =>
    cases hmet' with
    | cons hmeets' hmet' =>
      rw [flatten_cons, flatten_cons, append_assoc, append_assoc] at hlist'
      cases hfree _ _ _ _ _ hmeets hmeets' hlist'
      rw [ih (append_cancel_left hlist') hmet']

/-- The segment ends with its `k`-th element that passes the test. -/
def EndsAt (test : α → Bool) (k : Nat) (segment : List α) : Prop :=
  ∃ init last, segment = init ++ [last] ∧ test last = true ∧ segment.countP test = k

theorem EndsAt.countP_eq {k : Nat} {segment : List α}
    (h : EndsAt test k segment) : segment.countP test = k := by
  obtain ⟨_, _, _, _, hcount⟩ := h
  exact hcount

theorem EndsAt.countP_lt {k : Nat} {start more : List α}
    (h : EndsAt test k (start ++ more)) (hmore : more ≠ []) : start.countP test < k := by
  obtain ⟨init, last, hsegment, htest, hcount⟩ := h
  obtain ⟨more, last', rfl⟩ := eq_nil_or_concat' more |>.resolve_left hmore
  rw [← append_assoc] at hsegment
  obtain ⟨_, hlast⟩ := append_inj' hsegment rfl
  cases hlast
  rw [← hcount, countP_append, countP_append, countP_singleton, if_pos htest]
  omega

theorem EndsAt.prefixFree (test : α → Bool) (k : Nat) : PrefixFree (EndsAt test k) := by
  intro segment segment' rest rest' h h' heq
  have hcount := h.countP_eq
  have hcount' := h'.countP_eq
  rcases append_eq_append_iff.mp heq with ⟨more, rfl, _⟩ | ⟨more, rfl, _⟩
  · by_contra hne
    have hmore : more ≠ [] := by
      rintro rfl
      exact hne (append_nil _).symm
    have hlt := h'.countP_lt hmore
    omega
  by_contra hne
  have hmore : more ≠ [] := by
    rintro rfl
    exact hne (append_nil _)
  have hlt := h.countP_lt hmore
  omega

end Foundry.Segments

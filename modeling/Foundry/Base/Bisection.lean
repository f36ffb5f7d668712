import Mathlib.Algebra.Group.Nat.Defs
import Mathlib.Data.List.Basic
import Mathlib.Data.Nat.Basic

/-!
# Shrinking by bisection

A value that fails a test is shrunk by a tree of candidates: as long as the current one fails, the
tree is asked for a simpler one, and after one that passes for a more complicated one, until it
refuses.  A tree over natural numbers that halves a window finds the least number that fails, and
so does every tree that runs as such a window does.
-/

namespace Foundry.Bisection

/-! ## Trees of candidates -/

/-- The current candidate, and the two ways to go on.  These tell whether there is another
candidate; `none` is an operation that overflows. -/
structure ValueTree (T V : Type) where
  current : T → V
  simplify : T → Option (Bool × T)
  complicate : T → Option (Bool × T)

namespace ValueTree

variable {T V : Type}

/-- A candidate is tested, and the tree is asked for the next one. -/
def next (tree : ValueTree T V) (fails : V → Bool) (t : T) : Option (Bool × T) :=
  if fails (tree.current t) then tree.simplify t else tree.complicate t

/-- The candidates that are tested, in their order; `none` if the fuel is out or an operation
overflows. -/
def shrink (tree : ValueTree T V) (fails : V → Bool) : Nat → T → Option (List V)
  | 0, _ => none
  | fuel + 1, t =>
    match tree.next fails t with
    | none => none
    | some (false, _) => some [tree.current t]
    | some (true, t') => (tree.shrink fails fuel t').map (tree.current t :: ·)

def lastFailing (fails : V → Bool) (values : List V) : Option V := (values.filter fails).getLast?

theorem lastFailing_cons {fails : V → Bool} {values : List V} {v : V}
    (h : lastFailing fails values = some v) (first : V) :
    lastFailing fails (first :: values) = some v := by
  unfold lastFailing at h ⊢
  rw [List.filter_cons]
  split
  · rw [List.getLast?_cons, h]
    rfl
  · exact h

section Simulation

variable {T' V' : Type} {tree : ValueTree T V} {tree' : ValueTree T' V'} {fails : V → Bool}
  {fails' : V' → Bool}

/-- If the steps of two trees correspond, so do the candidates. -/
theorem shrink_of_simulation (R : T → T' → Prop) (view : V → V')
    (hcurrent : ∀ t t', R t t' → view (tree.current t) = tree'.current t')
    (hnext : ∀ t t' goesOn u', R t t' → tree'.next fails' t' = some (goesOn, u') →
      ∃ u, tree.next fails t = some (goesOn, u) ∧ (goesOn = true → R u u'))
    {fuel : Nat} {t : T} {t' : T'} (h : R t t') {values' : List V'}
    (hvalues : tree'.shrink fails' fuel t' = some values') :
    ∃ values, tree.shrink fails fuel t = some values ∧ values.map view = values' ∧
      ∀ v ∈ values, ∃ t t', R t t' ∧ tree.current t = v := by
  induction fuel generalizing t t' values' with
  | zero => cases hvalues
  | succ fuel ih =>
    rw [shrink] at hvalues ⊢
    cases hstep : tree'.next fails' t' with
    | none => simp [hstep] at hvalues
    | some answer =>
      obtain ⟨goesOn, u'⟩ := answer
      obtain ⟨u, hu, hrelated⟩ := hnext t t' goesOn u' h hstep
      rw [hu]
      cases goesOn with
      | false =>
        simp only [hstep, Option.some.injEq] at hvalues
        refine ⟨_, rfl, by simp [hcurrent t t' h, ← hvalues], fun v hv => ?_⟩
        exact ⟨t, t', h, (List.mem_singleton.mp hv).symm⟩
      | true =>
        simp only [hstep, Option.map_eq_some_iff] at hvalues
        obtain ⟨rest', hrest', rfl⟩ := hvalues
        obtain ⟨rest, hrest, hmap, hstates⟩ := ih (hrelated rfl) hrest'
        refine ⟨tree.current t :: rest, by simp [hrest], by simp [hcurrent t t' h, hmap],
          fun v hv => ?_⟩
        rcases List.mem_cons.mp hv with rfl | hlater
        · exact ⟨t, t', h, rfl⟩
        · exact hstates v hlater

end Simulation

end ValueTree

/-! ## Windows -/

/-- The numbers from `lo` to `hi`, with the current candidate. -/
structure Window where
  lo : Nat
  curr : Nat
  hi : Nat

namespace Window

def middle (lo hi : Nat) : Nat := lo + (hi - lo) / 2

/-- The candidate moves to the middle; there is no other one if it was there. -/
def reposition (w : Window) : Bool × Window :=
  if middle w.lo w.hi = w.curr then (false, w)
  else (true, { w with curr := middle w.lo w.hi })

def simplify (w : Window) : Bool × Window :=
  if w.hi ≤ w.lo then (false, w) else reposition { w with hi := w.curr }

def complicate (w : Window) : Bool × Window :=
  if w.hi ≤ w.lo then (false, w) else reposition { w with lo := w.curr + 1 }

def tree : ValueTree Window Nat where
  current := curr
  simplify w := some w.simplify
  complicate w := some w.complicate

@[simp] theorem current_tree (w : Window) : tree.current w = w.curr := rfl

def start (s : Nat) : Window := ⟨0, s, s⟩

/-- The least number that fails is in the window, and so is the candidate: in the middle, or at
the end, as at the start. -/
structure Searches (k : Nat) (w : Window) : Prop where
  lo_le : w.lo ≤ k
  le_hi : k ≤ w.hi
  placed : w.curr = middle w.lo w.hi ∨ w.curr = w.hi

theorem le_middle (lo hi : Nat) : lo ≤ middle lo hi := Nat.le_add_right _ _

theorem searches_start {s k : Nat} (h : k ≤ s) : Searches k (start s) :=
  ⟨Nat.zero_le k, h, .inr rfl⟩

namespace Searches

variable {k : Nat} {w : Window}

theorem lo_le_curr (h : Searches k w) : w.lo ≤ w.curr := by
  have hle := Nat.le_trans h.lo_le h.le_hi
  rcases h.placed with hcurr | hcurr
  · exact hcurr ▸ le_middle w.lo w.hi
  · exact hcurr ▸ hle

theorem curr_le_hi (h : Searches k w) : w.curr ≤ w.hi := by
  have hle := Nat.le_trans h.lo_le h.le_hi
  rcases h.placed with hcurr | hcurr
  · unfold middle at hcurr
    omega
  · exact Nat.le_of_eq hcurr

theorem simplify (h : Searches k w) (hfails : k ≤ w.curr) :
    (w.curr = k ∧ w.simplify.1 = false) ∨
      (w.lo < w.curr ∧ w.simplify = (true, ⟨w.lo, middle w.lo w.curr, w.curr⟩)) := by
  have hlo := h.lo_le
  have hcurr := h.curr_le_hi
  unfold Window.simplify reposition
  by_cases hempty : w.hi ≤ w.lo
  · exact .inl ⟨by omega, by simp [hempty]⟩
  rw [if_neg hempty]
  by_cases hleast : w.curr = w.lo
  · have hmiddle : middle w.lo w.curr = w.curr := by
      unfold middle
      omega
    exact .inl ⟨by omega, by simp [hmiddle]⟩
  · have hmiddle : middle w.lo w.curr ≠ w.curr := by
      unfold middle
      omega
    exact .inr ⟨by omega, by simp [hmiddle]⟩

theorem complicate (h : Searches k w) (hpasses : w.curr < k) :
    w.complicate = (true, ⟨w.curr + 1, middle (w.curr + 1) w.hi, w.hi⟩) := by
  have hlo := h.lo_le_curr
  have hhi := h.le_hi
  have hmiddle : middle (w.curr + 1) w.hi ≠ w.curr := by
    have := le_middle (w.curr + 1) w.hi
    omega
  simp only [Window.complicate, reposition, if_neg (show ¬ w.hi ≤ w.lo by omega), if_neg hmiddle]

theorem next_of_fails (h : k ≤ w.curr) : tree.next (fun x => decide (k ≤ x)) w = some w.simplify :=
  if_pos (decide_eq_true h)

theorem next_of_passes (h : ¬ k ≤ w.curr) :
    tree.next (fun x => decide (k ≤ x)) w = some w.complicate := by
  have hfalse : decide (k ≤ tree.current w) = false := decide_eq_false h
  rw [ValueTree.next, hfalse]
  rfl

/-- The search stops at the least number that fails, or goes on in the middle of a window in which
it is. -/
theorem next (h : Searches k w) :
    (w.curr = k ∧ ∃ u, tree.next (fun x => decide (k ≤ x)) w = some (false, u)) ∨
      ∃ u, tree.next (fun x => decide (k ≤ x)) w = some (true, u) ∧ Searches k u ∧
        u.curr = middle u.lo u.hi ∧ u.hi ≤ w.hi ∧ w.lo < w.hi ∧ u.hi - u.lo ≤ w.hi - w.lo ∧
          (w.curr = middle w.lo w.hi → 2 * (u.hi - u.lo) ≤ w.hi - w.lo) := by
  have hlo := h.lo_le
  have hcurr := h.curr_le_hi
  have hle := h.lo_le_curr
  by_cases hfails : k ≤ w.curr
  · have hnext := next_of_fails hfails
    rcases h.simplify hfails with ⟨hleast, hstop⟩ | ⟨hlt, hstep⟩
    · exact .inl ⟨hleast, w.simplify.2, hnext.trans (by rw [← hstop])⟩
    refine .inr ⟨_, hnext.trans (congrArg some hstep), ⟨hlo, hfails, .inl rfl⟩, rfl, hcurr,
      Nat.lt_of_lt_of_le hlt hcurr, ?_, ?_⟩
    · exact Nat.sub_le_sub_right hcurr w.lo
    · intro hmiddle
      unfold middle at hmiddle
      show 2 * (w.curr - w.lo) ≤ w.hi - w.lo
      omega
  · have hpasses : w.curr < k := Nat.lt_of_not_le hfails
    have hnext := next_of_passes hfails
    refine .inr ⟨_, hnext.trans (congrArg some (h.complicate hpasses)),
      ⟨hpasses, h.le_hi, .inl rfl⟩, rfl, Nat.le_refl _, ?_, ?_, ?_⟩
    · have := h.le_hi
      omega
    · show w.hi - (w.curr + 1) ≤ w.hi - w.lo
      omega
    · intro hmiddle
      unfold middle at hmiddle
      show 2 * (w.hi - (w.curr + 1)) ≤ w.hi - w.lo
      omega

theorem of_next (h : Searches k w) {goesOn : Bool} {u : Window}
    (hu : tree.next (fun x => decide (k ≤ x)) w = some (goesOn, u)) (hgoes : goesOn = true) :
    Searches k u := by
  rcases h.next with ⟨_, _, hstop⟩ | ⟨u', hstep, hsearches, _⟩
  · rw [hstop] at hu
    cases hu
    cases hgoes
  · rw [hstep] at hu
    cases hu
    exact hsearches

def Finds (k fuel : Nat) (w : Window) : Prop :=
  ∃ values, tree.shrink (fun x => decide (k ≤ x)) fuel w = some values ∧
    (∀ v ∈ values, v ≤ w.hi) ∧
    ValueTree.lastFailing (fun x => decide (k ≤ x)) values = some k

theorem finds_of_stop (hleast : w.curr = k) (hhi : w.curr ≤ w.hi)
    (hstop : ∃ u, tree.next (fun x => decide (k ≤ x)) w = some (false, u)) (fuel : Nat) :
    Finds k (fuel + 1) w := by
  obtain ⟨u, hu⟩ := hstop
  refine ⟨[w.curr], ?_, ?_, ?_⟩
  · rw [ValueTree.shrink, hu]
    rfl
  · simpa using hhi
  · simp [ValueTree.lastFailing, hleast]

theorem finds_of_step {u : Window} (hhi : w.curr ≤ w.hi)
    (hstep : tree.next (fun x => decide (k ≤ x)) w = some (true, u)) (hle : u.hi ≤ w.hi)
    {fuel : Nat} (hu : Finds k fuel u) : Finds k (fuel + 1) w := by
  obtain ⟨values, hvalues, hbound, hlast⟩ := hu
  refine ⟨w.curr :: values, ?_, ?_, ValueTree.lastFailing_cons hlast _⟩
  · rw [ValueTree.shrink, hstep]
    simp [hvalues]
  · exact List.forall_mem_cons.mpr ⟨hhi, fun v hv => Nat.le_trans (hbound v hv) hle⟩

/-- From the middle of a window the search takes one step more than it can be halved. -/
theorem finds (h : Searches k w) (hmiddle : w.curr = middle w.lo w.hi) {n fuel : Nat}
    (hsize : w.hi - w.lo < 2 ^ n) (hfuel : n < fuel) :
    Finds k fuel w := by
  obtain ⟨fuel, rfl⟩ := Nat.exists_eq_succ_of_ne_zero (Nat.ne_of_gt (Nat.zero_lt_of_lt hfuel))
  have hhi := h.curr_le_hi
  induction n generalizing w fuel with
  | zero =>
    rcases h.next with ⟨hleast, hstop⟩ | ⟨_, _, _, _, _, hlt, _⟩
    · exact finds_of_stop hleast hhi hstop fuel
    · omega
  | succ n ih =>
    rcases h.next with ⟨hleast, hstop⟩ | ⟨u, hstep, hu, hmiddle', hle, _, _, hhalf⟩
    · exact finds_of_stop hleast hhi hstop fuel
    · obtain ⟨fuel, rfl⟩ := Nat.exists_eq_succ_of_ne_zero (show fuel ≠ 0 by omega)
      exact finds_of_step hhi hstep hle (ih hu hmiddle' (by omega) fuel (by omega) hu.curr_le_hi)

end Searches

/-- The least number that fails is found, from any number that fails. -/
theorem shrink_start {s k : Nat} (h : k ≤ s) {n fuel : Nat} (hsize : s < 2 ^ n)
    (hfuel : n + 1 < fuel) :
    ∃ values, tree.shrink (fun x => decide (k ≤ x)) fuel (start s) = some values ∧
      (∀ v ∈ values, v ≤ s) ∧
      ValueTree.lastFailing (fun x => decide (k ≤ x)) values = some k := by
  have hstart := searches_start h
  obtain ⟨fuel, rfl⟩ := Nat.exists_eq_succ_of_ne_zero (show fuel ≠ 0 by omega)
  rcases hstart.next with ⟨hleast, hstop⟩ | ⟨u, hstep, hu, hmiddle, hle, _, hsmaller, _⟩
  · exact Searches.finds_of_stop hleast hstart.curr_le_hi hstop fuel
  · have hwindow : u.hi - u.lo < 2 ^ n := Nat.lt_of_le_of_lt hsmaller hsize
    exact Searches.finds_of_step hstart.curr_le_hi hstep hle (hu.finds hmiddle hwindow (by omega))

/-- A tree answers as a window does, and shows the same window if it goes on. -/
def Follows {T : Type} (view : T → Window) (Ok : T → Prop) (answer : Option (Bool × T))
    (expected : Bool × Window) : Prop :=
  ∃ u, answer = some (expected.1, u) ∧ (expected.1 = true → Ok u ∧ view u = expected.2)

theorem follows_middle {T : Type} {view : T → Window} {Ok : T → Prop} {t moved : T}
    {stays : Prop} [Decidable stays]
    (hstays : stays ↔ middle (view t).lo (view t).hi = (view t).curr) (hok : Ok moved)
    (hmoved : view moved = { view t with curr := middle (view t).lo (view t).hi }) :
    Follows view Ok (some (if stays then (false, t) else (true, moved))) (view t).reposition := by
  unfold reposition
  by_cases h : stays
  · rw [if_pos h, if_pos (hstays.mp h)]
    exact ⟨t, rfl, Bool.noConfusion⟩
  · rw [if_neg h, if_neg (mt hstays.mpr h)]
    exact ⟨moved, rfl, fun _ => ⟨hok, hmoved⟩⟩

/-- A tree that goes on as the window it shows does finds a value of the least magnitude that
fails. -/
theorem shrink_of_view {T V : Type} (tree' : ValueTree T V) (magnitude : V → Nat) {k : Nat}
    (view : T → Window) (Ok : T → Prop)
    (hcurrent : ∀ t, magnitude (tree'.current t) = (view t).curr)
    (hsimplify : ∀ t, Ok t → Searches k (view t) → k ≤ (view t).curr →
      Follows view Ok (tree'.simplify t) (view t).simplify)
    (hcomplicate : ∀ t, Ok t → Searches k (view t) → (view t).curr < k →
      Follows view Ok (tree'.complicate t) (view t).complicate)
    {t : T} (ht : Ok t) {s : Nat} (hstart : view t = start s) (hk : k ≤ s) {n fuel : Nat}
    (hsize : s < 2 ^ n) (hfuel : n + 1 < fuel) :
    ∃ values, tree'.shrink (fun x => decide (k ≤ magnitude x)) fuel t = some values ∧
      (∀ v ∈ values, magnitude v ≤ s ∧ ∃ t, Ok t ∧ tree'.current t = v) ∧
      ∃ v, ValueTree.lastFailing (fun x => decide (k ≤ magnitude x)) values = some v ∧
        magnitude v = k := by
  let fails : V → Bool := fun x => decide (k ≤ magnitude x)
  let fails' : Nat → Bool := fun x => decide (k ≤ x)
  have hnext : ∀ t w goesOn w', (Ok t ∧ view t = w ∧ Searches k w) →
      tree.next fails' w = some (goesOn, w') →
      ∃ u, tree'.next fails t = some (goesOn, u) ∧
        (goesOn = true → Ok u ∧ view u = w' ∧ Searches k w') := by
    rintro t w goesOn w' ⟨hok, rfl, hsearches⟩ hw'
    have hkept := hsearches.of_next hw'
    have hfollows : Follows view Ok (tree'.next fails t) (goesOn, w') := by
      by_cases hfails : k ≤ (view t).curr
      · have htrue : fails (tree'.current t) = true :=
          decide_eq_true (by rwa [hcurrent])
        rw [Searches.next_of_fails hfails] at hw'
        rw [ValueTree.next, htrue, ← Option.some.inj hw']
        exact hsimplify t hok hsearches hfails
      · have hfalse : fails (tree'.current t) = false :=
          decide_eq_false (by rwa [hcurrent])
        rw [Searches.next_of_passes hfails] at hw'
        rw [ValueTree.next, hfalse, ← Option.some.inj hw']
        exact hcomplicate t hok hsearches (Nat.lt_of_not_le hfails)
    obtain ⟨u, hu, hview⟩ := hfollows
    exact ⟨u, hu, fun hgoes => ⟨(hview hgoes).1, (hview hgoes).2, hkept hgoes⟩⟩
  obtain ⟨numbers, hnumbers, hbound, hlast⟩ := shrink_start hk hsize hfuel
  obtain ⟨values, hvalues, rfl, hstates⟩ := ValueTree.shrink_of_simulation _ magnitude
    (fun t w h => (hcurrent t).trans (congrArg curr h.2.1)) hnext
    ⟨ht, hstart, searches_start hk⟩ hnumbers
  refine ⟨values, hvalues, fun v hv => ⟨hbound _ (List.mem_map_of_mem hv), ?_⟩, ?_⟩
  · obtain ⟨t, _, ⟨hok, _⟩, hcurr⟩ := hstates v hv
    exact ⟨t, hok, hcurr⟩
  · rw [ValueTree.lastFailing, List.filter_map, List.getLast?_map, Option.map_eq_some_iff] at hlast
    exact hlast

end Window

end Foundry.Bisection

import Mathlib.Algebra.Order.BigOperators.Group.Finset
import Mathlib.Data.Finmap

/-!
# Hash maps

A finite map read by key, over Mathlib's `Finmap`.  Equality is extensional, so
two programs that reach the same lookups by different orders of insertions and
removals reach the same map.  Iteration order is not part of a map: a caller
that iterates supplies the order in which the key set is visited.
-/

namespace Foundry

/-- A finite map with the operations of a hash map. -/
structure HashMap (K V : Type) where
  entries : Finmap (fun _ : K => V)

namespace HashMap

variable {K V : Type} [DecidableEq K] {m : HashMap K V} {k : K}

instance [DecidableEq V] : DecidableEq (HashMap K V) := fun a b =>
  decidable_of_iff (a.entries = b.entries)
    ⟨fun h => by cases a; cases b; cases h; rfl, fun h => h ▸ rfl⟩

def empty : HashMap K V := ⟨∅⟩

def get (m : HashMap K V) (k : K) : Option V := m.entries.lookup k

def insert (m : HashMap K V) (k : K) (v : V) : HashMap K V := ⟨m.entries.insert k v⟩

def remove (m : HashMap K V) (k : K) : HashMap K V := ⟨m.entries.erase k⟩

/-- Change the value under a key in place; an absent key stays absent. -/
def update (m : HashMap K V) (k : K) (f : V → V) : HashMap K V :=
  match m.get k with
  | none => m
  | some v => m.insert k (f v)

def mapValues (m : HashMap K V) (f : K → V → V) : HashMap K V :=
  ⟨m.entries.entries.map fun e => ⟨e.1, f e.1 e.2⟩, by
    have hkeys := m.entries.nodupKeys
    rw [← Multiset.nodup_keys] at hkeys ⊢
    simpa [Multiset.keys, Multiset.map_map] using hkeys⟩

/-- Store every entry of `other`, replacing the values already there. -/
def extend (m other : HashMap K V) : HashMap K V := ⟨other.entries ∪ m.entries⟩

def keys (m : HashMap K V) : Finset K := m.entries.keys

/-- `contains_key`. -/
def contains (m : HashMap K V) (k : K) : Bool := (m.get k).isSome

theorem ext {a b : HashMap K V} (h : ∀ k, a.get k = b.get k) : a = b := by
  cases a with
  | mk a =>
    cases b with
    | mk b => exact congrArg mk (Finmap.ext_lookup h)

@[simp, grind =] theorem get_empty (k : K) : (empty : HashMap K V).get k = none := rfl

section

variable (m : HashMap K V) (k k' : K)

@[grind =] theorem get_insert (v : V) :
    (m.insert k v).get k' = if k' = k then some v else m.get k' := by
  split
  · next h => subst h; exact Finmap.lookup_insert m.entries
  · next h => exact Finmap.lookup_insert_of_ne m.entries h

@[simp] theorem get_insert_self (v : V) : (m.insert k v).get k = some v := by
  rw [get_insert, if_pos rfl]

theorem get_insert_of_ne {k k' : K} (v : V) (h : k' ≠ k) : (m.insert k v).get k' = m.get k' := by
  rw [get_insert, if_neg h]

theorem get_foldl_insert (value : K → V) (ks : List K) :
    (ks.foldl (fun m k => m.insert k (value k)) m).get k =
      if k ∈ ks then some (value k) else m.get k := by
  induction ks generalizing m with
  | nil => simp
  | cons k' ks ih =>
    rw [List.foldl_cons, ih, get_insert]
    by_cases hk : k = k'
    · simp [hk]
    · simp [hk]

@[grind =] theorem get_remove : (m.remove k).get k' = if k' = k then none else m.get k' := by
  split
  · next h => subst h; exact Finmap.lookup_erase k' m.entries
  · next h => exact Finmap.lookup_erase_ne h

@[simp] theorem get_remove_self : (m.remove k).get k = none := by
  rw [get_remove, if_pos rfl]

theorem get_remove_of_ne {k k' : K} (h : k' ≠ k) : (m.remove k).get k' = m.get k' := by
  rw [get_remove, if_neg h]

theorem get_remove_eq_some {m : HashMap K V} {k k' : K} {v : V} :
    (m.remove k).get k' = some v ↔ m.get k' = some v ∧ k' ≠ k := by
  rw [get_remove]
  split <;> simp [*]

theorem get_of_remove {m : HashMap K V} {k k' : K} {v : V} (h : (m.remove k).get k' = some v) :
    m.get k' = some v ∧ k' ≠ k := get_remove_eq_some.mp h

@[grind =] theorem get_update (f : V → V) :
    (m.update k f).get k' = if k' = k then (m.get k).map f else m.get k' := by
  unfold update
  cases h : m.get k with
  | none =>
    dsimp only [Option.map_none]
    by_cases hk : k' = k
    · rw [if_pos hk, hk, h]
    · rw [if_neg hk]
  | some v => simp only [get_insert, Option.map_some]

theorem update_eq_self {m : HashMap K V} {k : K} {f : V → V}
    (h : ∀ v, m.get k = some v → f v = v) : m.update k f = m := by
  apply ext
  intro k'
  rw [get_update]
  by_cases hk : k' = k
  · subst hk
    rw [if_pos rfl]
    cases hv : m.get k' with
    | none => rfl
    | some v => rw [Option.map_some, h v hv]
  · rw [if_neg hk]

theorem get_mapValues (f : K → V → V) (k : K) : (m.mapValues f).get k = (m.get k).map (f k) := by
  apply Option.ext
  intro v
  unfold get mapValues
  rw [Finmap.lookup_eq_some_iff, Multiset.mem_map, Option.map_eq_some_iff]
  constructor
  · rintro ⟨⟨k', w⟩, hmem, heq⟩
    cases heq
    exact ⟨w, Finmap.lookup_eq_some_iff.mpr hmem, rfl⟩
  · rintro ⟨w, hw, rfl⟩
    exact ⟨⟨k, w⟩, Finmap.lookup_eq_some_iff.mp hw, rfl⟩

theorem get_extend (m other : HashMap K V) (k : K) :
    (m.extend other).get k = (other.get k).or (m.get k) := by
  unfold get extend
  cases h : other.entries.lookup k with
  | none => exact Finmap.lookup_union_right (Finmap.lookup_eq_none.mp h)
  | some v => exact (Finmap.lookup_union_left (Finmap.mem_of_lookup_eq_some h)).trans h

@[grind =] theorem contains_eq_true : m.contains k = true ↔ ∃ v, m.get k = some v := by
  exact Option.isSome_iff_exists

@[grind =] theorem contains_eq_false : m.contains k = false ↔ m.get k = none := by
  unfold contains
  rw [Option.isSome_eq_false_iff, Option.isNone_iff_eq_none]

end

theorem mem_keys : k ∈ m.keys ↔ ∃ v, m.get k = some v := by
  unfold keys get
  rw [Finmap.mem_keys, Finmap.mem_iff]

theorem mem_keys_of_get {v : V} (h : m.get k = some v) : k ∈ m.keys := mem_keys.mpr ⟨v, h⟩

instance {P : K → V → Prop} [∀ k v, Decidable (P k v)] :
    Decidable (∀ k v, m.get k = some v → P k v) :=
  decidable_of_iff (∀ k ∈ m.keys, ∀ v ∈ m.get k, P k v)
    ⟨fun h k v hget => h k (mem_keys_of_get hget) v hget, fun h k _ v hget => h k v hget⟩

theorem insert_of_get {v : V} (h : m.get k = some v) : m.insert k v = m := by
  apply ext
  intro k'
  rw [get_insert]
  split
  · next heq => rw [heq, h]
  · rfl

theorem remove_of_get_none (h : m.get k = none) : m.remove k = m := by
  apply ext
  intro k'
  rw [get_remove]
  split
  · next hk => rw [hk, h]
  · rfl

/-! ## Several entries -/

variable {m : HashMap K V} {k : K} {v : V} {entries : List (K × V)} {w : V} (f : V → Nat)

def insertAll (m : HashMap K V) (entries : List (K × V)) : HashMap K V :=
  entries.foldl (fun m entry => m.insert entry.1 entry.2) m

@[simp] theorem insertAll_nil (m : HashMap K V) : m.insertAll [] = m := rfl

@[simp] theorem insertAll_cons (m : HashMap K V) (entry : K × V) (entries : List (K × V)) :
    m.insertAll (entry :: entries) = (m.insert entry.1 entry.2).insertAll entries := rfl

theorem get_insertAll_of_notMem (h : k ∉ entries.map Prod.fst) :
    (m.insertAll entries).get k = m.get k := by
  induction entries generalizing m with
  | nil => rfl
  | cons entry entries ih =>
    rw [List.map_cons, List.mem_cons, not_or] at h
    rw [insertAll_cons, ih h.2, get_insert_of_ne m entry.2 h.1]

theorem get_insertAll_iff (h : (entries.map Prod.fst).Nodup)
    (hk : m.get k = none) : (m.insertAll entries).get k = some v ↔ (k, v) ∈ entries := by
  induction entries generalizing m with
  | nil => simp [hk]
  | cons entry entries ih =>
    rw [List.map_cons, List.nodup_cons] at h
    rw [insertAll_cons, List.mem_cons]
    by_cases heq : k = entry.1
    · subst heq
      rw [get_insertAll_of_notMem h.1]
      have hnew : (entry.1, v) ∉ entries := fun hmem => h.1 (List.mem_map.mpr ⟨_, hmem, rfl⟩)
      simp [or_iff_left hnew, Prod.ext_iff, eq_comm]
    · rw [ih h.2 (by rw [get_insert_of_ne m entry.2 heq, hk])]
      exact (or_iff_right fun hentry => heq (congrArg Prod.fst hentry)).symm

/-! ## Weights

The sum of a measure over the stored values.  A loop that removes entries while
it pushes the data of the removed entry on a work list terminates because the
weight pays for the pushes. -/

/-- Sum of `f` over the stored values. -/
def weight (m : HashMap K V) (f : V → Nat) : Nat := m.keys.sum fun k => (m.get k).elim 0 f

theorem keys_remove (m : HashMap K V) (k : K) : (m.remove k).keys = m.keys.erase k :=
  Finmap.keys_erase k m.entries

theorem mem_keys_remove_head {l : List K} (h : ∀ k', k' ∈ m.keys ↔ k' ∈ k :: l) (hk : k ∉ l)
    (k' : K) : k' ∈ (m.remove k).keys ↔ k' ∈ l := by
  rw [keys_remove, Finset.mem_erase, h, List.mem_cons]
  constructor
  · rintro ⟨hne, rfl | hmem⟩
    · exact absurd rfl hne
    · exact hmem
  · intro hmem
    exact ⟨fun heq => hk (heq ▸ hmem), .inr hmem⟩

theorem keys_insert (m : HashMap K V) (k : K) (v : V) :
    (m.insert k v).keys = Insert.insert k m.keys := by
  ext k'
  rw [Finset.mem_insert, mem_keys, mem_keys]
  by_cases hk : k' = k
  · subst hk
    simp
  · rw [get_insert_of_ne m v hk]
    simp [hk]

section

variable (h : m.get k = some v)

include h

theorem keys_insert_of_get : (m.insert k w).keys = m.keys := by
  rw [keys_insert, Finset.insert_eq_self]
  exact mem_keys_of_get h

theorem card_keys_remove_lt : (m.remove k).keys.card < m.keys.card := by
  rw [keys_remove]
  exact Finset.card_erase_lt_of_mem (mem_keys_of_get h)

theorem weight_remove : (m.remove k).weight f + f v = m.weight f := by
  unfold weight
  rw [keys_remove, ← Finset.sum_erase_add m.keys _ (mem_keys_of_get h), h]
  congr 1
  apply Finset.sum_congr rfl
  intro k' hk'
  rw [get_remove_of_ne m (Finset.ne_of_mem_erase hk')]

theorem weight_insert_of_get : (m.insert k w).weight f + f v = m.weight f + f w := by
  have hw : (m.insert k w).get k = some w := get_insert_self m k w
  have hsame : (m.insert k w).remove k = m.remove k := by
    apply ext
    intro k'
    simp only [get_remove, get_insert]
    split <;> rfl
  have hnew := weight_remove f hw
  have hold := weight_remove f h
  rw [hsame] at hnew
  omega

theorem weight_insert_same (hsame : f w = f v) : (m.insert k w).weight f = m.weight f := by
  have hw := weight_insert_of_get (w := w) f h
  omega

end

theorem weight_insert_of_none (h : m.get k = none) :
    (m.insert k w).weight f = m.weight f + f w := by
  have hsame : (m.insert k w).remove k = m := by
    apply ext
    intro k'
    simp only [get_remove, get_insert]
    split
    · next heq => rw [heq, h]
    · rfl
  rw [← weight_remove f (get_insert_self m k w), hsame]

theorem weight_congr {f g : V → Nat} (h : ∀ k v, m.get k = some v → f v = g v) :
    m.weight f = m.weight g := by
  refine Finset.sum_congr rfl fun k _ => ?_
  cases hk : m.get k with
  | none => rfl
  | some v => exact h k v hk

theorem weight_update_le (m : HashMap K V) (k : K) (f : V → V) (g : V → Nat)
    (h : ∀ v, g (f v) ≤ g v) : (m.update k f).weight g ≤ m.weight g := by
  unfold update
  cases hk : m.get k with
  | none => exact le_refl _
  | some v =>
    have hw := weight_insert_of_get (w := f v) g hk
    have hv := h v
    dsimp only
    omega

theorem le_weight (h : m.get k = some v) : f v ≤ m.weight f := by
  have hr := weight_remove f h
  omega

end HashMap

end Foundry

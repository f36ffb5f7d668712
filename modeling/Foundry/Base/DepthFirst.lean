import Mathlib.Data.Set.Finite.Basic
import Mathlib.Order.WellFounded

/-!
# Depth-first collection

A recursive function adds to a set what can be reached from a node: it goes over the children
of the node, and into every child that is new to the set.  A node may have no list of children,
and a child may not exist; either ends the search with an error.
-/

namespace Foundry.DepthFirst

open Relation List

variable {α ε : Type} {children : α → Except ε (List (Except ε α))} {found : Finset α} {a : α}

section

variable (children)

def Child (a b : α) : Prop := ∃ list, children a = .ok list ∧ .ok b ∈ list

/-- All children of the node exist, and are in the set. -/
def Expanded (found : Finset α) (a : α) : Prop :=
  ∃ list : List α, children a = .ok (list.map .ok) ∧ ∀ b ∈ list, b ∈ found

def Fails (e : ε) (a : α) : Prop :=
  children a = .error e ∨ ∃ list, children a = .ok list ∧ .error e ∈ list

end

theorem Expanded.mono {found next : Finset α} (h : Expanded children found a)
    (hsub : found ⊆ next) : Expanded children next a := by
  obtain ⟨list, hlist, hmem⟩ := h
  exact ⟨list, hlist, fun b hb => hsub (hmem b hb)⟩

theorem Expanded.mem_of_child {b : α} (h : Expanded children found a)
    (hchild : Child children a b) : b ∈ found := by
  obtain ⟨list, hlist, hmem⟩ := h
  obtain ⟨list', hlist', hb⟩ := hchild
  rw [hlist] at hlist'
  cases hlist'
  obtain ⟨b', hb', heq⟩ := mem_map.mp hb
  cases heq
  exact hmem b hb'

theorem Expanded.not_fails {e : ε} (h : Expanded children found a) :
    ¬ Fails children e a := by
  obtain ⟨list, hlist, _⟩ := h
  rintro (herror | ⟨list', hlist', hmem⟩)
  · rw [hlist] at herror
    cases herror
  · rw [hlist] at hlist'
    cases hlist'
    obtain ⟨_, _, heq⟩ := mem_map.mp hmem
    cases heq

variable [DecidableEq α]

/-- Goes over the children, and with `visit` into those that are new. -/
def visitAll (visit : α → Finset α → Option (Except ε (Finset α))) :
    List (Except ε α) → Finset α → Option (Except ε (Finset α))
  | [], found => some (.ok found)
  | .error e :: _, _ => some (.error e)
  | .ok a :: rest, found =>
    if a ∈ found then visitAll visit rest found
    else
      match visit a (insert a found) with
      | some (.ok found) => visitAll visit rest found
      | stopped => stopped

/-- Adds to `found` what can be reached from a node; `none` if the fuel runs out. -/
def collect (children : α → Except ε (List (Except ε α))) :
    Nat → α → Finset α → Option (Except ε (Finset α))
  | 0, _, _ => none
  | fuel + 1, a, found =>
    match children a with
    | .error e => some (.error e)
    | .ok list => visitAll (collect children fuel) list found

/-! ## What is found -/

section Found

variable {found next : Finset α} {a b : α} {fuel : Nat}

structure Adds (children : α → Except ε (List (Except ε α))) (Reached : α → Prop)
    (found next : Finset α) : Prop where
  subset : found ⊆ next
  added : ∀ a ∈ next, a ∈ found ∨ Expanded children next a ∧ Reached a

/-- Going over the children adds what can be reached from them. -/
theorem visitAll_ok {visit : α → Finset α → Option (Except ε (Finset α))}
    (hvisit : ∀ a found next, visit a found = some (.ok next) →
      Expanded children next a ∧ Adds children (TransGen (Child children) a) found next)
    {list : List (Except ε α)} (h : visitAll visit list found = some (.ok next)) :
    ∃ list' : List α, list = list'.map .ok ∧ (∀ b ∈ list', b ∈ next) ∧
      Adds children (fun b => ∃ a ∈ list', ReflTransGen (Child children) a b) found next := by
  induction list generalizing found with
  | nil =>
    cases h
    exact ⟨[], rfl, nofun, Finset.Subset.refl _, fun a ha => .inl ha⟩
  | cons child rest ih =>
    cases child with
    | error e => cases h
    | ok a =>
      rw [visitAll] at h
      by_cases hmem : a ∈ found
      · rw [if_pos hmem] at h
        obtain ⟨list', rfl, hlist, hadds⟩ := ih h
        refine ⟨a :: list', rfl, ?_, hadds.subset, ?_⟩
        · exact forall_mem_cons.mpr ⟨hadds.subset hmem, hlist⟩
        · intro b hb
          rcases hadds.added b hb with hb | ⟨hexpanded, c, hc, hreach⟩
          · exact .inl hb
          · exact .inr ⟨hexpanded, c, mem_cons_of_mem _ hc, hreach⟩
      · rw [if_neg hmem] at h
        split at h
        · next middle hmiddle =>
          obtain ⟨hexpanded, hadds⟩ := hvisit a _ _ hmiddle
          obtain ⟨list', rfl, hlist, hadds'⟩ := ih h
          have ha : a ∈ middle := hadds.subset (Finset.mem_insert_self a found)
          refine ⟨a :: list', rfl, ?_, ?_, ?_⟩
          · exact forall_mem_cons.mpr ⟨hadds'.subset ha, hlist⟩
          · intro b hb
            exact hadds'.subset (hadds.subset (Finset.mem_insert_of_mem hb))
          intro b hb
          rcases hadds'.added b hb with hb | ⟨hexpanded', c, hc, hreach⟩
          · rcases hadds.added b hb with hb | ⟨hexpanded', hreach⟩
            · rcases Finset.mem_insert.mp hb with rfl | hb
              · exact .inr ⟨hexpanded.mono hadds'.subset, b, mem_cons_self,
                  ReflTransGen.refl⟩
              · exact .inl hb
            · exact .inr ⟨hexpanded'.mono hadds'.subset, a, mem_cons_self,
                hreach.to_reflTransGen⟩
          · exact .inr ⟨hexpanded', c, mem_cons_of_mem _ hc, hreach⟩
        · next hstopped => exact absurd h (hstopped next)

theorem collect_ok (h : collect children fuel a found = some (.ok next)) :
    Expanded children next a ∧ Adds children (TransGen (Child children) a) found next := by
  induction fuel generalizing a found next with
  | zero => cases h
  | succ fuel ih =>
    rw [collect] at h
    cases hchildren : children a with
    | error e =>
      rw [hchildren] at h
      cases h
    | ok list =>
      rw [hchildren] at h
      obtain ⟨list', rfl, hmem, hadds⟩ := visitAll_ok (fun _ _ _ => ih) h
      refine ⟨⟨list', hchildren, hmem⟩, hadds.subset, fun b hb => ?_⟩
      rcases hadds.added b hb with hb | ⟨hexpanded, c, hc, hreach⟩
      · exact .inl hb
      · refine .inr ⟨hexpanded, TransGen.head' ?_ hreach⟩
        exact ⟨list'.map .ok, hchildren, mem_map_of_mem hc⟩

theorem mem_of_collect_ok (h : collect children fuel a ∅ = some (.ok next)) :
    b ∈ next ↔ TransGen (Child children) a b := by
  obtain ⟨hexpanded, hadds⟩ := collect_ok h
  have hadded : ∀ c ∈ next, Expanded children next c ∧ TransGen (Child children) a c :=
    fun c hc => (hadds.added c hc).resolve_left (Finset.notMem_empty c)
  constructor
  · exact fun hb => (hadded b hb).2
  · intro hreach
    induction hreach with
    | single hchild => exact hexpanded.mem_of_child hchild
    | tail _ hchild ih => exact (hadded _ ih).1.mem_of_child hchild

theorem expanded_of_collect_ok (h : collect children fuel a ∅ = some (.ok next))
    (hreach : ReflTransGen (Child children) a b) : Expanded children next b := by
  obtain ⟨hexpanded, hadds⟩ := collect_ok h
  rcases Relation.reflTransGen_iff_eq_or_transGen.mp hreach with rfl | hreach
  · exact hexpanded
  · rcases hadds.added b ((mem_of_collect_ok h).mpr hreach) with hb | ⟨hb, _⟩
    · exact absurd hb (Finset.notMem_empty b)
    · exact hb

end Found

/-! ## How it ends -/

section Ends

variable {found nodes : Finset α} {a : α} {e : ε} {fuel : Nat}

/-- Fuel beyond the number of nodes not found yet is enough. -/
theorem visitAll_isSome (hvisit : ∀ a found, (nodes \ found).card < fuel →
      (collect children fuel a found).isSome)
    {list : List (Except ε α)} (hlist : ∀ a, .ok a ∈ list → a ∈ nodes)
    (hfuel : (nodes \ found).card < fuel + 1) :
    (visitAll (collect children fuel) list found).isSome := by
  induction list generalizing found with
  | nil => rfl
  | cons child rest ih =>
    have hrest : ∀ a, .ok a ∈ rest → a ∈ nodes := fun a ha =>
      hlist a (mem_cons_of_mem _ ha)
    cases child with
    | error e => rfl
    | ok a =>
      rw [visitAll]
      by_cases hmem : a ∈ found
      · rw [if_pos hmem]
        exact ih hrest hfuel
      rw [if_neg hmem]
      have hlt : (nodes \ insert a found).card < (nodes \ found).card := by
        rw [Finset.sdiff_insert]
        refine Finset.card_erase_lt_of_mem (Finset.mem_sdiff.mpr ⟨?_, hmem⟩)
        exact hlist a mem_cons_self
      have hsome := hvisit a (insert a found) (by omega)
      split
      · next middle hmiddle =>
        refine ih hrest ?_
        have hsub := (collect_ok hmiddle).2.subset
        have hle := Finset.card_le_card (Finset.sdiff_subset_sdiff
          (Finset.Subset.refl nodes) hsub)
        omega
      · exact hsome

/-- Fuel for every node that is not found yet is enough. -/
theorem collect_isSome (hnodes : ∀ a b, Child children a b → b ∈ nodes)
    (hfuel : (nodes \ found).card < fuel) : (collect children fuel a found).isSome := by
  induction fuel generalizing a found with
  | zero => omega
  | succ fuel ih =>
    rw [collect]
    cases hchildren : children a with
    | error e => rfl
    | ok list =>
      refine visitAll_isSome (fun a found hlt => ih hlt) ?_ hfuel
      intro b hb
      exact hnodes a b ⟨list, hchildren, hb⟩

/-- A failure comes from a node that can be reached. -/
theorem visitAll_error {visit : α → Finset α → Option (Except ε (Finset α))}
    (hvisit : ∀ a found, visit a found = some (.error e) →
      ∃ b, ReflTransGen (Child children) a b ∧ Fails children e b)
    {list : List (Except ε α)} (h : visitAll visit list found = some (.error e)) :
    .error e ∈ list ∨ ∃ a b, .ok a ∈ list ∧ ReflTransGen (Child children) a b ∧
      Fails children e b := by
  induction list generalizing found with
  | nil => cases h
  | cons child rest ih =>
    have hrest : (.error e ∈ rest ∨ ∃ a b, .ok a ∈ rest ∧
        ReflTransGen (Child children) a b ∧ Fails children e b) →
        .error e ∈ child :: rest ∨ ∃ a b, .ok a ∈ child :: rest ∧
          ReflTransGen (Child children) a b ∧ Fails children e b := by
      rintro (hmem | ⟨a, b, hmem, hb⟩)
      · exact .inl (mem_cons_of_mem _ hmem)
      · exact .inr ⟨a, b, mem_cons_of_mem _ hmem, hb⟩
    cases child with
    | error e' =>
      cases h
      exact .inl mem_cons_self
    | ok a =>
      rw [visitAll] at h
      by_cases hmem : a ∈ found
      · rw [if_pos hmem] at h
        exact hrest (ih h)
      · rw [if_neg hmem] at h
        split at h
        · exact hrest (ih h)
        · obtain ⟨b, hreach, hfails⟩ := hvisit a _ h
          exact .inr ⟨a, b, mem_cons_self, hreach, hfails⟩

theorem collect_error (h : collect children fuel a found = some (.error e)) :
    ∃ b, ReflTransGen (Child children) a b ∧ Fails children e b := by
  induction fuel generalizing a found with
  | zero => cases h
  | succ fuel ih =>
    rw [collect] at h
    cases hchildren : children a with
    | error e' =>
      rw [hchildren] at h
      cases h
      exact ⟨a, ReflTransGen.refl, .inl hchildren⟩
    | ok list =>
      rw [hchildren] at h
      rcases visitAll_error (fun _ _ => ih) h with hmem | ⟨c, b, hc, hreach, hfails⟩
      · exact ⟨a, ReflTransGen.refl, .inr ⟨list, hchildren, hmem⟩⟩
      · exact ⟨b, ReflTransGen.head ⟨list, hchildren, hc⟩ hreach, hfails⟩

end Ends

/-! ## Cycles -/

section Cycles

variable {β : Type} {R : β → β → Prop}

/-- Where every node has a next one among finitely many, there is a cycle. -/
theorem exists_cycle {nodes : List β} (hne : nodes ≠ []) (h : ∀ a ∈ nodes, ∃ b ∈ nodes, R a b) :
    ∃ a, TransGen R a a := by
  by_contra hnone
  rw [not_exists] at hnone
  let after : {a // a ∈ nodes} → {a // a ∈ nodes} → Prop := fun a b => TransGen R b a
  have hirrefl : Std.Irrefl after := ⟨fun a => hnone a⟩
  have hfinite : Finite {a // a ∈ nodes} := nodes.finite_toSet
  have hwell : WellFounded after := Finite.wellFounded_of_trans_of_irrefl after
  obtain ⟨first, hfirst⟩ := exists_mem_of_ne_nil nodes hne
  obtain ⟨last, _, hlast⟩ := hwell.has_min Set.univ ⟨⟨first, hfirst⟩, trivial⟩
  obtain ⟨b, hb, hR⟩ := h last.1 last.2
  exact hlast ⟨b, hb⟩ trivial (TransGen.single hR)

theorem not_cycle_of_lt {rank : β → Nat} (h : ∀ a b, R a b → rank b < rank a) (a : β) :
    ¬ TransGen R a a := by
  intro hcycle
  have hlt : ∀ b, TransGen R a b → rank b < rank a := by
    intro b hreach
    induction hreach with
    | single hR => exact h _ _ hR
    | tail _ hR ih => exact (h _ _ hR).trans ih
  exact Nat.lt_irrefl _ (hlt a hcycle)

end Cycles

end Foundry.DepthFirst

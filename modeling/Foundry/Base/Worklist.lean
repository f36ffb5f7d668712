import Mathlib.Algebra.BigOperators.Group.Finset.Basic
import Mathlib.Order.Bounds.Basic

/-!
# Worklists

A queue of nodes is worked off: a node that is new is marked as visited, and those of its
neighbours that are not visited are queued.  What is visited in the end is what can be reached from
the first queue.
-/

namespace Foundry.Worklist

open Relation List

variable {α : Type}

/-! ## Reachable nodes -/

/-- A way along the edges leads from one of the roots to the node. -/
def Reached (edge : α → α → Prop) (roots : List α) (b : α) : Prop :=
  ∃ a ∈ roots, ReflTransGen edge a b

/-- The roots are in the set, and no edge leaves it. -/
structure Closed (edge : α → α → Prop) (roots : List α) (s : Set α) : Prop where
  root : ∀ a ∈ roots, a ∈ s
  follow : ∀ a ∈ s, ∀ b, edge a b → b ∈ s

section Reached

variable {edge edge' : α → α → Prop} {roots : List α}

theorem closed_reached (edge : α → α → Prop) (roots : List α) :
    Closed edge roots {b | Reached edge roots b} where
  root a ha := ⟨a, ha, .refl⟩
  follow := fun _ ⟨root, hroot, hreach⟩ _ hedge => ⟨root, hroot, hreach.tail hedge⟩

theorem Closed.mem_of_reached {s : Set α} (h : Closed edge roots s) {b : α}
    (hb : Reached edge roots b) : b ∈ s := by
  obtain ⟨a, ha, hreach⟩ := hb
  induction hreach with
  | refl => exact h.root a ha
  | tail _ hedge ih => exact h.follow _ ih _ hedge

theorem isLeast_reached (edge : α → α → Prop) (roots : List α) :
    IsLeast {s | Closed edge roots s} {b | Reached edge roots b} :=
  ⟨closed_reached edge roots, fun _ hs _ hb => Closed.mem_of_reached hs hb⟩

/-- Two kinds of edges lead to the same nodes if they agree where one of them leads. -/
theorem reached_eq_of_agree (h : ∀ a, Reached edge' roots a → ∀ b, edge a b ↔ edge' a b) :
    {b | Reached edge roots b} = {b | Reached edge' roots b} := by
  have hclosed := closed_reached edge roots
  have hclosed' := closed_reached edge' roots
  have hto : ∀ b, Reached edge roots b → Reached edge' roots b := by
    refine fun b => Closed.mem_of_reached ⟨hclosed'.root, fun a ha b hab => ?_⟩
    exact hclosed'.follow a ha b ((h a ha b).mp hab)
  apply Set.Subset.antisymm hto
  refine fun b => Closed.mem_of_reached ⟨hclosed.root, fun a ha b hab => ?_⟩
  exact hclosed.follow a ha b ((h a (hto a ha) b).mpr hab)

end Reached

/-- The edges to the nodes that a function lists. -/
def Listed (next : α → List α) (a b : α) : Prop := b ∈ next a

variable [DecidableEq α]

/-- Works off the queue; `none` if the fuel runs out. -/
def drain (next : α → List α) : Nat → List α → Finset α → Option (Finset α)
  | _, [], visited => some visited
  | 0, _ :: _, _ => none
  | fuel + 1, a :: queue, visited =>
    if a ∈ visited then drain next fuel queue visited
    else
      let visited := insert a visited
      drain next fuel (queue ++ (next a).filter (· ∉ visited)) visited

/-! ## What is visited -/

section Visited

variable {next : α → List α} {roots queue : List α} {visited result : Finset α} {a : α}

/-- Every node that is queued or visited can be reached, and all that is still to be reached goes
through the queue. -/
structure Progress (next : α → List α) (roots queue : List α) (visited : Finset α) : Prop where
  reached : ∀ a, a ∈ visited ∨ a ∈ queue → Reached (Listed next) roots a
  root : ∀ a ∈ roots, a ∈ visited ∨ a ∈ queue
  follow : ∀ a ∈ visited, ∀ b ∈ next a, b ∈ visited ∨ b ∈ queue

omit [DecidableEq α] in
theorem Progress.start (next : α → List α) (roots : List α) : Progress next roots roots ∅ where
  reached a ha := by
    rcases ha with ha | ha
    · simp at ha
    · exact ⟨a, ha, .refl⟩
  root _ := Or.inr
  follow := by simp

omit [DecidableEq α] in
theorem Progress.skip (h : Progress next roots (a :: queue) visited) (ha : a ∈ visited) :
    Progress next roots queue visited := by
  have hkeep : ∀ b, b ∈ visited ∨ b ∈ a :: queue → b ∈ visited ∨ b ∈ queue := by
    intro b hb
    rcases hb with hb | hb
    · exact .inl hb
    · rcases mem_cons.mp hb with rfl | hb
      · exact .inl ha
      · exact .inr hb
  constructor
  · exact fun b hb => h.reached b (hb.imp_right (mem_cons_of_mem a))
  · exact fun b hb => hkeep b (h.root b hb)
  · exact fun b hb c hc => hkeep c (h.follow b hb c hc)

theorem Progress.visit (h : Progress next roots (a :: queue) visited) :
    Progress next roots (queue ++ (next a).filter (· ∉ insert a visited)) (insert a visited) := by
  have hfrom : Reached (Listed next) roots a := h.reached a (by simp)
  have hkeep : ∀ b, b ∈ visited ∨ b ∈ a :: queue →
      b ∈ insert a visited ∨ b ∈ queue ++ (next a).filter (· ∉ insert a visited) := by
    intro b hb
    rw [mem_cons] at hb
    rw [Finset.mem_insert, mem_append]
    tauto
  constructor
  · intro b hb
    rw [Finset.mem_insert, mem_append, mem_filter] at hb
    rcases hb with (rfl | hb) | (hb | ⟨hb, _⟩)
    · exact hfrom
    · exact h.reached b (.inl hb)
    · exact h.reached b (.inr (mem_cons_of_mem a hb))
    · exact (closed_reached _ roots).follow a hfrom b hb
  · exact fun b hb => hkeep b (h.root b hb)
  · intro b hb c hc
    rcases Finset.mem_insert.mp hb with rfl | hb
    · by_cases hnew : c ∈ insert b visited
      · exact .inl hnew
      · exact .inr (mem_append_right _ (mem_filter.mpr ⟨hc, by simpa using hnew⟩))
    · exact hkeep c (h.follow b hb c hc)

theorem Progress.drain {fuel : Nat} (h : Progress next roots queue visited)
    (hdrain : drain next fuel queue visited = some result) : Progress next roots [] result := by
  fun_induction Worklist.drain next fuel queue visited with
  | case1 =>
    cases hdrain
    exact h
  | case2 => cases hdrain
  | case3 _ _ _ _ hmem ih => exact ih (h.skip hmem) hdrain
  | case4 _ _ _ _ _ _ ih => exact ih h.visit hdrain

theorem mem_drain {fuel : Nat} (hdrain : drain next fuel roots ∅ = some result) (b : α) :
    b ∈ result ↔ Reached (Listed next) roots b := by
  have h := (Progress.start next roots).drain hdrain
  constructor
  · exact fun hb => h.reached b (.inl hb)
  · intro hb
    refine Closed.mem_of_reached (s := {b | b ∈ result}) ⟨?_, ?_⟩ hb
    · exact fun a ha => by simpa using h.root a ha
    · exact fun a ha b hab => by simpa using h.follow a ha b hab

end Visited

/-! ## Termination -/

/-- Each round takes a node off the queue, and the neighbours of a node are queued once. -/
theorem isSome_drain {next : α → List α} {nodes : Finset α}
    (hnext : ∀ a ∈ nodes, ∀ b ∈ next a, b ∈ nodes) (fuel : Nat) (queue : List α)
    (visited : Finset α) (hqueue : ∀ a ∈ queue, a ∈ nodes)
    (hfuel : queue.length + ∑ a ∈ nodes \ visited, (next a).length ≤ fuel) :
    (drain next fuel queue visited).isSome := by
  fun_induction drain next fuel queue visited with
  | case1 => rfl
  | case2 => simp at hfuel
  | case3 _ _ _ _ _ ih =>
    apply ih
    · exact fun b hb => hqueue b (mem_cons_of_mem _ hb)
    · rw [length_cons] at hfuel
      omega
  | case4 fuel a queue visited hnew visited' ih =>
    have ha : a ∈ nodes := hqueue a mem_cons_self
    apply ih
    · intro b hb
      rcases mem_append.mp hb with hb | hb
      · exact hqueue b (mem_cons_of_mem _ hb)
      · exact hnext a ha b (mem_of_mem_filter hb)
    · have hmem : a ∈ nodes \ visited := Finset.mem_sdiff.mpr ⟨ha, hnew⟩
      have hsplit : (next a).length + ∑ b ∈ nodes \ visited', (next b).length =
          ∑ b ∈ nodes \ visited, (next b).length := by
        rw [Finset.sdiff_insert]
        exact Finset.add_sum_erase _ (fun b => (next b).length) hmem
      have hqueued := length_filter_le (· ∉ visited') (next a)
      rw [length_cons] at hfuel
      rw [length_append]
      omega

end Foundry.Worklist

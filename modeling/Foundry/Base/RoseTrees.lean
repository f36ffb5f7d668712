import Mathlib.Data.List.Basic

/-!
# Rose trees and their orders

The labels of a forest in the order in which its nodes are entered and in the order in which they
are left.  Where labels below a node differ from its own, the two orders agree only on leaves.
-/

namespace Foundry

inductive Rose (α : Type) where
  | node (label : α) (children : List (Rose α))

namespace Rose

variable {α : Type}

def label : Rose α → α
  | node a _ => a

mutual

def preorder : Rose α → List α
  | node a children => a :: preorderAll children

def preorderAll : List (Rose α) → List α
  | [] => []
  | tree :: trees => tree.preorder ++ preorderAll trees

end

mutual

def postorder : Rose α → List α
  | node a children => postorderAll children ++ [a]

def postorderAll : List (Rose α) → List α
  | [] => []
  | tree :: trees => tree.postorder ++ postorderAll trees

end

mutual

def height : Rose α → Nat
  | node _ children => heightAll children + 1

def heightAll : List (Rose α) → Nat
  | [] => 0
  | tree :: trees => max tree.height (heightAll trees)

end

mutual

/-- The rank of the labels goes up along every path. -/
def Ascends (rank : α → Nat) : Rose α → Prop
  | node a children => (∀ child ∈ children, rank a < rank child.label) ∧ AscendsAll rank children

def AscendsAll (rank : α → Nat) : List (Rose α) → Prop
  | [] => True
  | tree :: trees => tree.Ascends rank ∧ AscendsAll rank trees

end

mutual

theorem length_postorder : ∀ tree : Rose α, tree.postorder.length = tree.preorder.length
  | node a children => by
      simp [postorder, preorder, length_postorderAll children]

theorem length_postorderAll : ∀ trees : List (Rose α),
    (postorderAll trees).length = (preorderAll trees).length
  | [] => rfl
  | tree :: trees => by
      simp [postorderAll, preorderAll, length_postorder tree, length_postorderAll trees]

end

theorem postorderAll_append (trees trees' : List (Rose α)) :
    postorderAll (trees ++ trees') = postorderAll trees ++ postorderAll trees' := by
  induction trees with
  | nil => rfl
  | cons tree trees ih => simp [postorderAll, ih]

theorem postorderAll_eq_nil {trees : List (Rose α)} : postorderAll trees = [] ↔ trees = [] := by
  cases trees with
  | nil => simp [postorderAll]
  | cons tree trees =>
    cases tree
    simp [postorderAll, postorder]

section Rank

variable {rank : α → Nat}

mutual

theorem lt_rank_of_mem_postorder {n : Nat} : ∀ (tree : Rose α), tree.Ascends rank →
    n < rank tree.label → ∀ a ∈ tree.postorder, n < rank a
  | node b children, hascends, hlt => by
      obtain ⟨hchildren, hbelow⟩ := hascends
      change n < rank b at hlt
      simp only [postorder, List.forall_mem_append, List.forall_mem_singleton]
      exact ⟨lt_rank_of_mem_postorderAll children hbelow fun child hchild =>
        Nat.lt_trans hlt (hchildren child hchild), hlt⟩

theorem lt_rank_of_mem_postorderAll {n : Nat} : ∀ (trees : List (Rose α)),
    AscendsAll rank trees → (∀ tree ∈ trees, n < rank tree.label) →
    ∀ a ∈ postorderAll trees, n < rank a
  | [], _, _ => by simp [postorderAll]
  | tree :: trees, hascends, hlt => by
      rw [List.forall_mem_cons] at hlt
      simp only [postorderAll, List.forall_mem_append]
      exact ⟨lt_rank_of_mem_postorder tree hascends.1 hlt.1,
        lt_rank_of_mem_postorderAll trees hascends.2 hlt.2⟩

end

/-- A node is left before a node below it is entered, unless it is a leaf. -/
theorem postorder_eq_preorder_iff {tree : Rose α} (h : tree.Ascends rank) :
    tree.postorder = tree.preorder ↔ tree.height ≤ 1 := by
  obtain ⟨a, children⟩ := tree
  obtain ⟨hchildren, hbelow⟩ := h
  have hrank := lt_rank_of_mem_postorderAll children hbelow hchildren
  simp only [postorder, preorder, height]
  cases children with
  | nil => simp [postorderAll, preorderAll, heightAll]
  | cons child children =>
    have hheight : 1 ≤ heightAll (child :: children) := by
      cases child
      simp only [heightAll, height]
      omega
    have hne : postorderAll (child :: children) ≠ [] := by
      rw [ne_eq, postorderAll_eq_nil]
      simp
    constructor
    · intro heq
      obtain ⟨b, rest, hpost⟩ := List.exists_cons_of_ne_nil hne
      rw [hpost] at heq hrank
      have hb : b = a := (List.cons.inj heq).1
      have hlt := hrank b (by simp)
      rw [hb] at hlt
      omega
    · omega

theorem postorderAll_eq_preorderAll_iff {trees : List (Rose α)} (h : AscendsAll rank trees) :
    postorderAll trees = preorderAll trees ↔ heightAll trees ≤ 1 := by
  induction trees with
  | nil => simp [postorderAll, preorderAll, heightAll]
  | cons tree trees ih =>
    have hhead := postorder_eq_preorder_iff h.1
    have htail := ih h.2
    simp only [postorderAll, preorderAll, heightAll, Nat.max_le]
    rw [← hhead, ← htail]
    constructor
    · intro heq
      exact List.append_inj heq (length_postorder tree)
    · intro ⟨heq, heqs⟩
      rw [heq, heqs]

end Rank

end Rose

end Foundry

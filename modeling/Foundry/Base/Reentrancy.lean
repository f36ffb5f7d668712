import Mathlib.Data.List.Basic

/-!
# Re-entrant calls

A contract is called by parties that nobody controls.  Some of its functions hand control to
another party before they return, and that party may call the contract again, any number of times
and at any depth.  A call that fails takes back what it and the calls inside it did.

An invariant holds in every state that such calls go through, also while control is handed over,
as soon as the functions keep it up to the moment of the handover.
-/

namespace Foundry.Reentrancy

open List

/-- A call of a contract: of a function `a : A` that calls nobody, of a function `c : C` that hands
control over, with the calls the other party makes and whether it accepts, or a frame of another
party that makes calls and may revert. -/
inductive Call (A C : Type) where
  | plain (a : A)
  | handover (c : C) (inner : List (Call A C)) (accepted : Bool)
  | frame (inner : List (Call A C)) (accepted : Bool)

structure Contract (S A C : Type) where
  act : A → S → S
  /-- The state in which control is handed over, if the function gets there. -/
  enter : C → S → Option S
  /-- The state after a function that failed. -/
  abort : C → S → S

variable {S A C : Type} (contract : Contract S A C)

mutual

def exec : Call A C → S → S
  | .plain a, s => contract.act a s
  | .handover c inner accepted, s =>
    match contract.enter c s with
    | none => contract.abort c s
    | some s' => if accepted then execAll inner s' else contract.abort c s
  | .frame inner accepted, s => if accepted then execAll inner s else s

def execAll : List (Call A C) → S → S
  | [], s => s
  | call :: calls, s => execAll calls (exec call s)

end

mutual

/-- The states that a call goes through, those while control is handed over among them. -/
def visited : Call A C → S → List S
  | .plain a, s => [contract.act a s]
  | .handover c inner accepted, s =>
    match contract.enter c s with
    | none => [contract.abort c s]
    | some s' => s' :: visitedAll inner s' ++ [exec contract (.handover c inner accepted) s]
  | .frame inner accepted, s =>
    visitedAll inner s ++ [exec contract (.frame inner accepted) s]

def visitedAll : List (Call A C) → S → List S
  | [], _ => []
  | call :: calls, s => visited call s ++ visitedAll calls (exec contract call s)

end

/-- The states that calls reach from a state, with the state itself. -/
def reached (calls : List (Call A C)) (s : S) : List S := s :: visitedAll contract calls s

mutual

/-- The functions called meet a condition on the state they are called in. -/
def Meets (P : A → S → Prop) (Q : C → Bool → S → Prop) : Call A C → S → Prop
  | .plain a, s => P a s
  | .handover c inner accepted, s =>
    Q c accepted s ∧ ∀ s', contract.enter c s = some s' → MeetsAll P Q inner s'
  | .frame inner _, s => MeetsAll P Q inner s

def MeetsAll (P : A → S → Prop) (Q : C → Bool → S → Prop) : List (Call A C) → S → Prop
  | [], _ => True
  | call :: calls, s => Meets P Q call s ∧ MeetsAll P Q calls (exec contract call s)

end

mutual

/-- What the functions that were not taken back add up to. -/
def committed (weight : A → S → Nat) : Call A C → S → Nat
  | .plain a, s => weight a s
  | .handover c inner accepted, s =>
    match contract.enter c s with
    | none => 0
    | some s' => if accepted then committedAll weight inner s' else 0
  | .frame inner accepted, s => if accepted then committedAll weight inner s else 0

def committedAll (weight : A → S → Nat) : List (Call A C) → S → Nat
  | [], _ => 0
  | call :: calls, s =>
    committed weight call s + committedAll weight calls (exec contract call s)

end

variable {contract}

/-! ## The last state -/

theorem exec_mem_visited (call : Call A C) (s : S) :
    exec contract call s ∈ visited contract call s := by
  cases call with
  | plain a => simp [visited, exec]
  | handover c inner accepted =>
    cases henter : contract.enter c s with
    | none => simp [visited, exec, henter]
    | some s' => simp [visited, henter]
  | frame inner accepted => simp [visited]

theorem execAll_mem_reached (contract : Contract S A C) (calls : List (Call A C)) (s : S) :
    execAll contract calls s ∈ reached contract calls s := by
  induction calls generalizing s with
  | nil => simp [reached, execAll]
  | cons call calls ih =>
    have hlast := ih (exec contract call s)
    simp only [reached, visitedAll, execAll, mem_cons, mem_append] at hlast ⊢
    cases hlast with
    | inl heq =>
      rw [heq]
      exact .inr (.inl (exec_mem_visited call s))
    | inr hmem => exact .inr (.inr hmem)

/-! ## Invariants -/

section Invariant

/-- What the functions of a contract keep, where they are called under a condition. -/
structure Maintains (contract : Contract S A C) (P : A → S → Prop) (Q : C → Bool → S → Prop)
    (Inv : S → Prop) : Prop where
  act : ∀ a s, Inv s → P a s → Inv (contract.act a s)
  enter : ∀ c accepted s s', Inv s → Q c accepted s → contract.enter c s = some s' → Inv s'
  abort : ∀ c accepted s, Inv s → Q c accepted s →
    contract.enter c s = none ∨ accepted = false → Inv (contract.abort c s)

variable {P : A → S → Prop} {Q : C → Bool → S → Prop} {Inv : S → Prop}

mutual

theorem visited_inv (keeps : Maintains contract P Q Inv) : ∀ (call : Call A C) (s : S), Inv s →
    Meets contract P Q call s → ∀ s' ∈ visited contract call s, Inv s'
  | .plain a, s, hs, hmeets => by
      simp only [visited, forall_mem_singleton]
      exact keeps.act a s hs hmeets
  | .handover c inner accepted, s, hs, hmeets => by
      obtain ⟨hq, hinner⟩ := hmeets
      cases henter : contract.enter c s with
      | none =>
        simp only [visited, henter, forall_mem_singleton]
        exact keeps.abort c accepted s hs hq (.inl henter)
      | some s' =>
        have hs' := keeps.enter c accepted s s' hs hq henter
        have hrest := visitedAll_inv keeps inner s' hs' (hinner s' henter)
        have hend : Inv (exec contract (.handover c inner accepted) s) := by
          simp only [exec, henter]
          cases accepted with
          | false => exact keeps.abort c false s hs hq (.inr rfl)
          | true => exact forall_mem_cons.mpr ⟨hs', hrest⟩ _ (execAll_mem_reached ..)
        simp only [visited, henter, cons_append, forall_mem_cons, forall_mem_append]
        exact ⟨hs', hrest, hend, forall_mem_nil _⟩
  | .frame inner accepted, s, hs, hmeets => by
      have hrest := visitedAll_inv keeps inner s hs hmeets
      simp only [visited, exec, forall_mem_append, forall_mem_singleton]
      refine ⟨hrest, ?_⟩
      cases accepted with
      | false => exact hs
      | true => exact forall_mem_cons.mpr ⟨hs, hrest⟩ _ (execAll_mem_reached ..)

theorem visitedAll_inv (keeps : Maintains contract P Q Inv) :
    ∀ (calls : List (Call A C)) (s : S), Inv s → MeetsAll contract P Q calls s →
    ∀ s' ∈ visitedAll contract calls s, Inv s'
  | [], _, _, _ => by simp [visitedAll]
  | call :: calls, s, hs, hmeets => by
      have hcall := visited_inv keeps call s hs hmeets.1
      have hnext := hcall _ (exec_mem_visited call s)
      simp only [visitedAll, forall_mem_append]
      exact ⟨hcall, visitedAll_inv keeps calls _ hnext hmeets.2⟩

end

/-- What the functions keep holds in every state reached. -/
theorem reached_inv (keeps : Maintains contract P Q Inv) {calls : List (Call A C)} {s : S}
    (hs : Inv s) (hmeets : MeetsAll contract P Q calls s) :
    ∀ s' ∈ reached contract calls s, Inv s' := by
  simp only [reached, forall_mem_cons]
  exact ⟨hs, visitedAll_inv keeps calls s hs hmeets⟩

mutual

theorem meets_of_forall (hP : ∀ a s, P a s) (hQ : ∀ c accepted s, Q c accepted s) :
    ∀ (call : Call A C) (s : S), Meets contract P Q call s
  | .plain a, s => hP a s
  | .handover c inner accepted, s =>
    ⟨hQ c accepted s, fun s' _ => meetsAll_of_forall hP hQ inner s'⟩
  | .frame inner _, s => meetsAll_of_forall hP hQ inner s

theorem meetsAll_of_forall (hP : ∀ a s, P a s) (hQ : ∀ c accepted s, Q c accepted s) :
    ∀ (calls : List (Call A C)) (s : S), MeetsAll contract P Q calls s
  | [], _ => trivial
  | call :: calls, s => ⟨meets_of_forall hP hQ call s, meetsAll_of_forall hP hQ calls _⟩

end

end Invariant

/-! ## Bounds -/

section Bound

variable {weight : A → S → Nat} {measure : S → Nat}

/-- No function raises the measure by more than its weight, and a handover not at all. -/
structure Bounded (contract : Contract S A C) (weight : A → S → Nat) (measure : S → Nat) :
    Prop where
  act : ∀ a s, measure (contract.act a s) ≤ measure s + weight a s
  enter : ∀ c s s', contract.enter c s = some s' → measure s' ≤ measure s
  abort : ∀ c s, measure (contract.abort c s) ≤ measure s

mutual

theorem exec_le (bounded : Bounded contract weight measure) : ∀ (call : Call A C) (s : S),
    measure (exec contract call s) ≤ measure s + committed contract weight call s
  | .plain a, s => bounded.act a s
  | .handover c inner accepted, s => by
      have habort := bounded.abort c s
      cases henter : contract.enter c s with
      | none =>
        simp only [exec, committed, henter]
        omega
      | some s' =>
        cases accepted with
        | false =>
          simp only [exec, committed, henter, Bool.false_eq_true, if_false]
          omega
        | true =>
          have hle := execAll_le bounded inner s'
          have hs' := bounded.enter c s s' henter
          simp only [exec, committed, henter, if_true]
          omega
  | .frame inner accepted, s => by
      cases accepted with
      | false => simp [exec]
      | true =>
        simp only [exec, committed, if_true]
        exact execAll_le bounded inner s

theorem execAll_le (bounded : Bounded contract weight measure) :
    ∀ (calls : List (Call A C)) (s : S),
    measure (execAll contract calls s) ≤ measure s + committedAll contract weight calls s
  | [], s => by simp [execAll]
  | call :: calls, s => by
      have hhead := exec_le bounded call s
      have htail := execAll_le bounded calls (exec contract call s)
      simp only [execAll, committedAll]
      omega

end

end Bound

end Foundry.Reentrancy

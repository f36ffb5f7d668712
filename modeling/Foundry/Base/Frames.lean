import Mathlib.Order.Defs.Unbundled

/-!
# What a computation may change

A computation over a state that survives its failures: a relation that holds across each of
its steps, and composes, holds across the whole of it, whether it returns or fails.  Where
the states before and after have to be described apart, a triple does so.
-/

namespace Foundry

variable {ε σ α β : Type}

def endState : EStateM.Result ε σ α → σ
  | .ok _ s => s
  | .error _ s => s

/-- `rel` holds between the state before `m` and the one it ends in. -/
def Keeps (rel : σ → σ → Prop) (m : EStateM ε σ α) : Prop := ∀ s, rel s (endState (m s))

def ofExcept (x : Except ε α) : EStateM ε σ α :=
  match x with
  | .ok a => pure a
  | .error e => throw e

namespace Keeps

variable {rel : σ → σ → Prop}

theorem modify {f : σ → σ} (h : ∀ s, rel s (f s)) : Keeps rel (modify f : EStateM ε σ PUnit) := h

section

variable [Std.Refl rel]

theorem pure (a : α) : Keeps rel (pure a : EStateM ε σ α) := fun s => Std.Refl.refl s

theorem throw (e : ε) : Keeps rel (throw e : EStateM ε σ α) := fun s => Std.Refl.refl s

theorem get : Keeps rel (get : EStateM ε σ σ) := fun s => Std.Refl.refl s

theorem ofExcept (x : Except ε α) : Keeps rel (ofExcept x : EStateM ε σ α) := by
  cases x with
  | ok a => exact pure a
  | error e => exact throw e

end

theorem bind [IsTrans σ rel] {m : EStateM ε σ α} {f : α → EStateM ε σ β} (hm : Keeps rel m)
    (hf : ∀ a, Keeps rel (f a)) : Keeps rel (m >>= f) := by
  intro s
  have hs := hm s
  change rel s (endState (EStateM.bind m f s))
  unfold EStateM.bind
  cases heq : m s with
  | ok a s' =>
    rw [heq] at hs
    exact IsTrans.trans _ _ _ hs (hf a s')
  | error e s' =>
    rw [heq] at hs
    exact hs

variable [Std.Refl rel] [IsTrans σ rel]

theorem foldlM {f : β → α → EStateM ε σ β} (hf : ∀ b a, Keeps rel (f b a)) (l : List α) (b : β) :
    Keeps rel (l.foldlM f b) := by
  induction l generalizing b with
  | nil => exact pure b
  | cons a l ih =>
    exact bind (hf b a) ih

theorem forM {f : α → EStateM ε σ PUnit} (hf : ∀ a, Keeps rel (f a)) (l : List α) :
    Keeps rel (ForM.forM l f) := by
  induction l with
  | nil => exact pure PUnit.unit
  | cons a l ih =>
    exact bind (hf a) fun _ => ih

end Keeps

/-- From a state of `P`, `m` returns into `Q` or fails into `X`. -/
def Triple (P : σ → Prop) (m : EStateM ε σ α) (Q : α → σ → Prop) (X : ε → σ → Prop) : Prop :=
  ∀ s, P s →
    match m s with
    | .ok a s' => Q a s'
    | .error e s' => X e s'

namespace Triple

variable {P P' : σ → Prop} {Q Q' : α → σ → Prop} {X X' : ε → σ → Prop}
  {f : α → EStateM ε σ β} {S : β → σ → Prop} {m : EStateM ε σ α}

theorem pure {a : α} (h : ∀ s, P s → Q a s) : Triple P (pure a : EStateM ε σ α) Q X := h

theorem throw {e : ε} (h : ∀ s, P s → X e s) : Triple P (throw e : EStateM ε σ α) Q X := h

theorem modify {f : σ → σ} {Q : PUnit → σ → Prop} (h : ∀ s, P s → Q ⟨⟩ (f s)) :
    Triple P (modify f : EStateM ε σ PUnit) Q X := h

theorem weaken (h : Triple P m Q X) (hP : ∀ s, P' s → P s)
    (hQ : ∀ a s, Q a s → Q' a s) (hX : ∀ e s, X e s → X' e s) : Triple P' m Q' X' := by
  intro s hs
  have hm := h s (hP s hs)
  cases heq : m s with
  | ok a s' =>
    rw [heq] at hm
    exact hQ a s' hm
  | error e s' =>
    rw [heq] at hm
    exact hX e s' hm

theorem bind (hm : Triple P m Q X) (hf : ∀ a, Triple (Q a) (f a) S X) : Triple P (m >>= f) S X := by
  intro s hs
  have hs := hm s hs
  change match EStateM.bind m f s with
    | .ok a s' => S a s'
    | .error e s' => X e s'
  unfold EStateM.bind
  cases heq : m s with
  | ok a s' =>
    rw [heq] at hs
    exact hf a s' hs
  | error e s' =>
    rw [heq] at hs
    exact hs

theorem get_bind {f : σ → EStateM ε σ α} (h : ∀ a, P a → Triple P (f a) Q X) :
    Triple P (MonadState.get >>= f) Q X := fun s hs => h s hs s hs

theorem ofExcept_bind {x : Except ε α} (hok : ∀ a, x = .ok a → Triple P (f a) S X)
    (herror : ∀ e, x = .error e → ∀ s, P s → X e s) : Triple P (ofExcept x >>= f) S X := by
  cases x with
  | ok a => exact hok a rfl
  | error e => exact herror e rfl

theorem of_and {p : Prop} (h : p → Triple P m Q X) :
    Triple (fun s => P s ∧ p) m Q X := fun s hs => h hs.2 s hs.1

theorem of_exists {γ : Type} {P : γ → σ → Prop}
    (h : ∀ c, Triple (P c) m Q X) : Triple (fun s => ∃ c, P c s) m Q X := by
  intro s ⟨c, hs⟩
  exact h c s hs

theorem foldlM {I : β → σ → Prop} {f : β → α → EStateM ε σ β} {l : List α}
    (hf : ∀ b, ∀ a ∈ l, Triple (I b) (f b a) I X) (b : β) : Triple (I b) (l.foldlM f b) I X := by
  induction l generalizing b with
  | nil => exact pure fun _ h => h
  | cons a l ih =>
    exact bind (hf b a List.mem_cons_self)
      fun b => ih (fun b a ha => hf b a (List.mem_cons_of_mem _ ha)) b

theorem forM {f : α → EStateM ε σ PUnit} (l : List α)
    (hf : ∀ a ∈ l, Triple P (f a) (fun _ => P) X) :
    Triple P (ForM.forM l f) (fun _ => P) X := by
  induction l with
  | nil => exact pure fun _ h => h
  | cons a l ih =>
    exact bind (hf a List.mem_cons_self) fun _ => ih fun a ha => hf a (List.mem_cons_of_mem _ ha)

end Triple

end Foundry

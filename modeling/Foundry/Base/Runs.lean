import Mathlib.Logic.Basic

/-!
# Runs

A program that reacts to a list of events goes through a list of states.  A property of states and
events that holds at every step of a run follows from an invariant that the steps keep, as long as
a condition holds at every step.
-/

namespace Foundry.Runs

variable {S E : Type} {step : S → E → S} {P Q : S → E → Prop}

def run (step : S → E → S) (s : S) (events : List E) : S := events.foldl step s

/-- `P` holds at every step, of the state before it and the event. -/
def Every (step : S → E → S) (P : S → E → Prop) : S → List E → Prop
  | _, [] => True
  | s, e :: events => P s e ∧ Every step P (step s e) events

instance decidableEvery (step : S → E → S) (P : S → E → Prop) [∀ s e, Decidable (P s e)] :
    (s : S) → (events : List E) → Decidable (Every step P s events)
  | _, [] => isTrue trivial
  | s, e :: events =>
    have := decidableEvery step P (step s e) events
    inferInstanceAs (Decidable (P s e ∧ _))

@[simp] theorem every_nil (s : S) : Every step P s [] := trivial

@[simp] theorem every_cons (s : S) (e : E) (events : List E) :
    Every step P s (e :: events) ↔ P s e ∧ Every step P (step s e) events := Iff.rfl

/-- Two properties agree on runs if they agree at each state with the invariant, and a step that
has the property keeps the invariant. -/
theorem every_iff {Inv : S → Prop} (hiff : ∀ s e, Inv s → (P s e ↔ Q s e))
    (hstep : ∀ s e, Inv s → Q s e → Inv (step s e)) {s : S} (hs : Inv s) (events : List E) :
    Every step P s events ↔ Every step Q s events := by
  induction events generalizing s with
  | nil => simp
  | cons e events ih =>
    rw [every_cons, hiff s e hs]
    constructor
    · intro ⟨hq, hrest⟩
      exact ⟨hq, (ih (hstep s e hs hq)).mp hrest⟩
    · intro ⟨hq, hrest⟩
      exact ⟨hq, (ih (hstep s e hs hq)).mpr hrest⟩

theorem every_append {s : S} {events events' : List E} :
    Every step P s (events ++ events') ↔
      Every step P s events ∧ Every step P (run step s events) events' := by
  induction events generalizing s with
  | nil => simp [run]
  | cons e events ih => simp [ih, run, and_assoc]

/-- What holds before the first step and is kept by every step that meets the condition holds of
the events so far and the state they lead to. -/
theorem run_of_every {Inv : List E → S → Prop} {s : S} {events : List E} (hnil : Inv [] s)
    (hstep : ∀ events s e, Inv events s → P s e → Inv (events ++ [e]) (step s e))
    (hevery : Every step P s events) : Inv events (run step s events) := by
  suffices h : ∀ (past future : List E) (s : S), Inv past s → Every step P s future →
      Inv (past ++ future) (run step s future) from h [] events s hnil hevery
  intro past future
  induction future generalizing past with
  | nil =>
    intro s hinv _
    rw [List.append_nil]
    exact hinv
  | cons e future ih =>
    intro s hinv hfuture
    rw [List.append_cons]
    exact ih (past ++ [e]) (step s e) (hstep past s e hinv hfuture.1) hfuture.2

end Foundry.Runs

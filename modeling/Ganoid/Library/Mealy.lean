import Mathlib.Data.Nat.Notation
import Mathlib.Tactic.Common

/-!
# Decoders that read one symbol at a time

A decoder is a step function: in a state, on a symbol, it goes to a new state and puts out one
report. A stream is decoded by stepping through it, and decoding can be broken off and resumed
anywhere: the reports of `l ++ l'` are those of `l` and then those of `l'` from the state that `l`
leaves (`outputs_append`, `stateAfter_append`). A stream may be held to a condition that depends on
the state in which each symbol arrives (`Each`), and a property that a symbol keeps exactly when it
meets such a condition holds of all states reached exactly on the streams held to it
(`forall_prefix_iff_each`).
-/

namespace Mealy

universe u v w

variable {σ : Type u} {ι : Type v} {ω : Type w}

/-- The state a stream leads to. -/
def stateAfter (step : σ → ι → σ × ω) : σ → List ι → σ
  | s, [] => s
  | s, i :: l => stateAfter step (step s i).1 l

/-- The reports on a stream, one for each symbol. -/
def outputs (step : σ → ι → σ × ω) : σ → List ι → List ω
  | _, [] => []
  | s, i :: l => (step s i).2 :: outputs step (step s i).1 l

variable (step : σ → ι → σ × ω) (s : σ)

@[simp] theorem stateAfter_nil : stateAfter step s [] = s := rfl

@[simp] theorem stateAfter_cons (i : ι) (l : List ι) :
    stateAfter step s (i :: l) = stateAfter step (step s i).1 l := rfl

@[simp] theorem outputs_nil : outputs step s [] = [] := rfl

@[simp] theorem outputs_cons (i : ι) (l : List ι) :
    outputs step s (i :: l) = (step s i).2 :: outputs step (step s i).1 l := rfl

theorem stateAfter_append (l l' : List ι) :
    stateAfter step s (l ++ l') = stateAfter step (stateAfter step s l) l' := by
  induction l generalizing s with
  | nil => rfl
  | cons i l ih => exact ih (step s i).1

/-- **Resumption.** A stream decoded in two pieces gives the reports it gives in one. -/
theorem outputs_append (l l' : List ι) :
    outputs step s (l ++ l') = outputs step s l ++ outputs step (stateAfter step s l) l' := by
  induction l generalizing s with
  | nil => rfl
  | cons i l ih => exact congrArg ((step s i).2 :: ·) (ih (step s i).1)

/-! ### Conditions on the symbols of a stream -/

/-- The condition `P` holds of every symbol in the state in which it arrives. -/
def Each (next : σ → ι → σ) (P : σ → ι → Prop) : σ → List ι → Prop
  | _, [] => True
  | s, i :: l => P s i ∧ Each next P (next s i) l

variable {next : σ → ι → σ} {P : σ → ι → Prop} {s : σ}

@[simp] theorem each_nil : Each next P s [] := trivial

@[simp] theorem each_cons_iff {i : ι} {l : List ι} :
    Each next P s (i :: l) ↔ P s i ∧ Each next P (next s i) l := Iff.rfl

theorem each_append_iff {l l' : List ι} :
    Each next P s (l ++ l') ↔ Each next P s l ∧ Each next P (l.foldl next s) l' := by
  induction l generalizing s with
  | nil => simp
  | cons i l ih => rw [List.cons_append, each_cons_iff, ih, each_cons_iff, and_assoc]; rfl

/-- The condition symbol by symbol, each with what came before it. -/
theorem each_iff {l : List ι} : Each next P s l ↔
    ∀ pre i post, l = pre ++ i :: post → P (pre.foldl next s) i := by
  constructor
  · rintro h pre i post rfl
    exact (each_append_iff.1 h).2.1
  · intro h
    induction l generalizing s with
    | nil => trivial
    | cons i l ih =>
      exact ⟨h [] i l rfl, ih fun pre j post heq ↦ h (i :: pre) j post (congrArg (i :: ·) heq)⟩

/-- **Every state reached.** If a symbol keeps a property exactly when it meets the condition `P`,
the property holds of every state a stream leads through exactly when all of its symbols meet `P`. -/
theorem forall_prefix_iff_each (Inv Good : σ → Prop) (hinv : ∀ s i, Inv s → Inv (next s i))
    (hstep : ∀ s i, Inv s → Good s → (Good (next s i) ↔ P s i)) (hs : Inv s) (hgood : Good s)
    (l : List ι) : (∀ pre, pre <+: l → Good (pre.foldl next s)) ↔ Each next P s l := by
  induction l generalizing s with
  | nil =>
    refine ⟨fun _ ↦ trivial, fun _ pre hpre ↦ ?_⟩
    rw [List.prefix_nil.1 hpre]
    exact hgood
  | cons i l ih =>
    rw [each_cons_iff]
    constructor
    · intro h
      have hnext : Good (next s i) := h [i] (List.prefix_append [i] l)
      refine ⟨(hstep s i hs hgood).1 hnext, (ih (hinv s i hs) hnext).1 fun pre hpre ↦ ?_⟩
      exact h (i :: pre) ((List.prefix_cons_inj i).2 hpre)
    · rintro ⟨hi, hrest⟩ pre hpre
      rcases List.prefix_cons_iff.1 hpre with rfl | ⟨pre', rfl, hpre'⟩
      · exact hgood
      · exact (ih (hinv s i hs) ((hstep s i hs hgood).2 hi)).2 hrest pre' hpre'

end Mealy

import Mathlib.Data.List.Basic

/-!
# Transducers

A transducer answers every input with some outputs, by its state. What it answers to some inputs and then to others is
what it answers to both.
-/

namespace Lib

structure Transducer (σ α β : Type) where
  next : σ → α → σ
  answer : σ → α → List β

namespace Transducer
variable {σ α β : Type} {m : Transducer σ α β} {s : σ}

/-- The state after the inputs. -/
def after (m : Transducer σ α β) (s : σ) (xs : List α) : σ := xs.foldl m.next s

/-- What is answered to the inputs. -/
def output (m : Transducer σ α β) : σ → List α → List β
  | _, [] => []
  | s, x :: xs => m.answer s x ++ m.output (m.next s x) xs

@[simp] theorem after_nil : m.after s [] = s := rfl

@[simp] theorem after_cons (x : α) (xs : List α) : m.after s (x :: xs) = m.after (m.next s x) xs := rfl

@[simp] theorem after_append (xs ys : List α) : m.after s (xs ++ ys) = m.after (m.after s xs) ys :=
  List.foldl_append

@[simp] theorem output_nil : m.output s [] = [] := rfl

@[simp] theorem output_cons (x : α) (xs : List α) :
    m.output s (x :: xs) = m.answer s x ++ m.output (m.next s x) xs := rfl

theorem output_append (xs ys : List α) : m.output s (xs ++ ys) = m.output s xs ++ m.output (m.after s xs) ys := by
  induction xs generalizing s with
  | nil => simp
  | cons x xs ih => simp [ih]

end Transducer
end Lib

import Mathlib.Algebra.BigOperators.Group.List.Basic
import Metrology.Proofs.Converter.Chain

/-!
# Interpreting converters

A map from converters to a monoid may take a pair to the product of its parts, and may not tell two
steps that merge from the step they merge into. Then it does not see that composition merges steps at
all: it takes a composition to a product.
-/
namespace Metrology.Converter

/-- Whether a map takes chains to products and is kept by merging. -/
structure IsInterpretation {M : Type} [Monoid M] (φ : Converter → M) : Prop where
  identity : φ identity = 1
  pair (a b : Converter) : φ (pair a b) = φ a * φ b
  merge {a b m : Converter} : a.merge b = some m → φ m = φ a * φ b

namespace IsInterpretation

variable {M : Type} [Monoid M] {φ : Converter → M}

theorem prod_steps (h : IsInterpretation φ) (c : Converter) : (c.steps.map φ).prod = φ c := by
  induction c with
  | identity => exact h.identity.symm
  | pair outer inner ho hi => rw [steps, List.map_append, List.prod_append, ho, hi, h.pair]
  | _ => exact List.prod_singleton

theorem ofSteps (h : IsInterpretation φ) (l : List Converter) :
    φ (ofSteps l) = (l.map φ).prod := by
  have chain : ∀ (l : List Converter) (c : Converter),
      φ (l.foldl Converter.pair c) = φ c * (l.map φ).prod := by
    intro l
    induction l with
    | nil => exact fun c => (mul_one _).symm
    | cons s l ih =>
      intro c
      rw [List.foldl_cons, ih, h.pair, List.map_cons, List.prod_cons, mul_assoc]
  cases l with
  | nil => exact h.identity
  | cons s l => exact chain l s

/-- A stack is read from its bottom, and pushing multiplies by what is pushed. -/
theorem push (h : IsInterpretation φ) (stack : List Converter) (s : Converter) :
    ((push stack s).reverse.map φ).prod = (stack.reverse.map φ).prod * φ s := by
  induction stack generalizing s with
  | nil => simp [Converter.push]
  | cons top below ih =>
    rw [Converter.push]
    cases merged : top.merge s with
    | none => simp [mul_assoc]
    | some m =>
      have value := h.merge merged
      have below_top : ((top :: below).reverse.map φ).prod = (below.reverse.map φ).prod * φ top := by
        simp
      dsimp only
      rw [below_top, mul_assoc, ← value]
      split
      · rename_i cancelled
        rw [isIdentity_iff.1 cancelled, h.identity, mul_one]
      · exact ih m

/-- Merging keeps the product over the steps. -/
theorem mergeSteps (h : IsInterpretation φ) (l : List Converter) :
    ((mergeSteps l).map φ).prod = (l.map φ).prod := by
  have pushed : ∀ l stack : List Converter, ((l.foldl Converter.push stack).reverse.map φ).prod =
      (stack.reverse.map φ).prod * (l.map φ).prod := by
    intro l
    induction l with
    | nil => simp
    | cons s l ih =>
      intro stack
      rw [List.foldl_cons, ih, h.push, List.map_cons, List.prod_cons, mul_assoc]
  exact (pushed l []).trans (one_mul _)

/-- A composition is interpreted by the product. -/
theorem compose (h : IsInterpretation φ) (a b : Converter) : φ (a.compose b) = φ a * φ b := by
  rw [Converter.compose, h.ofSteps, h.mergeSteps, List.map_append, List.prod_append, h.prod_steps,
    h.prod_steps]

end IsInterpretation

end Metrology.Converter

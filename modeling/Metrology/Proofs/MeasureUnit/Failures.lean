import Metrology.Proofs.MeasureUnit.GroupLaw

/-!
# How the arithmetic of units fails

Products fail for a power out of range alone. A power fails for that too, or for a scaling that has
no such power, and so does the unwinding of a unit, which multiplies powers. No text comes into any
of these errors: they have no position.
-/
namespace Metrology

/-- Whether an error comes of a power or of the scaling of a number. -/
inductive Error.IsArithmetic : Error → Prop
  | overflow : IsArithmetic .exponentOverflow
  | conversion (cause : ConversionError) (power : ∃ (c : Converter) (n : Int), c.pow n = .error cause) :
      IsArithmetic (.conversion cause)

namespace MeasureUnit

/-- Whether a step has no other errors than those of the arithmetic. -/
def FailsInArithmetic {α : Type} (step : Except Error α) : Prop :=
  ∀ e, step = .error e → e.IsArithmetic

variable {α β : Type} {step : Except Error α}

theorem OnlyOverflows.failsInArithmetic (h : OnlyOverflows step) : FailsInArithmetic step := by
  intro e failed
  rw [h e failed]
  exact .overflow

theorem failsInArithmetic_ok (value : α) : FailsInArithmetic (.ok value) := nofun

/-- Steps one after the other fail in the arithmetic if each does. -/
theorem FailsInArithmetic.bind {next : α → Except Error β} (h : FailsInArithmetic step)
    (h' : ∀ value, FailsInArithmetic (next value)) : FailsInArithmetic (step >>= next) := by
  cases step with
  | error e =>
    intro e' failed
    cases failed
    exact h e rfl
  | ok value => exact h' value

/-- A product fails only if a power is out of range. -/
theorem onlyOverflows_mul (u v : MeasureUnit) : OnlyOverflows (u.mul v) := by
  unfold mul
  split
  · exact onlyOverflows_ok v
  · split
    · exact onlyOverflows_ok u
    · split
      · exact onlyOverflows_ok _
      · exact onlyOverflows_ok _
      · exact onlyOverflows_ofProduct _

theorem onlyOverflows_mapM_raise (n : Power) (fs : List (Factor MeasureUnit)) :
    OnlyOverflows (fs.mapM (raise n)) := by
  have step (f : Factor MeasureUnit) : OnlyOverflows (raise n f) :=
    (onlyOverflows_powerOrOverflow _).bind fun _ => onlyOverflows_ok _
  induction fs with
  | nil => exact onlyOverflows_ok []
  | cons f fs ih =>
    rw [List.mapM_cons]
    exact (step f).bind fun _ => ih.bind fun _ => onlyOverflows_ok _

/-- A power fails only if a power is out of range or a number cannot be raised. -/
theorem failsInArithmetic_pow (u : MeasureUnit) (n : Power) : FailsInArithmetic (u.pow n) := by
  unfold pow
  split
  · split
    · exact failsInArithmetic_ok _
    · rename_i power
      intro e failed
      cases failed
      exact .conversion _ ⟨_, _, power⟩
  · have raised := onlyOverflows_mapM_raise n u.factors
    exact (raised.bind onlyOverflows_ofProduct).failsInArithmetic

theorem failsInArithmetic_div (u v : MeasureUnit) : FailsInArithmetic (u.div v) :=
  (failsInArithmetic_pow v _).bind fun w => (onlyOverflows_mul u w).failsInArithmetic

/-- Unwinding multiplies and raises, and has no errors of its own. -/
theorem failsInArithmetic_systemUnit (u : MeasureUnit) : FailsInArithmetic u.systemUnit := by
  induction u with
  | base symbol => exact failsInArithmetic_ok _
  | alternate symbol parent => exact failsInArithmetic_ok _
  | product fs ih =>
    have chain (acc : MeasureUnit) : FailsInArithmetic (systemProduct fs acc) := by
      induction fs generalizing acc with
      | nil => exact failsInArithmetic_ok acc
      | cons f fs tail =>
        obtain ⟨unit, n⟩ := f
        have power : FailsInArithmetic (systemPower ⟨unit, n⟩) :=
          (ih ⟨unit, n⟩ (by simp)).bind fun s => failsInArithmetic_pow s n
        exact power.bind fun p => (onlyOverflows_mul acc p).failsInArithmetic.bind
          (tail fun g hg => ih g (by simp [hg]))
    exact chain one
  | transformed parent c mark ih => exact ih
  | noted actual note ih => exact ih

end MeasureUnit

end Metrology

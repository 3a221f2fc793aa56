import Metrology.Proofs.MeasureUnit.Unwinding

/-!
# Converters to system units

The converter to the system unit is composed step by step, so that it is in normal form whatever is in
the unit. On what unwinding leaves, and on all that equals it, it does nothing. Hence the conversion
to the system unit, which compares the units and goes there and back, is this converter and no other.
-/
namespace Metrology.MeasureUnit

open Converter

variable {u v s : MeasureUnit} {fs : List (Factor MeasureUnit)} {n : Power} {c : Converter}

/-! ### Normal forms -/

theorem normalize_productConverter {acc : Converter} (normal : acc.normalize = acc)
    (ok : productConverter fs acc = .ok c) : c.normalize = c := by
  induction fs generalizing acc with
  | nil =>
    cases ok
    exact normal
  | cons f fs ih =>
    obtain ⟨d, -, ok⟩ := bind_ok_iff.1 ok
    exact ih (normalize_compose acc d) ok

/-- Converters to system units are in normal form. -/
theorem normalize_systemConverter (ok : u.systemConverter = .ok c) : c.normalize = c := by
  induction u generalizing c with
  | base | alternate =>
    cases ok
    rfl
  | product fs =>
    have start : Converter.identity.normalize = .identity := rfl
    exact normalize_productConverter start ok
  | transformed parent d =>
    obtain ⟨e, -, ok⟩ := bind_ok_iff.1 ok
    cases ok
    exact normalize_compose e d
  | noted actual note ih => exact ih ok

/-! ### Units that are unwound already -/

theorem IsAtom.systemConverter (h : u.IsAtom) : u.systemConverter = .ok .identity := by
  cases u <;> first | rfl | cases h

/-- No power of nothing does anything. -/
theorem factorConverter_identity (u : MeasureUnit) (n : Power) :
    factorConverter u n .identity = .ok .identity := by
  have power : Converter.identity.pow n.val = .ok .identity := by
    rw [Converter.pow, powNat]
    split <;> split <;> rfl
  rw [factorConverter, power]
  by_cases one : n.val = 1
  · rw [if_pos one]
    rfl
  · rw [if_neg one]
    exact ite_self _

theorem productConverter_of_atoms (atoms : ∀ f ∈ fs, f.unit.IsAtom) :
    productConverter fs .identity = .ok .identity := by
  induction fs with
  | nil => rfl
  | cons f fs ih =>
    obtain ⟨atom, atoms⟩ := List.forall_mem_cons.1 atoms
    have step : powerConverter f = .ok .identity :=
      powerConverter_eq_ok.2 ⟨.identity, atom.systemConverter, factorConverter_identity _ _⟩
    rw [productConverter, step]
    exact ih atoms

theorem IsAtom.of_beq (h : v.IsAtom) (same : (u == v) = true) : u.IsAtom := by
  cases u with
  | base | alternate => trivial
  | _ =>
    cases v with
    | base | alternate => cases same
    | _ => cases h

/-- What equals a system unit has its values there. -/
theorem IsSystem.systemConverter_of_beq (h : s.IsSystem) (same : (u == s) = true) :
    u.systemConverter = .ok .identity := by
  rcases h.cases with atom | h
  · exact (atom.of_beq same).systemConverter
  · have product : ∃ gs, s = .product gs ∧ ∀ g ∈ gs, g.unit.IsAtom := by
      rcases h with rfl | product
      · exact ⟨[], rfl, List.forall_mem_nil _⟩
      · exact product
    obtain ⟨gs, rfl, atoms⟩ := product
    cases u with
    | product fs =>
      refine productConverter_of_atoms fun f hf => ?_
      obtain ⟨g, hg, same, -⟩ := (product_beq_product.1 same).2 f hf
      exact (atoms g hg).of_beq same
    | _ => cases same

/-- The system converter of a system unit is the identity. -/
theorem systemConverter_systemUnit (ok : u.systemUnit = .ok s) : s.systemConverter = .ok .identity := by
  rcases (isSystem_systemUnit ok).cases with atom | rfl | ⟨fs, rfl, atoms⟩
  · exact atom.systemConverter
  · rfl
  · exact productConverter_of_atoms atoms

/-! ### The conversion to the system unit -/

/-- The converter from a unit to its system unit, or the error that there is none, is the system
converter. -/
theorem converterTo_systemUnit (ok : u.systemUnit = .ok s) (self : (s == s) = true) :
    u.converterTo s = u.systemConverter := by
  have system := isSystem_systemUnit ok
  rw [converterTo]
  split
  · rename_i same
    exact (system.systemConverter_of_beq same).symm
  · rw [ok, system.systemUnit, systemConverter_systemUnit ok]
    cases converter : u.systemConverter with
    | error e => simp [self, bind, Except.bind]
    | ok c =>
      have normal : Converter.identity.inverse.compose c = c := normalize_systemConverter converter
      simp [self, bind, Except.bind, pure, Except.pure, normal]

end Metrology.MeasureUnit

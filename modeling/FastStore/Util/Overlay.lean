import Mathlib

/-!
# Pending writes over a store

A store has a base content and pending writes, each of which holds values for some
positions.  What the store shows is the value of a pending write where one holds a
value, and the base elsewhere.  The rules say how the view moves when the base is
changed away from the pending writes, when a pending write reaches the base, when
it is dropped after that, and when it takes in more values.
-/

namespace FastStore.Util

variable {ι π α : Type}

/-- The content after writing the given values over it. -/
def overwrite (written : π → Option α) (base : π → α) : π → α :=
  fun p => (written p).getD (base p)

theorem overwrite_of_none {written : π → Option α} {p : π} (untouched : written p = none)
    (base : π → α) : overwrite written base p = base p := by
  rw [overwrite, untouched, Option.getD_none]

theorem overwrite_of_some {written : π → Option α} {p : π} {v : α} (holds : written p = some v)
    (base : π → α) : overwrite written base p = v := by
  rw [overwrite, holds, Option.getD_some]

/-- `view` is what the base shows through the pending writes. -/
structure Overlay (pending : ι → Prop) (patch : ι → π → Option α) (base view : π → α) : Prop where
  covered : ∀ {i p v}, pending i → patch i p = some v → view p = v
  bare : ∀ {p}, (∀ i, pending i → patch i p = none) → view p = base p

/-- The base has the values of the write. -/
def Stored (written : π → Option α) (base : π → α) : Prop :=
  ∀ p v, written p = some v → base p = v

/-- The change acts on each position by itself. -/
def Pointwise (change : (π → α) → π → α) : Prop :=
  ∀ {m m' : π → α} {p : π}, m p = m' p → change m p = change m' p

namespace Stored

variable {written other : π → Option α} {base : π → α}

theorem overwrite_self (written : π → Option α) (base : π → α) :
    Stored written (overwrite written base) := by
  intro p v holds
  exact overwrite_of_some holds base

theorem overwrite (stored : Stored written base) (apart : ∀ p, written p = none ∨ other p = none) :
    Stored written (overwrite other base) := by
  intro p v holds
  cases apart p with
  | inl none => exact absurd (none.symm.trans holds) nofun
  | inr none => exact (overwrite_of_none none base).trans (stored p v holds)

theorem change (stored : Stored written base) {change : (π → α) → π → α}
    (clear : ∀ p, written p = none ∨ ∀ m : π → α, change m p = m p) :
    Stored written (change base) := by
  intro p v holds
  cases clear p with
  | inl none => exact absurd (none.symm.trans holds) nofun
  | inr same => exact (same base).trans (stored p v holds)

end Stored

namespace Overlay

variable {pending pending' : ι → Prop} {patch patch' : ι → π → Option α} {base view : π → α}

/-- Without pending writes the base is what shows. -/
theorem view_eq (overlay : Overlay pending patch base view) (settled : ∀ i, ¬pending i) :
    view = base := by
  funext p
  exact overlay.bare fun i pends => absurd pends (settled i)

theorem refl (settled : ∀ i, ¬pending i) : Overlay pending patch base base where
  covered := fun pends => absurd pends (settled _)
  bare := fun _ => rfl

/-- A change away from the pending writes is the same change of the view. -/
theorem change (overlay : Overlay pending patch base view) {change : (π → α) → π → α}
    (pointwise : Pointwise change)
    (clear : ∀ i p, pending i → patch i p = none ∨ ∀ m : π → α, change m p = m p) :
    Overlay pending patch (change base) (change view) where
  covered := by
    intro i p v pends holds
    cases clear i p pends with
    | inl none => exact absurd (none.symm.trans holds) nofun
    | inr same => exact (same view).trans (overlay.covered pends holds)
  bare := fun none => pointwise (overlay.bare none)

/-- A pending write reaches the base. -/
theorem flush (overlay : Overlay pending patch base view) {i : ι} (pends : pending i) :
    Overlay pending patch (overwrite (patch i) base) view where
  covered := overlay.covered
  bare := by
    intro p none
    exact (overlay.bare none).trans (overwrite_of_none (none i pends) base).symm

/-- A write that the base has is dropped. -/
theorem drop (overlay : Overlay pending patch base view) {i : ι} (pends : pending i)
    (stored : Stored (patch i) base) (kept : ∀ j, pending' j ↔ pending j ∧ j ≠ i) :
    Overlay pending' patch base view where
  covered := fun pends => overlay.covered ((kept _).mp pends).1
  bare := by
    intro p none
    cases own : patch i p with
    | some v => exact (overlay.covered pends own).trans (stored p v own).symm
    | none =>
        apply overlay.bare
        intro j pendsJ
        by_cases same : j = i
        · exact same ▸ own
        · exact none j ((kept j).mpr ⟨pendsJ, same⟩)

/-- A pending write takes in more values, at positions no other write holds. -/
theorem extend (overlay : Overlay pending patch base view) {i : ι} {written : π → Option α}
    (pends : pending i)
    (others : ∀ j, j ≠ i → pending j → patch' j = patch j)
    (apart : ∀ j p, j ≠ i → pending j → patch j p = none ∨ written p = none)
    (grown : ∀ p, patch' i p = (written p).or (patch i p)) :
    Overlay pending patch' base (overwrite written view) where
  covered := by
    intro j p v pendsJ holds
    by_cases same : j = i
    · rw [same, grown p] at holds
      cases value : written p with
      | some w =>
          rw [value, Option.some_or] at holds
          exact (overwrite_of_some value view).trans (Option.some.inj holds)
      | none =>
          rw [value, Option.none_or] at holds
          exact (overwrite_of_none value view).trans (overlay.covered pends holds)
    · rw [others j same pendsJ] at holds
      cases apart j p same pendsJ with
      | inl none => exact absurd (none.symm.trans holds) nofun
      | inr none => exact (overwrite_of_none none view).trans (overlay.covered pendsJ holds)
  bare := by
    intro p none
    have own := none i pends
    rw [grown p, Option.or_eq_none_iff] at own
    refine (overwrite_of_none own.1 view).trans (overlay.bare fun j pendsJ => ?_)
    by_cases same : j = i
    · exact same ▸ own.2
    · exact (congrFun (others j same pendsJ) p).symm.trans (none j pendsJ)

/-- A new pending write, at positions no other write holds. -/
theorem add (overlay : Overlay pending patch base view) {i : ι}
    (pends : ∀ j, pending' j ↔ j = i ∨ pending j)
    (others : ∀ j, j ≠ i → pending j → patch' j = patch j)
    (apart : ∀ j p, j ≠ i → pending j → patch j p = none ∨ patch' i p = none)
    (fresh : ¬pending i) :
    Overlay pending' patch' base (overwrite (patch' i) view) where
  covered := by
    intro j p v pendsJ holds
    cases (pends j).mp pendsJ with
    | inl same => exact overwrite_of_some (same ▸ holds) view
    | inr before =>
        have other : j ≠ i := fun same => fresh (same ▸ before)
        rw [others j other before] at holds
        cases apart j p other before with
        | inl none => exact absurd (none.symm.trans holds) nofun
        | inr none => exact (overwrite_of_none none view).trans (overlay.covered before holds)
  bare := by
    intro p none
    have own := none i ((pends i).mpr (.inl rfl))
    refine (overwrite_of_none own view).trans (overlay.bare fun j before => ?_)
    have other : j ≠ i := fun same => fresh (same ▸ before)
    exact (congrFun (others j other before) p).symm.trans (none j ((pends j).mpr (.inr before)))

end Overlay

end FastStore.Util

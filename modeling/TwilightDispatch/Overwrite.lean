import Mathlib

/-!
# Overwriting updates

Updates of a value that overwrite: applied again after others, an update leaves no trace of its
earlier application (`Overwriting`). Constants overwrite, and so do updates of some of the fields of a
record. A value that may be absent inherits this, with updates that store or remove it
(`Overwriting.option`).

Where the updates of a run overwrite, what is delivered twice counts once, in its later place
(`Overwriting.absorb_through`).
-/

namespace Overwrite

variable {α : Type*} {M : Submonoid (Function.End α)}

/-! ## Families of updates -/

/-- The later of two applications of an update makes the earlier one of no account. -/
structure Overwriting (M : Submonoid (Function.End α)) : Prop where
  absorb : ∀ f ∈ M, ∀ g ∈ M, f * g * f = f * g

theorem overwriting_bot : Overwriting (⊥ : Submonoid (Function.End α)) where
  absorb f hf g hg := by
    rw [Submonoid.mem_bot.mp hf, Submonoid.mem_bot.mp hg]
    rfl

/-- Updates each of which overwrites what the others do, and the identity. -/
def orNothing (K : Set (Function.End α)) (h : ∀ f ∈ K, ∀ g ∈ K, f * g = f) :
    Submonoid (Function.End α) where
  carrier := {f | f = 1 ∨ f ∈ K}
  one_mem' := .inl rfl
  mul_mem' := by
    rintro f g (rfl | hf) (rfl | hg)
    · exact .inl rfl
    · exact .inr (by rwa [one_mul])
    · exact .inr (by rwa [mul_one])
    · exact .inr (by rwa [h f hf g hg])

theorem overwriting_orNothing {K : Set (Function.End α)} (h : ∀ f ∈ K, ∀ g ∈ K, f * g = f) :
    Overwriting (orNothing K h) where
  absorb := by
    rintro f (rfl | hf) g (rfl | hg)
    · rfl
    · rw [one_mul, mul_one]
    · rw [mul_one, h f hf f hf]
    · rw [h f hf g hg, h f hf f hf]

/-! ## Values that may be absent -/

/-- Change the value if there is one, store a value, or remove it. -/
def onOption (M : Submonoid (Function.End α)) : Submonoid (Function.End (Option α)) where
  carrier := {f | (∃ a, f = fun _ => a) ∨ ∃ g ∈ M, f = Option.map g}
  one_mem' := .inr ⟨1, M.one_mem, Option.map_id.symm⟩
  mul_mem' := by
    rintro f g (⟨a, rfl⟩ | ⟨f, hf, rfl⟩) (⟨b, rfl⟩ | ⟨g, hg, rfl⟩)
    · exact .inl ⟨a, rfl⟩
    · exact .inl ⟨a, rfl⟩
    · exact .inl ⟨b.map f, rfl⟩
    · exact .inr ⟨f * g, M.mul_mem hf hg, Option.map_comp_map g f⟩

theorem const_mem_onOption (a : Option α) : (fun _ => a : Function.End (Option α)) ∈ onOption M :=
  .inl ⟨a, rfl⟩

theorem map_mem_onOption {f : Function.End α} (hf : f ∈ M) :
    (Option.map f : Function.End (Option α)) ∈ onOption M := .inr ⟨f, hf, rfl⟩

theorem Overwriting.option (h : Overwriting M) : Overwriting (onOption M) where
  absorb := by
    rintro f (⟨a, rfl⟩ | ⟨f, hf, rfl⟩) g (⟨b, rfl⟩ | ⟨g, hg, rfl⟩)
    · rfl
    · rfl
    · rfl
    · funext a
      cases a with
      | none => rfl
      | some a => exact congrArg some (congrFun (h.absorb f hf g hg) a)

/-! ## Runs -/

/-- The updates of a run, as one. -/
def through (fs : List (Function.End α)) : Function.End α := fun a => fs.foldl (fun a f => f a) a

@[simp] theorem through_append (fs gs : List (Function.End α)) :
    through (fs ++ gs) = through gs * through fs := by
  funext a
  exact List.foldl_append

theorem through_mem {fs : List (Function.End α)} (h : ∀ f ∈ fs, f ∈ M) : through fs ∈ M := by
  induction fs using List.reverseRecOn with
  | nil => exact M.one_mem
  | append_singleton fs f ih =>
    rw [through_append]
    exact M.mul_mem (h f (by simp)) (ih fun g hg => h g (List.mem_append_left _ hg))

/-- Of updates that are applied twice, only the later application counts. -/
theorem Overwriting.absorb_through (h : Overwriting M) {us vs : List (Function.End α)}
    (hus : ∀ f ∈ us, f ∈ M) (hvs : ∀ f ∈ vs, f ∈ M) :
    through (us ++ vs ++ us) = through (vs ++ us) := by
  simp only [through_append]
  rw [← mul_assoc, h.absorb _ (through_mem hus) _ (through_mem hvs)]

end Overwrite

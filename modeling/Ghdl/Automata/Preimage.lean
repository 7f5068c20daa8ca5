import Mathlib.Computability.Language

/-!
# Words under a map of letters

The words whose images are in a language. The operations on languages go through the map, as a word is split where its
image is.
-/

namespace Automata

open scoped Computability

variable {α β : Type*} (f : α → β) {l m : Language β} {w : List α}

/-- The words that the map takes into the language. -/
def preimage (l : Language β) : Language α := {w | w.map f ∈ l}

theorem mem_preimage : w ∈ preimage f l ↔ w.map f ∈ l := Iff.rfl

@[simp] theorem preimage_one : preimage f 1 = 1 := by
  ext w
  rw [mem_preimage, Language.mem_one, Language.mem_one, List.map_eq_nil_iff]

@[simp] theorem preimage_mul : preimage f (l * m) = preimage f l * preimage f m := by
  ext w
  rw [mem_preimage, Language.mem_mul, Language.mem_mul]
  constructor
  · rintro ⟨u, first, v, rest, same⟩
    obtain ⟨u, v, rfl, rfl, rfl⟩ := List.append_eq_map_iff.mp same
    exact ⟨u, first, v, rest, rfl⟩
  · rintro ⟨u, first, v, rest, rfl⟩
    exact ⟨u.map f, first, v.map f, rest, List.map_append.symm⟩

@[simp] theorem preimage_pow (n : Nat) : preimage f (l ^ n) = preimage f l ^ n := by
  induction n with
  | zero => rw [pow_zero, pow_zero, preimage_one]
  | succ n ih => rw [pow_succ, pow_succ, preimage_mul, ih]

@[simp] theorem preimage_kstar : preimage f l∗ = (preimage f l)∗ := by
  ext w
  rw [mem_preimage, Language.kstar_eq_iSup_pow, Language.kstar_eq_iSup_pow, Language.mem_iSup, Language.mem_iSup]
  exact exists_congr fun n => by rw [← preimage_pow, mem_preimage]

end Automata

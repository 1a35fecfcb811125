import HttpServer.Path
import Mathlib.Data.List.DropRight

/-!
# The written form of a path

`Path.clean` gives a path that begins with a slash and is its own written form
(`Path.head?_clean`, `Path.clean_clean`). Of a path that begins with a slash it only takes
away slashes at the end (`Path.clean_prefix`).
-/

namespace HttpServer.Path

theorem trimSlashes_eq (p : Bytes) : trimSlashes p = p.rdropWhile (· = slash) := rfl

theorem trimSlashes_prefix (p : Bytes) : trimSlashes p <+: p :=
  List.rdropWhile_prefix _ p

/-- A path without the slashes at its end has none at its end. -/
theorem trimSlashes_trimSlashes (p : Bytes) : trimSlashes (trimSlashes p) = trimSlashes p :=
  List.rdropWhile_idempotent _ p

theorem trimSlashes_cons {b : UInt8} {l : Bytes} (h : trimSlashes l ≠ []) :
    trimSlashes (b :: l) = b :: trimSlashes l := by
  rw [trimSlashes, List.reverse_ne_nil_iff] at h
  rw [trimSlashes, List.reverse_cons, List.dropWhile_append, if_neg (by simpa using h)]
  simp [trimSlashes]

theorem head?_clean (p : Bytes) : (clean p).head? = some slash := by
  unfold clean
  split
  · rfl
  · split <;> simp [*]

/-- The written form of a path is its own written form. -/
theorem clean_clean (p : Bytes) : clean (clean p) = clean p := by
  have htrim := trimSlashes_trimSlashes p
  unfold clean
  generalize trimSlashes p = q at htrim ⊢
  rcases q with _ | ⟨b, l⟩
  · rfl
  by_cases hb : b = slash
  · subst hb
    simp [htrim]
  · have hslash : trimSlashes (slash :: b :: l) = slash :: b :: l := by
      rw [trimSlashes_cons (by simp [htrim]), htrim]
    simp [hb, hslash]

/-- A path that begins with a slash loses nothing but slashes at its end. -/
theorem clean_prefix {p : Bytes} (h : p.head? = some slash) : clean p <+: p := by
  have hpre := trimSlashes_prefix p
  unfold clean
  generalize trimSlashes p = q at hpre ⊢
  rcases q with _ | ⟨b, l⟩
  · obtain ⟨t, rfl⟩ := List.head?_eq_some_iff.1 h
    exact ⟨t, rfl⟩
  · obtain ⟨t, rfl⟩ := hpre
    obtain rfl : b = slash := by simpa using h
    simp

end HttpServer.Path

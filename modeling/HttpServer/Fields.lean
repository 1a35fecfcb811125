import HttpServer.Bytes

/-!
# Header fields

The headers of a message that have no place of their own : pairs of a key and a value, one
for each key, in the byte order of the keys. Keys are told apart exactly, case included.
The order is part of the type, so two collections with the same pairs are equal and are
written alike.
-/

namespace HttpServer

/-- Pairs of a key and a value in the byte order of the keys. -/
structure Fields where
  /-- The pairs. -/
  entries : List (Bytes × Bytes)
  /-- Each key is below the keys after it. -/
  sorted : entries.Pairwise fun a b => a.1 < b.1 := by simp
deriving DecidableEq

namespace Fields

instance : EmptyCollection Fields := ⟨{ entries := [] }⟩

instance : Inhabited Fields := ⟨∅⟩

/-- A list of pairs with the value of a key set, in place or where the key belongs. -/
def insertEntry (k v : Bytes) : List (Bytes × Bytes) → List (Bytes × Bytes)
  | [] => [(k, v)]
  | e :: l =>
    if k < e.1 then (k, v) :: e :: l
    else if k = e.1 then (k, v) :: l
    else e :: insertEntry k v l

theorem mem_insertEntry {k v : Bytes} {l : List (Bytes × Bytes)} {e : Bytes × Bytes}
    (h : e ∈ insertEntry k v l) : e = (k, v) ∨ e ∈ l := by
  induction l with
  | nil => simpa [insertEntry] using h
  | cons a l ih =>
    simp only [insertEntry] at h
    split at h
    · simpa using h
    · split at h
      · simp only [List.mem_cons] at h ⊢
        rcases h with h | h
        · exact .inl h
        · exact .inr (.inr h)
      · simp only [List.mem_cons] at h ⊢
        rcases h with h | h
        · exact .inr (.inl h)
        · rcases ih h with h | h
          · exact .inl h
          · exact .inr (.inr h)

theorem pairwise_insertEntry {k v : Bytes} {l : List (Bytes × Bytes)}
    (h : l.Pairwise fun a b => a.1 < b.1) :
    (insertEntry k v l).Pairwise fun a b => a.1 < b.1 := by
  induction l with
  | nil => simp [insertEntry]
  | cons a l ih =>
    obtain ⟨ha, hl⟩ := List.pairwise_cons.1 h
    simp only [insertEntry]
    split
    · rename_i hk
      refine List.pairwise_cons.2 ⟨fun e he => ?_, h⟩
      rcases List.mem_cons.1 he with rfl | he
      · exact hk
      · exact List.lt_trans hk (ha e he)
    · split
      · rename_i hk
        exact List.pairwise_cons.2 ⟨fun e he => hk ▸ ha e he, hl⟩
      · rename_i h1 h2
        refine List.pairwise_cons.2 ⟨fun e he => ?_, ih hl⟩
        rcases mem_insertEntry he with rfl | he
        · exact Std.lt_of_le_of_ne (Std.not_lt.1 h1) (Ne.symm h2)
        · exact ha e he

theorem mem_keys_insertEntry {k v k' : Bytes} {l : List (Bytes × Bytes)} :
    k' ∈ (insertEntry k v l).map (·.1) ↔ k' = k ∨ k' ∈ l.map (·.1) := by
  induction l with
  | nil => simp [insertEntry]
  | cons e l ih =>
    unfold insertEntry
    split
    · simp
    · split
      · rename_i he
        simp [← he]
      · rw [List.map_cons, List.map_cons, List.mem_cons, List.mem_cons, ih]
        exact or_left_comm

/-- The fields with the value of a key set; an earlier value of the key is gone. -/
def insert (f : Fields) (k v : Bytes) : Fields :=
  ⟨insertEntry k v f.entries, pairwise_insertEntry f.sorted⟩

/-- The value of a key. -/
def get? (f : Fields) (k : Bytes) : Option Bytes :=
  (f.entries.find? fun e => e.1 == k).map (·.2)

/-- The fields as header lines, each with its line end. -/
def lines (f : Fields) : Bytes :=
  f.entries.flatMap fun e => e.1 ++ [colon, sp] ++ e.2 ++ crlf

theorem find?_insertEntry (k v k' : Bytes) (l : List (Bytes × Bytes)) :
    ((insertEntry k v l).find? fun e => e.1 == k').map (·.2) =
      if k = k' then some v else (l.find? fun e => e.1 == k').map (·.2) := by
  induction l with
  | nil => by_cases h : k = k' <;> simp [insertEntry, h]
  | cons e l ih =>
    unfold insertEntry
    split
    · by_cases h : k = k' <;> simp [h]
    · split
      · rename_i he
        by_cases h : k = k' <;> simp [← he, h]
      · rename_i he
        by_cases h : e.1 = k'
        · simp [h, h ▸ he]
        · simp only [List.find?_cons, beq_eq_false_iff_ne.2 h, ih]

/-- The value that was set last counts. -/
theorem get?_insert (f : Fields) (k v k' : Bytes) :
    (f.insert k v).get? k' = if k = k' then some v else f.get? k' :=
  find?_insertEntry k v k' f.entries

@[simp] theorem get?_empty (k : Bytes) : (∅ : Fields).get? k = none := rfl

/-- A key above all others comes to stand at the end. -/
theorem insertEntry_of_lt {k v : Bytes} {l : List (Bytes × Bytes)} (h : ∀ e ∈ l, e.1 < k) :
    insertEntry k v l = l ++ [(k, v)] := by
  induction l with
  | nil => rfl
  | cons e l ih =>
    rw [List.forall_mem_cons] at h
    rw [insertEntry, if_neg (List.lt_asymm h.1), if_neg fun he => List.lt_irrefl _ (he ▸ h.1),
      ih h.2, List.cons_append]

theorem entries_foldl_insert {f : Fields} {l : List (Bytes × Bytes)}
    (h : (f.entries ++ l).Pairwise fun a b => a.1 < b.1) :
    (l.foldl (fun (g : Fields) e => g.insert e.1 e.2) f).entries = f.entries ++ l := by
  induction l generalizing f with
  | nil => simp
  | cons e l ih =>
    have hlast : ∀ a ∈ f.entries, a.1 < e.1 := fun a ha =>
      (List.pairwise_append.1 h).2.2 a ha e (by simp)
    have hstep : (f.insert e.1 e.2).entries = f.entries ++ [e] := insertEntry_of_lt hlast
    rw [List.foldl_cons, ih (by rw [hstep]; simpa using h), hstep]
    simp

/-- Setting the pairs of fields in their order gives these fields. -/
theorem foldl_insert_entries (f : Fields) :
    f.entries.foldl (fun (g : Fields) e => g.insert e.1 e.2) ∅ = f := by
  have h : (f.entries.foldl (fun (g : Fields) e => g.insert e.1 e.2) ∅).entries = f.entries :=
    entries_foldl_insert (f := ∅) f.sorted
  generalize f.entries.foldl (fun (g : Fields) e => g.insert e.1 e.2) ∅ = g at h
  cases g
  cases f
  simpa using h

/-- Each pair is found by its key. -/
theorem get?_of_mem {f : Fields} {e : Bytes × Bytes} (h : e ∈ f.entries) :
    f.get? e.1 = some e.2 := by
  have hs := f.sorted
  unfold get?
  generalize f.entries = l at h hs
  induction l with
  | nil => simp at h
  | cons a l ih =>
    obtain ⟨ha, hl⟩ := List.pairwise_cons.1 hs
    rcases List.mem_cons.1 h with rfl | h
    · simp
    · have hne : a.1 ≠ e.1 := fun heq => List.lt_irrefl _ (heq ▸ ha e h)
      rw [List.find?_cons, beq_eq_false_iff_ne.2 hne, ih h hl]

end Fields

end HttpServer

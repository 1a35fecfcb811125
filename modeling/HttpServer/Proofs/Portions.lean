import HttpServer.Proofs.Feeding
import HttpServer.Proofs.Holding

/-!
# Bytes that come in portions

A caller has the bytes of a request in portions, as they come from the network, and feeds one
portion after the other until the request is complete or rejected (`ByteParser.feedPortions`).
Another caller feeds single bytes (`ByteParser.feedEach`), and a third one has all bytes at once.
All three come to the same answer, at the same byte, with the same parser
(`ByteParser.takenAlike`). A portion of no bytes makes no difference, and what follows the byte
that completes the request, or is rejected, is not looked at.

A parser that has rejected a byte does the same with every byte that follows, and nothing but a
reset changes it (`ByteParser.Stuck`).
-/

namespace HttpServer.ByteParser

variable {p p' : ByteParser} {b : UInt8} {l : Bytes} {n k : Nat} {x : Progress} {e : ParseError}

/-! ## Callers -/

/-- Feeds portions until the request is complete or rejected or they run out; `n` bytes were
taken before. -/
def feedPortions (p : ByteParser) (n : Nat) :
    List Bytes → Except ParseError (Progress × Nat) × ByteParser
  | [] => (.ok (.pending, n), p)
  | c :: cs =>
    match p.feedSlice c with
    | (.ok (.pending, k), p') => p'.feedPortions (n + k) cs
    | (.ok (.complete, k), p') => (.ok (.complete, n + k), p')
    | (.error e, p') => (.error e, p')

/-- Feeds single bytes until the request is complete or rejected or they run out; `n` bytes were
taken before. -/
def feedEach (p : ByteParser) (n : Nat) : Bytes → Except ParseError Progress × Nat × ByteParser
  | [] => (.ok .pending, n, p)
  | b :: l =>
    match p.feed b with
    | (.ok .pending, p') => p'.feedEach (n + 1) l
    | (x, p') => (x, n + 1, p')

/-- The number of bytes up to the one that completes the request, or is rejected. -/
def reads (p : ByteParser) : Bytes → Nat
  | [] => 0
  | b :: l =>
    match p.feed b with
    | (.ok .pending, p') => p'.reads l + 1
    | _ => 1

/-- The number of bytes that a portion is relieved of, that of a byte that is rejected
included. -/
def taken (p : ByteParser) (l : Bytes) : Nat := if p.state = .done then 0 else p.reads l

/-- The number of bytes that portions are relieved of. -/
def takenEach (p : ByteParser) : List Bytes → Nat
  | [] => 0
  | c :: cs =>
    match p.feedSlice c with
    | (.ok (.pending, _), p') => p.taken c + p'.takenEach cs
    | _ => p.taken c

/-! ## Bytes in two parts -/

theorem feedList_eq (p : ByteParser) (n : Nat) (l : Bytes) :
    p.feedList n l = ((p.feedList 0 l).1.map fun x => (x.1, n + x.2), (p.feedList 0 l).2) := by
  induction l generalizing p n with
  | nil => rfl
  | cons b l ih =>
    rw [feedList, feedList]
    rcases p.feed b with ⟨_ | _ | _, p'⟩
    · rfl
    · dsimp only
      rw [ih p' (n + 1), ih p' (0 + 1)]
      rcases (p'.feedList 0 l).1 with _ | ⟨_, k⟩
      · rfl
      · simp [Except.map, Nat.add_assoc]
    · rfl

/-- Byte by byte the parser goes the same way. -/
theorem feedEach_eq (p : ByteParser) (n : Nat) (l : Bytes) :
    p.feedEach n l = ((p.feedList n l).1.map Prod.fst, n + p.reads l, (p.feedList n l).2) := by
  induction l generalizing p n with
  | nil => rfl
  | cons b l ih =>
    rw [feedEach, feedList, reads]
    rcases p.feed b with ⟨_ | _ | _, p'⟩
    · rfl
    · simp only [ih]
      rw [Nat.add_assoc, Nat.add_comm 1]
    · rfl

theorem reads_of_ok (h : (p.feedList n l).1 = .ok (x, k)) : k = n + p.reads l := by
  induction l generalizing p n with
  | nil =>
    cases h
    rfl
  | cons b l ih =>
    rw [feedList] at h
    rw [reads]
    rcases hb : p.feed b with ⟨_ | _ | _, p'⟩ <;> rw [hb] at h
    · cases h
    · rw [ih h, Nat.add_assoc, Nat.add_comm 1]
    · cases h
      rfl

theorem reads_append (p : ByteParser) (l l' : Bytes) :
    p.reads (l ++ l') =
      match p.feedList 0 l with
      | (.ok (.pending, _), p') => p.reads l + p'.reads l'
      | _ => p.reads l := by
  induction l generalizing p with
  | nil => exact (Nat.zero_add _).symm
  | cons b l ih =>
    rw [List.cons_append, reads, feedList, reads]
    rcases p.feed b with ⟨_ | _ | _, p'⟩
    · rfl
    · dsimp only
      rw [ih, feedList_eq p' (0 + 1)]
      rcases p'.feedList 0 l with ⟨_ | ⟨_ | _, k⟩, q⟩
      · rfl
      · exact Nat.add_right_comm _ _ _
      · rfl
    · rfl

/-- The bytes behind the one that completes the request, or is rejected, make no difference. -/
theorem feedList_take_reads (h : ∀ k, (p.feedList n l).1 ≠ .ok (.pending, k)) (l' : Bytes) :
    p.feedList n (l.take (p.reads l) ++ l') = p.feedList n l := by
  induction l generalizing p n with
  | nil => exact absurd rfl (h n)
  | cons b l ih =>
    rw [feedList] at h ⊢
    rw [reads]
    rcases hb : p.feed b with ⟨_ | _ | _, p'⟩ <;> rw [hb] at h
    · rw [List.take_succ_cons, List.cons_append, feedList, hb]
    · rw [List.take_succ_cons, List.cons_append, feedList, hb]
      exact ih h
    · rw [List.take_succ_cons, List.cons_append, feedList, hb]

/-! ## A portion after the other -/

theorem state_ne_done_of_step (h : p.step b = (.ok .pending, p')) : p'.state ≠ .done := by
  unfold step at h
  dsimp only at h
  repeat' split at h
  all_goals first
    | contradiction
    | cases h
  all_goals simp

/-- A request that is pending is not complete. -/
theorem state_ne_done_of_feed (h : p.feed b = (.ok .pending, p')) : p'.state ≠ .done := by
  unfold feed at h
  dsimp only at h
  split at h
  · split at h
    · cases h
    · exact state_ne_done_of_step h
  · exact state_ne_done_of_step h

theorem Feeds.state_ne_done (h : Feeds p l p') (hs : p.state ≠ .done) : p'.state ≠ .done := by
  induction h with
  | nil p => exact hs
  | cons hb _ ih => exact ih (state_ne_done_of_feed hb)

theorem feedPortions_eq (hs : p.state ≠ .done) (n : Nat) (cs : List Bytes) :
    p.feedPortions n cs = p.feedList n cs.flatten := by
  induction cs generalizing p n with
  | nil => rfl
  | cons c cs ih =>
    rw [feedPortions, feedSlice_of_ne_done hs, List.flatten_cons, feedList_append,
      feedList_eq p n c]
    rcases hc : p.feedList 0 c with ⟨_ | ⟨_ | _, k⟩, p'⟩
    · rfl
    · exact ih ((feeds_of_feedList hc).state_ne_done hs) (n + k)
    · rfl

theorem takenEach_eq (hs : p.state ≠ .done) (cs : List Bytes) :
    p.takenEach cs = p.reads cs.flatten := by
  induction cs generalizing p with
  | nil => rfl
  | cons c cs ih =>
    rw [takenEach, feedSlice_of_ne_done hs, taken, if_neg hs, List.flatten_cons, reads_append]
    rcases hc : p.feedList 0 c with ⟨_ | ⟨_ | _, k⟩, p'⟩
    · rfl
    · exact congrArg _ (ih ((feeds_of_feedList hc).state_ne_done hs))
    · rfl

/-! ## After an error -/

/-- The parser rejects every byte with the same error, and nothing but a reset changes it. -/
structure Stuck (p : ByteParser) (e : ParseError) : Prop where
  feed (b : UInt8) : p.feed b = (.error e, p)
  feedSlice {l : Bytes} : l ≠ [] → p.feedSlice l = (.error e, p)
  empty : p.feedSlice [] = (.ok (.pending, 0), p)
  useAll {us : List Use} : .takeRequest ∉ us → p.useAll us = p

theorem stuck_of_state (hs : p.state = .error) (he : p.error?.getD (.atState .error) = e) :
    Stuck p e := by
  have hfeed (b : UInt8) : p.feed b = (.error e, p) := by
    simp [feed, step, hs, he, ParseState.inHead]
  have hslice {l : Bytes} (hl : l ≠ []) : p.feedSlice l = (.error e, p) := by
    obtain ⟨b, l, rfl⟩ := List.exists_cons_of_ne_nil hl
    rw [feedSlice_of_ne_done (by simp [hs]), feedList, hfeed]
  have hempty : p.feedSlice [] = (.ok (.pending, 0), p) :=
    feedSlice_of_ne_done (by simp [hs]) []
  refine ⟨hfeed, hslice, hempty, fun {us} hus => ?_⟩
  induction us with
  | nil => rfl
  | cons u us ih =>
    rw [List.mem_cons, not_or] at hus
    have hu : p.use u = p := by
      cases u with
      | feed b => exact congrArg Prod.snd (hfeed b)
      | feedSlice l =>
        rcases eq_or_ne l [] with rfl | hl
        · exact congrArg Prod.snd hempty
        · exact congrArg Prod.snd (hslice hl)
      | takeRequest => exact absurd rfl hus.1
    rw [useAll, List.foldl_cons, hu]
    exact ih hus.2

theorem stuck_of_feed (h : p.feed b = (.error e, p')) : Stuck p' e := by
  by_cases hs : p.state = .error
  · -- it was stopped before, and is what it was
    rw [(stuck_of_state hs rfl).feed] at h
    cases h
    exact stuck_of_state hs rfl
  · have hstop := stopped_of_feed h hs
    exact stuck_of_state hstop.state (by rw [hstop.error]; rfl)

theorem stuck_of_feedList (h : p.feedList n l = (.error e, p')) : Stuck p' e := by
  induction l generalizing p n with
  | nil => cases h
  | cons b l ih =>
    rw [feedList] at h
    rcases hb : p.feed b with ⟨_ | _ | _, q⟩ <;> rw [hb] at h
    · cases h
      exact stuck_of_feed hb
    · exact ih h
    · cases h

theorem stuck_of_feedSlice (h : p.feedSlice l = (.error e, p')) : Stuck p' e := by
  unfold feedSlice at h
  split at h
  · cases h
  · exact stuck_of_feedList h

/-! ## What does not depend on the portions -/

/-- How a parser takes bytes that come in portions. -/
structure TakenAlike (p : ByteParser) (cs : List Bytes) : Prop where
  /-- It takes them like the same bytes at once. Without a call there is no answer, and then only
  a parser whose request is complete could give one. -/
  portions : cs ≠ [] ∨ p.state ≠ .done → p.feedPortions 0 cs = p.feedSlice cs.flatten
  /-- It is stopped by the same byte. -/
  taken : p.takenEach cs = p.taken cs.flatten
  /-- The answer tells how many bytes were taken. -/
  told {x : Progress} {k : Nat} : (p.feedSlice cs.flatten).1 = .ok (x, k) →
    k = p.taken cs.flatten
  /-- It takes them like single bytes. -/
  bytes : p.state ≠ .done → p.feedEach 0 cs.flatten =
    ((p.feedSlice cs.flatten).1.map Prod.fst, p.taken cs.flatten, (p.feedSlice cs.flatten).2)
  /-- Behind the byte that completes the request, or is rejected, there can be any bytes. -/
  untouched : (∀ k, (p.feedSlice cs.flatten).1 ≠ .ok (.pending, k)) → ∀ l,
    p.feedSlice (cs.flatten.take (p.taken cs.flatten) ++ l) = p.feedSlice cs.flatten
  /-- After an error there is nothing but that error. -/
  stuck_feed {b : UInt8} {e : ParseError} {p' : ByteParser} :
    p.feed b = (.error e, p') → Stuck p' e
  stuck_feedSlice {l : Bytes} {e : ParseError} {p' : ByteParser} :
    p.feedSlice l = (.error e, p') → Stuck p' e

/-- However the bytes come, a parser takes them alike. -/
theorem takenAlike (p : ByteParser) (cs : List Bytes) : TakenAlike p cs := by
  by_cases hs : p.state = .done
  · have hslice (l : Bytes) : p.feedSlice l = (.ok (.complete, 0), p) := if_pos hs
    have htaken (l : Bytes) : p.taken l = 0 := if_pos hs
    exact {
      portions h := by
        obtain ⟨c, cs, rfl⟩ := List.exists_cons_of_ne_nil (h.resolve_right (absurd hs))
        rw [feedPortions, hslice, hslice]
      taken := by
        rw [htaken]
        cases cs with
        | nil => rfl
        | cons c cs => rw [takenEach, hslice, htaken]
      told h := by
        rw [hslice] at h
        cases h
        exact (htaken _).symm
      bytes h := absurd hs h
      untouched _ l := by rw [hslice, hslice]
      stuck_feed := stuck_of_feed
      stuck_feedSlice := stuck_of_feedSlice }
  · have hslice := feedSlice_of_ne_done hs
    have htaken : p.taken cs.flatten = p.reads cs.flatten := if_neg hs
    exact {
      portions _ := by rw [feedPortions_eq hs, hslice]
      taken := by rw [takenEach_eq hs, htaken]
      told h := by
        rw [hslice] at h
        rw [htaken, reads_of_ok h, Nat.zero_add]
      bytes _ := by rw [feedEach_eq, hslice, htaken, Nat.zero_add]
      untouched h l := by
        rw [hslice] at h
        rw [htaken, hslice, hslice, feedList_take_reads h]
      stuck_feed := stuck_of_feed
      stuck_feedSlice := stuck_of_feedSlice }

end HttpServer.ByteParser

import HttpServer.Bytes
import HttpServer.IoError

/-!
# Where bytes come from

A source gives bytes when it is read, or fails. It is finite : `remaining` bounds the bytes
and the interruptions that it still has in store, so that a loop which reads until it has
enough comes to an end. A read with no bytes means that the source has ended for now.

`Source.fetch` is a read that is repeated while it is interrupted, and `Source.readExact`
reads a number of bytes or fails.
-/

namespace HttpServer

/-- A type of values that bytes can be read from. -/
class Source (σ : Type) where
  /-- One read into a space of the given size. -/
  read : σ → Nat → Except IoError Bytes × σ
  /-- A bound on the bytes and interruptions to come. -/
  remaining : σ → Nat
  /-- A read fills no more than its space. -/
  length_le {s s' : σ} {n : Nat} {l : Bytes} : read s n = (.ok l, s') → l.length ≤ n
  /-- The bytes that are read are no longer to come. -/
  remaining_ok {s s' : σ} {n : Nat} {l : Bytes} :
    read s n = (.ok l, s') → remaining s' + l.length ≤ remaining s
  /-- A failure brings nothing new. -/
  remaining_error {s s' : σ} {n : Nat} {e : IoError} :
    read s n = (.error e, s') → remaining s' ≤ remaining s
  /-- Interruptions run out. -/
  remaining_interrupted {s s' : σ} {n : Nat} {e : IoError} :
    read s n = (.error e, s') → e.kind = .interrupted → remaining s' < remaining s

namespace Source

variable {σ : Type} [Source σ]

/-- One read that is repeated while it is interrupted. -/
def fetch (s : σ) (n : Nat) : Except IoError Bytes × σ :=
  match _h : read s n with
  | (.ok l, s') => (.ok l, s')
  | (.error e, s') => if _hk : e.kind = .interrupted then fetch s' n else (.error e, s')
termination_by remaining s
decreasing_by exact remaining_interrupted _h _hk

theorem fetch_length_le {s s' : σ} {n : Nat} {l : Bytes} (h : fetch s n = (.ok l, s')) :
    l.length ≤ n := by
  fun_induction fetch s n with
  | case1 s l' s'' hr =>
    obtain ⟨h1, rfl⟩ := Prod.mk.inj h
    cases h1
    exact length_le hr
  | case2 s e s'' hr hk ih => exact ih h
  | case3 s e s'' hr hk => simp at h

theorem fetch_remaining_ok {s s' : σ} {n : Nat} {l : Bytes} (h : fetch s n = (.ok l, s')) :
    remaining s' + l.length ≤ remaining s := by
  fun_induction fetch s n with
  | case1 s l' s'' hr =>
    obtain ⟨h1, rfl⟩ := Prod.mk.inj h
    cases h1
    exact remaining_ok hr
  | case2 s e s'' hr hk ih => exact Nat.le_trans (ih h) (remaining_error hr)
  | case3 s e s'' hr hk => simp at h

theorem fetch_remaining_error {s s' : σ} {n : Nat} {e : IoError}
    (h : fetch s n = (.error e, s')) : remaining s' ≤ remaining s := by
  fun_induction fetch s n with
  | case1 s l' s'' hr => simp at h
  | case2 s e' s'' hr hk ih => exact Nat.le_trans (ih h) (remaining_error hr)
  | case3 s e' s'' hr hk =>
    obtain ⟨h1, rfl⟩ := Prod.mk.inj h
    exact remaining_error hr

/-- Reads `n` bytes, as many reads as it takes. If the source ends or fails before, what
was read is gone. -/
def readExact (s : σ) (n : Nat) : Except IoError Bytes × σ :=
  if n = 0 then (.ok [], s)
  else
    match fetch s n with
    | (.error e, s') => (.error e, s')
    | (.ok [], s') => (.error { kind := .unexpectedEof, text := "failed to fill whole buffer" }, s')
    | (.ok (b :: l), s') =>
      match readExact s' (n - (l.length + 1)) with
      | (.ok l', s'') => (.ok (b :: l ++ l'), s'')
      | (.error e, s'') => (.error e, s'')
termination_by n

theorem length_of_readExact {s s' : σ} {n : Nat} {l : Bytes} (h : readExact s n = (.ok l, s')) :
    l.length = n := by
  fun_induction readExact s n generalizing l s' with
  | case1 s =>
    obtain ⟨h1, -⟩ := Prod.mk.inj h
    cases h1
    rfl
  | case2 => simp at h
  | case3 => simp at h
  | case4 s n hn b x s'' hf y s3 hr ih =>
    obtain ⟨h1, -⟩ := Prod.mk.inj h
    cases h1
    have hle := fetch_length_le hf
    have hlen := ih hr
    simp only [List.length_append, List.length_cons] at hle ⊢
    omega
  | case5 => simp at h

end Source

end HttpServer

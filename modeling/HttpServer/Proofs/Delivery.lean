import HttpServer.Proofs.Supply
import HttpServer.Stream.Memory

/-!
# What a reader hands out

A source that is to give certain bytes chooses the pieces in which they come and the
interruptions between them, and a reader adds the moments at which its buffer makes room.
None of this shows in what the reader hands out.

`Source.IsDelivery` describes sources that give exactly the bytes related to them and then
end. A reader in front of such a source holds its window followed by the bytes still to come
(`Reader.Holds`). What comes of asking for the next line is read off the bytes that are held
(`Reader.NextLine`, `Reader.readLine_of_holds`) : a line that ends in time is handed out, and
one that is too long or cut off by the end is refused and stays.
-/

namespace HttpServer

/-! ## Sources that deliver -/

namespace Source

variable {σ : Type} [Source σ]

/-- A source gives exactly the bytes that `P` relates it to, in pieces of any size and with
interruptions between them, and then ends. -/
structure IsDelivery (P : σ → Bytes → Prop) : Prop where
  /-- A read gives the next bytes, and none only at the end. -/
  ok {s s' : σ} {l x : Bytes} {n : Nat} : P s l → 0 < n → read s n = (.ok x, s') →
    ∃ rest, l = x ++ rest ∧ P s' rest ∧ (x = [] → l = [])
  /-- A read that fails is interrupted and loses nothing. -/
  error {s s' : σ} {l : Bytes} {n : Nat} {e : IoError} : P s l → 0 < n →
    read s n = (.error e, s') → e.kind = .interrupted ∧ P s' l

variable {P : σ → Bytes → Prop}

/-- A source that delivers bytes supplies them and then ends, for good. -/
theorem IsDelivery.isSupply (hP : IsDelivery P) : IsSupply P (P · []) none := by
  intro s l n h hn
  rcases hr : Source.read s n with ⟨e | x, s'⟩
  · obtain ⟨hk, hs⟩ := hP.error h hn hr
    exact .interrupted hk hs
  · obtain ⟨rest, hl, hs, hx⟩ := hP.ok h hn hr
    by_cases h0 : x = []
    · subst h0
      obtain rfl : l = [] := hx rfl
      exact .supplied (.ended rfl rfl (hl ▸ hs))
    · exact .supplied (.piece hl h0 hs)

end Source

/-- A stream in memory is open, finished, and has these bytes left. -/
def MemoryStream.Delivers (m : MemoryStream) (l : Bytes) : Prop :=
  m.input = l ∧ m.finished = true ∧ m.closed = false

theorem MemoryStream.isDelivery : Source.IsDelivery MemoryStream.Delivers where
  ok {s s' l x n} h hn hr := by
    obtain ⟨rfl, hf, hc⟩ := h
    change s.read n = (.ok x, s') at hr
    rw [read, if_neg (by simp [hc])] at hr
    split at hr
    · rename_i hl
      cases hr
      exact ⟨[], by simp [hl], ⟨hl, hf, hc⟩, fun _ => hl⟩
    · cases hr
      refine ⟨s.input.drop n, (List.take_append_drop n s.input).symm, ⟨rfl, hf, hc⟩, fun hx => ?_⟩
      rcases List.take_eq_nil_iff.1 hx with h0 | h0
      · omega
      · exact h0
  error {s s' l n e} h hn hr := by
    obtain ⟨rfl, hf, hc⟩ := h
    change s.read n = (.error e, s') at hr
    rw [read, if_neg (by simp [hc])] at hr
    split at hr
    all_goals cases hr

theorem MemoryStream.delivers_ofInput (l : Bytes) : (ofInput l).Delivers l := ⟨rfl, rfl, rfl⟩

namespace Reader

variable {σ : Type} {P : σ → Bytes → Prop} {r : Reader σ} {l : Bytes}

/-- The bytes that a reader in front of a stream in memory has yet to hand out. -/
def unread (r : Reader MemoryStream) : Bytes := r.window ++ r.source.input

theorem Holds.unread_eq {r : Reader MemoryStream} (h : r.Holds MemoryStream.Delivers l) :
    r.unread = l := by
  obtain ⟨rest, rfl, hs, -⟩ := h.bytes
  rw [unread, hs]

/-! ## Lines -/

/-- What comes of asking for the next line of at most `max` bytes, and what is left then. -/
inductive NextLine (max : Nat) : Bytes → Except IoError (Option Bytes) → Bytes → Prop where
  /-- The line ends in time. -/
  | line {pre post : Bytes} : lf ∉ pre → pre.length < max →
      NextLine max (pre ++ lf :: post) (.ok (some (pre ++ [lf]))) post
  /-- The line goes on beyond `max` bytes. -/
  | overlong {l : Bytes} : max < l.length → lf ∉ l.take max →
      NextLine max l (.error { kind := .invalidData }) l
  /-- There is no further line. -/
  | ended : NextLine max [] (.ok none) []
  /-- The bytes end inside the line. -/
  | cut {l : Bytes} : l ≠ [] → l.length ≤ max → lf ∉ l →
      NextLine max l (.error { kind := .unexpectedEof }) l

variable [Source σ]

/-- A request for a line is answered by the bytes that are held, however they come. -/
theorem readLine_of_holds (hP : Source.IsDelivery P) (h : r.Holds P l) (max : Nat) :
    ∃ x rest r', r.readLine max = (x, r') ∧ NextLine max l x rest ∧ r'.Holds P rest := by
  have hread := readLine_of_supply hP.isSupply h max
  have hafter : ∀ s l, After (P · []) s l → P s l := by
    rintro s l ⟨rfl, hs⟩
    exact hs
  generalize r.readLine max = x at hread
  cases hread with
  | line hl hlen hr => exact ⟨_, _, _, rfl, .line hl hlen, hr⟩
  | overlong hlen hl hr => exact ⟨_, _, _, rfl, .overlong hlen hl, hr⟩
  | ended _ hr => exact ⟨_, _, _, rfl, .ended, hr.mono hafter⟩
  | cut _ hne hlen hl hr => exact ⟨_, _, _, rfl, .cut hne hlen hl, hr.mono hafter⟩
  | failed hstop => cases hstop

end Reader

end HttpServer

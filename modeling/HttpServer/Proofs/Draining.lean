import HttpServer.Proofs.Closing

/-!
# Sockets that are closed with input unread

A socket that is closed while input lies unread resets the connection, so a close first throws
away what has arrived, as long as fewer than `Socket.discardLimit` bytes are gone. Every read of
this loop gives at least one byte if there is one, but how many it gives, and how often it is
interrupted, is up to the system (`Socket.OpenRead`).

`Socket.Discards` is what all such loops have in common : the last read starts below the limit, so
it goes beyond it by less than one chunk; and a loop that stops below the limit has found nothing
more to read. So up to the limit nothing is left unread, however the reads go, and the peer gets
all that was written (`Socket.close_drains`).
-/

namespace HttpServer.Socket

variable {s t : Socket} {n : Nat}

/-! ## Reads from an open socket -/

/-- What a read from an open socket can come to. -/
inductive OpenRead (s : Socket) (n : Nat) : Except IoError Bytes × Socket → Prop where
  /-- It is interrupted. -/
  | interrupted {err : IoError} {pacing : List Pace} : err.kind = .interrupted →
    OpenRead s n (.error err, { s with pacing })
  /-- It gives some of the bytes that have arrived. -/
  | piece {l rest : Bytes} {pacing : List Pace} : s.incoming = l ++ rest → l ≠ [] →
    l.length ≤ n → OpenRead s n (.ok l, { s with incoming := rest, pacing })
  /-- Nothing is left, and nothing more will come. -/
  | ended : s.incoming = [] → OpenRead s n (.ok [], s)
  /-- Nothing is left at the moment. -/
  | silent {err : IoError} : s.incoming = [] → err.kind ≠ .interrupted →
    OpenRead s n (.error err, s)

theorem openRead_of_read {x : Except IoError Bytes × Socket} (hopen : s.closed = false)
    (hn : 0 < n) (hr : Source.read s n = x) : OpenRead s n x := by
  subst hr
  change OpenRead s n (s.read n)
  unfold read
  rw [if_neg (by simp [hopen])]
  split
  · exact .interrupted rfl
  · split
    · rename_i hempty
      split
      · exact .ended hempty
      · exact .silent hempty (by simp)
    · rename_i hne
      dsimp only
      refine .piece (List.take_append_drop _ _).symm ?_ ?_
      · rw [Ne, List.take_eq_nil_iff, not_or]
        refine ⟨?_, hne⟩
        split <;> omega
      · rw [List.length_take]
        split <;> omega

/-! ## Throwing away what has arrived -/

/-- From `s` to `t` the bytes `gone` were thrown away, when `n` were gone before. -/
structure Discards (n : Nat) (s : Socket) (gone : Bytes) (t : Socket) : Prop where
  /-- They stood in front of those that are left. -/
  incoming : s.incoming = gone ++ t.incoming
  /-- Nothing else was touched. -/
  rest : t = { s with incoming := t.incoming, pacing := t.pacing }
  /-- The loop stops when nothing is left, or at the limit. -/
  stops : t.incoming = [] ∨ discardLimit ≤ n + gone.length
  /-- The read that reaches the limit goes beyond it by less than one chunk. -/
  budget : gone = [] ∨ n + gone.length < discardLimit + discardChunk

/-- A loop that stops where it starts. -/
theorem Discards.here {pacing : List Pace} (h : s.incoming = [] ∨ discardLimit ≤ n) :
    Discards n s [] { s with pacing } where
  incoming := rfl
  rest := rfl
  stops := h
  budget := .inl rfl

/-- The bytes of one read, and then those of the rest of the loop. -/
theorem Discards.cons {l rest gone : Bytes} {pacing : List Pace} (hl : s.incoming = l ++ rest)
    (hle : n + l.length < discardLimit + discardChunk)
    (h : Discards (n + l.length) { s with incoming := rest, pacing } gone t) :
    Discards n s (l ++ gone) t where
  incoming := by
    have hrest : rest = gone ++ t.incoming := h.incoming
    rw [hl, hrest, List.append_assoc]
  rest := h.rest
  stops := by
    rw [List.length_append, ← Nat.add_assoc]
    exact h.stops
  budget := by
    rw [List.length_append, ← Nat.add_assoc]
    rcases h.budget with rfl | hb
    · exact .inr hle
    · exact .inr hb

theorem exists_discards (hopen : s.closed = false) (n : Nat) :
    ∃ gone, Discards n s gone (s.discardUnread n) := by
  have hchunk : 0 < discardChunk := by decide
  fun_induction discardUnread s n with
  | case1 s n hlt s' hr =>
    cases openRead_of_read hopen hchunk hr with
    | piece _ hne => exact absurd rfl hne
    | ended hempty => exact ⟨[], .here (.inl hempty)⟩
  | case2 s n hlt b l s' hr ih =>
    cases openRead_of_read hopen hchunk hr with
    | piece hl _ hle =>
      obtain ⟨gone, hgone⟩ := ih hopen
      exact ⟨b :: l ++ gone, .cons hl (by omega) hgone⟩
  | case3 s n hlt e s' hr hk ih =>
    cases openRead_of_read hopen hchunk hr with
    | interrupted =>
      obtain ⟨gone, hgone⟩ := ih hopen
      exact ⟨gone, hgone.incoming, hgone.rest, hgone.stops, hgone.budget⟩
    | silent _ hne => exact absurd hk hne
  | case4 s n hlt e s' hr hk =>
    cases openRead_of_read hopen hchunk hr with
    | interrupted hk' => exact absurd hk' hk
    | silent hempty => exact ⟨[], .here (.inl hempty)⟩
  | case5 s n hge => exact ⟨[], .here (.inr (Nat.le_of_not_lt hge))⟩

/-- Up to the limit, nothing is left unread. -/
theorem incoming_discardUnread (hopen : s.closed = false)
    (hle : s.incoming.length ≤ discardLimit) : (s.discardUnread 0).incoming = [] := by
  obtain ⟨gone, hgone⟩ := exists_discards hopen 0
  rcases hgone.stops with hempty | hlimit
  · exact hempty
  · have hlen := congrArg List.length hgone.incoming
    rw [List.length_append] at hlen
    exact List.eq_nil_of_length_eq_zero (by omega)

/-! ## Closing -/

/-- What the peer sees of a close is settled by what it leaves unread. -/
theorem ending?_close (hopen : s.closed = false) (hpeer : s.peerGone = false) :
    s.close.ending? = some (if (s.discardUnread 0).incoming = [] then .eof else .reset) := by
  obtain ⟨gone, hgone⟩ := exists_discards hopen 0
  have hclosed : (s.discardUnread 0).closed = false := by
    rw [hgone.rest]
    exact hopen
  have hpeer' : (s.discardUnread 0).peerGone = false := by
    rw [hgone.rest]
    exact hpeer
  unfold close abandon
  rw [if_neg (by simp [hopen]), if_neg (by simp [hclosed])]
  simp [hpeer']

/-- What is written before the close is what the peer gets. -/
theorem writeAll_of_open (hopen : s.closed = false) (hpeer : s.peerGone = false) (l : Bytes) :
    Sink.writeAll s l = (.ok (), { s with received := s.received ++ l }) := by
  have hwrite : Sink.write s l = (.ok l.length, { s with received := s.received ++ l }) := by
    change s.write l = _
    rw [write, if_neg (by simp [hopen]), if_neg (by simp [hpeer])]
  rw [Sink.writeAll]
  split
  · rename_i hl
    rw [hl, List.append_nil]
  · rename_i hl
    split
    · rename_i hw
      cases hwrite.symm.trans hw
      rw [if_neg (mt List.eq_nil_of_length_eq_zero hl), List.drop_length, Sink.writeAll, if_pos rfl]
    · rename_i hw
      cases hwrite.symm.trans hw

/-- However the reads go, a close throws away the front part of what is unread, at most 4095 bytes
more than the limit, and all of it unless it comes to the limit. So the peer of a socket with no
more than that unread gets everything that was written and then the end. Another close, as the one
that comes when the socket is dropped, changes nothing. -/
theorem close_drains (s : Socket) (hopen : s.closed = false) :
    (∃ gone, s.incoming = gone ++ (s.discardUnread 0).incoming ∧
      gone.length ≤ discardLimit + 4095 ∧
      ((s.discardUnread 0).incoming ≠ [] → discardLimit ≤ gone.length)) ∧
    (s.incoming.length ≤ discardLimit → (s.discardUnread 0).incoming = []) ∧
    (s.peerGone = false → ∀ l, ∃ s', Sink.writeAll s l = (.ok (), s') ∧
      s'.close.received = s.received ++ l ∧
      (s'.close.ending? = some .eof ↔ (s'.discardUnread 0).incoming = []) ∧
      (s.incoming.length ≤ discardLimit → s'.close.ending? = some .eof)) ∧
    s.close.close = s.close := by
  refine ⟨?_, incoming_discardUnread hopen, fun hpeer l => ?_, if_pos s.closed_close⟩
  · obtain ⟨gone, hgone⟩ := exists_discards hopen 0
    refine ⟨gone, hgone.incoming, ?_, fun hne => ?_⟩
    · rcases hgone.budget with rfl | hb
      · exact Nat.zero_le _
      · rw [discardChunk] at hb
        omega
    · have hlimit := hgone.stops.resolve_left hne
      omega
  · have hending := ending?_close (s := { s with received := s.received ++ l }) hopen hpeer
    refine ⟨_, writeAll_of_open hopen hpeer l, received_close _, ?_, fun hle => ?_⟩
    · rw [hending, Option.some.injEq, ite_eq_left_iff]
      simp
    · have hempty := incoming_discardUnread (s := { s with received := s.received ++ l }) hopen hle
      rw [hending, hempty, if_pos rfl]

/-- A socket with as many bytes unread as a close throws away at the least. They come one by one,
and one of the reads is interrupted. -/
def flooded : Socket where
  incoming := List.replicate discardLimit 120
  pacing := .interrupt :: List.replicate discardLimit (.short 0)

/-- Its peer gets the response and then the end. -/
theorem close_drains_flooded :
    flooded.closed = false ∧ flooded.incoming.length ≤ discardLimit ∧ flooded.peerGone = false ∧
      ∃ s', Sink.writeAll flooded (utf8 "HTTP/1.1 400 Bad Request\r\n\r\n") = (.ok (), s') ∧
        s'.close.received = utf8 "HTTP/1.1 400 Bad Request\r\n\r\n" ∧
        s'.close.ending? = some .eof := by
  have hle : flooded.incoming.length ≤ discardLimit := Nat.le_of_eq List.length_replicate
  obtain ⟨s', hwrite, hreceived, -, heof⟩ := (close_drains flooded rfl).2.2.1 rfl
    (utf8 "HTTP/1.1 400 Bad Request\r\n\r\n")
  exact ⟨rfl, hle, rfl, s', hwrite, hreceived, heof hle⟩

end HttpServer.Socket

import HttpServer.Proofs.Ring.Invariant
import Mathlib.Data.Set.List

/-!
# Values pass through a ring unharmed

What the invariant of a ring means to those who use it, in every state of every run with
fewer than `2 ^ 63` calls.

A slot is free when a put is to store a value in it, and holds the value of the put, which
has ended, when a take is to fetch it (`Ring.Exclusive`). The take at a position gives the
value of the put at that position, and every position is claimed by one put and at most one
take (`Ring.Faithful`). Every put has the value that it began with, which it gives back if it
is refused (`Ring.Unaltered`), and a put that is refused never changes the ring
(`Ring.Refusing`). When no call is under way the slots hold the values that were put and not
taken, each at its position, and nothing else (`Ring.Settled`). `Ring.run_safe` is all of
this.
-/

namespace HttpServer.Ring

variable {α : Type}

/-! ## What is promised -/

/-- No value is stored over another one, and none is fetched before it is stored. -/
structure Exclusive (h : History α) : Prop where
  /-- A slot that a put is to store its value in holds no value. -/
  store {i : Nat} {v : α} {pos : UInt64} :
    h.calls[i]? = some (.push v (.claimed pos)) → h.ring.value? pos = none
  /-- A slot that a take is to fetch a value from holds the value of the put with that
  position, which has ended. -/
  fetch {j : Nat} {pos : UInt64} : h.calls[j]? = some (.pop (.claimed pos)) →
    ∃ i v, h.puts[pos.toNat]? = some i ∧ h.calls[i]? = some (.push v (.ended true)) ∧
      h.ring.value? pos = some v

/-- Every position is claimed by one put and at most one take, which gives the value of that
put. -/
structure Faithful (h : History α) : Prop where
  puts_nodup : h.puts.Nodup
  takes_nodup : h.takes.Nodup
  /-- The puts that have claimed a position, among them all that were accepted. -/
  mem_puts {i : Nat} : i ∈ h.puts ↔ ∃ c, h.calls[i]? = some c ∧ c.hasPut = true
  /-- The takes that have claimed a position, among them all that gave a value. -/
  mem_takes {j : Nat} : j ∈ h.takes ↔ ∃ c, h.calls[j]? = some c ∧ c.hasTaken = true
  /-- The position that a put has claimed is its place among the puts. -/
  put_position {k i : Nat} {c : Call α} {pos : UInt64} : h.puts[k]? = some i →
    h.calls[i]? = some c → c.claimed? = some pos → pos = .ofNat k
  /-- The position that a take has claimed is its place among the takes. -/
  take_position {k j : Nat} {c : Call α} {pos : UInt64} : h.takes[k]? = some j →
    h.calls[j]? = some c → c.claimed? = some pos → pos = .ofNat k
  /-- A take that has ended gives the value of the put with its position. -/
  value {k j : Nat} {v? : Option α} : h.takes[k]? = some j →
    h.calls[j]? = some (.pop (.ended v?)) →
    ∃ i v, h.puts[k]? = some i ∧ h.calls[i]? = some (.push v (.ended true)) ∧ v? = some v

/-- Every put has the value that it began with, whatever has come of it. -/
def Unaltered (n : Nat) (as : List (Action α)) : Prop :=
  ∀ {i : Nat} {v : α} {phase : PushPhase}, (run n as).calls[i]? = some (.push v phase) →
    ∃ as₁ as₂, as = as₁ ++ .beginPush v :: as₂ ∧ (run n as₁).calls.length = i

/-- A put that is refused has claimed no position and never changes the ring. -/
structure Refusing (n : Nat) (as : List (Action α)) : Prop where
  not_mem {i : Nat} {v : α} : (run n as).calls[i]? = some (.push v (.ended false)) →
    i ∉ (run n as).puts
  unchanged {i : Nat} {v : α} {as₁ as₂ : List (Action α)} {unlucky : Bool} :
    (run n as).calls[i]? = some (.push v (.ended false)) →
    as = as₁ ++ .advance i unlucky :: as₂ →
    (run n (as₁ ++ [.advance i unlucky])).ring = (run n as₁).ring

/-- The ring holds these values, each at its position after the takes, and nothing else. They
are the values of the puts that no take belongs to, in the order of their positions. -/
structure Settled (h : History α) (values : List α) : Prop where
  puts : (h.puts.drop h.takes.length).map (fun i => h.calls[i]?) =
    values.map fun v => some (.push v (.ended true))
  length : h.ring.length = values.length
  stored {j : Nat} {v : α} : h.ring.slots[j]?.bind (·.value?) = some v ↔
    ∃ k, values[k]? = some v ∧ h.ring.index (h.ring.dequeued + .ofNat k) = j

/-! ## Values -/

namespace Consistent

variable {h : History α} {c : Call α} {i k : Nat} {pos : UInt64}

theorem exclusive (hC : Consistent h) (hlen : h.calls.length < 2 ^ 63) : Exclusive h where
  store hi := by
    obtain ⟨k, -, rfl, hindex, hs, -, -⟩ := hC.slot_of_claimed hi
    exact value?_of_getElem? (hindex.symm ▸ hs)
  fetch hj := by
    obtain ⟨k, v, -, rfl, hindex, hs, hput, hlap⟩ := hC.slot_of_taken hj
    obtain ⟨i, hk, hi⟩ := exists_of_look hput
    have hlt := hC.lap_lt hlen hlap
    refine ⟨i, v, ?_, hi, value?_of_getElem? (hindex.symm ▸ hs)⟩
    rwa [UInt64.toNat_ofNat_of_lt' (show _ < 2 ^ 64 by omega)]

theorem faithful (hC : Consistent h) : Faithful h where
  puts_nodup := hC.logged.puts.nodup
  takes_nodup := hC.logged.takes.nodup
  mem_puts := hC.logged.puts.mem_iff
  mem_takes := hC.logged.takes.mem_iff
  put_position {k i c pos} hk hi hpos := by
    have hput : h.putAt k = some c := by rw [History.putAt, look_of_getElem? hk, hi]
    rcases hC.laps.finished_or_lap hC.sized (.inl (by rw [hput]; simp)) with
      ⟨v, hv, -⟩ | ⟨s, -, hlap⟩
    · obtain rfl := Option.some.inj (hput.symm.trans hv)
      contradiction
    · exact (hput ▸ hlap.state).position_of_put hpos
  take_position {k j c pos} hk hj hpos := by
    have htake : h.takeAt k = some c := by rw [History.takeAt, look_of_getElem? hk, hj]
    rcases hC.laps.finished_or_lap hC.sized (.inr (by rw [htake]; simp)) with
      ⟨v, -, hv⟩ | ⟨s, -, hlap⟩
    · obtain rfl := Option.some.inj (htake.symm.trans hv)
      contradiction
    · exact (htake ▸ hlap.state).position_of_take hpos
  value {k j v?} hk hj := by
    have htake : h.takeAt k = some (.pop (.ended v?)) := by
      rw [History.takeAt, look_of_getElem? hk, hj]
    rcases hC.laps.finished_or_lap hC.sized (.inr (by rw [htake]; simp)) with
      ⟨v, hput, hv⟩ | ⟨s, -, hlap⟩
    · obtain ⟨i, hi, hcall⟩ := exists_of_look hput
      rw [htake] at hv
      simp only [Option.some.injEq, Call.pop.injEq, PopPhase.ended.injEq] at hv
      exact ⟨i, v, hi, hcall, hv⟩
    · exact absurd (htake ▸ hlap.state) SlotState.not_ended

end Consistent

/-! ## Puts -/

theorem unaltered_run (n : Nat) (as : List (Action α)) : Unaltered n as := by
  intro i v phase hi
  induction as using List.reverseRecOn generalizing phase with
  | nil => contradiction
  | append_singleton as a ih =>
    have hbefore {phase : PushPhase} (h : (run n as).calls[i]? = some (.push v phase)) :
        ∃ as₁ as₂, as ++ [a] = as₁ ++ .beginPush v :: as₂ ∧ (run n as₁).calls.length = i := by
      obtain ⟨as₁, as₂, rfl, hlen⟩ := ih h
      exact ⟨as₁, as₂ ++ [a], by simp, hlen⟩
    rw [run_concat] at hi
    cases a with
    | beginPush w =>
      rcases getElem?_concat_eq_some hi with h | ⟨h, hlen⟩
      · exact hbefore h
      · obtain ⟨rfl, -⟩ := Call.push.inj h
        exact ⟨as, [], rfl, hlen⟩
    | beginPop =>
      rcases getElem?_concat_eq_some hi with h | ⟨h, -⟩
      · exact hbefore h
      · contradiction
    | advance j unlucky =>
      cases hc : (run n as).calls[j]? with
      | none =>
        rw [History.act_advance_of_none hc] at hi
        exact hbefore hi
      | some c =>
        rw [History.calls_advance hc, List.getElem?_set] at hi
        split at hi
        · rename_i hij
          subst hij
          split at hi
          · obtain ⟨phase', rfl⟩ := Call.exists_of_step_eq_push (Option.some.inj hi)
            exact hbefore hc
          · contradiction
        · exact hbefore hi

theorem refusing_run (n : Nat) (as : List (Action α)) : Refusing n as where
  not_mem hi := (logged_run n as).puts.not_mem hi rfl
  unchanged {i v as₁ as₂ unlucky} hi has := by
    rw [run_concat]
    cases hc : (run n as₁).calls[i]? with
    | none => rw [History.act_advance_of_none hc]
    | some c =>
      rw [History.ring_advance hc]
      have hlogged := (logged_run n as₁).act (.advance i unlucky)
      have hcall : ((run n as₁).act (.advance i unlucky)).calls[i]? =
          some (c.step unlucky (run n as₁).ring).1 := by
        rw [History.calls_advance hc]
        exact List.getElem?_set_self (List.getElem?_eq_some_iff.1 hc).1
      have hlogs := prefix_run n (as₁ ++ [.advance i unlucky]) as₂
      rw [List.append_assoc, List.singleton_append, ← has, run_concat] at hlogs
      refine Call.ring_step_of_not ?_ ?_
      · by_contra hp
        have hmem := hlogged.puts.mem_iff.2 ⟨_, hcall, by simpa using hp⟩
        exact (logged_run n as).puts.not_mem hi rfl (hlogs.1.subset hmem)
      · by_contra hp
        have hmem := hlogged.takes.mem_iff.2 ⟨_, hcall, by simpa using hp⟩
        exact (logged_run n as).takes.not_mem hi rfl (hlogs.2.subset hmem)

/-! ## Rest -/

namespace Consistent

variable {h : History α} {c : Call α} {k : Nat} {v : α} {values : List α}

/-- Only positions that a put has claimed are claimed by a take. -/
theorem takes_le_puts (hC : Consistent h) : h.takes.length ≤ h.puts.length := by
  by_contra hlt
  obtain ⟨c, htake, -⟩ := hC.logged.takes.look_of_lt (Nat.lt_of_not_le hlt)
  rw [← History.takeAt] at htake
  have hput : h.putAt h.puts.length = none := look_length _ _
  rcases hC.laps.finished_or_lap hC.sized (.inr (by rw [htake]; simp)) with
    ⟨v, hv, -⟩ | ⟨s, -, hlap⟩
  · rw [hput] at hv
    contradiction
  · have hstate := hlap.state
    rw [hput, htake] at hstate
    cases hstate

/-- The puts are at most one lap ahead of the takes. -/
theorem puts_le_add (hC : Consistent h) : h.puts.length ≤ h.takes.length + h.ring.capacity := by
  by_contra hlt
  have h2 := hC.sized.two_le
  obtain ⟨c, hput, -⟩ := hC.logged.puts.look_of_lt (k := h.takes.length) (by omega)
  obtain ⟨c', hput', -⟩ :=
    hC.logged.puts.look_of_lt (k := h.takes.length + h.ring.capacity) (by omega)
  rw [← History.putAt] at hput hput'
  rcases hC.laps.finished_or_lap hC.sized (.inl (by rw [hput]; simp)) with
    ⟨v, -, hv⟩ | ⟨s, -, hlap⟩
  · rw [show h.takeAt h.takes.length = none from look_length _ _] at hv
    contradiction
  · have hfuture := hlap.future (Nat.add_mod_right _ _) (by omega)
    rw [hput'] at hfuture
    exact absurd hfuture.1 (by simp)

theorem length_eq (hC : Consistent h) (hlen : h.calls.length < 2 ^ 63) :
    h.ring.length = h.puts.length - h.takes.length := by
  have hputs := hC.logged.puts.length_le
  have hle := hC.takes_le_puts
  have hadd := hC.puts_le_add
  have hcursors : h.ring.dequeued ≤ h.ring.enqueued := by
    rw [UInt64.le_iff_toNat_le, hC.toNat_enqueued hlen, hC.toNat_dequeued hlen]
    exact hle
  have hsub : (h.ring.enqueued - h.ring.dequeued).toNat = h.puts.length - h.takes.length := by
    rw [UInt64.toNat_sub_of_le _ _ hcursors, hC.toNat_enqueued hlen, hC.toNat_dequeued hlen]
  rw [length, hsub]
  omega

/-- The values that are at rest, by the positions of their puts. -/
theorem getElem?_values (hputs : (h.puts.drop h.takes.length).map (fun i => h.calls[i]?) =
      values.map fun v => some (.push v (.ended true))) :
    values[k]? = some v ↔ h.putAt (h.takes.length + k) = some (.push v (.ended true)) := by
  have hk := congrArg (·[k]?) hputs
  simp only [List.getElem?_map, List.getElem?_drop] at hk
  unfold History.putAt look
  cases hput : h.puts[h.takes.length + k]? with
  | none =>
    rw [hput] at hk
    simp [Option.map_eq_none_iff.1 hk.symm]
  | some i =>
    rw [hput] at hk
    obtain ⟨w, hw, hi⟩ := Option.map_eq_some_iff.1 hk.symm
    rw [hw, Option.bind_some, show h.calls[i]? = _ from hi.symm]
    simp

/-- At rest, every put that has claimed a position was accepted. -/
theorem accepted_of_mem (hC : Consistent h) (hquiet : h.shared.IsQuiet) {i : Nat}
    (hi : i ∈ h.puts) : ∃ v, h.calls[i]? = some (.push v (.ended true)) := by
  obtain ⟨c, hc, hput⟩ := hC.logged.puts.mem_iff.1 hi
  have hended := hquiet c (List.mem_of_getElem? hc)
  unfold Call.hasPut at hput
  split at hput
  · simp [Call.hasEnded] at hended
  · simp [Call.hasEnded] at hended
  · exact ⟨_, hc⟩
  · contradiction

theorem hasEnded_of_putAt (hquiet : h.shared.IsQuiet) (hk : h.putAt k = some c) :
    c.hasEnded = true := by
  obtain ⟨i, -, hc⟩ := exists_of_look hk
  exact hquiet c (List.mem_of_getElem? hc)

theorem hasEnded_of_takeAt (hquiet : h.shared.IsQuiet) (hk : h.takeAt k = some c) :
    c.hasEnded = true := by
  obtain ⟨i, -, hc⟩ := Option.bind_eq_some_iff.1 hk
  exact hquiet c (List.mem_of_getElem? hc)

/-- At rest, the slot for a put that no take belongs to holds its value. -/
theorem slot_of_quiet (hC : Consistent h) (hk : h.putAt k = some (.push v (.ended true)))
    (htake : h.takes.length ≤ k) :
    h.ring.slots[k % h.ring.capacity]? = some ⟨.ofNat (k + 1), some v⟩ := by
  have hfree : h.takeAt k = none := by
    by_contra hne
    exact absurd (lt_length_of_look hne) (Nat.not_lt.2 htake)
  rcases hC.laps.finished_or_lap hC.sized (.inl (by rw [hk]; simp)) with
    ⟨w, -, hw⟩ | ⟨s, hs, hlap⟩
  · rw [hfree] at hw
    contradiction
  · have hstate := hlap.state
    rw [hk, hfree] at hstate
    rw [hs, hstate.of_full]

/-- At rest, a slot that holds a value is the slot for a put that no take belongs to. -/
theorem putAt_of_value (hC : Consistent h) (hquiet : h.shared.IsQuiet) {j : Nat}
    (hj : h.ring.slots[j]?.bind (·.value?) = some v) :
    ∃ k, k % h.ring.capacity = j ∧ h.takes.length ≤ k ∧
      h.putAt k = some (.push v (.ended true)) := by
  obtain ⟨s, hs, hv⟩ := Option.bind_eq_some_iff.1 hj
  obtain ⟨k, s', hk, hs', hlap⟩ := hC.laps j (Array.getElem?_eq_some_iff.1 hs).1
  obtain rfl := Option.some.inj (hs.symm.trans hs')
  obtain ⟨hput, htake⟩ := hlap.state.full_of_value hv
    (fun _ hc => hasEnded_of_putAt hquiet hc) fun _ hc => hasEnded_of_takeAt hquiet hc
  refine ⟨k, hk, ?_, hput⟩
  by_contra hlt
  obtain ⟨c, hc, -⟩ := hC.logged.takes.look_of_lt (Nat.lt_of_not_le hlt)
  rw [← History.takeAt, htake] at hc
  contradiction

theorem index_add (hC : Consistent h) (k : Nat) :
    h.ring.index (h.ring.dequeued + .ofNat k) = (h.takes.length + k) % h.ring.capacity := by
  rw [hC.dequeued, ← UInt64.ofNat_add, index_ofNat hC.sized]

theorem settled (hC : Consistent h) (hlen : h.calls.length < 2 ^ 63) (hquiet : h.shared.IsQuiet) :
    ∃ values, Settled h values := by
  have hrange : (h.puts.drop h.takes.length).map (fun i => h.calls[i]?) ∈
      Set.range (List.map fun v : α => some (Call.push v (.ended true))) := by
    rw [Set.range_list_map]
    intro x hx
    obtain ⟨i, hi, rfl⟩ := List.mem_map.1 hx
    obtain ⟨v, hv⟩ := hC.accepted_of_mem hquiet (List.mem_of_mem_drop hi)
    exact ⟨v, hv.symm⟩
  obtain ⟨values, hvalues⟩ := hrange
  refine ⟨values, hvalues.symm, ?_, fun {j v} => ⟨fun hj => ?_, ?_⟩⟩
  · have := congrArg List.length hvalues
    simp only [List.length_map, List.length_drop] at this
    rw [hC.length_eq hlen, this]
  · obtain ⟨k, rfl, hk, hput⟩ := hC.putAt_of_value hquiet hj
    obtain ⟨x, rfl⟩ := Nat.exists_eq_add_of_le hk
    exact ⟨x, (getElem?_values hvalues.symm).2 hput, hC.index_add _⟩
  · rintro ⟨x, hx, rfl⟩
    have hput := (getElem?_values hvalues.symm).1 hx
    rw [hC.index_add, hC.slot_of_quiet hput (by omega)]
    rfl

end Consistent

/-- In every state of every run with fewer than `2 ^ 63` calls, values are stored only in free
slots and fetched only when they are there, takes give the values of the puts with their
positions, puts keep their values, and refused ones change nothing. When no call is under way,
the ring holds exactly the values that were put and not taken, in the order of their
positions. -/
theorem run_safe (n : Nat) (as : List (Action α)) (hlen : (run n as).calls.length < 2 ^ 63) :
    Exclusive (run n as) ∧ Faithful (run n as) ∧ Unaltered n as ∧ Refusing n as ∧
      ((run n as).shared.IsQuiet → ∃ values, Settled (run n as) values) := by
  have hC := consistent_run n as hlen
  exact ⟨hC.exclusive hlen, hC.faithful, unaltered_run n as, refusing_run n as, hC.settled hlen⟩

/-- On a ring of two slots the puts of 7 and 8 race for the first position, the put of 9 is
refused while the first value is still to be stored, and a take ends last. -/
def race : List (Action Nat) :=
  [.beginPush 7, .beginPush 8, .advance 0 false, .advance 1 false, .advance 0 false,
    .advance 1 false, .advance 1 false, .advance 0 false, .advance 0 false, .advance 0 true,
    .advance 0 false, .advance 0 false, .advance 0 false, .advance 0 false, .beginPush 9,
    .advance 2 false, .advance 2 false, .advance 1 false, .advance 1 false, .beginPop,
    .advance 3 false, .advance 3 false, .advance 3 false, .advance 3 false, .advance 3 false]

/-- The race ends at rest. -/
theorem run_safe_race :
    (run 2 race).calls = [.push 7 (.ended true), .push 8 (.ended true), .push 9 (.ended false),
        .pop (.ended (some 8))] ∧
      Exclusive (run 2 race) ∧ Faithful (run 2 race) ∧ Unaltered 2 race ∧ Refusing 2 race ∧
        ∃ values, Settled (run 2 race) values := by
  have hcalls : (run 2 race).calls = [.push 7 (.ended true), .push 8 (.ended true),
      .push 9 (.ended false), .pop (.ended (some 8))] := by decide +kernel
  have hsafe := run_safe 2 race (by rw [hcalls]; decide)
  refine ⟨hcalls, hsafe.1, hsafe.2.1, hsafe.2.2.1, hsafe.2.2.2.1, hsafe.2.2.2.2 fun c hc => ?_⟩
  rw [← History.calls, hcalls] at hc
  revert c
  decide

end HttpServer.Ring

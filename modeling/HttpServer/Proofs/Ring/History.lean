import HttpServer.Proofs.Ring.Slots
import HttpServer.Ring.Interleaving
import Mathlib.Data.List.Induction
import Mathlib.Data.List.Nodup
import Mathlib.Data.List.Perm.Subperm
import Mathlib.Logic.Function.Basic

/-!
# Which call claimed which position

`Ring.History` keeps, beside a shared ring, the puts and the takes that have claimed a
position, in the order in which they did. So the put with position `k` is the one at index
`k` of the log of puts, and the take of what it stores is the one at index `k` of the log of
takes. `Ring.run` is what comes of a list of actions, and `Ring.reachable_iff_run` shows that
keeping the logs does not change what can happen.

A log is a list of call numbers, and `Ring.IsLog` says that these are the calls of a kind,
each once. It is kept by every action (`Ring.IsLog.extend_set`, `Ring.IsLog.concat`), and the
call at an index of the log changes only if that very call goes on (`Ring.look_set`,
`Ring.look_extend_set`, `Ring.look_set_of_not_mem`).
-/

namespace HttpServer.Ring

variable {α : Type}

/-! ## Calls that have claimed a position -/

namespace Call

/-- The call is a put that has claimed a position. -/
def hasPut : Call α → Bool
  | push _ (.claimed _) => true
  | push _ (.stored _) => true
  | push _ (.ended true) => true
  | _ => false

/-- The call is a take that has claimed a position. -/
def hasTaken : Call α → Bool
  | pop (.claimed _) => true
  | pop (.fetched _ _) => true
  | pop (.ended _) => true
  | _ => false

variable {c : Call α}

/-- A position that is claimed remains so. -/
theorem hasPut_step (h : c.hasPut = true) (unlucky : Bool) (r : Ring α) :
    (c.step unlucky r).1.hasPut = true := by
  unfold hasPut at h
  split at h
  all_goals first
    | rfl
    | contradiction

theorem hasTaken_step (h : c.hasTaken = true) (unlucky : Bool) (r : Ring α) :
    (c.step unlucky r).1.hasTaken = true := by
  unfold hasTaken at h
  split at h
  all_goals first
    | rfl
    | contradiction

/-- Only a call that has claimed a position, or does so, changes the ring. -/
theorem ring_step_of_not {unlucky : Bool} {r : Ring α}
    (hput : (c.step unlucky r).1.hasPut = false) (htake : (c.step unlucky r).1.hasTaken = false) :
    (c.step unlucky r).2 = r := by
  cases c with
  | push v phase =>
    cases phase with
    | start | claimed | stored | ended => first | rfl | contradiction
    | position pos =>
      simp only [step, pushStep]
      split <;> rfl
    | ready pos =>
      simp only [step, pushStep] at hput ⊢
      split
      · rename_i h
        rw [if_pos h] at hput
        contradiction
      · rfl
  | pop phase =>
    cases phase with
    | start | claimed | fetched | ended | empty => first | rfl | contradiction
    | position pos =>
      simp only [step, popStep]
      split <;> rfl
    | ready pos =>
      simp only [step, popStep] at htake ⊢
      split
      · rename_i h
        rw [if_pos h] at htake
        contradiction
      · rfl

/-- A put keeps its value. -/
theorem exists_of_step_eq_push {unlucky : Bool} {r : Ring α} {v : α} {phase : PushPhase}
    (h : (c.step unlucky r).1 = push v phase) : ∃ phase', c = push v phase' := by
  cases c with
  | push w phase' =>
    obtain ⟨rfl, -⟩ := Call.push.inj h
    exact ⟨phase', rfl⟩
  | pop phase' => contradiction

end Call

/-! ## Logs -/

/-- The log holds the calls of a kind, each once. -/
structure IsLog (p : Call α → Bool) (log : List Nat) (calls : List (Call α)) : Prop where
  nodup : log.Nodup
  mem_iff {i : Nat} : i ∈ log ↔ ∃ c, calls[i]? = some c ∧ p c = true

/-- The log when a call has gone on : the call is added if it is of the kind now and was not
before. -/
def extend (p : Call α → Bool) (log : List Nat) (i : Nat) (c c' : Call α) : List Nat :=
  if p c' = true ∧ p c = false then log ++ [i] else log

theorem extend_of_new {p : Call α → Bool} {c c' : Call α} (h' : p c' = true) (h : p c = false)
    (log : List Nat) (i : Nat) : extend p log i c c' = log ++ [i] := if_pos ⟨h', h⟩

theorem extend_of_old {p : Call α → Bool} {c c' : Call α} (h : p c' = p c) (log : List Nat)
    (i : Nat) : extend p log i c c' = log := by
  refine if_neg fun ⟨h1, h2⟩ => ?_
  rw [h, h2] at h1
  contradiction

theorem prefix_extend (p : Call α → Bool) (log : List Nat) (i : Nat) (c c' : Call α) :
    log <+: extend p log i c c' := by
  unfold extend
  split
  · exact List.prefix_append _ _
  · exact List.prefix_refl _

/-- The call at an index of a log. -/
def look (log : List Nat) (calls : List (Call α)) (k : Nat) : Option (Call α) :=
  log[k]?.bind (calls[·]?)

section Log

variable {p : Call α → Bool} {log : List Nat} {calls : List (Call α)} {i k : Nat}
  {c c' : Call α}

/-- A call is one of those before, or the one that has just begun. -/
theorem getElem?_concat_eq_some (h : (calls ++ [c'])[i]? = some c) :
    calls[i]? = some c ∨ c' = c ∧ calls.length = i := by
  rw [List.getElem?_append] at h
  split at h
  · exact .inl h
  · rw [List.getElem?_singleton] at h
    split at h
    · exact .inr ⟨Option.some.inj h, by omega⟩
    · contradiction

theorem look_of_getElem? (h : log[k]? = some i) : look log calls k = calls[i]? := by
  rw [look, h, Option.bind_some]

theorem exists_of_look (h : look log calls k = some c) :
    ∃ i, log[k]? = some i ∧ calls[i]? = some c :=
  Option.bind_eq_some_iff.1 h

theorem lt_length_of_look (h : look log calls k ≠ none) : k < log.length := by
  by_contra hge
  refine h ?_
  rw [look, List.getElem?_eq_none (Nat.le_of_not_lt hge), Option.bind_none]

/-- The next position has not been claimed. -/
theorem look_length (log : List Nat) (calls : List (Call α)) :
    look log calls log.length = none := by
  by_contra hne
  exact Nat.lt_irrefl _ (lt_length_of_look hne)

theorem IsLog.not_mem (h : IsLog p log calls) (hc : calls[i]? = some c) (hp : p c = false) :
    i ∉ log := by
  intro hi
  obtain ⟨c', hc', hp'⟩ := h.mem_iff.1 hi
  obtain rfl : c = c' := Option.some.inj (hc.symm.trans hc')
  rw [hp] at hp'
  contradiction

theorem IsLog.lt_length (h : IsLog p log calls) (hi : i ∈ log) : i < calls.length := by
  obtain ⟨c, hc, -⟩ := h.mem_iff.1 hi
  exact (List.getElem?_eq_some_iff.1 hc).1

theorem IsLog.length_le (h : IsLog p log calls) : log.length ≤ calls.length := by
  have hsub : log ⊆ List.range calls.length := fun i hi => List.mem_range.2 (h.lt_length hi)
  have := (List.subperm_of_subset h.nodup hsub).length_le
  rwa [List.length_range] at this

theorem IsLog.eq_of_getElem? (h : IsLog p log calls) {k k' : Nat} (hk : log[k]? = some i)
    (hk' : log[k']? = some i) : k = k' := by
  obtain ⟨hlt, hget⟩ := List.getElem?_eq_some_iff.1 hk
  obtain ⟨hlt', hget'⟩ := List.getElem?_eq_some_iff.1 hk'
  exact (h.nodup.getElem_inj_iff).1 (hget.trans hget'.symm)

/-- A call of the kind is found at its place in the log. -/
theorem IsLog.exists_look (h : IsLog p log calls) (hc : calls[i]? = some c) (hp : p c = true) :
    ∃ k, log[k]? = some i ∧ look log calls k = some c := by
  obtain ⟨k, hk⟩ := List.mem_iff_getElem?.1 (h.mem_iff.2 ⟨c, hc, hp⟩)
  exact ⟨k, hk, by rw [look_of_getElem? hk, hc]⟩

theorem IsLog.look_of_lt (h : IsLog p log calls) (hk : k < log.length) :
    ∃ c, look log calls k = some c ∧ p c = true := by
  have hget := List.getElem?_eq_getElem hk
  obtain ⟨c, hc, hp⟩ := h.mem_iff.1 (List.getElem_mem hk)
  exact ⟨c, by rw [look_of_getElem? hget, hc], hp⟩

theorem isLog_nil (p : Call α → Bool) : IsLog p [] [] where
  nodup := List.nodup_nil
  mem_iff := by simp

/-- A call that begins is not of the kind yet. -/
theorem IsLog.concat (h : IsLog p log calls) (hp : p c = false) : IsLog p log (calls ++ [c]) where
  nodup := h.nodup
  mem_iff {i} := by
    rw [h.mem_iff]
    constructor
    · rintro ⟨c', hc', hp'⟩
      exact ⟨c', List.getElem?_append_left (List.getElem?_eq_some_iff.1 hc').1 ▸ hc', hp'⟩
    · rintro ⟨c', hc', hp'⟩
      rcases getElem?_concat_eq_some hc' with hc' | ⟨rfl, -⟩
      · exact ⟨c', hc', hp'⟩
      · rw [hp] at hp'
        contradiction

/-- A call that goes on is added when it comes to be of the kind. -/
theorem IsLog.extend_set (h : IsLog p log calls) (hc : calls[i]? = some c)
    (hp : p c = true → p c' = true) : IsLog p (extend p log i c c') (calls.set i c') := by
  have hi := (List.getElem?_eq_some_iff.1 hc).1
  have hself {j : Nat} (hj : j = i) :
      (∃ d, (calls.set i c')[j]? = some d ∧ p d = true) ↔ p c' = true := by
    subst hj
    rw [List.getElem?_set_self hi]
    simp
  have hother {j : Nat} (hj : j ≠ i) :
      (∃ d, (calls.set i c')[j]? = some d ∧ p d = true) ↔ j ∈ log := by
    rw [List.getElem?_set_ne hj.symm, h.mem_iff]
  unfold extend
  split
  · rename_i hnew
    refine ⟨?_, fun {j} => ?_⟩
    · rw [List.nodup_append]
      exact ⟨h.nodup, List.nodup_singleton i, by
        rintro j hj _ hi' rfl
        exact h.not_mem hc hnew.2 (List.mem_singleton.1 hi' ▸ hj)⟩
    · by_cases hj : j = i
      · rw [hself hj]
        simp [hj, hnew.1]
      · rw [hother hj]
        simp [hj]
  · rename_i hold
    refine ⟨h.nodup, fun {j} => ?_⟩
    by_cases hj : j = i
    · rw [hself hj, hj, h.mem_iff]
      simp only [hc, Option.some.injEq, exists_eq_left']
      refine ⟨hp, fun hp' => ?_⟩
      by_contra hpc
      exact hold ⟨hp', by simpa using hpc⟩
    · rw [hother hj]

theorem look_concat (h : IsLog p log calls) (c : Call α) :
    look log (calls ++ [c]) = look log calls := by
  ext1 k
  unfold look
  cases hk : log[k]? with
  | none => rfl
  | some i => exact List.getElem?_append_left (h.lt_length (List.mem_of_getElem? hk))

theorem look_set_of_not_mem (h : i ∉ log) : look log (calls.set i c') = look log calls := by
  ext1 k
  unfold look
  cases hk : log[k]? with
  | none => rfl
  | some j =>
    refine List.getElem?_set_ne ?_
    rintro rfl
    exact h (List.mem_of_getElem? hk)

/-- Only what the call that goes on has claimed is affected. -/
theorem look_set (h : IsLog p log calls) (hk : log[k]? = some i) :
    look log (calls.set i c') = Function.update (look log calls) k (some c') := by
  ext1 k'
  by_cases hk' : k' = k
  · subst hk'
    rw [Function.update_self, look_of_getElem? hk]
    exact List.getElem?_set_self (h.lt_length (List.mem_of_getElem? hk))
  · rw [Function.update_of_ne hk']
    unfold look
    cases hj : log[k']? with
    | none => rfl
    | some j =>
      refine List.getElem?_set_ne ?_
      rintro rfl
      exact hk' (h.eq_of_getElem? hj hk)

/-- A call that claims the next position is found there. -/
theorem look_extend_set (h : IsLog p log calls) (hc : calls[i]? = some c) (hp : p c = false) :
    look (log ++ [i]) (calls.set i c') =
      Function.update (look log calls) log.length (some c') := by
  have hi := h.not_mem hc hp
  ext1 k
  by_cases hk : k = log.length
  · subst hk
    rw [Function.update_self, look_of_getElem? List.getElem?_concat_length]
    exact List.getElem?_set_self (List.getElem?_eq_some_iff.1 hc).1
  · have hset : look log (calls.set i c') = look log calls := look_set_of_not_mem hi
    rw [Function.update_of_ne hk, ← hset]
    unfold look
    rcases Nat.lt_or_gt_of_ne hk with hlt | hgt
    · rw [List.getElem?_append_left hlt]
    · rw [List.getElem?_eq_none (by simp; omega), List.getElem?_eq_none (by omega)]

end Log

/-! ## Histories -/

/-- One thing that can happen. -/
inductive Action (α : Type) where
  /-- The put of a value begins. -/
  | beginPush (v : α)
  /-- A take begins. -/
  | beginPop
  /-- The call with a number does its next thing. -/
  | advance (i : Nat) (unlucky : Bool)
deriving DecidableEq, Repr

/-- A shared ring with the calls that have claimed its positions. -/
structure History (α : Type) where
  /-- The ring and the calls on it. -/
  shared : Shared α
  /-- The puts, by their numbers among the calls : the one at index `k` claimed position
  `k`. -/
  puts : List Nat := []
  /-- The takes, by their numbers among the calls : the one at index `k` claimed position
  `k`. -/
  takes : List Nat := []
deriving DecidableEq, Repr

namespace History

/-- The ring. -/
def ring (h : History α) : Ring α := h.shared.ring

/-- The calls that have begun. -/
def calls (h : History α) : List (Call α) := h.shared.calls

/-- The put that claimed a position. -/
def putAt (h : History α) : Nat → Option (Call α) := look h.puts h.calls

/-- The take that claimed a position. -/
def takeAt (h : History α) : Nat → Option (Call α) := look h.takes h.calls

/-- What comes of an action. -/
def act (h : History α) : Action α → History α
  | .beginPush v => { h with shared.calls := h.calls ++ [.push v .start] }
  | .beginPop => { h with shared.calls := h.calls ++ [.pop .start] }
  | .advance i unlucky =>
    match h.calls[i]? with
    | none => h
    | some c =>
      let c' := (c.step unlucky h.ring).1
      { shared := h.shared.advance i unlucky
        puts := extend Call.hasPut h.puts i c c'
        takes := extend Call.hasTaken h.takes i c c' }

variable {h : History α} {i : Nat} {unlucky : Bool} {c : Call α}

theorem act_advance_of_none (hi : h.calls[i]? = none) : h.act (.advance i unlucky) = h := by
  rw [act, hi]

theorem ring_advance (hc : h.calls[i]? = some c) :
    (h.act (.advance i unlucky)).ring = (c.step unlucky h.ring).2 := by
  simp only [act, hc, ring, Shared.advance, show h.shared.calls[i]? = some c from hc]

theorem calls_advance (hc : h.calls[i]? = some c) :
    (h.act (.advance i unlucky)).calls = h.calls.set i (c.step unlucky h.ring).1 := by
  simp only [act, calls, ring, Shared.advance, show h.shared.calls[i]? = some c from hc]

theorem puts_advance (hc : h.calls[i]? = some c) :
    (h.act (.advance i unlucky)).puts =
      extend Call.hasPut h.puts i c (c.step unlucky h.ring).1 := by
  rw [act, hc]

theorem takes_advance (hc : h.calls[i]? = some c) :
    (h.act (.advance i unlucky)).takes =
      extend Call.hasTaken h.takes i c (c.step unlucky h.ring).1 := by
  rw [act, hc]

/-- A call that has ended does nothing more. -/
theorem act_advance_of_fixed (hc : h.calls[i]? = some c)
    (hstep : c.step unlucky h.ring = (c, h.ring)) : h.act (.advance i unlucky) = h := by
  have hset : h.calls.set i c = h.calls := by
    obtain ⟨hi, rfl⟩ := List.getElem?_eq_some_iff.1 hc
    exact List.set_getElem_self hi
  have hshared : h.shared.advance i unlucky = h.shared := by
    have hc' : h.shared.calls[i]? = some c := hc
    simp only [Shared.advance, hc', show h.shared.ring = h.ring from rfl, hstep]
    exact congrArg (Shared.mk h.ring) hset
  simp only [act, hc, hstep, hshared, extend_of_old]

/-- The logs hold the puts and the takes that have claimed a position. -/
structure Logged (h : History α) : Prop where
  puts : IsLog Call.hasPut h.puts h.calls
  takes : IsLog Call.hasTaken h.takes h.calls

theorem Logged.act (hl : h.Logged) (a : Action α) : (h.act a).Logged := by
  cases a with
  | beginPush v => exact ⟨hl.puts.concat rfl, hl.takes.concat rfl⟩
  | beginPop => exact ⟨hl.puts.concat rfl, hl.takes.concat rfl⟩
  | advance i unlucky =>
    cases hc : h.calls[i]? with
    | none => rwa [act_advance_of_none hc]
    | some c =>
      refine ⟨?_, ?_⟩
      · rw [puts_advance hc, calls_advance hc]
        exact hl.puts.extend_set hc fun hp => Call.hasPut_step hp unlucky h.ring
      · rw [takes_advance hc, calls_advance hc]
        exact hl.takes.extend_set hc fun hp => Call.hasTaken_step hp unlucky h.ring

theorem length_calls_act (h : History α) (a : Action α) :
    h.calls.length ≤ (h.act a).calls.length := by
  cases a with
  | beginPush v => simp [act, calls]
  | beginPop => simp [act, calls]
  | advance i unlucky =>
    cases hc : h.calls[i]? with
    | none => exact Nat.le_of_eq (by rw [act_advance_of_none hc])
    | some c => exact Nat.le_of_eq (by rw [calls_advance hc, List.length_set])

/-- A position that has been claimed keeps its put and its take. -/
theorem prefix_act (h : History α) (a : Action α) :
    h.puts <+: (h.act a).puts ∧ h.takes <+: (h.act a).takes := by
  cases a with
  | beginPush v => exact ⟨List.prefix_refl _, List.prefix_refl _⟩
  | beginPop => exact ⟨List.prefix_refl _, List.prefix_refl _⟩
  | advance i unlucky =>
    cases hc : h.calls[i]? with
    | none =>
      rw [act_advance_of_none hc]
      exact ⟨List.prefix_refl _, List.prefix_refl _⟩
    | some c =>
      rw [puts_advance hc, takes_advance hc]
      exact ⟨prefix_extend _ _ _ _ _, prefix_extend _ _ _ _ _⟩

theorem step_act (h : History α) (a : Action α) : Shared.Step h.shared (h.act a).shared := by
  cases a with
  | beginPush v => exact .beginPush h.shared v
  | beginPop => exact .beginPop h.shared
  | advance i unlucky =>
    have hstep : (h.act (.advance i unlucky)).shared = h.shared.advance i unlucky := by
      cases hc : h.calls[i]? with
      | none =>
        rw [act_advance_of_none hc, Shared.advance, show h.shared.calls[i]? = none from hc]
      | some c => rw [act, hc]
    rw [hstep]
    exact .advance h.shared i unlucky

end History

/-- What comes of a list of actions on an empty ring. -/
def run (n : Nat) (as : List (Action α)) : History α :=
  as.foldl History.act { shared := { ring := withCapacity n } }

theorem run_concat (n : Nat) (as : List (Action α)) (a : Action α) :
    run n (as ++ [a]) = (run n as).act a := by
  simp [run]

theorem prefix_run (n : Nat) (as bs : List (Action α)) :
    (run n as).puts <+: (run n (as ++ bs)).puts ∧
      (run n as).takes <+: (run n (as ++ bs)).takes := by
  induction bs using List.reverseRecOn with
  | nil => simp
  | append_singleton bs b ih =>
    rw [← List.append_assoc, run_concat]
    have hact := (run n (as ++ bs)).prefix_act b
    exact ⟨ih.1.trans hact.1, ih.2.trans hact.2⟩

/-- The states that can be reached are those that some list of actions leads to. -/
theorem reachable_iff_run {n : Nat} {s : Shared α} :
    Shared.Reachable n s ↔ ∃ as, (run n as).shared = s := by
  constructor
  · intro h
    induction h with
    | start => exact ⟨[], rfl⟩
    | step _ hstep ih =>
      obtain ⟨as, rfl⟩ := ih
      cases hstep with
      | beginPush v => exact ⟨as ++ [.beginPush v], by rw [run_concat]; rfl⟩
      | beginPop => exact ⟨as ++ [.beginPop], by rw [run_concat]; rfl⟩
      | advance i unlucky =>
        refine ⟨as ++ [.advance i unlucky], ?_⟩
        rw [run_concat]
        cases hc : (run n as).calls[i]? with
        | none =>
          rw [History.act_advance_of_none hc, Shared.advance,
            show (run n as).shared.calls[i]? = none from hc]
        | some c => rw [History.act, hc]
  · rintro ⟨as, rfl⟩
    induction as using List.reverseRecOn with
    | nil => exact .start
    | append_singleton as a ih =>
      rw [run_concat]
      exact .step ih ((run n as).step_act a)

theorem logged_run (n : Nat) (as : List (Action α)) : (run n as).Logged := by
  induction as using List.reverseRecOn with
  | nil => exact ⟨isLog_nil _, isLog_nil _⟩
  | append_singleton as a ih =>
    rw [run_concat]
    exact ih.act a

end HttpServer.Ring

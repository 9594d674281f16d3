import Mathlib.Data.List.DropRight
import VDexNode.Custodian.Accounting

/-!
# VDexNode.Custodian.Window — the window of reports

`updtblnc` counts the rows with an iterator that it takes before it stores the new one.  On an empty
table that is `end()`, the count stays at zero and nothing is erased; otherwise the new row is
counted with the others, and with the ninth the oldest goes.

* `window_concat` : the last `n` of a list that grows at its end.
* `dropOldest_rows` : what a report leaves in the table.
* `window_latest` : **the table holds the last eight reports since it was cleared, in order.**
-/

namespace VDexNode.Custodian

open Eosio

/-! ## Windows -/

/-- The window after one more entry depends on the window before it only. -/
theorem window_concat {α : Type} (l : List α) (x : α) (n : ℕ) :
    (l.rtake n ++ [x]).rtake n = (l ++ [x]).rtake n := by
  cases n with
  | zero => rw [List.rtake_zero, List.rtake_zero]
  | succ n =>
    have hshort : (l.rtake (n + 1)).rtake n = l.rtake n := by
      rw [List.rtake_eq_reverse_take_reverse (l.rtake (n + 1)),
        List.rtake_eq_reverse_take_reverse l (n + 1), List.reverse_reverse, List.take_take,
        Nat.min_eq_left (Nat.le_succ n), List.rtake_eq_reverse_take_reverse l n]
    rw [List.rtake_concat_succ, List.rtake_concat_succ, hshort]

theorem rtake_length {α : Type} (l : List α) (n : ℕ) : (l.rtake n).length = min l.length n := by
  rw [List.rtake, List.length_drop]
  omega

theorem map_rtake {α β : Type} (f : α → β) (l : List α) (n : ℕ) :
    (l.rtake n).map f = (l.map f).rtake n := by
  rw [List.rtake, List.map_drop, List.rtake, List.length_map]

theorem rtake_of_length_le {α : Type} {l : List α} {n : ℕ} (h : l.length ≤ n) : l.rtake n = l := by
  rw [List.rtake, Nat.sub_eq_zero_of_le h, List.drop_zero]

/-! ## Calls -/

/-- A call, with the values that the locals `same` and `previous` of `updtblnc` happen to hold. -/
structure Call where
  env : Env
  action : Action
  same : UInt64
  previous : UInt64

/-- `step`, each call with its own locals. -/
def stepFrom (self : Name) (s : State) (c : Call) : Result (State × List Retirement) :=
  step self c.same.toNat c.previous s (c.env, c.action)

/-- What a call submits, if it is a report: account, balance, and the two times. -/
def Call.submitted (c : Call) : Option (Name × UInt64 × ℕ × ℕ) :=
  match c.action with
  | .updtblnc account balance timestamp => some (account, balance, timestamp % 2 ^ 32, c.env.now)
  | _ => none

/-- A row without its id. -/
def Report.content (r : Report) : Name × UInt64 × ℕ × ℕ :=
  (r.account, r.balance, r.timestamp, r.localTimestamp)

/-- The reports submitted since the last `clearblnc`, or since the beginning. -/
def sinceClear (past : List Call) : List (Name × UInt64 × ℕ × ℕ) :=
  past.foldl (fun l c => if c.action = .clearblnc then [] else l ++ c.submitted.toList) []

theorem sinceClear_concat (past : List Call) (c : Call) :
    sinceClear (past ++ [c]) =
      if c.action = .clearblnc then [] else sinceClear past ++ c.submitted.toList := by
  rw [sinceClear, List.foldl_append]
  rfl

/-! ## One report -/

section Window

variable {s s' : State}

/-- What a report leaves in the table: the last eight rows of the old ones and the new one. -/
theorem dropOldest_rows {t balances : Table Report.id} {report : Report} (c : Counters)
    (hsize : c.size = 0) (hw : t.rows.length ≤ 8) (hrows : balances.rows = t.rows ++ [report]) :
    (dropOldest ((counted t balances).foldl Counters.next c).size balances).rows =
      (t.rows ++ [report]).rtake 8 := by
  have hlen : balances.rows.length = t.rows.length + 1 := by
    rw [hrows, List.length_append, List.length_singleton]
  rw [count_size, hsize, zero_add, counted]
  by_cases hempty : t.rows = []
  · -- `end()` stays `end()`: nothing is counted
    have hrow : balances.rows = [report] := by rw [hrows, hempty, List.nil_append]
    rw [if_pos hempty, List.length_nil, dropOldest, hrow, hempty]
    show (if 8 < 0 then balances.erase report.id else balances).rows = [report]
    rw [if_neg (by omega), hrow]
  · rw [if_neg hempty, hlen]
    obtain ⟨oldest, rest, hcons⟩ := List.exists_cons_of_ne_nil
      (show balances.rows ≠ [] by
        rw [hrows]
        exact List.append_ne_nil_of_right_ne_nil _ (List.cons_ne_nil _ _))
    rw [dropOldest, hcons]
    show (if 8 < t.rows.length + 1 then balances.erase oldest.id else balances).rows = _
    by_cases h8 : 8 < t.rows.length + 1
    · have hrest : (balances.erase oldest.id).rows = rest := by
        have hsorted := balances.sorted
        rw [hcons, List.pairwise_cons] at hsorted
        show balances.rows.filter (fun r => decide (r.id ≠ oldest.id)) = rest
        rw [hcons, List.filter_cons_of_neg (by simp)]
        exact List.filter_eq_self.mpr (fun r hr => decide_eq_true (hsorted.1 r hr).ne')
      have hlen' : (oldest :: rest).length = 9 := by
        rw [← hcons, hlen]
        omega
      rw [if_pos h8, hrest, ← hrows, hcons, List.rtake, hlen']
      rfl
    · rw [if_neg h8, ← hrows, rtake_of_length_le (by omega)]

/-- The table is the window of what was submitted. -/
def Latest (s : State) (past : List Call) : Prop :=
  s.balances.rows.map Report.content = (sinceClear past).rtake 8

theorem Latest.length_le {past : List Call} (h : Latest s past) : s.balances.rows.length ≤ 8 := by
  have hlen := congrArg List.length h
  rw [List.length_map, rtake_length] at hlen
  omega

/-- A call other than a report leaves the table alone or clears it. -/
theorem Latest.of_same {past : List Call} (h : Latest s past) {c : Call}
    (ht : s'.balances = s.balances) (hclear : c.action ≠ .clearblnc) (hnone : c.submitted = none) :
    Latest s' (past ++ [c]) := by
  rw [Latest, sinceClear_concat, if_neg hclear, hnone, ht]
  show _ = (_ ++ []).rtake 8
  rw [List.append_nil]
  exact h

/-- A report that goes through moves the window on by itself. -/
theorem Latest.of_updtblnc {past : List Call} (h : Latest s past) {c : Call} {account : Name}
    {balance : UInt64} {timestamp : ℕ} (hc : c.action = .updtblnc account balance timestamp)
    {out : List Retirement} (hs : updtblnc c.same.toNat c.previous c.env s account balance timestamp
      = .ok (s', out)) : Latest s' (past ++ [c]) := by
  obtain ⟨report, balances, cur, hadd, -, hcases⟩ := updtblnc_cases hs
  obtain ⟨-, -, id, -, hrep, -, hrows⟩ := addReport_ok.mp hadd
  have htable : s'.balances = dropOldest ((counted s.balances balances).foldl Counters.next
      ⟨c.same.toNat, c.previous, 0⟩).size balances := by
    rcases hcases with ⟨-, -, -, rfl, -⟩ | ⟨-, rfl, -⟩
    · rfl
    · rfl
  have hcontent : c.submitted = some report.content := by
    have hrep : report = _ := hrep
    rw [Call.submitted, hc, hrep]
    rfl
  have hclear : c.action ≠ .clearblnc := by
    rw [hc]
    rintro ⟨⟩
  rw [Latest, htable, dropOldest_rows _ rfl h.length_le hrows, map_rtake, List.map_append,
    List.map_singleton, h, window_concat, sinceClear_concat, if_neg hclear, hcontent]
  rfl

variable {self : Name}

/-- **Step lemma**: the table stays the window of the last reports. -/
theorem latest_step {past : List Call} (h : Latest s past) {c : Call} {out : List Retirement}
    (hs : stepFrom self s c = .ok (s', out)) : Latest s' (past ++ [c]) := by
  obtain ⟨env, action, same, previous⟩ := c
  cases action with
  | updtblnc account balance timestamp => exact h.of_updtblnc rfl hs
  | initbalance balance =>
    simp only [stepFrom, step, initbalance, bind_eq_ok, pure_eq_ok] at hs
    obtain ⟨_, ⟨_, -, rfl⟩, heq⟩ := hs
    cases heq
    exact h.of_same rfl (by rintro ⟨⟩) rfl
  | clearblnc =>
    simp only [stepFrom, step, clearblnc, bind_eq_ok, pure_eq_ok] at hs
    obtain ⟨_, ⟨_, -, rfl⟩, heq⟩ := hs
    cases heq
    rw [Latest, sinceClear_concat, if_pos rfl]
    rfl
  | regnode account =>
    simp only [stepFrom, step, regnode, bind_eq_ok, pure_eq_ok] at hs
    obtain ⟨_, ⟨_, -, hs⟩, heq⟩ := hs
    cases heq
    split_ifs at hs
    · simp only [bind_eq_ok, pure_eq_ok] at hs
      obtain ⟨_, -, rfl⟩ := hs
      exact h.of_same rfl (by rintro ⟨⟩) rfl
    · cases hs
      exact h.of_same rfl (by rintro ⟨⟩) rfl
  | rmnode account =>
    simp only [stepFrom, step, rmnode, bind_eq_ok, pure_eq_ok] at hs
    obtain ⟨_, ⟨_, -, hs⟩, heq⟩ := hs
    cases heq
    split_ifs at hs
    · cases hs
      exact h.of_same rfl (by rintro ⟨⟩) rfl
    · cases hs
      exact h.of_same rfl (by rintro ⟨⟩) rfl

end Window

/-- **The window**: after every run, whatever the locals of `updtblnc` start from, the table holds
the last eight of the reports that went through since it was last cleared, or all of them if they
are fewer, with what was submitted, and their ids grow in the order of submission. -/
theorem window_latest (self : Name) (calls : List Call) :
    let s := (run (stepFrom self) {} calls).1
    let reports := sinceClear (returned (stepFrom self) {} calls)
    s.balances.rows.map Report.content = reports.drop (reports.length - 8) ∧
      s.balances.rows.length = min reports.length 8 ∧
      s.balances.rows.Pairwise (fun a b => a.id < b.id) := by
  intro s reports
  have h0 : Latest {} [] := rfl
  have h : Latest s (returned (stepFrom self) {} calls) :=
    run_history Latest h0 (fun _ _ _ _ _ h hs => latest_step h hs) calls
  refine ⟨h, ?_, s.balances.sorted⟩
  have hlen := congrArg List.length h
  rw [List.length_map, rtake_length] at hlen
  exact hlen

end VDexNode.Custodian

import VDexNode.Custodian.Quorum

/-!
# VDexNode.Custodian.Majority — a majority of reports that changes nothing

`updtblnc` looks for a run of equal reports that makes up two thirds of the window.  The quotient it
compares with two thirds is an integer, so it asks for all reports of the window to be counted, and
with `previous` starting at zero the first report other than `0` never is (`count_lt`).

* `ClearMajority` : more than two thirds of the reports are one run of the new balance at the end.
* `majority_ignored` : **no majority for a balance other than `0` sends anything**, in the window
  before the oldest report goes or after.
-/

namespace VDexNode.Custodian

open Eosio

/-! ## The loop -/

/-- Once a report differs from its predecessor, the count stays behind. -/
theorem count_lt (l : List Report) {c : Counters} (hle : c.same ≤ c.size)
    (h : c.same < c.size ∨ ∃ r ∈ l, r.balance ≠ c.previous) :
    (l.foldl Counters.next c).same < (l.foldl Counters.next c).size := by
  induction l generalizing c with
  | nil =>
    rcases h with hlt | ⟨r, hr, -⟩
    · exact hlt
    · cases hr
  | cons r l ih =>
    rw [List.foldl_cons]
    have hmod := Nat.mod_le (c.same + 1) (2 ^ 64)
    by_cases hr : r.balance = c.previous
    · have hsame : (c.next r).same ≤ c.same + 1 := by
        rw [Counters.next, if_pos hr]
        exact hmod
      have hsize : (c.next r).size = c.size + 1 := rfl
      refine ih (by omega) ?_
      rcases h with hlt | ⟨r', hr', hne⟩
      · exact Or.inl (by omega)
      · rcases List.mem_cons.mp hr' with rfl | hr'
        · exact absurd hr hne
        · -- the predecessor is still the first one
          have hprevious : (c.next r).previous = c.previous := hr
          rw [hprevious]
          exact Or.inr ⟨r', hr', hne⟩
    · -- this report is not counted
      have hsame : (c.next r).same = c.same := by
        rw [Counters.next, if_neg hr]
      have hsize : (c.next r).size = c.size + 1 := rfl
      exact ih (by omega) (Or.inl (by omega))

/-- A window with a report other than `0` has no majority, however long it is. -/
theorem not_majority {l : List Report} (h : ∃ r ∈ l, r.balance ≠ 0) :
    ¬ (l.foldl Counters.next ⟨0, 0, 0⟩).majority := by
  have hlt := count_lt l (c := ⟨0, 0, 0⟩) (le_refl 0) (Or.inr h)
  rintro ⟨-, hmaj⟩
  rw [Nat.div_eq_of_lt hlt] at hmaj
  omega

/-! ## The call -/

/-- Of at least two reports more than two thirds are one run of `balance` at the end. -/
def ClearMajority (balance : UInt64) (reports : List UInt64) : Prop :=
  2 ≤ reports.length ∧ ∃ run, run <:+ reports ∧ (∀ b ∈ run, b = balance) ∧
    2 * reports.length < 3 * run.length

/-- The difference of the two balances is retired, and the new one stored. -/
def Transferred (cur balance : UInt64) (s' : State) (out : List Retirement) : Prop :=
  s'.currentbal = some balance ∧
    ∃ e, out = [e] ∧ e.action.quantity.amount = (cur.toNat : ℤ) - (balance.toNat : ℤ)

section Call

variable {env : Env} {s s' : State} {account : Name} {balance : UInt64} {timestamp : ℕ}
  {out : List Retirement}

/-- A report other than `0` sends nothing, whatever the window holds. -/
theorem nonzero_ignored (h : updtblnc 0 0 env s account balance timestamp = .ok (s', out))
    (hpos : 0 < balance) : out = [] ∧ s'.currentbal = s.currentbal := by
  obtain ⟨report, balances, cur, hadd, -, hcases⟩ := updtblnc_cases h
  obtain ⟨-, -, id, -, hrep, -, hrows⟩ := addReport_ok.mp hadd
  have hne : report.balance ≠ 0 := by
    have hbal : report.balance = balance := congrArg Report.balance hrep
    rw [hbal]
    rintro rfl
    exact absurd hpos (by decide)
  have hnone : ¬ ((counted s.balances balances).foldl Counters.next ⟨0, 0, 0⟩).majority := by
    unfold counted
    split_ifs with hempty
    · rintro ⟨hsize, -⟩
      exact hsize rfl
    · apply not_majority
      rw [hrows]
      exact ⟨report, List.mem_append_right _ (List.mem_singleton_self report), hne⟩
  rcases hcases with ⟨hsend, -⟩ | ⟨-, rfl, rfl⟩
  · exact absurd hsend.2 hnone
  · exact ⟨rfl, rfl⟩

/-- **A clear majority does nothing**: in every state, an `updtblnc` for a balance other than `0`
that goes through sends no retirement and leaves the stored balance.  So for a balance below the
stored one a clear majority, in the window with the new report or in what is left of it when the
oldest has gone, is never followed by the transfer. -/
theorem majority_ignored {cur : UInt64}
    (h : updtblnc 0 0 env s account balance timestamp = .ok (s', out))
    (hcur : s.currentbal = some cur) (hpos : 0 < balance) :
    (out = [] ∧ s'.currentbal = some cur ∧ ¬ Transferred cur balance s' out) ∧
    ∀ window, window = s.balances.rows.map Report.balance ++ [balance] ∨
        window = s'.balances.rows.map Report.balance →
      ((balance < cur → ClearMajority balance window → Transferred cur balance s' out) ↔
        ¬ (balance < cur ∧ ClearMajority balance window)) := by
  obtain ⟨hout, hbal⟩ := nonzero_ignored h hpos
  have hnot : ¬ Transferred cur balance s' out := by
    rintro ⟨-, e, he, -⟩
    rw [hout] at he
    cases he
  refine ⟨⟨hout, hbal.trans hcur, hnot⟩, fun window _ => ⟨?_, ?_⟩⟩
  · rintro hall ⟨hlt, hmajority⟩
    exact hnot (hall hlt hmajority)
  · exact fun hfails hlt hmajority => absurd ⟨hlt, hmajority⟩ hfails

end Call

/-- An oracle with 10000 VTX at stake. -/
def stakedOracle (now : ℕ) : Env :=
  let oracle := Name.ofString "oracle"
  { auths := [⟨oracle, active⟩], now := now,
    staking := { accountStake :=
      Table.empty.put ⟨oracle, 0, ⟨1000000000000, Stak.vtx⟩, ⟨0, Stak.vtx⟩, 0⟩ } }

/-- The stored balance is 10, and two reports of 5 are in the window. -/
def twoFives : State :=
  let report (id : ℕ) : Report := ⟨id, Name.ofString "oracle", 5, id, id⟩
  { balances := (Table.empty.put (report 0)).put (report 1), currentbal := some 10 }

theorem clearMajority_twoFives :
    ClearMajority 5 (twoFives.balances.rows.map Report.balance ++ [5]) := by
  have hrun : twoFives.balances.rows.map Report.balance ++ [5] = List.replicate 3 5 := by
    decide +kernel
  rw [hrun]
  exact ⟨by decide, _, List.suffix_refl _, fun b => List.eq_of_mem_replicate, by decide⟩

/-- The window after the third report of 5. -/
theorem threeFives {s' : State} {out : List Retirement}
    (h : updtblnc 0 0 (stakedOracle 2) twoFives (Name.ofString "oracle") 5 2 = .ok (s', out)) :
    ClearMajority 5 (s'.balances.rows.map Report.balance) := by
  have hwindow : (updtblnc 0 0 (stakedOracle 2) twoFives (Name.ofString "oracle") 5 2).map
      (fun r => r.1.balances.rows.map Report.balance) = .ok (List.replicate 3 5) := by
    decide +kernel
  rw [h] at hwindow
  have hrun : s'.balances.rows.map Report.balance = List.replicate 3 5 := Except.ok.inj hwindow
  rw [hrun]
  exact ⟨by decide, _, List.suffix_refl _, fun b => List.eq_of_mem_replicate, by decide⟩

/-- The third report of 5 leaves the stored balance at 10. -/
theorem majority_ignored_fives : ∃ s' out,
    updtblnc 0 0 (stakedOracle 2) twoFives (Name.ofString "oracle") 5 2 = .ok (s', out) ∧
      out = [] ∧ s'.currentbal = some 10 ∧
      ClearMajority 5 (s'.balances.rows.map Report.balance) := by
  obtain ⟨⟨s', out⟩, h⟩ := exists_of_isOk
    (x := updtblnc 0 0 (stakedOracle 2) twoFives (Name.ofString "oracle") 5 2) (by decide +kernel)
  obtain ⟨⟨hout, hbal, -⟩, -⟩ := majority_ignored h rfl (by decide)
  exact ⟨s', out, h, hout, hbal, threeFives h⟩

/-- Nothing is transferred, though both windows have a clear majority. -/
theorem fives_ignored : ¬ ∀ (env : Env) (s s' : State) (account : Name) (balance cur : UInt64)
    (timestamp : ℕ) (out : List Retirement),
    updtblnc 0 0 env s account balance timestamp = .ok (s', out) → s.currentbal = some cur →
    0 < balance → balance < cur →
    ClearMajority balance (s.balances.rows.map Report.balance ++ [balance]) →
    ClearMajority balance (s'.balances.rows.map Report.balance) →
    Transferred cur balance s' out := by
  intro hall
  obtain ⟨⟨s', out⟩, h⟩ := exists_of_isOk
    (x := updtblnc 0 0 (stakedOracle 2) twoFives (Name.ofString "oracle") 5 2) (by decide +kernel)
  obtain ⟨-, e, he, -⟩ := hall _ _ _ _ _ _ _ _ h rfl (by decide) (by decide)
    clearMajority_twoFives (threeFives h)
  rw [(nonzero_ignored h (by decide)).1] at he
  cases he

end VDexNode.Custodian

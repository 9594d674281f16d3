import Mathlib.Data.List.Dedup
import VDexNode.Custodian.Model

/-!
# VDexNode.Custodian.Quorum — who stands behind a retirement

* `Retirement.Quorate`: two thirds of the reports in the window are equal to the reported balance
  and come from distinct accounts.
* The loop of `updtblnc` compares neighbours only, and `same / size` is an integer division: with
  `same` and `previous` starting at zero, a retirement is sent exactly when every report in the
  window is `0` (`count_unanimous`).  Accounts are not looked at.
* `Decisive`: the report brings a retirement about; `Backed`: enough distinct accounts stand behind
  it.  A run is quorate throughout exactly when its decisive reports are backed (`quorate_iff`).
-/

namespace VDexNode.Custodian

open Eosio

/-! ## Quorum -/

/-- The window a retirement was decided on. -/
def Retirement.reports (e : Retirement) : List Report := e.earlier ++ [e.report]

/-- The distinct accounts behind the reports `l`. -/
def accounts (l : List Report) : List Name := (l.map Report.account).dedup

/-- At least two thirds of the window equal the reported balance and come from pairwise distinct
accounts. -/
def Retirement.Quorate (e : Retirement) : Prop :=
  2 * e.reports.length ≤
    3 * (accounts (e.reports.filter (fun r => r.balance = e.report.balance))).length

instance (e : Retirement) : Decidable e.Quorate :=
  inferInstanceAs (Decidable (_ ≤ _))

/-! ## The loop -/

theorem count_size (l : List Report) (c : Counters) :
    (l.foldl Counters.next c).size = c.size + l.length := by
  induction l generalizing c with
  | nil => rfl
  | cons r l ih =>
    rw [List.foldl_cons, ih, List.length_cons]
    simp only [Counters.next]
    omega

theorem count_same_le (l : List Report) {c : Counters} (hle : c.same ≤ c.size) :
    (l.foldl Counters.next c).same ≤ c.size + l.length := by
  induction l generalizing c with
  | nil => exact hle
  | cons r l ih =>
    have hnext : (c.next r).same ≤ (c.next r).size := by
      have := Nat.mod_le (c.same + 1) (2 ^ 64)
      simp only [Counters.next]
      split_ifs <;> omega
    have := ih hnext
    rw [List.foldl_cons, List.length_cons]
    simp only [Counters.next] at this ⊢
    omega

/-- `same` keeps up with `size` exactly while every report equals the first `previous`. -/
theorem count_unanimous (l : List Report) {c : Counters} (hle : c.same ≤ c.size)
    (hsmall : c.size + l.length < 2 ^ 64) :
    (l.foldl Counters.next c).same = c.size + l.length ↔
      c.same = c.size ∧ ∀ r ∈ l, r.balance = c.previous := by
  induction l generalizing c with
  | nil => simp
  | cons r l ih =>
    rw [List.length_cons] at hsmall
    have hmod : (c.same + 1) % 2 ^ 64 = c.same + 1 := Nat.mod_eq_of_lt (by omega)
    rw [List.foldl_cons, List.length_cons]
    by_cases hr : r.balance = c.previous
    · have hnext : c.next r = ⟨c.same + 1, c.previous, c.size + 1⟩ := by
        simp only [Counters.next, hr, if_true, hmod]
      have hih := ih (c := c.next r) (by rw [hnext]; simp only; omega)
        (by rw [hnext]; simp only; omega)
      rw [hnext] at hih ⊢
      simp only [List.mem_cons, forall_eq_or_imp, hr, true_and] at hih ⊢
      rw [← add_assoc, add_right_comm, hih]
      exact and_congr_left (fun _ => by omega)
    · have hnext : c.next r = ⟨c.same, r.balance, c.size + 1⟩ := by
        simp only [Counters.next, hr, if_false]
      have hih := ih (c := c.next r) (by rw [hnext]; simp only; omega)
        (by rw [hnext]; simp only; omega)
      rw [hnext] at hih ⊢
      simp only [List.mem_cons, forall_eq_or_imp, hr, false_and, and_false, iff_false] at hih ⊢
      intro hsame
      have := (hih.mp (by omega)).1
      omega

/-- The window agrees exactly when it has reports and every one of them is `0`. -/
theorem majority_iff {l : List Report} (hsmall : l.length < 2 ^ 64) :
    (l.foldl Counters.next ⟨0, 0, 0⟩).majority ↔ l ≠ [] ∧ ∀ r ∈ l, r.balance = 0 := by
  have hsize := count_size l ⟨0, 0, 0⟩
  have hle := count_same_le l (c := ⟨0, 0, 0⟩) le_rfl
  have hall := count_unanimous l (c := ⟨0, 0, 0⟩) le_rfl (by simpa using hsmall)
  simp only [zero_add, true_and] at hsize hle hall
  rw [Counters.majority, hsize, ← hall, ← List.length_pos_iff, Nat.pos_iff_ne_zero]
  refine and_congr_right (fun hne => ?_)
  constructor
  · intro hlt
    have hdiv : 1 ≤ (l.foldl Counters.next ⟨0, 0, 0⟩).same / l.length := by omega
    have := (Nat.le_div_iff_mul_le (by omega)).mp hdiv
    omega
  · intro heq
    rw [heq, Nat.div_self (by omega)]
    norm_num

/-! ## Decisive reports -/

/-- What `updtblnc` finds before it sends a retirement: a caller with enough at stake, a table of
reports that are all `0`, as the new one is, and a stored balance to retire. -/
structure Decisive (env : Env) (s : State) (account : Name) (balance : UInt64) : Prop where
  auth : hasAuth env.auths account
  staked : ∃ a, Stak.getStakedAmount env.staking account = .ok a ∧
    10000 ≤ a.amount.tdiv vtxPrecision
  key : ∃ id, s.balances.availablePrimaryKey (fun _ => true) Report.id = .ok id
  earlier : s.balances.rows ≠ []
  unanimous : ∀ r ∈ s.balances.rows, r.balance = 0
  report : balance = 0
  pending : ∃ cur, s.currentbal = some cur ∧ 0 < cur.toNat ∧ (cur.toNat : ℤ) ≤ Asset.maxAmount
  accepted : env.accepted = true

/-- With the report of `account`, the reports in the table come from at least two thirds as many
distinct accounts. -/
def Backed (s : State) (account : Name) : Prop :=
  2 * (s.balances.rows.length + 1) ≤
    3 * (s.balances.rows.map Report.account ++ [account]).dedup.length

section Updtblnc

variable {env : Env} {s s' : State} {account : Name} {balance : UInt64} {timestamp : ℕ}
  {out : List Retirement}

/-- A report is stored under an id above all others. -/
theorem put_rows {t : Table Report.id} {r : Report} (hid : ∀ x ∈ t.rows, x.id < r.id) :
    (t.put r).rows = t.rows ++ [r] :=
  Table.rows_put_last hid

theorem addReport_ok {res : Report × Table Report.id} :
    addReport env s account balance timestamp = .ok res ↔
      hasAuth env.auths account ∧
      (∃ a, Stak.getStakedAmount env.staking account = .ok a ∧
        10000 ≤ a.amount.tdiv vtxPrecision) ∧
      ∃ id, s.balances.availablePrimaryKey (fun _ => true) Report.id = .ok id ∧
        res.1 = ⟨id, account, balance, timestamp % 2 ^ 32, env.now⟩ ∧
        res.2 = s.balances.put res.1 ∧ res.2.rows = s.balances.rows ++ [res.1] := by
  have hrows : ∀ id, s.balances.availablePrimaryKey (fun _ => true) Report.id = .ok id →
      ∀ x ∈ s.balances.rows, x.id < id := fun id hid x hx =>
    Table.lt_availablePrimaryKey hid (fun _ _ _ _ hab => hab) hx rfl
  obtain ⟨report, balances⟩ := res
  simp only [addReport, requireAuth, bind_eq_ok, check_eq_ok, exists_const, Table.emplace_eq_ok,
    pure_eq_ok, Prod.mk.injEq]
  constructor
  · rintro ⟨hauth, a, ha, htok, id, hid, _, ⟨hnew, rfl⟩, rfl, rfl⟩
    exact ⟨hauth, ⟨a, ha, htok⟩, id, hid, rfl, rfl, put_rows (hrows id hid)⟩
  · rintro ⟨hauth, ⟨a, ha, htok⟩, id, hid, rfl, rfl, -⟩
    refine ⟨hauth, a, ha, htok, id, hid, _, ⟨?_, rfl⟩, rfl, rfl⟩
    exact Table.find_eq_none.mpr (fun x hx => (hrows id hid x hx).ne)

theorem dropOldest_length {t : Table Report.id} {size : ℕ} (hsize : size = 0 → t.rows.length ≤ 8)
    (ht : size ≠ 0 → size = t.rows.length) (hle : t.rows.length ≤ 9) :
    (dropOldest size t).rows.length ≤ 8 := by
  unfold dropOldest
  cases hrows : t.rows with
  | nil => simp [hrows]
  | cons oldest rest =>
    rw [hrows, List.length_cons] at hsize ht hle
    simp only
    split_ifs with h8
    · have hperm := Table.perm_cons_erase (t.find_self (r := oldest) (by rw [hrows]; simp))
      have hlen := hperm.length_eq
      rw [hrows, List.length_cons, List.length_cons] at hlen
      omega
    · rw [hrows, List.length_cons]
      omega

/-- As an amount of the asset range, a `uint64_t` is itself. -/
theorem toInt64_pos_le {n : UInt64} :
    (0 < toInt64 n ∧ toInt64 n ≤ Asset.maxAmount) ↔
      0 < n.toNat ∧ (n.toNat : ℤ) ≤ Asset.maxAmount := by
  have hmax := Asset.maxAmount_eq
  have hlt := n.toNat_lt
  unfold toInt64
  split_ifs with h <;> omega

/-- The loop agrees exactly when there were reports before, all of them `0`, and so is the new
one. -/
theorem majority_counted {t balances : Table Report.id} {report : Report} (hw : t.rows.length ≤ 8)
    (hrows : balances.rows = t.rows ++ [report]) :
    ((counted t balances).foldl Counters.next ⟨0, 0, 0⟩).majority ↔
      t.rows ≠ [] ∧ (∀ r ∈ t.rows, r.balance = 0) ∧ report.balance = 0 := by
  unfold counted
  split_ifs with hempty
  · simp [hempty, Counters.majority]
  · rw [hrows, majority_iff (by simp; omega)]
    simp [hempty, or_imp, forall_and]

theorem window_length {t balances : Table Report.id} {report : Report} (hw : t.rows.length ≤ 8)
    (hrows : balances.rows = t.rows ++ [report]) :
    (dropOldest ((counted t balances).foldl Counters.next ⟨0, 0, 0⟩).size balances).rows.length ≤
      8 := by
  have hlen : balances.rows.length = t.rows.length + 1 := by simp [hrows]
  rw [count_size]
  unfold counted
  split_ifs with hempty
  · rw [hempty, List.length_nil] at hlen
    exact dropOldest_length (fun _ => by omega) (fun hne => absurd rfl hne) (by omega)
  · exact dropOldest_length (fun h0 => by omega) (fun _ => by simp) (by omega)

/-- The retirement of the difference of two balances. -/
def retirementOf (report : Report) (earlier : List Report) (amountToTransfer : UInt64) :
    Retirement :=
  ⟨report, earlier, ⟨tokenAcc, active⟩, ⟨toInt64 amountToTransfer, Stak.vtx⟩, "test"⟩

/-- **What `updtblnc` does**, whatever its locals start from: with a majority for a report below the
stored balance it retires the difference and stores the report, and otherwise it keeps the
balance. -/
theorem updtblnc_cases {same : ℕ} {previous : UInt64}
    (h : updtblnc same previous env s account balance timestamp = .ok (s', out)) :
    ∃ report balances cur, addReport env s account balance timestamp = .ok (report, balances) ∧
      s.currentbal = some cur ∧
      ((0 < cur - balance ∧
          ((counted s.balances balances).foldl Counters.next ⟨same, previous, 0⟩).majority) ∧
        (0 < (cur - balance).toNat ∧ ((cur - balance).toNat : ℤ) ≤ Asset.maxAmount) ∧
        env.accepted = true ∧
        s' = { s with
          balances := dropOldest ((counted s.balances balances).foldl Counters.next
            ⟨same, previous, 0⟩).size balances
          currentbal := some balance } ∧
        out = [retirementOf report s.balances.rows (cur - balance)] ∨
      ¬ (0 < cur - balance ∧
          ((counted s.balances balances).foldl Counters.next ⟨same, previous, 0⟩).majority) ∧
        s' = { s with
          balances := dropOldest ((counted s.balances balances).foldl Counters.next
            ⟨same, previous, 0⟩).size balances } ∧
        out = []) := by
  unfold updtblnc at h
  obtain ⟨⟨report, balances⟩, hadd, h⟩ := bind_eq_ok.mp h
  cases hcur : s.currentbal with
  | none =>
    rw [hcur] at h
    cases h
  | some cur =>
    simp only [hcur, bind_eq_ok, check_eq_ok, exists_const] at h
    obtain ⟨-, h⟩ := h
    refine ⟨report, balances, cur, hadd, rfl, ?_⟩
    split_ifs at h with hsend
    · simp only [bind_eq_ok, Asset.make, sendRetire, check_eq_ok, exists_const, pure_eq_ok] at h
      obtain ⟨eos, ⟨hrange, -, rfl⟩, ⟨hpos, hacc⟩, h⟩ := h
      cases h
      exact Or.inl ⟨hsend, toInt64_pos_le.mp ⟨hpos, hrange.2⟩, hacc, rfl, rfl⟩
    · cases h
      exact Or.inr ⟨hsend, rfl, rfl⟩

/-- A report below the stored balance that finds its majority goes through. -/
theorem updtblnc_retires {same : ℕ} {previous cur : UInt64} {report : Report}
    {balances : Table Report.id}
    (hadd : addReport env s account balance timestamp = .ok (report, balances))
    (hcur : s.currentbal = some cur)
    (hmaj : ((counted s.balances balances).foldl Counters.next ⟨same, previous, 0⟩).majority)
    (hpos : 0 < (cur - balance).toNat) (hle : ((cur - balance).toNat : ℤ) ≤ Asset.maxAmount)
    (hacc : env.accepted = true) :
    ∃ s' out, updtblnc same previous env s account balance timestamp = .ok (s', out) ∧
      s'.currentbal = some balance := by
  obtain ⟨hpos', hle'⟩ := toInt64_pos_le.mpr ⟨hpos, hle⟩
  have hmake : Asset.make (toInt64 (cur - balance)) Stak.vtx =
      .ok ⟨toInt64 (cur - balance), Stak.vtx⟩ := by
    rw [Asset.make, check_of ⟨by omega, hle'⟩, ok_bind, check_of (by decide), ok_bind]
    rfl
  have hsend := And.intro (UInt64.lt_iff_toNat_lt.mpr hpos : 0 < cur - balance) hmaj
  unfold updtblnc
  rw [hadd, ok_bind, hcur]
  simp only [check_of (UInt64.zero_le), ok_bind, if_pos hsend, hmake, sendRetire, check_of hacc,
    check_of hpos']
  exact ⟨_, _, rfl, rfl⟩

/-- A report that goes through: either it is decisive and one retirement is sent, or it is not and
none is. -/
theorem updtblnc_ok (hw : s.balances.rows.length ≤ 8)
    (h : updtblnc 0 0 env s account balance timestamp = .ok (s', out)) :
    s'.balances.rows.length ≤ 8 ∧
      ((out = [] ∧ ¬ Decisive env s account balance) ∨
        (Decisive env s account balance ∧ ∃ report action, report.account = account ∧
          report.balance = balance ∧ out = [⟨report, s.balances.rows, action⟩])) := by
  obtain ⟨report, balances, cur, hadd, hcur, hcases⟩ := updtblnc_cases h
  obtain ⟨hauth, hstaked, id, hid, hrep, -, hrows⟩ := addReport_ok.mp hadd
  simp only at hrep hrows
  have hbal : report.balance = balance := by rw [hrep]
  have hmaj := majority_counted hw hrows
  have hlen := window_length hw hrows
  rw [hbal] at hmaj
  rcases hcases with ⟨hsend, hamount, hacc, rfl, rfl⟩ | ⟨hsend, rfl, rfl⟩
  · obtain ⟨hearlier, hunanimous, hzero⟩ := hmaj.mp hsend.2
    rw [hzero, UInt64.sub_zero] at hamount
    refine ⟨hlen, Or.inr ⟨⟨hauth, hstaked, ⟨id, hid⟩, hearlier, hunanimous, hzero,
      ⟨cur, hcur, hamount⟩, hacc⟩, report, _, by rw [hrep], hbal, rfl⟩⟩
  · refine ⟨hlen, Or.inl ⟨rfl, fun hd => hsend ⟨?_, ?_⟩⟩⟩
    · obtain ⟨cur', hcur', hpos, -⟩ := hd.pending
      rw [hcur, Option.some.injEq] at hcur'
      subst hcur'
      rw [hd.report, UInt64.sub_zero]
      exact UInt64.lt_iff_toNat_lt.mpr hpos
    · exact hmaj.mpr ⟨hd.earlier, hd.unanimous, hd.report⟩

/-- A decisive report goes through. -/
theorem Decisive.ok (h : Decisive env s account balance) (hw : s.balances.rows.length ≤ 8)
    (timestamp : ℕ) :
    ∃ r, updtblnc 0 0 env s account balance timestamp = .ok r := by
  obtain ⟨id, hid⟩ := h.key
  obtain ⟨cur, hcur, hpos, hle⟩ := h.pending
  have hadd : addReport env s account balance timestamp =
      .ok (⟨id, account, balance, timestamp % 2 ^ 32, env.now⟩, s.balances.put
        ⟨id, account, balance, timestamp % 2 ^ 32, env.now⟩) := by
    refine addReport_ok.mpr ⟨h.auth, h.staked, id, hid, rfl, rfl, put_rows (fun x hx => ?_)⟩
    exact Table.lt_availablePrimaryKey hid (fun _ _ _ _ hab => hab) hx rfl
  obtain ⟨-, -, _, -, -, -, hrows⟩ := addReport_ok.mp hadd
  have hmaj := (majority_counted hw hrows).mpr ⟨h.earlier, h.unanimous, h.report⟩
  have hdiff : cur - balance = cur := by rw [h.report, UInt64.sub_zero]
  obtain ⟨_, _, hok, -⟩ :=
    updtblnc_retires hadd hcur hmaj (by rwa [hdiff]) (by rwa [hdiff]) h.accepted
  exact ⟨_, hok⟩

end Updtblnc

/-! ## Runs -/

section Runs

variable {self : Name}

/-- **Step lemma**: the table never keeps more than eight reports. -/
theorem window_step {s s' : State} {call : Env × Action} {out : List Retirement}
    (hw : s.balances.rows.length ≤ 8) (hs : step self 0 0 s call = .ok (s', out)) :
    s'.balances.rows.length ≤ 8 := by
  obtain ⟨env, action⟩ := call
  cases action with
  | initbalance balance =>
    simp only [step, initbalance, bind_eq_ok, pure_eq_ok] at hs
    obtain ⟨_, ⟨_, -, rfl⟩, heq⟩ := hs
    cases heq
    exact hw
  | clearblnc =>
    simp only [step, clearblnc, bind_eq_ok, pure_eq_ok] at hs
    obtain ⟨_, ⟨_, -, rfl⟩, heq⟩ := hs
    cases heq
    simp
  | regnode account =>
    simp only [step, regnode, bind_eq_ok, pure_eq_ok] at hs
    obtain ⟨_, ⟨_, -, hs⟩, heq⟩ := hs
    cases heq
    split_ifs at hs
    · simp only [bind_eq_ok, pure_eq_ok] at hs
      obtain ⟨_, -, rfl⟩ := hs
      exact hw
    · cases hs
      exact hw
  | rmnode account =>
    simp only [step, rmnode, bind_eq_ok, pure_eq_ok] at hs
    obtain ⟨_, ⟨_, -, hs⟩, heq⟩ := hs
    cases heq
    split_ifs at hs
    · cases hs
      exact hw
    · cases hs
      exact hw
  | updtblnc account balance timestamp => exact (updtblnc_ok hw hs).1

/-- Only `updtblnc` retires. -/
theorem retirement_of_step {s s' : State} {call : Env × Action} {out : List Retirement}
    (hs : step self 0 0 s call = .ok (s', out)) {e : Retirement} (he : e ∈ out) :
    ∃ account balance timestamp, call.2 = .updtblnc account balance timestamp := by
  obtain ⟨env, action⟩ := call
  cases action with
  | updtblnc account balance timestamp => exact ⟨account, balance, timestamp, rfl⟩
  | _ =>
    simp only [step, bind_eq_ok, pure_eq_ok] at hs
    obtain ⟨_, -, heq⟩ := hs
    cases heq
    cases he

/-- A retirement is quorate exactly when its report is backed. -/
theorem quorate_iff_backed {s : State} {e : Retirement} {account : Name}
    (hearlier : e.earlier = s.balances.rows) (hall : ∀ r ∈ s.balances.rows, r.balance = 0)
    (haccount : e.report.account = account) (hzero : e.report.balance = 0) :
    e.Quorate ↔ Backed s account := by
  have hfilter : e.reports.filter (fun r => r.balance = e.report.balance) = e.reports := by
    refine List.filter_eq_self.mpr (fun r hr => decide_eq_true ?_)
    rw [hzero]
    rcases List.mem_append.mp hr with hr | hr
    · rw [hearlier] at hr
      exact hall r hr
    · rw [List.mem_singleton.mp hr, hzero]
  rw [Retirement.Quorate, hfilter, Backed, accounts, Retirement.reports, hearlier, ← haccount]
  simp

/-- Behind a quorate retirement stands more than one account. -/
theorem Retirement.Quorate.other {e : Retirement} (h : e.Quorate) (hne : e.earlier ≠ []) :
    ∃ r ∈ e.earlier, r.account ≠ e.report.account := by
  by_contra hall
  push Not at hall
  have hsub : (accounts (e.reports.filter (fun r => r.balance = e.report.balance))).length ≤
      [e.report.account].length := by
    refine (List.subperm_of_subset (List.nodup_dedup _) (fun a ha => ?_)).length_le
    obtain ⟨r, hr, rfl⟩ := List.mem_map.mp (List.mem_dedup.mp ha)
    rcases List.mem_append.mp (List.mem_filter.mp hr).1 with hr | hr
    · exact List.mem_singleton.mpr (hall r hr)
    · rw [List.mem_singleton.mp hr]
      exact List.mem_singleton_self _
  have hpos := List.length_pos_iff.mpr hne
  have hlen : e.reports.length = e.earlier.length + 1 := by simp [Retirement.reports]
  unfold Retirement.Quorate at h
  rw [List.length_singleton] at hsub
  omega

/-- A decisive report is backed. -/
def Guarded (s : State) (call : Env × Action) : Prop :=
  match call.2 with
  | .updtblnc account balance _ => Decisive call.1 s account balance → Backed s account
  | _ => True

/-- One call sends quorate retirements only exactly when it is guarded. -/
theorem quorate_step_iff {s : State} (hw : s.balances.rows.length ≤ 8) (call : Env × Action) :
    (∀ s' out, step self 0 0 s call = .ok (s', out) → ∀ e ∈ out,
      e.Quorate ∧ ∃ r ∈ e.earlier, r.account ≠ e.report.account) ↔ Guarded s call := by
  obtain ⟨env, action⟩ := call
  cases action with
  | updtblnc account balance timestamp =>
    constructor
    · intro hall hd
      obtain ⟨⟨s', out⟩, hok⟩ := hd.ok hw timestamp
      obtain ⟨-, ⟨-, hnd⟩ | ⟨-, report, action, hacc, hbal, rfl⟩⟩ := updtblnc_ok hw hok
      · exact absurd hd hnd
      · have hq := (hall s' _ hok _ (List.mem_singleton_self _)).1
        rw [hd.report] at hbal
        exact (quorate_iff_backed rfl hd.unanimous hacc hbal).mp hq
    · intro hg s' out hok e he
      obtain ⟨-, ⟨rfl, -⟩ | ⟨hd, report, action, hacc, hbal, rfl⟩⟩ := updtblnc_ok hw hok
      · cases he
      · obtain rfl := List.mem_singleton.mp he
        rw [hd.report] at hbal
        have hq := (quorate_iff_backed (e := ⟨report, _, action⟩) rfl hd.unanimous hacc hbal).mpr
          (hg hd)
        exact ⟨hq, hq.other hd.earlier⟩
  | _ =>
    refine iff_of_true (fun s' out hok e he => ?_) trivial
    obtain ⟨account, balance, timestamp, hcall⟩ := retirement_of_step hok he
    cases hcall

/-- **Quorum**: every retirement of a run has two thirds of its window from distinct accounts, and
so more than one account, behind it exactly when every decisive report of the run is backed. -/
theorem quorate_iff (self : Name) (calls : List (Env × Action)) :
    (∀ e ∈ (run (step self 0 0) {} calls).2,
      e.Quorate ∧ ∃ r ∈ e.earlier, r.account ≠ e.report.account) ↔
    Along (step self 0 0) Guarded {} calls := by
  rw [forall_mem_log]
  exact along_congr (fun s => s.balances.rows.length ≤ 8) (by simp)
    (fun _ _ _ _ hw hs => window_step hw hs) (fun _ call hw => quorate_step_iff hw call) calls

/-- One oracle, with 10000 VTX at stake, reports `0` twice. -/
def loneOracle : List (Env × Action) :=
  let oracle := Name.ofString "oracle"
  let custodian := Name.ofString "vltxcstdn"
  let staking : Stak.State :=
    { accountStake := Table.empty.put ⟨oracle, 0, ⟨1000000000000, Stak.vtx⟩, ⟨0, Stak.vtx⟩, 0⟩ }
  let env (signer : Name) (now : ℕ) : Env := ⟨⟨[⟨signer, active⟩], now⟩, staking, true⟩
  [(env custodian 1, .initbalance 500), (env oracle 2, .updtblnc oracle 0 2),
    (env oracle 3, .updtblnc oracle 0 3)]

/-- A single account retires the whole stored balance. -/
theorem loneOracle_retires : ¬ ∀ (self : Name) (calls : List (Env × Action)),
    ∀ e ∈ (run (step self 0 0) {} calls).2,
      e.Quorate ∧ ∃ r ∈ e.earlier, r.account ≠ e.report.account :=
  fun h => absurd (h (Name.ofString "vltxcstdn") loneOracle) (by decide +kernel)

end Runs

end VDexNode.Custodian

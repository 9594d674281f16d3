import VDexNode.Custodian.Quorum

/-!
# VDexNode.Custodian.Accounting — retired amounts against the stored balance

`updtblnc` retires the difference of two unsigned 64-bit balances.  `check(amount_to_transfer >= 0)`
holds of every difference, so a report above the stored balance is not stopped by it: the difference
wraps around, and when it comes out below `2^62` the range check of the asset lets it through.

The locals `same` and `previous` hold whatever they hold; every report of a run brings its own.

* `updtblnc_sends` : a report either retires the difference and stores the balance, or leaves the
  stored balance alone.
* `telescopes_iff` : **the retired amounts and the stored balance add up to the initial one, and the
  stored balance never grows, exactly when no report wraps.**
-/

namespace VDexNode.Custodian

open Eosio

/-! ## One report -/

/-- A call of `updtblnc`, with the values its locals `same` and `previous` happen to hold. -/
structure Submission where
  env : Env
  same : UInt64
  previous : UInt64
  account : Name
  balance : UInt64
  timestamp : ℕ

/-- The row of the report. -/
def Submission.row (c : Submission) (id : ℕ) : Report :=
  ⟨id, c.account, c.balance, c.timestamp % 2 ^ 32, c.env.now⟩

/-- `updtblnc` as a step. -/
def submit (s : State) (c : Submission) : Result (State × List Retirement) :=
  updtblnc c.same.toNat c.previous c.env s c.account c.balance c.timestamp

/-- What `updtblnc` finds before it sends a retirement: a caller with enough at stake, a table that
is not empty and agrees with the new report, and a difference in the asset range. -/
structure Sends (s : State) (c : Submission) (cur : UInt64) : Prop where
  auth : hasAuth c.env.auths c.account
  staked : ∃ a, Stak.getStakedAmount c.env.staking c.account = .ok a ∧
    10000 ≤ a.amount.tdiv vtxPrecision
  earlier : s.balances.rows ≠ []
  majority : ∃ id, s.balances.availablePrimaryKey (fun _ => true) Report.id = .ok id ∧
    ((s.balances.rows ++ [c.row id]).foldl Counters.next ⟨c.same.toNat, c.previous, 0⟩).majority
  current : s.currentbal = some cur
  positive : 0 < (cur - c.balance).toNat
  inRange : ((cur - c.balance).toNat : ℤ) ≤ Asset.maxAmount
  accepted : c.env.accepted = true

section Submit

variable {s s' : State} {c : Submission} {out : List Retirement}

/-- An amount of the asset range is the same as an `int64_t`. -/
theorem toInt64_of_le {n : UInt64} (h : (n.toNat : ℤ) ≤ Asset.maxAmount) :
    toInt64 n = n.toNat := by
  have hmax := Asset.maxAmount_eq
  rw [toInt64, if_pos (by omega)]

/-- **A report that goes through**: it retires the difference and stores the balance, or it leaves
the stored balance alone. -/
theorem updtblnc_sends (h : submit s c = .ok (s', out)) :
    (out = [] ∧ s'.currentbal = s.currentbal) ∨
      ∃ cur e, Sends s c cur ∧ out = [e] ∧
        e.action.quantity.amount = (cur - c.balance).toNat ∧ s'.currentbal = some c.balance := by
  obtain ⟨report, balances, cur, hadd, hcur, hcases⟩ := updtblnc_cases h
  obtain ⟨hauth, hstaked, id, hid, hrep, -, hrows⟩ := addReport_ok.mp hadd
  simp only at hrep hrows
  rcases hcases with ⟨⟨-, hmaj⟩, ⟨hpos, hle⟩, hacc, rfl, rfl⟩ | ⟨-, rfl, rfl⟩
  · have hne : s.balances.rows ≠ [] := by
      intro hempty
      rw [counted, if_pos hempty] at hmaj
      exact hmaj.1 rfl
    rw [counted, if_neg hne, hrows, hrep] at hmaj
    exact Or.inr ⟨cur, _, ⟨hauth, hstaked, hne, ⟨id, hid, hmaj⟩, hcur, hpos, hle, hacc⟩, rfl,
      toInt64_of_le hle, rfl⟩
  · exact Or.inl ⟨rfl, rfl⟩

/-- A report that finds all this retires. -/
theorem Sends.ok {cur : UInt64} (h : Sends s c cur) :
    ∃ s' out, submit s c = .ok (s', out) ∧ s'.currentbal = some c.balance := by
  obtain ⟨id, hid, hmaj⟩ := h.majority
  have hrows : (s.balances.put (c.row id)).rows = s.balances.rows ++ [c.row id] :=
    put_rows (fun x hx => Table.lt_availablePrimaryKey hid (fun _ _ _ _ hab => hab) hx rfl)
  have hadd : addReport c.env s c.account c.balance c.timestamp =
      .ok (c.row id, s.balances.put (c.row id)) :=
    addReport_ok.mpr ⟨h.auth, h.staked, id, hid, rfl, rfl, hrows⟩
  have hcounted : counted s.balances (s.balances.put (c.row id)) =
      s.balances.rows ++ [c.row id] := by
    rw [counted, if_neg h.earlier, hrows]
  have hmaj' : ((counted s.balances (s.balances.put (c.row id))).foldl Counters.next
      ⟨c.same.toNat, c.previous, 0⟩).majority := by
    rw [hcounted]
    exact hmaj
  exact updtblnc_retires hadd h.current hmaj' h.positive h.inRange h.accepted

end Submit

/-! ## Runs -/

/-- The amounts retired so far. -/
def retired (log : List Retirement) : ℤ := (log.map (fun e => e.action.quantity.amount)).sum

/-- The amounts retired and the stored balance add up to `b₀`, and every amount is positive. -/
def Telescoped (b₀ : UInt64) (s : State) (log : List Retirement) : Prop :=
  (∃ cur, s.currentbal = some cur ∧ retired log + cur.toNat = b₀.toNat) ∧
    ∀ e ∈ log, 0 < e.action.quantity.amount

/-- The report does not make the stored balance grow. -/
def NeverGrows (s : State) (c : Submission) : Prop :=
  ∀ s' out, submit s c = .ok (s', out) → ∀ cur cur', s.currentbal = some cur →
    s'.currentbal = some cur' → cur' ≤ cur

/-- The report retires, though it is above the stored balance: the difference has wrapped around. -/
def Wraps (s : State) (c : Submission) : Prop := ∃ cur, Sends s c cur ∧ cur < c.balance

/-- The difference to a report that is not above the stored balance is the difference of the
integers. -/
theorem toNat_sub_add {cur b : UInt64} (h : ¬ cur < b) : (cur - b).toNat + b.toNat = cur.toNat := by
  have hle : b.toNat ≤ cur.toNat := by
    rw [UInt64.lt_iff_toNat_lt] at h
    omega
  rw [UInt64.toNat_sub_of_le _ _ (UInt64.le_iff_toNat_le.mpr hle)]
  omega

/-- **Step lemma**: a report that does not wrap keeps the account. -/
theorem telescoped_step {b₀ : UInt64} {s s' : State} {log out : List Retirement} {c : Submission}
    (h : Telescoped b₀ s log) (hc : ¬ Wraps s c) (hs : submit s c = .ok (s', out)) :
    Telescoped b₀ s' (log ++ out) := by
  obtain ⟨⟨cur, hcur, hsum⟩, hpos⟩ := h
  rcases updtblnc_sends hs with ⟨rfl, hsame⟩ | ⟨cur', e, hsend, rfl, hamount, hnew⟩
  · rw [List.append_nil]
    exact ⟨⟨cur, hsame.trans hcur, hsum⟩, hpos⟩
  · obtain rfl : cur' = cur := Option.some.inj (hsend.current.symm.trans hcur)
    have hdiff := toNat_sub_add (fun hlt => hc ⟨cur', hsend, hlt⟩)
    have hpositive := hsend.positive
    refine ⟨⟨c.balance, hnew, ?_⟩, fun x hx => ?_⟩
    · simp only [retired, List.map_append, List.map_cons, List.map_nil, List.sum_append,
        List.sum_cons, List.sum_nil, hamount] at hsum ⊢
      omega
    · rcases List.mem_append.mp hx with hx | hx
      · exact hpos x hx
      · rw [List.mem_singleton.mp hx, hamount]
        omega

/-- The stored balance does not grow exactly when the report does not wrap. -/
theorem neverGrows_iff {s : State} {c : Submission} : NeverGrows s c ↔ ¬ Wraps s c := by
  constructor
  · rintro hgrow ⟨cur, hsend, hlt⟩
    obtain ⟨s', out, hs, hnew⟩ := hsend.ok
    exact UInt64.not_lt.mpr (hgrow s' out hs cur c.balance hsend.current hnew) hlt
  · intro hwrap s' out hs cur cur' hcur hcur'
    rcases updtblnc_sends hs with ⟨-, hsame⟩ | ⟨cur₁, e, hsend, -, -, hnew⟩
    · obtain rfl : cur = cur' := Option.some.inj (hcur.symm.trans (hsame.symm.trans hcur'))
      exact UInt64.le_refl cur
    · obtain rfl : cur₁ = cur := Option.some.inj (hsend.current.symm.trans hcur)
      obtain rfl : c.balance = cur' := Option.some.inj (hnew.symm.trans hcur')
      exact UInt64.not_lt.mp (fun hlt => hwrap ⟨cur₁, hsend, hlt⟩)

/-- **Accounting**: after `initbalance`, whatever is reported and whatever the locals hold, the
retired amounts and the stored balance add up to the initial balance at every moment and the stored
balance never grows exactly when no report wraps. -/
theorem telescopes_iff {self : Name} {env : Env} {s₀ s₁ : State} {b₀ : UInt64}
    (h0 : initbalance self env s₀ b₀ = .ok s₁) (calls : List Submission) :
    ((∀ pre, pre <+: calls → Telescoped b₀ (run submit s₁ pre).1 (run submit s₁ pre).2) ∧
      Along submit NeverGrows s₁ calls) ↔ Along submit (fun s c => ¬ Wraps s c) s₁ calls := by
  have hinit : Telescoped b₀ s₁ [] := by
    simp only [initbalance, bind_eq_ok, pure_eq_ok] at h0
    obtain ⟨_, -, rfl⟩ := h0
    exact ⟨⟨b₀, rfl, by simp [retired]⟩, by simp⟩
  constructor
  · rintro ⟨-, hgrow⟩
    exact hgrow.mono (fun _ _ h => neverGrows_iff.mp h)
  · intro hwrap
    refine ⟨fun pre hpre => ?_, hwrap.mono (fun _ _ h => neverGrows_iff.mpr h)⟩
    exact run_invariant_of (Telescoped b₀) (fun s c => ¬ Wraps s c) hinit
      (fun _ _ _ _ _ h hc hs => telescoped_step h hc hs) pre (hwrap.initial hpre)

/-- An oracle with 10000 VTX at stake, which may also act for the contract. -/
def oracleEnv : Env where
  auths := [⟨Name.ofString "oracle", active⟩, ⟨Name.ofString "vltxcstdn", active⟩]
  now := 0
  staking :=
    let stake : Stak.Stake :=
      ⟨Name.ofString "oracle", 0, ⟨1000000000000, Stak.vtx⟩, ⟨0, Stak.vtx⟩, 0⟩
    { accountStake := Table.empty.put stake }

/-- The oracle reports `balance`, and the local `previous` happens to hold the same number. -/
def reportOf (balance : UInt64) : Submission :=
  ⟨oracleEnv, 0, balance, Name.ofString "oracle", balance, 0⟩

theorem telescopes_iff_spent :
    (∀ pre, pre <+: [reportOf 300, reportOf 300] →
      Telescoped 500 (run submit { currentbal := some 500 } pre).1
        (run submit { currentbal := some 500 } pre).2) ∧
      Along submit NeverGrows { currentbal := some 500 } [reportOf 300, reportOf 300] := by
  have h0 : initbalance (Name.ofString "vltxcstdn") oracleEnv {} 500 =
      .ok { currentbal := some 500 } := by decide +kernel
  have hbelow : ∀ s : State, s.currentbal = some 500 → ¬ Wraps s (reportOf 300) := by
    rintro s hcur ⟨cur, hsend, hlt⟩
    obtain rfl : cur = 500 := Option.some.inj (hsend.current.symm.trans hcur)
    exact absurd hlt (by decide)
  exact (telescopes_iff h0 _).mpr ⟨hbelow _ rfl, hbelow _ (by decide +kernel), trivial⟩

/-- One unit is retired, and the stored balance goes from nothing to `2 ^ 64 - 1`. -/
theorem overReport_wraps : ¬ ∀ (self : Name) (env : Env) (s₀ s₁ : State) (b₀ : UInt64)
    (calls : List Submission), initbalance self env s₀ b₀ = .ok s₁ →
    (∀ pre, pre <+: calls → Telescoped b₀ (run submit s₁ pre).1 (run submit s₁ pre).2) ∧
      Along submit NeverGrows s₁ calls := by
  intro h
  have hall := (h (Name.ofString "vltxcstdn") oracleEnv {} { currentbal := some 0 } 0
    [reportOf (2 ^ 64 - 1), reportOf (2 ^ 64 - 1)] (by decide +kernel)).1 _ List.prefix_rfl
  obtain ⟨cur, hcur, hsum⟩ := hall.1
  have hnew : (run submit { currentbal := some 0 }
      [reportOf (2 ^ 64 - 1), reportOf (2 ^ 64 - 1)]).1.currentbal = some (2 ^ 64 - 1) := by
    decide +kernel
  have hretired : retired (run submit { currentbal := some 0 }
      [reportOf (2 ^ 64 - 1), reportOf (2 ^ 64 - 1)]).2 = 1 := by decide +kernel
  obtain rfl : (2 ^ 64 - 1 : UInt64) = cur := Option.some.inj (hnew.symm.trans hcur)
  rw [hretired] at hsum
  exact absurd hsum (by decide +kernel)

end VDexNode.Custodian

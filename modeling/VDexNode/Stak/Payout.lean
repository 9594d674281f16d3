import VDexNode.Stak.Lock

/-!
# VDexNode.Stak.Payout — when the payout loop returns

The loop of `unstake_unlocked` adds what is owed up and subtracts each principal from
`currently_staked`.  Both are asset operations: where the totals were cleared over open stakes, the
second may leave the range.

* `Kept` : what the rows and the totals satisfy after any run of any entry points.
* `unstakeUnlocked_iff` : the loop returns exactly when there are totals the principal can be taken
  from.
-/

namespace VDexNode.Stak

open Eosio

/-! ## The invariant -/

/-- Every row is one `_stake` has checked, and the totals are in VTX and below the limit. -/
structure Kept (s : State) : Prop where
  rows : ∀ r ∈ s.accountStake.rows, r.WellFormed
  symbol : ∀ g ∈ s.globals, g.currentlyStaked.symbol = vtx
  current_le : ∀ g ∈ s.globals, g.currentlyStaked.amount ≤ g.cumulativeStaked.amount
  cumulative_le : ∀ g ∈ s.globals, g.cumulativeStaked.amount ≤ 1000000000000000
  subsidy_nonneg : ∀ g ∈ s.globals, 0 ≤ g.cumulativeSubsidy.amount

section Kept

variable {rule : SubsidyRule} {self : Name} {s s' : State}

theorem Kept.congr (h : Kept s) (hrows : ∀ r ∈ s'.accountStake.rows, r ∈ s.accountStake.rows)
    (hglobals : s'.globals = s.globals) : Kept s' where
  rows r hr := h.rows r (hrows r hr)
  symbol := hglobals ▸ h.symbol
  current_le := hglobals ▸ h.current_le
  cumulative_le := hglobals ▸ h.cumulative_le
  subsidy_nonneg := hglobals ▸ h.subsidy_nonneg

/-- New totals of zero are in order. -/
theorem Kept.reset (h : Kept s) : Kept { s with globals := some {} } := by
  refine ⟨h.rows, ?_, ?_, ?_, ?_⟩
  all_goals
    intro g hg
    cases hg
    decide

theorem Kept.initglobal (h : Kept s) : Kept (initglobal s) := by
  cases hg : s.globals with
  | none =>
    have := h.reset
    rwa [Stak.initglobal, hg]
  | some g =>
    refine h.congr (fun r hr => hr) ?_
    rw [Stak.initglobal, hg]
    rfl

theorem Kept.stake (h : Kept s) {now periodsNum : ℕ} {account : Name} {quantity : Asset}
    (hs : stake rule now s account quantity periodsNum = .ok s') : Kept s' := by
  obtain ⟨row, g, hsym, hlo, hhi, hp, -, hamount, hsubsidy, -, -, hg, hlimit, rfl⟩ := stake_ok hs
  have hpart := rule.nonneg quantity.amount periodsNum (by omega) hp
  have hcur := h.current_le g hg
  have hsub := h.subsidy_nonneg g hg
  have howed : row.owed = quantity.amount + rule.part quantity.amount periodsNum := by
    rw [Stake.owed, hamount, hsubsidy]
  have hmax : maxStakeAmount.amount = 1000000000000000 := rfl
  refine ⟨fun r hr => ?_, ?_, ?_, ?_, ?_⟩
  · rcases Table.mem_put.mp hr with rfl | ⟨hr, -⟩
    · exact ⟨by rw [hamount, hsym], by rw [hsubsidy], by rw [hamount]; exact hlo,
        by rw [hamount]; exact hhi, by rw [hsubsidy]; exact hpart⟩
    · exact h.rows r hr
  · intro g' hg'
    cases hg'
    exact h.symbol g hg
  · intro g' hg'
    cases hg'
    show g.currentlyStaked.amount + quantity.amount ≤ g.cumulativeStaked.amount + quantity.amount
    omega
  · intro g' hg'
    cases hg'
    show g.cumulativeStaked.amount + quantity.amount ≤ 1000000000000000
    omega
  · intro g' hg'
    cases hg'
    show 0 ≤ g.cumulativeSubsidy.amount + row.subsidy.amount
    rw [hsubsidy]
    show 0 ≤ g.cumulativeSubsidy.amount + rule.part quantity.amount periodsNum
    omega

theorem Kept.unstake (h : Kept s) {ctx : Ctx} {owner : Name} {t : TransferAction}
    (hs : unstake self ctx s owner = .ok (s', t)) : Kept s' := by
  obtain ⟨-, -, -, rfl⟩ := unstake_ok hs
  have hnonneg := sum_amount_nonneg
    (fun r (hr : r ∈ s.due owner ctx.now) => h.rows r (Table.mem_filter.mp hr).1)
  refine ⟨fun r hr => h.rows r (Table.mem_filter.mp hr).1, ?_, ?_, ?_, ?_⟩
  all_goals
    intro g' hg'
    obtain ⟨g, hg, rfl⟩ := Option.map_eq_some_iff.mp hg'
  · exact h.symbol g hg
  · have hcur := h.current_le g hg
    show g.currentlyStaked.amount - _ ≤ g.cumulativeStaked.amount
    omega
  · exact h.cumulative_le g hg
  · exact h.subsidy_nonneg g hg

/-- **Step lemma**: every entry point keeps rows and totals in order. -/
theorem kept_step (h : Kept s) {c : AnyCall} {out : List Effect}
    (hs : stepAny rule self s c = .ok (s', out)) : Kept s' := by
  cases stepAny_changes hs with
  | same hrows hglobals => exact h.congr (hrows ▸ fun r hr => hr) hglobals
  | initglobal => exact h.initglobal
  | stake hstake => exact h.stake hstake
  | unstake hunstake => exact h.unstake hunstake
  | clearstakes hclears =>
    simp only [clearstakes, bind_eq_ok, pure_eq_ok] at hclears
    obtain ⟨_, -, rfl⟩ := hclears
    exact h.congr (fun r hr => (Table.mem_filter.mp hr).1) rfl
  | clearglobals hclears =>
    simp only [clearglobals, bind_eq_ok, pure_eq_ok] at hclears
    obtain ⟨_, -, rfl⟩ := hclears
    exact h.reset

theorem kept_init : Kept {} :=
  ⟨by simp, nofun, nofun, nofun, nofun⟩

/-- **Run lemma**: they are in order in every state of a run. -/
theorem kept_run (rule : SubsidyRule) (self : Name) (calls : List AnyCall) :
    Kept (run (stepAny rule self) {} calls).1 :=
  run_invariant (fun s _ => Kept s) kept_init (fun _ _ _ _ _ h hs => kept_step h hs) calls

end Kept

/-! ## The loop -/

section Loop

variable {timestamp : ℕ}

/-- There are totals, and the principal of the rows can be taken out of them. -/
def Withdrawable (globals : Option GlobalAmount) (rows : List Stake) : Prop :=
  ∃ g ∈ globals, -Asset.maxAmount ≤
    g.currentlyStaked.amount - (rows.map (fun r => r.amount.amount)).sum

/-- A loop that pays something leaves totals in the range. -/
theorem unstakeLoop_floor : ∀ {l : List Stake} {acc acc' : Asset × State},
    l.foldlM (unstakeRow timestamp) acc = .ok acc' →
      l.filter (Stake.unlocked timestamp) ≠ [] →
      ∃ g ∈ acc'.2.globals, -Asset.maxAmount ≤ g.currentlyStaked.amount
  | [], _, _, _, hne => absurd rfl hne
  | itr :: l, acc, acc', h, hne => by
    obtain ⟨mid, hmid, h⟩ := foldlM_cons_eq_ok.mp h
    by_cases hrest : l.filter (Stake.unlocked timestamp) = []
    · -- this row is the last that is paid
      obtain ⟨-, -, hglobals, -⟩ := unstakeLoop_ok h
      rw [hrest] at hglobals
      have hunlocked : itr.unlocked timestamp = true := by
        by_contra hlocked
        rw [List.filter_cons_of_neg hlocked] at hne
        exact hne hrest
      have hnow : ¬ timestamp < itr.unlockTimestamp := not_lt.mpr (of_decide_eq_true hunlocked)
      rw [unstakeRow, if_neg hnow] at hmid
      simp only [bind_eq_ok, pure_eq_ok] at hmid
      obtain ⟨_, -, _, -, g', hg', rfl⟩ := hmid
      cases hs : acc.2.globals with
      | none =>
        rw [hs] at hg'
        cases hg'
      | some g =>
        rw [hs] at hg'
        simp only [updateGlobals, if_true, bind_eq_ok, Asset.sub_eq_ok, pure_eq_ok] at hg'
        obtain ⟨_, ⟨-, hlo, -, rfl⟩, rfl⟩ := hg'
        refine ⟨_, hglobals, ?_⟩
        show -Asset.maxAmount ≤ g.currentlyStaked.amount - itr.amount.amount - 0
        omega
    · exact unstakeLoop_floor h hrest

/-- An unlocked row that is checked is paid: the three operations on assets stay in the range. -/
theorem unstakeRow_of {itr : Stake} {acc : Asset × State} {g : GlobalAmount} (hitr : itr.WellFormed)
    (hnow : ¬ timestamp < itr.unlockTimestamp) (hsym : acc.1.symbol = vtx)
    (hnonneg : 0 ≤ acc.1.amount) (hsum : acc.1.amount + itr.owed ≤ Asset.maxAmount)
    (hg : acc.2.globals = some g) (hgsym : g.currentlyStaked.symbol = vtx)
    (hgle : g.currentlyStaked.amount ≤ 1000000000000000)
    (hfloor : -Asset.maxAmount ≤ g.currentlyStaked.amount - itr.amount.amount) :
    unstakeRow timestamp acc itr = .ok (⟨acc.1.amount + itr.owed, acc.1.symbol⟩,
      { acc.2 with
        globals := some { g with currentlyStaked :=
          ⟨g.currentlyStaked.amount - itr.amount.amount, g.currentlyStaked.symbol⟩ }
        accountStake := acc.2.accountStake.erase itr.key }) := by
  have hlo := hitr.amount_ge
  have hhi := hitr.amount_le
  have hsub := hitr.subsidy_nonneg
  have hmax := Asset.maxAmount_eq
  have hdef : itr.owed = itr.amount.amount + itr.subsidy.amount := rfl
  have hpaid : itr.amount.add itr.subsidy = .ok ⟨itr.owed, itr.amount.symbol⟩ :=
    Asset.add_eq_ok.mpr ⟨hitr.subsidy_symbol.trans hitr.amount_symbol.symm, by omega, by omega, rfl⟩
  have htotal : acc.1.add ⟨itr.owed, itr.amount.symbol⟩ =
      .ok ⟨acc.1.amount + itr.owed, acc.1.symbol⟩ :=
    Asset.add_eq_ok.mpr ⟨hitr.amount_symbol.trans hsym.symm, by simp only; omega,
      by simp only; omega, rfl⟩
  have hrest : g.currentlyStaked.sub itr.amount =
      .ok ⟨g.currentlyStaked.amount - itr.amount.amount, g.currentlyStaked.symbol⟩ :=
    Asset.sub_eq_ok.mpr ⟨hitr.amount_symbol.trans hgsym.symm, by omega, by omega, rfl⟩
  simp only [unstakeRow, if_neg hnow, hpaid, htotal, hg, updateGlobals, if_true, hrest, ok_bind]
  rfl

/-- A loop over checked rows whose sum and totals stay in the range returns. -/
theorem unstakeLoop_of : ∀ (l : List Stake) (acc : Asset × State), (∀ r ∈ l, r.WellFormed) →
    acc.1.symbol = vtx → 0 ≤ acc.1.amount →
    acc.1.amount + ((l.filter (Stake.unlocked timestamp)).map Stake.owed).sum ≤ Asset.maxAmount →
    (l.filter (Stake.unlocked timestamp) ≠ [] →
      Withdrawable acc.2.globals (l.filter (Stake.unlocked timestamp))) →
    (∀ g ∈ acc.2.globals, g.currentlyStaked.symbol = vtx ∧
      g.currentlyStaked.amount ≤ 1000000000000000) →
    ∃ acc', l.foldlM (unstakeRow timestamp) acc = .ok acc'
  | [], acc, _, _, _, _, _, _ => ⟨acc, rfl⟩
  | itr :: l, acc, hrows, hsym, hnonneg, hsum, hdraw, htotals => by
    have hitr := hrows itr List.mem_cons_self
    have hrest : ∀ r ∈ l, r.WellFormed := fun r hr => hrows r (List.mem_cons_of_mem _ hr)
    by_cases hlocked : timestamp < itr.unlockTimestamp
    · have hfilter : (itr :: l).filter (Stake.unlocked timestamp) =
          l.filter (Stake.unlocked timestamp) :=
        List.filter_cons_of_neg (by simpa [Stake.unlocked] using hlocked)
      rw [hfilter] at hsum hdraw
      obtain ⟨acc', h⟩ := unstakeLoop_of l acc hrest hsym hnonneg hsum hdraw htotals
      refine ⟨acc', foldlM_cons_eq_ok.mpr ⟨acc, ?_, h⟩⟩
      rw [unstakeRow, if_pos hlocked]
    · have hfilter : (itr :: l).filter (Stake.unlocked timestamp) =
          itr :: l.filter (Stake.unlocked timestamp) :=
        List.filter_cons_of_pos (by simpa [Stake.unlocked] using hlocked)
      rw [hfilter] at hsum hdraw
      obtain ⟨g, hg, hfloor⟩ := hdraw (List.cons_ne_nil _ _)
      obtain ⟨hgsym, hgle⟩ := htotals g hg
      rw [List.map_cons, List.sum_cons] at hsum hfloor
      have hpaid : ∀ r ∈ l.filter (Stake.unlocked timestamp), r.WellFormed :=
        fun r hr => hrest r (List.mem_of_mem_filter hr)
      have howed := sum_owed_nonneg hpaid
      have hprincipal := sum_amount_nonneg hpaid
      have hpays : unstakeRow timestamp acc itr = .ok _ := unstakeRow_of hitr hlocked hsym hnonneg
        (by omega) hg hgsym hgle (by omega)
      have hlo := hitr.amount_ge
      have hsub := hitr.subsidy_nonneg
      have hdef : itr.owed = itr.amount.amount + itr.subsidy.amount := rfl
      obtain ⟨acc', h⟩ := unstakeLoop_of l (⟨acc.1.amount + itr.owed, acc.1.symbol⟩,
        { acc.2 with
          globals := some { g with currentlyStaked :=
            ⟨g.currentlyStaked.amount - itr.amount.amount, g.currentlyStaked.symbol⟩ }
          accountStake := acc.2.accountStake.erase itr.key }) hrest hsym
        (by simp only; omega) (by simp only; omega)
        (fun _ => ⟨_, rfl, by simp only; omega⟩)
        (fun g' hg' => by cases hg'; exact ⟨hgsym, by simp only; omega⟩)
      exact ⟨acc', foldlM_cons_eq_ok.mpr ⟨_, hpays, h⟩⟩

/-- `unstake_unlocked` returns exactly when the account is not blacklisted and there are totals to
take the principal from, if any is due. -/
theorem unstakeUnlocked_iff {s : State} (h : Kept s) (self : Name) {owner : Name}
    (hblacklist : s.blacklist.find owner = none)
    (hsum : ((s.due owner timestamp).map Stake.owed).sum ≤ Asset.maxAmount) :
    (∃ r, unstakeUnlocked self s owner timestamp = .ok r) ↔
      (s.due owner timestamp ≠ [] → Withdrawable s.globals (s.due owner timestamp)) := by
  simp only [unstakeUnlocked, checkBlacklist, check_of hblacklist, ok_bind, ← stakesOf_unlocked]
    at hsum ⊢
  constructor
  · rintro ⟨r, hr⟩ hne
    obtain ⟨acc', hloop, -⟩ := bind_eq_ok.mp hr
    obtain ⟨-, -, hglobals, -⟩ := unstakeLoop_ok hloop
    obtain ⟨g', hg', hfloor⟩ := unstakeLoop_floor hloop hne
    rw [hglobals] at hg'
    obtain ⟨g, hg, rfl⟩ := Option.mem_map.mp hg'
    exact ⟨g, hg, hfloor⟩
  · intro hdraw
    have hrows : ∀ r ∈ s.stakesOf owner, r.WellFormed :=
      fun r hr => h.rows r (Table.mem_filter.mp hr).1
    obtain ⟨acc', hloop⟩ := unstakeLoop_of (s.stakesOf owner) (⟨0, vtx⟩, s) hrows rfl le_rfl
      (by rw [zero_add]; exact hsum) hdraw
      (fun g hg => ⟨h.symbol g hg, (h.current_le g hg).trans (h.cumulative_le g hg)⟩)
    refine ⟨(acc'.2, ⟨⟨self, active⟩, self, owner, acc'.1, "unstaking fund"⟩), ?_⟩
    rw [hloop]
    rfl

/-- The owner's authority is enough for an `unstake`. -/
theorem unstake_of_auth (self : Name) (s : State) {ctx : Ctx} {owner : Name}
    (h : hasAuth ctx.auths owner) :
    unstake self ctx s owner = unstakeUnlocked self s owner ctx.now := by
  rw [unstake, check_of (Or.inl h)]
  rfl

end Loop

end VDexNode.Stak

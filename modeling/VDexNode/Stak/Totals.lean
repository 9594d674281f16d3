import VDexNode.Stak.Lock

/-!
# VDexNode.Stak.Totals — the recorded total against the open stakes

`unstake` subtracts the principal of each row it pays from `currently_staked`, and an asset may go
below zero.  `clearstakes` erases rows without the subtraction, which leaves the total too high;
`clearglobals` starts the total at zero again whatever is open, and the rows that stay are
subtracted from it later.

* `Counted` : the total is at least the principal of the open rows.
* `recorded_nonneg` : **it is, and so is never negative, while the totals are only cleared with no
  stake open; and after a clear over open stakes the next that is paid makes it negative.**
-/

namespace VDexNode.Stak

open Eosio

/-! ## The invariant -/

/-- Every open row has been counted. -/
structure Counted (s : State) : Prop where
  positive : ∀ r ∈ s.accountStake.rows, 0 < r.amount.amount
  fresh : s.globals = none → s.accountStake = Table.empty
  covered : ∀ g, s.globals = some g → s.staked ≤ g.currentlyStaked.amount

/-- The totals are cleared, if the call may clear them, with no stake open. -/
def ClearsSettled (self : Name) (s : State) : AnyCall → Prop
  | .clearglobals ctx => hasAuth ctx.auths self → s.accountStake.rows = []
  | _ => True

instance (self : Name) (s : State) (c : AnyCall) : Decidable (ClearsSettled self s c) := by
  unfold ClearsSettled
  split <;> infer_instance

section Counted

variable {rule : SubsidyRule} {self : Name} {s s' : State}

theorem Counted.staked_nonneg (h : Counted s) : 0 ≤ s.staked :=
  Table.sum_nonneg (fun r hr => (h.positive r hr).le)

theorem Counted.congr (h : Counted s) (hrows : s'.accountStake = s.accountStake)
    (hglobals : s'.globals = s.globals) : Counted s' where
  positive := by
    rw [hrows]
    exact h.positive
  fresh hnone := by
    rw [hrows]
    exact h.fresh (hglobals.symm.trans hnone)
  covered g hg := by
    rw [State.staked, hrows]
    exact h.covered g (hglobals.symm.trans hg)

theorem Counted.initglobal (h : Counted s) : Counted (initglobal s) := by
  refine ⟨h.positive, nofun, fun g hg => ?_⟩
  show s.staked ≤ g.currentlyStaked.amount
  cases hs : s.globals with
  | none =>
    rw [Stak.initglobal, hs] at hg
    cases hg
    rw [State.staked, h.fresh hs]
    exact le_refl 0
  | some g' =>
    rw [Stak.initglobal, hs] at hg
    cases hg
    exact h.covered _ hs

/-- A stake adds its quantity to the rows and to the total. -/
theorem Counted.stake (h : Counted s) {now periodsNum : ℕ} {account : Name} {quantity : Asset}
    (hs : stake rule now s account quantity periodsNum = .ok s') : Counted s' := by
  obtain ⟨row, g, -, hlo, -, -, -, hamount, -, -, hnew, hg, -, rfl⟩ := stake_ok hs
  have hcovered := h.covered g hg
  refine ⟨fun r hr => ?_, nofun, fun g' hg' => ?_⟩
  · rcases Table.mem_put.mp hr with rfl | ⟨hr, -⟩
    · rw [hamount]
      omega
    · exact h.positive r hr
  · cases hg'
    show (s.accountStake.put row).sum (fun r => r.amount.amount) ≤
      g.currentlyStaked.amount + quantity.amount
    rw [Table.sum_put_new hnew, hamount]
    rw [State.staked] at hcovered
    omega

/-- An `unstake` takes the principal of the rows it pays out of both. -/
theorem Counted.unstake (h : Counted s) {ctx : Ctx} {owner : Name} {t : TransferAction}
    (hs : unstake self ctx s owner = .ok (s', t)) : Counted s' := by
  obtain ⟨-, -, -, rfl⟩ := unstake_ok hs
  refine ⟨fun r hr => h.positive r (Table.mem_filter.mp hr).1, fun hnone => ?_, fun g' hg' => ?_⟩
  · have hempty := h.fresh (Option.map_eq_none_iff.mp hnone)
    rw [hempty]
    rfl
  · obtain ⟨g, hg, rfl⟩ := Option.map_eq_some_iff.mp hg'
    have hcovered := h.covered g hg
    have hsplit := sum_due s owner ctx.now (fun r => r.amount.amount)
    show (s.accountStake.filter (fun r => !r.due owner ctx.now)).sum (fun r => r.amount.amount) ≤
      g.currentlyStaked.amount - ((s.due owner ctx.now).map (fun r => r.amount.amount)).sum
    rw [State.staked] at hcovered
    omega

/-- `clearstakes` lowers the principal only. -/
theorem Counted.clearstakes (h : Counted s) {ctx : Ctx} {account : Name}
    (hs : clearstakes self ctx s account = .ok s') : Counted s' := by
  simp only [Stak.clearstakes, bind_eq_ok, pure_eq_ok] at hs
  obtain ⟨_, -, rfl⟩ := hs
  refine ⟨fun r hr => h.positive r (Table.mem_filter.mp hr).1, fun hnone => ?_, fun g hg => ?_⟩
  · show s.accountStake.filter _ = Table.empty
    rw [h.fresh hnone]
    rfl
  · have hcovered := h.covered g hg
    have hsplit := s.accountStake.sum_filter_add_not (fun r => decide (r.account ≠ account))
      (fun r => r.amount.amount)
    have hrest : 0 ≤ (s.accountStake.filter (fun r => !decide (r.account ≠ account))).sum
        (fun r => r.amount.amount) :=
      Table.sum_nonneg (fun r hr => (h.positive r (Table.mem_filter.mp hr).1).le)
    show (s.accountStake.filter (fun r => decide (r.account ≠ account))).sum
      (fun r => r.amount.amount) ≤ g.currentlyStaked.amount
    rw [State.staked] at hcovered
    omega

/-- With no stake open, nothing is left uncounted. -/
theorem Counted.clearglobals (hempty : s.accountStake.rows = []) {ctx : Ctx}
    (hs : clearglobals self ctx s = .ok s') : Counted s' := by
  simp only [Stak.clearglobals, bind_eq_ok, pure_eq_ok] at hs
  obtain ⟨_, -, rfl⟩ := hs
  have hrows : ∀ r ∈ s.accountStake.rows, 0 < r.amount.amount := by
    rw [hempty]
    exact nofun
  refine ⟨hrows, nofun, fun g hg => ?_⟩
  cases hg
  show s.accountStake.sum (fun r => r.amount.amount) ≤ 0
  rw [Table.sum, hempty]
  exact le_refl 0

/-- **Step lemma**: every call keeps the rows counted, a clear of the totals with no stake open
included. -/
theorem counted_step (h : Counted s) {c : AnyCall} (hclear : ClearsSettled self s c)
    {out : List Effect} (hs : stepAny rule self s c = .ok (s', out)) : Counted s' := by
  cases stepAny_changes hs with
  | same hrows hglobals => exact h.congr hrows hglobals
  | initglobal => exact h.initglobal
  | stake hstake => exact h.stake hstake
  | unstake hunstake => exact h.unstake hunstake
  | clearstakes hclears => exact h.clearstakes hclears
  | clearglobals hclears =>
    have hauth := hclears
    simp only [Stak.clearglobals, requireAuth, bind_eq_ok, check_eq_ok, exists_const] at hauth
    exact .clearglobals (hclear hauth.1) hclears

/-- After a clear, an `unstake` that pays an open row leaves a negative total. -/
theorem Counted.negative (h : Counted s) {ctx ctx' : Ctx} {owner : Name} {s₁ s₂ : State}
    {t : TransferAction} (hclear : Stak.clearglobals self ctx s = .ok s₁)
    (hunstake : Stak.unstake self ctx' s₁ owner = .ok (s₂, t)) (hdue : s.due owner ctx'.now ≠ []) :
    ∃ g, s₂.globals = some g ∧ g.currentlyStaked.amount < 0 := by
  simp only [Stak.clearglobals, bind_eq_ok, pure_eq_ok] at hclear
  obtain ⟨_, -, rfl⟩ := hclear
  obtain ⟨-, -, -, rfl⟩ := unstake_ok hunstake
  have hpos : 0 < ((s.due owner ctx'.now).map (fun r => r.amount.amount)).sum := by
    refine List.sum_pos _ (fun x hx => ?_) (fun hnil => hdue (List.map_eq_nil_iff.mp hnil))
    obtain ⟨r, hr, rfl⟩ := List.mem_map.mp hx
    exact h.positive r (Table.mem_filter.mp hr).1
  refine ⟨_, rfl, ?_⟩
  show 0 - ((s.due owner ctx'.now).map (fun r => r.amount.amount)).sum < 0
  omega

end Counted

/-! ## Runs of every entry point -/

theorem counted_init : Counted {} where
  positive := by simp
  fresh _ := rfl
  covered g hg := by cases hg

/-- **Run lemma**: the open rows are counted in every state of a run that clears the totals with no
stake open only. -/
theorem counted_run (rule : SubsidyRule) (self : Name) (calls : List AnyCall)
    (hclears : Along (stepAny rule self) (ClearsSettled self) {} calls) :
    Counted (run (stepAny rule self) {} calls).1 :=
  run_invariant_of (fun s _ => Counted s) (ClearsSettled self)
    counted_init (fun _ _ _ _ _ h hclear hs => counted_step h hclear hs) calls hclears

/-- **The recorded total**: in every state of a run that clears the totals with no stake open only,
`currently_staked` is at least the principal of the open stakes and not negative.  Where the totals
are cleared with a stake open, an `unstake` that pays one makes it negative. -/
theorem recorded_nonneg (rule : SubsidyRule) (self : Name) (calls : List AnyCall)
    (hclears : Along (stepAny rule self) (ClearsSettled self) {} calls) :
    let s := (run (stepAny rule self) {} calls).1
    (∀ g, s.globals = some g → s.staked ≤ g.currentlyStaked.amount ∧
      0 ≤ g.currentlyStaked.amount) ∧
    ∀ ctx ctx' owner s₁ s₂ t, clearglobals self ctx s = .ok s₁ →
      unstake self ctx' s₁ owner = .ok (s₂, t) → s.due owner ctx'.now ≠ [] →
        ∃ g, s₂.globals = some g ∧ g.currentlyStaked.amount < 0 := by
  intro s
  have h : Counted s := counted_run rule self calls hclears
  refine ⟨fun g hg => ?_, ?_⟩
  · exact ⟨h.covered g hg, h.staked_nonneg.trans (h.covered g hg)⟩
  · intro ctx ctx' owner s₁ s₂ t hclear hunstake hdue
    exact h.negative hclear hunstake hdue

/-- The totals are cleared between two stakes, the first of them paid back. -/
def clearedBetween : List AnyCall :=
  let owner := Name.ofString "owner"
  let self := Name.ofString "volentixstak"
  let stake (now : ℕ) : AnyCall := .call ⟨⟨[⟨owner, active⟩], now⟩,
    .transfer owner self ⟨100000000000, vtx⟩ "1", true⟩
  [.call ⟨⟨[], 1000⟩, .initglobal, true⟩, stake 1000,
    .call ⟨⟨[⟨owner, active⟩], 2593000⟩, .unstake owner, true⟩,
    .clearglobals ⟨[⟨self, active⟩], 2593001⟩, stake 2593002]

theorem recorded_nonneg_between :
    let s := (run (stepAny .exact (Name.ofString "volentixstak")) {} clearedBetween).1
    (∀ g, s.globals = some g → s.staked ≤ g.currentlyStaked.amount ∧
      0 ≤ g.currentlyStaked.amount) ∧
    ∀ ctx ctx' owner s₁ s₂ t, clearglobals (Name.ofString "volentixstak") ctx s = .ok s₁ →
      unstake (Name.ofString "volentixstak") ctx' s₁ owner = .ok (s₂, t) →
      s.due owner ctx'.now ≠ [] → ∃ g, s₂.globals = some g ∧ g.currentlyStaked.amount < 0 :=
  recorded_nonneg .exact (Name.ofString "volentixstak") clearedBetween (by decide +kernel)

/-- A stake, a clear of the totals, and the stake paid back after a month. -/
def clearedOpen : List AnyCall :=
  let owner := Name.ofString "owner"
  let self := Name.ofString "volentixstak"
  [.call ⟨⟨[], 1000⟩, .initglobal, true⟩,
    .call ⟨⟨[⟨owner, active⟩], 1000⟩, .transfer owner self ⟨100000000000, vtx⟩ "1", true⟩,
    .clearglobals ⟨[⟨self, active⟩], 1001⟩,
    .call ⟨⟨[⟨owner, active⟩], 2593000⟩, .unstake owner, true⟩]

/-- The total ends at the principal of the stake below zero. -/
theorem clearedOpen_negative : ¬ ∀ (rule : SubsidyRule) (self : Name) (calls : List AnyCall),
    ∀ g, (run (stepAny rule self) {} calls).1.globals = some g →
      0 ≤ g.currentlyStaked.amount := by
  intro h
  have hle := h .exact (Name.ofString "volentixstak") clearedOpen
    { currentlyStaked := ⟨-100000000000, vtx⟩ } (by decide +kernel)
  exact absurd hle (by decide)

end VDexNode.Stak

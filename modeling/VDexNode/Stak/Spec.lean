import VDexNode.Stak.Model

/-!
# VDexNode.Stak.Spec — what the functions of `volentixstak` return

One lemma for each function: everything a call that returns has checked, and the state it leaves.
The loop of `unstake_unlocked` erases exactly the unlocked rows of the account, pays their sum and
takes their principal out of `currentlyStaked` (`unstakeLoop_ok`).
-/

namespace VDexNode.Stak

open Eosio

/-! ## Staking -/

theorem checkQuantity_ok {quantity : Asset} {u : Unit} (h : checkQuantity quantity = .ok u) :
    quantity.symbol = vtx ∧ 100000000000 ≤ quantity.amount ∧
      quantity.amount ≤ 1000000000000000 := by
  simp only [checkQuantity, bind_eq_ok, check_eq_ok, exists_const, Asset.le_eq_ok] at h
  obtain ⟨-, -, hsym, b, ⟨-, rfl⟩, hb, c, ⟨-, rfl⟩, hc⟩ := h
  exact ⟨hsym, of_decide_eq_true hb, of_decide_eq_true hc⟩

theorem calculateSubsidy_ok {rule : SubsidyRule} {quantity subsidy : Asset} {periodsNum : ℕ}
    (h : calculateSubsidy rule quantity periodsNum = .ok subsidy) :
    quantity.symbol = vtx ∧ 100000000000 ≤ quantity.amount ∧ quantity.amount ≤ 1000000000000000 ∧
      periodsNum ≤ 10 ∧ subsidy = ⟨rule.part quantity.amount periodsNum, vtx⟩ := by
  simp only [calculateSubsidy, bind_eq_ok, check_eq_ok, exists_const, pure_eq_ok] at h
  obtain ⟨_, hq, hp, h⟩ := h
  obtain ⟨hsym, hlo, hhi⟩ := checkQuantity_ok hq
  exact ⟨hsym, hlo, hhi, hp, h.symm⟩

/-- `update_globals` on staking: the limit is checked and the three totals grow. -/
theorem updateGlobals_stake_ok {globals : Option GlobalAmount} {quantity subsidy : Asset}
    {g' : GlobalAmount} (h : updateGlobals globals quantity subsidy false = .ok g') :
    ∃ g, globals = some g ∧
      g.cumulativeStaked.amount + g.cumulativeSubsidy.amount + quantity.amount + subsidy.amount ≤
        maxStakeAmount.amount ∧
      g' = ⟨⟨g.currentlyStaked.amount + quantity.amount, g.currentlyStaked.symbol⟩,
        ⟨g.cumulativeStaked.amount + quantity.amount, g.cumulativeStaked.symbol⟩,
        ⟨g.cumulativeSubsidy.amount + subsidy.amount, g.cumulativeSubsidy.symbol⟩⟩ := by
  cases globals with
  | none => simp [updateGlobals] at h
  | some g =>
    simp only [updateGlobals, Bool.false_eq_true, if_false, bind_eq_ok, check_eq_ok, exists_const,
      Asset.add_eq_ok, Asset.le_eq_ok, pure_eq_ok] at h
    obtain ⟨t₁, ⟨-, -, -, rfl⟩, t₂, ⟨-, -, -, rfl⟩, t₃, ⟨-, -, -, rfl⟩, b, ⟨-, rfl⟩, hb, a,
      ⟨-, -, -, rfl⟩, c, ⟨-, -, -, rfl⟩, d, ⟨-, -, -, rfl⟩, h⟩ := h
    exact ⟨g, rfl, of_decide_eq_true hb, h.symm⟩

/-- `update_globals` on unstaking: only `currentlyStaked` shrinks. -/
theorem updateGlobals_unstake_ok {globals : Option GlobalAmount} {quantity subsidy : Asset}
    {g' : GlobalAmount} (h : updateGlobals globals quantity subsidy true = .ok g') :
    ∃ g, globals = some g ∧
      g' = { g with currentlyStaked :=
        ⟨g.currentlyStaked.amount - quantity.amount, g.currentlyStaked.symbol⟩ } := by
  cases globals with
  | none => simp [updateGlobals] at h
  | some g =>
    simp only [updateGlobals, if_true, bind_eq_ok, Asset.sub_eq_ok, pure_eq_ok] at h
    obtain ⟨a, ⟨-, -, -, rfl⟩, h⟩ := h
    exact ⟨g, rfl, h.symm⟩

/-- A stake that goes through: one new row for the account, and the totals with it. -/
theorem stake_ok {rule : SubsidyRule} {now : ℕ} {s s' : State} {account : Name} {quantity : Asset}
    {periodsNum : ℕ} (h : stake rule now s account quantity periodsNum = .ok s') :
    ∃ (row : Stake) (g : GlobalAmount),
      quantity.symbol = vtx ∧ 100000000000 ≤ quantity.amount ∧
      quantity.amount ≤ 1000000000000000 ∧ periodsNum ≤ 10 ∧
      row.account = account ∧ row.amount = quantity ∧
      row.subsidy = ⟨rule.part quantity.amount periodsNum, vtx⟩ ∧
      row.unlockTimestamp = (now + periodsNum * stakePeriod) % 2 ^ 32 ∧
      s.accountStake.find row.key = none ∧ s.globals = some g ∧
      g.cumulativeStaked.amount + g.cumulativeSubsidy.amount + row.owed ≤ maxStakeAmount.amount ∧
      s' = { s with
        accountStake := s.accountStake.put row
        globals := some
          ⟨⟨g.currentlyStaked.amount + quantity.amount, g.currentlyStaked.symbol⟩,
          ⟨g.cumulativeStaked.amount + quantity.amount, g.cumulativeStaked.symbol⟩,
          ⟨g.cumulativeSubsidy.amount + row.subsidy.amount, g.cumulativeSubsidy.symbol⟩⟩ } := by
  simp only [stake, bind_eq_ok, Table.emplace_eq_ok, pure_eq_ok] at h
  obtain ⟨subsidy, hsub, rowId, -, t, ⟨hnew, rfl⟩, g', hg, h⟩ := h
  obtain ⟨hsym, hlo, hhi, hp, rfl⟩ := calculateSubsidy_ok hsub
  obtain ⟨g, hsome, hlimit, rfl⟩ := updateGlobals_stake_ok hg
  refine ⟨⟨account, rowId, quantity, _, _⟩, g, hsym, hlo, hhi, hp, rfl, rfl, rfl, rfl, hnew, hsome,
    ?_, h.symm⟩
  simpa [Stake.owed, add_assoc] using hlimit

/-- A notification either is none of the contract's business or opens a stake for its sender. -/
theorem onTransfer_ok {rule : SubsidyRule} {self : Name} {now : ℕ} {s s' : State}
    {sender recipient : Name} {quantity : Asset} {memo : String}
    (h : onTransfer rule self now s sender recipient quantity memo = .ok s') :
    ((sender = self ∨ recipient ≠ self ∨ sender = tokenAcc) ∧ s' = s) ∨
      (sender ≠ self ∧ recipient = self ∧ sender ≠ tokenAcc ∧ ∃ n, stoi memo = .ok n ∧
        stake rule now s sender quantity (toUInt16 n) = .ok s') := by
  unfold onTransfer at h
  split_ifs at h with hc
  · exact Or.inl ⟨hc, by cases h; rfl⟩
  · rw [bind_eq_ok] at h
    push Not at hc
    exact Or.inr ⟨hc.1, hc.2.1, hc.2.2, h⟩

/-! ## Unstaking -/

/-- A row `unstake` pays at the given time. -/
def Stake.unlocked (timestamp : ℕ) (r : Stake) : Bool := decide (r.unlockTimestamp ≤ timestamp)

/-- The totals once the principal of the rows `l` has been taken out. -/
def withdrawn (l : List Stake) (g : GlobalAmount) : GlobalAmount :=
  { g with currentlyStaked :=
    ⟨g.currentlyStaked.amount - (l.map (fun r => r.amount.amount)).sum, g.currentlyStaked.symbol⟩ }

theorem withdrawn_nil (g : GlobalAmount) : withdrawn [] g = g := by
  simp [withdrawn]

theorem withdrawn_cons (r : Stake) (l : List Stake) (g : GlobalAmount) :
    withdrawn (r :: l) g = withdrawn l { g with currentlyStaked :=
      ⟨g.currentlyStaked.amount - r.amount.amount, g.currentlyStaked.symbol⟩ } := by
  simp [withdrawn, sub_sub]

/-- One turn of the loop skips a locked row and pays an unlocked one. -/
theorem unstakeRow_ok {timestamp : ℕ} {acc acc' : Asset × State} {itr : Stake}
    (h : unstakeRow timestamp acc itr = .ok acc') :
    (itr.unlocked timestamp = false ∧ acc' = acc) ∨
      (itr.unlocked timestamp = true ∧ ∃ g, acc.2.globals = some g ∧
        acc' = (⟨acc.1.amount + itr.owed, acc.1.symbol⟩,
          { acc.2 with
            globals := some { g with currentlyStaked :=
              ⟨g.currentlyStaked.amount - itr.amount.amount, g.currentlyStaked.symbol⟩ }
            accountStake := acc.2.accountStake.erase itr.key })) := by
  unfold unstakeRow at h
  split_ifs at h with ht
  · refine Or.inl ⟨?_, by cases h; rfl⟩
    simpa [Stake.unlocked] using ht
  · simp only [bind_eq_ok, Asset.add_eq_ok, pure_eq_ok] at h
    obtain ⟨o, ⟨-, -, -, rfl⟩, a, ⟨-, -, -, rfl⟩, g', hg, h⟩ := h
    obtain ⟨g, hsome, rfl⟩ := updateGlobals_unstake_ok hg
    refine Or.inr ⟨?_, g, hsome, h.symm⟩
    simpa [Stake.unlocked] using ht

/-- The whole loop over the rows `l`. -/
theorem unstakeLoop_ok {timestamp : ℕ} : ∀ {l : List Stake} {acc acc' : Asset × State},
    l.foldlM (unstakeRow timestamp) acc = .ok acc' →
      acc'.1 = ⟨acc.1.amount + ((l.filter (Stake.unlocked timestamp)).map Stake.owed).sum,
        acc.1.symbol⟩ ∧
      acc'.2.blacklist = acc.2.blacklist ∧
      acc'.2.globals = acc.2.globals.map (withdrawn (l.filter (Stake.unlocked timestamp))) ∧
      acc'.2.accountStake = acc.2.accountStake.filter
        (fun r => decide (∀ x ∈ l.filter (Stake.unlocked timestamp), r.key ≠ x.key))
  | [], acc, acc', h => by
    cases h
    refine ⟨by simp, rfl, ?_, ?_⟩
    · cases acc.2.globals <;> simp [withdrawn_nil]
    · ext1
      simp [Table.filter]
  | itr :: l, acc, acc', h => by
    obtain ⟨mid, hmid, h⟩ := foldlM_cons_eq_ok.mp h
    obtain ⟨h1, h2, h3, h4⟩ := unstakeLoop_ok h
    rcases unstakeRow_ok hmid with ⟨hl, rfl⟩ | ⟨hl, g, hg, rfl⟩
    · rw [List.filter_cons_of_neg (by simp [hl])]
      exact ⟨h1, h2, h3, h4⟩
    · rw [List.filter_cons_of_pos hl]
      refine ⟨?_, h2, ?_, ?_⟩
      · rw [h1]
        simp [add_assoc]
      · rw [h3, hg]
        simp [withdrawn_cons]
      · rw [h4]
        ext1
        simp only [Table.filter, Table.erase, List.filter_filter]
        refine List.filter_congr (fun r _ => ?_)
        simp [Bool.and_comm]

/-- A row that `unstake` of `owner` pays at the given time. -/
def Stake.due (owner : Name) (timestamp : ℕ) (r : Stake) : Bool :=
  decide (r.account = owner) && r.unlocked timestamp

theorem Stake.due_iff {owner : Name} {timestamp : ℕ} {r : Stake} :
    r.due owner timestamp = true ↔ r.account = owner ∧ r.unlockTimestamp ≤ timestamp := by
  simp [Stake.due, Stake.unlocked]

/-- The rows `unstake` of `owner` pays at the given time. -/
def State.due (s : State) (owner : Name) (timestamp : ℕ) : List Stake :=
  (s.accountStake.filter (Stake.due owner timestamp)).rows

/-- A total over all rows splits into the rows an `unstake` leaves and those it pays. -/
theorem sum_due (s : State) (owner : Name) (timestamp : ℕ) (f : Stake → ℤ) :
    (s.accountStake.filter (fun r => !r.due owner timestamp)).sum f +
      ((s.due owner timestamp).map f).sum = s.accountStake.sum f := by
  rw [← s.accountStake.sum_filter_add_not (Stake.due owner timestamp) f, add_comm]
  rfl

theorem stakesOf_unlocked (s : State) (owner : Name) (timestamp : ℕ) :
    (s.stakesOf owner).filter (Stake.unlocked timestamp) = s.due owner timestamp := by
  simp only [State.stakesOf, State.due, Table.filter, List.filter_filter]
  exact List.filter_congr (fun r _ => by rw [Stake.due, Bool.and_comm])

/-- Erasing the due rows one by one is filtering them out. -/
theorem filter_ne_due (s : State) (owner : Name) (timestamp : ℕ) :
    s.accountStake.filter (fun r => decide (∀ x ∈ s.due owner timestamp, r.key ≠ x.key)) =
      s.accountStake.filter (fun r => !r.due owner timestamp) := by
  ext1
  refine List.filter_congr (fun r hr => ?_)
  rw [Bool.eq_iff_iff, decide_eq_true_eq, Bool.not_eq_true']
  constructor
  · intro hne
    by_contra hc
    exact hne r (Table.mem_filter.mpr ⟨hr, by simpa using hc⟩) rfl
  · intro hnot x hx hk
    obtain ⟨hx, hdue⟩ := Table.mem_filter.mp hx
    rw [← s.accountStake.key_injOn hr hx hk, hnot] at hdue
    cases hdue

/-- `unstake` goes through: the due rows of the owner are paid in one transfer and erased. -/
theorem unstake_ok {self : Name} {ctx : Ctx} {s s' : State} {owner : Name} {t : TransferAction}
    (h : unstake self ctx s owner = .ok (s', t)) :
    (hasAuth ctx.auths owner ∨ hasAuth ctx.auths self) ∧ s.blacklist.find owner = none ∧
      t = ⟨⟨self, active⟩, self, owner, ⟨((s.due owner ctx.now).map Stake.owed).sum, vtx⟩,
        "unstaking fund"⟩ ∧
      s' = { s with
        accountStake := s.accountStake.filter (fun r => !r.due owner ctx.now)
        globals := s.globals.map (withdrawn (s.due owner ctx.now)) } := by
  simp only [unstake, unstakeUnlocked, checkBlacklist, bind_eq_ok, check_eq_ok, exists_const] at h
  obtain ⟨hauth, hbl, ⟨a, s₁⟩, hloop, h⟩ := h
  obtain ⟨h1, h2, h3, h4⟩ := unstakeLoop_ok hloop
  rw [stakesOf_unlocked] at h1 h3 h4
  rw [filter_ne_due] at h4
  cases h
  refine ⟨hauth, hbl, ?_, ?_⟩
  · simp only at h1
    rw [h1, zero_add]
  · obtain ⟨accountStake, globals, blacklist⟩ := s₁
    simp only at h2 h3 h4
    rw [h2, h3, h4]

/-! ## Administration -/

/-- The blacklist actions touch neither the rows nor the totals. -/
theorem addblacklist_ok {self : Name} {ctx : Ctx} {s s' : State} {account : Name}
    (h : addblacklist self ctx s account = .ok s') :
    s'.accountStake = s.accountStake ∧ s'.globals = s.globals := by
  simp only [addblacklist, bind_eq_ok] at h
  obtain ⟨_, -, h⟩ := h
  split_ifs at h
  · simp only [bind_eq_ok, pure_eq_ok] at h
    obtain ⟨_, -, rfl⟩ := h
    exact ⟨rfl, rfl⟩
  · cases h
    exact ⟨rfl, rfl⟩

theorem rmblacklist_ok {self : Name} {ctx : Ctx} {s s' : State} {account : Name}
    (h : rmblacklist self ctx s account = .ok s') :
    s'.accountStake = s.accountStake ∧ s'.globals = s.globals := by
  simp only [rmblacklist, bind_eq_ok] at h
  obtain ⟨_, -, h⟩ := h
  split_ifs at h
  · cases h
    exact ⟨rfl, rfl⟩
  · cases h
    exact ⟨rfl, rfl⟩

/-! ## What other contracts read -/

/-- The total `get_staked_amount` adds up. -/
def State.stakedOf (s : State) (account : Name) : ℤ :=
  (s.accountStake.filter (fun r => decide (r.account = account))).sum (fun r => r.amount.amount)

theorem getStakedAmount_ok {s : State} {account : Name} {staked : Asset}
    (h : getStakedAmount s account = .ok staked) : staked.amount = s.stakedOf account := by
  have hloop : ∀ (l : List Stake) (a b : Asset),
      l.foldlM (fun stakedAmount itr => stakedAmount.add itr.amount) a = .ok b →
        b.amount = a.amount + (l.map (fun r => r.amount.amount)).sum := by
    intro l
    induction l with
    | nil =>
      intro a b h
      cases h
      simp
    | cons itr l ih =>
      intro a b h
      obtain ⟨c, hc, h⟩ := foldlM_cons_eq_ok.mp h
      obtain ⟨-, -, -, rfl⟩ := Asset.add_eq_ok.mp hc
      rw [ih _ _ h, List.map_cons, List.sum_cons, add_assoc]
  have hsum := hloop _ _ _ h
  rw [zero_add] at hsum
  exact hsum

end VDexNode.Stak

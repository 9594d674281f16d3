import Mathlib.Algebra.Order.BigOperators.Group.List
import VDexNode.Distribut.Blacklist
import VDexNode.Token.Spec

/-!
# VDexNode.Distribut.Collect — which rewards can be collected

`setrewardrule` stores the amounts of a rule unchecked, `calcrewards` credits them to every
producer, and a payment is a token transfer, which aborts the action it is part of when the amount
is not positive, not in VTX,8, or the node is the contract itself.

* `settles` : what the token contract makes of the transfers of one action.
* `CreditsPayable` : what a call credits can be paid.
* `rewards_collectable` : **with the balance that covers them, rewards are collected exactly when
  they can be paid.**
-/

namespace VDexNode.Distribut

open Eosio

/-! ## Payments -/

/-- The transfers of one action in order, with the VTX balance they are paid from: each is positive,
in VTX,8, to another account, and not above what is left. -/
def settles : ℤ → List TransferAction → Bool
  | _, [] => true
  | balance, t :: ts =>
    decide (0 < t.quantity.amount ∧ t.quantity.symbol = Stak.vtx ∧ t.recipient ≠ t.sender ∧
      t.quantity.amount ≤ balance) && settles (balance - t.quantity.amount) ts

/-- Transfers of `self` that the token contract carries out, VTX,8 its only currency, settle. -/
theorem settles_of_transfers {self : Name} {env : Token.Env} : ∀ {ts : List TransferAction}
    {s s' : Token.State}, (∀ st ∈ s.stats.rows, st.supply.symbol = Stak.vtx) →
      (∀ t ∈ ts, t.sender = self) → ts.foldlM (Token.runInline env) s = .ok s' →
      settles (s.balance self Stak.vtx.code) ts = true
  | [], _, _, _, _, _ => rfl
  | t :: ts, s, s', hvtx, hself, h => by
    obtain ⟨s₁, ht, h⟩ := foldlM_cons_eq_ok.mp h
    have hsender : t.sender = self := hself t List.mem_cons_self
    obtain ⟨-, hne, -, -, hpos, ⟨st, hst, hsym⟩, s₂, hsub, hadd⟩ := Token.transfer_ok ht
    have hbal := Token.transfer_balance ht self Stak.vtx.code
    rw [hvtx st (Table.find_mem hst)] at hsym
    obtain ⟨row, hrow, hle, -, hs₂⟩ := Token.subBalance_ok hsub
    obtain ⟨-, hs₁⟩ := Token.addBalance_ok hadd
    have hstats : s₁.stats = s.stats := by rw [hs₁, hs₂]
    rw [hsym, hsender] at hrow
    rw [hsym, hsender, if_pos ⟨rfl, rfl⟩,
      if_neg (fun he => hne (hsender.trans he.1)), add_zero] at hbal
    have hrest := settles_of_transfers (hstats ▸ hvtx)
      (fun t ht => hself t (List.mem_cons_of_mem _ ht)) h
    have hhead : s.balance self Stak.vtx.code = row.balance.amount := by
      rw [Token.State.balance, hrow]
      rfl
    rw [settles, ← hbal, hrest, Bool.and_true]
    exact decide_eq_true ⟨hpos, hsym, hne.symm, by omega⟩

/-- The row can be paid by `self`. -/
def NodeReward.Payable (self : Name) (r : NodeReward) : Prop :=
  0 < r.amount.amount ∧ r.amount.symbol = Stak.vtx ∧ r.node ≠ self

instance (self : Name) (r : NodeReward) : Decidable (r.Payable self) :=
  inferInstanceAs (Decidable (_ ∧ _ ∧ _))

/-- What a row takes out of the VTX balance when it is paid. -/
def NodeReward.due (r : NodeReward) : ℤ :=
  if r.amount.symbol = Stak.vtx then max r.amount.amount 0 else 0

/-- The balance covers the rows. -/
def Covers (balance : ℤ) (rows : List NodeReward) : Prop :=
  (rows.map NodeReward.due).sum ≤ balance

instance (balance : ℤ) (rows : List NodeReward) : Decidable (Covers balance rows) :=
  inferInstanceAs (Decidable (_ ≤ _))

section Payments

variable {self : Name} {balance : ℤ} {rows rows' : List NodeReward}

theorem NodeReward.due_nonneg (r : NodeReward) : 0 ≤ r.due := by
  unfold NodeReward.due
  split_ifs
  · exact le_max_right _ _
  · exact le_rfl

theorem NodeReward.Payable.due {r : NodeReward} (h : r.Payable self) : r.due = r.amount.amount := by
  rw [NodeReward.due, if_pos h.2.1, max_eq_left h.1.le]

/-- A balance that covers rows covers any of them. -/
theorem Covers.of_subperm (h : Covers balance rows) (hsub : List.Subperm rows' rows) :
    Covers balance rows' := by
  obtain ⟨mid, hperm, hmid⟩ := hsub
  have hsum : (rows'.map NodeReward.due).sum = (mid.map NodeReward.due).sum :=
    (hperm.map NodeReward.due).sum_eq.symm
  have hle : (mid.map NodeReward.due).sum ≤ (rows.map NodeReward.due).sum := by
    refine (hmid.map NodeReward.due).sum_le_sum ?_
    rw [List.forall_mem_map]
    exact fun r _ => r.due_nonneg
  show (rows'.map NodeReward.due).sum ≤ balance
  rw [hsum]
  exact hle.trans h

/-- Rows that are covered are paid exactly when each can be. -/
theorem settles_iff (h : Covers balance rows) :
    settles balance (rows.map (NodeReward.payment self)) = true ↔ ∀ r ∈ rows, r.Payable self := by
  induction rows generalizing balance with
  | nil => simp [settles]
  | cons r rows ih =>
    have hsum : r.due + (rows.map NodeReward.due).sum ≤ balance := by
      simpa [Covers] using h
    have hrest : 0 ≤ (rows.map NodeReward.due).sum := by
      apply List.sum_nonneg
      rw [List.forall_mem_map]
      exact fun r' _ => r'.due_nonneg
    rw [List.map_cons, settles, Bool.and_eq_true, decide_eq_true_iff, List.forall_mem_cons]
    show (0 < r.amount.amount ∧ r.amount.symbol = Stak.vtx ∧ r.node ≠ self ∧
      r.amount.amount ≤ balance) ∧ settles (balance - r.amount.amount) _ = true ↔ _
    constructor
    · rintro ⟨⟨hpos, hsym, hne, -⟩, hset⟩
      have hpay : r.Payable self := ⟨hpos, hsym, hne⟩
      rw [hpay.due] at hsum
      exact ⟨hpay, (ih (by show _ ≤ _; omega)).mp hset⟩
    · rintro ⟨hpay, hall⟩
      have hdue := hpay.due
      obtain ⟨hpos, hsym, hne⟩ := hpay
      exact ⟨⟨hpos, hsym, hne, by omega⟩, (ih (by show _ ≤ _; omega)).mpr hall⟩

end Payments

/-! ## Calls -/

section Calls

variable {D : Type} [Field D] [LinearOrder D] {self : Name} {s s' : State} {env : Env D}

/-- Every producer is another account, and the rule gives at its rank a positive amount of VTX,8. -/
def RewardInfo.PaysAll (self : Name) (rule : RewardInfo) (v : Vote.State D) : Prop :=
  ∀ p ∈ v.producers.rows, 0 < (rule.amountAt (Vote.getRank v p.owner)).amount ∧
    (rule.amountAt (Vote.getRank v p.owner)).symbol = Stak.vtx ∧ p.owner ≠ self

/-- If the call credits rewards, it credits such as can be paid. -/
def CreditsPayable (self : Name) (s : State) (call : Env D × Action) : Prop :=
  match call.2 with
  | .calcrewards _ _ => ∀ rule ∈ s.rewards.find 2, rule.PaysAll self call.1.voting
  | .uptime _ _ _ => ∀ rule ∈ s.rewards.find 2, rule.PaysAll self call.1.voting
  | _ => True

/-- The credits of one calculation can be paid exactly when the rule pays every producer. -/
theorem forall_credits_payable {account : Name} {jobId : ℕ} {credits : List Credit}
    {rule : RewardInfo} (h : calcrewards env s account jobId = .ok (s', credits))
    (hrule : s.rewards.find 2 = some rule) :
    (∀ c ∈ credits, c.row.Payable self) ↔ rule.PaysAll self env.voting := by
  obtain ⟨_, -, -, -, -, hcredited, -⟩ := calcrewards_ok account h
  have hamounts := calcrewards_amounts h hrule
  have hpay : ∀ c ∈ credits, (c.row.Payable self ↔
      0 < (rule.amountAt (Vote.getRank env.voting c.row.node)).amount ∧
      (rule.amountAt (Vote.getRank env.voting c.row.node)).symbol = Stak.vtx ∧
      c.row.node ≠ self) := by
    intro c hc
    rw [NodeReward.Payable, hamounts c hc]
  constructor
  · intro hall p hp
    obtain ⟨c, hc, hnode⟩ := hcredited.mem hp
    rw [← hnode]
    exact (hpay c hc).mp (hall c hc)
  · intro hall c hc
    obtain ⟨p, hp, hnode⟩ := hcredited.producer hc
    rw [hpay c hc, hnode]
    exact hall p hp

/-- **Step lemma**: what is pending stays payable. -/
theorem payable_perform (hs : ∀ r ∈ s.nodeReward.rows, r.Payable self) {action : Action}
    {receipt : Receipt} (hc : CreditsPayable self s (env, action))
    (h : perform self s env action = .ok (s', receipt)) :
    ∀ r ∈ s'.nodeReward.rows, r.Payable self := by
  have hcredits : ∀ c ∈ receipt.credits, c.row.Payable self := by
    cases action with
    | calcrewards account jobId =>
      obtain ⟨hcalc, -⟩ := perform_calcrewards h
      obtain ⟨rule, hrule, -⟩ := calcrewards_ok self hcalc
      exact (forall_credits_payable hcalc hrule).mpr (hc rule hrule)
    | uptime account nodeId memo =>
      obtain ⟨s₁, s₂, credits₁, credits₂, h₁, h₂, hcredits, -⟩ := uptime_ok (perform_uptime h)
      obtain ⟨rule, hrule, -, hrewards, -⟩ := calcrewards_ok self h₁
      simp only at hcredits hrewards
      have hrule₁ : s₁.rewards.find 2 = some rule := by rw [hrewards, hrule]
      rw [hcredits, List.forall_mem_append]
      exact ⟨(forall_credits_payable h₁ hrule).mpr (hc rule hrule),
        (forall_credits_payable h₂ hrule₁).mpr (hc rule hrule)⟩
    | getreward node =>
      cases h
      simp
    | _ =>
      obtain ⟨rfl, -, -⟩ := perform_still rfl h
      simp
  obtain ⟨removed, -, hperm⟩ := moves_perform h
  intro r hr
  have hmem := hperm.mem_iff.mp (List.mem_append_left removed hr)
  rcases List.mem_append.mp hmem with hmem | hmem
  · obtain ⟨c, hc, rfl⟩ := List.mem_map.mp hmem
    exact hcredits c hc
  · exact hs r hmem

/-- **Run lemma**: where all calls credit payable rewards, all that is pending is payable. -/
theorem payable_run {calls : List (Env D × Action)}
    (hc : Along (step self) (CreditsPayable self) {} calls) :
    ∀ r ∈ (run (step self) {} calls).1.nodeReward.rows, r.Payable self := by
  refine run_invariant_of (fun s _ => ∀ r ∈ s.nodeReward.rows, r.Payable self) _ (by simp) ?_
    calls hc
  rintro s log ⟨env, action⟩ s' out hs hc h
  obtain ⟨receipt, hp, -⟩ := step_ok h
  exact payable_perform hs hc hp

/-- A `getreward` goes through exactly when the rows of its node can be paid. -/
theorem getreward_settles {balance : ℤ} (h : Covers balance s.nodeReward.rows) (node : Name) :
    settles balance (getreward self s node).2 = true ↔ ∀ r ∈ s.rewardsOf node, r.Payable self := by
  rw [getreward_eq]
  exact settles_iff (h.of_subperm (List.Sublist.subperm List.filter_sublist))

omit [Field D] [LinearOrder D] in
/-- The rows `uptime` pays are no more than all rows. -/
theorem rewardsOfAll_subperm (s : State) (v : Vote.State D) :
    List.Subperm (s.rewardsOfAll v.producers.rows) s.nodeReward.rows := by
  have hnodup : (s.rewardsOfAll v.producers.rows).Nodup := by
    refine List.nodup_flatMap.mpr ⟨fun p _ => Table.nodup_rows _, ?_⟩
    refine (List.pairwise_map.mp v.producers.nodup_keys).imp ?_
    intro p q hne r hr hr'
    exact hne ((mem_rewardsOf.mp hr).2.symm.trans (mem_rewardsOf.mp hr').2)
  exact hnodup.subperm (fun r hr => (mem_rewardsOfAll.mp hr).1)

/-- An `uptime` whose own checks pass goes through exactly when what is pending for the producers
and what it credits can be paid. -/
theorem uptime_settles {account : Name} {nodeId memo : String}
    {r : State × List Credit × List TransferAction} {balance : ℤ}
    (h : uptime self env s account nodeId memo = .ok r)
    (hcov : Covers balance (r.2.1.map Credit.row ++ s.nodeReward.rows)) :
    settles balance r.2.2 = true ↔
      (∀ row ∈ s.rewardsOfAll env.voting.producers.rows, row.Payable self) ∧
      CreditsPayable self s (env, .uptime account nodeId memo) := by
  obtain ⟨s₁, s₂, credits₁, credits₂, h₁, h₂, hcredits, -, -, hpaid⟩ := uptime_ok h
  obtain ⟨rule, hrule, -, hrewards, -, hcredited₁, hmove₁⟩ := calcrewards_ok self h₁
  obtain ⟨-, -, -, -, -, hcredited₂, hmove₂⟩ := calcrewards_ok self h₂
  simp only at hrewards
  have hrule₁ : s₁.rewards.find 2 = some rule := by rw [hrewards, hrule]
  have hmove := hmove₁.trans hmove₂
  have hrows : s₂.nodeReward.rows.Perm (r.2.1.map Credit.row ++ s.nodeReward.rows) := by
    obtain ⟨removed, hnil, hperm⟩ := hmove
    rw [List.map_eq_nil_iff.mp hnil.symm, List.append_nil] at hperm
    rw [hcredits]
    exact hperm
  have hcov₂ : Covers balance (s₂.rewardsOfAll env.voting.producers.rows) :=
    hcov.of_subperm ((rewardsOfAll_subperm s₂ env.voting).trans hrows.subperm)
  have hmem : ∀ row, row ∈ s₂.nodeReward.rows ↔ row ∈ credits₁.map Credit.row ∨
      row ∈ credits₂.map Credit.row ∨ row ∈ s.nodeReward.rows := by
    intro row
    rw [hrows.mem_iff, hcredits, List.map_append, List.append_assoc, List.mem_append,
      List.mem_append]
  rw [hpaid, settles_iff hcov₂]
  constructor
  · intro hall
    refine ⟨fun row hrow => ?_, ?_⟩
    · obtain ⟨hrow, hnode⟩ := mem_rewardsOfAll.mp hrow
      exact hall row (mem_rewardsOfAll.mpr ⟨(hmem row).mpr (Or.inr (Or.inr hrow)), hnode⟩)
    · -- the credits of job 1 are among the rows that are paid
      intro rule' hrule'
      rw [hrule] at hrule'
      cases hrule'
      refine (forall_credits_payable h₁ hrule).mp (fun c hc => ?_)
      have hrow := (hmem c.row).mpr (Or.inl (List.mem_map_of_mem hc))
      exact hall c.row (mem_rewardsOfAll.mpr ⟨hrow, hcredited₁.producer hc⟩)
  · rintro ⟨hold, hnew⟩ row hrow
    have hpays := hnew rule hrule
    obtain ⟨hrow, hnode⟩ := mem_rewardsOfAll.mp hrow
    rcases (hmem row).mp hrow with hrow | hrow | hrow
    · obtain ⟨c, hc, rfl⟩ := List.mem_map.mp hrow
      exact (forall_credits_payable h₁ hrule).mpr hpays c hc
    · obtain ⟨c, hc, rfl⟩ := List.mem_map.mp hrow
      exact (forall_credits_payable h₂ hrule₁).mpr hpays c hc
    · exact hold row (mem_rewardsOfAll.mpr ⟨hrow, hnode⟩)

/-- **Collection**: take a state a run reaches and a balance that covers what is pending.  Where all
calls of the run have credited payable rewards, every `getreward` goes through, and so does every
`uptime` whose own checks pass and which credits payable rewards itself.  In any case a `getreward`
goes through exactly when the rows of its node can be paid, and such an `uptime` exactly when the
rows of all producers and what it credits can be. -/
theorem rewards_collectable (self : Name) (calls : List (Env D × Action)) :
    let s := (run (step self) {} calls).1
    (Along (step self) (CreditsPayable self) {} calls →
      (∀ node balance, Covers balance s.nodeReward.rows →
        settles balance (getreward self s node).2 = true) ∧
      ∀ (env : Env D) account nodeId memo r balance,
        uptime self env s account nodeId memo = .ok r →
        Covers balance (r.2.1.map Credit.row ++ s.nodeReward.rows) →
        CreditsPayable self s (env, .uptime account nodeId memo) → settles balance r.2.2 = true) ∧
    (∀ node balance, Covers balance s.nodeReward.rows →
      (settles balance (getreward self s node).2 = true ↔
        ∀ r ∈ s.rewardsOf node, r.Payable self)) ∧
    ∀ (env : Env D) account nodeId memo r balance,
      uptime self env s account nodeId memo = .ok r →
      Covers balance (r.2.1.map Credit.row ++ s.nodeReward.rows) →
      (settles balance r.2.2 = true ↔
        (∀ row ∈ s.rewardsOfAll env.voting.producers.rows, row.Payable self) ∧
        CreditsPayable self s (env, .uptime account nodeId memo)) := by
  intro s
  refine ⟨fun hc => ⟨?_, ?_⟩, fun node balance h => getreward_settles h node, ?_⟩
  · intro node balance h
    refine (getreward_settles h node).mpr (fun r hr => ?_)
    exact payable_run hc r (mem_rewardsOf.mp hr).1
  · intro env account nodeId memo r balance h hcov hnew
    refine (uptime_settles h hcov).mpr ⟨fun row hrow => ?_, hnew⟩
    exact payable_run hc row (mem_rewardsOfAll.mp hrow).1
  · intro env account nodeId memo r balance h hcov
    exact uptime_settles h hcov

/-- A standby amount of zero leaves a producer a row that cannot be collected. -/
theorem emptyReward_stuck : ¬ ∀ (self : Name) (calls : List (Env ℚ × Action)) (env : Env ℚ)
    (node : Name) (balance : ℤ), env.voting.producers.find node ≠ none →
    Covers balance (run (step self) {} calls).1.nodeReward.rows →
    settles balance (getreward self (run (step self) {} calls).1 node).2 = true := by
  intro h
  let node := Name.ofString "node"
  exact absurd (h (Name.ofString "vtxdistribut")
    [({ onlyProducer 1000 with auths := [⟨treasury, active⟩] },
        .setrewardrule ⟨2, 86400, ⟨500, Stak.vtx⟩, ⟨0, Stak.vtx⟩, 0, 3, "", ""⟩),
      (onlyProducer 1000, .calcrewards node 2)] (onlyProducer 1000) node 1000000
    (by decide +kernel) (by decide +kernel)) (by decide +kernel)

end Calls

end VDexNode.Distribut

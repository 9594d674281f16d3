import Mathlib.Algebra.Order.Group.Multiset
import Mathlib.Tactic.NormNum
import VDexNode.Stak.Spec

/-!
# VDexNode.Stak.Ledger — conservation over whole runs of `volentixstak`

A run is any list of `initglobal`, transfer notifications, `unstake`, `addblacklist` and
`rmblacklist`.  Every call that goes through leaves a `Receipt`: the rows it added, the rows it
removed and the transfers it sent.

* `Receipt.Honest`: a row is added for the account whose tokens were transferred, and rows are
  removed only by an `unstake` of their account that pays exactly their sum, each one unlocked.
* `Books`: the totals of `globals` against the live rows and the transfers sent, and every row ever
  added either live or removed, once.  Every call keeps it (`books_step`).
* `inRange_perform`: from a state with its books in order no call leaves the asset range.
-/

namespace VDexNode.Stak

open Eosio

/-! ## Runs -/

/-- The entry points of the contract, its two administrative resets apart. -/
inductive Action where
  | initglobal
  | transfer (sender recipient : Name) (quantity : Asset) (memo : String)
  | unstake (owner : Name)
  | addblacklist (account : Name)
  | rmblacklist (account : Name)
deriving DecidableEq, Repr

/-- An action with its context, and whether the contracts it notifies and the inline transfer it
sends let the transaction through. -/
structure Call where
  ctx : Ctx
  action : Action
  accepted : Bool := true
deriving DecidableEq, Repr

/-- One call: the new state and the transfers it sends. -/
def perform (rule : SubsidyRule) (self : Name) (s : State) (c : Call) :
    Result (State × List TransferAction) :=
  match c.action with
  | .initglobal => .ok (initglobal s, [])
  | .transfer sender recipient quantity memo => do
    let s' ← onTransfer rule self c.ctx.now s sender recipient quantity memo
    return (s', [])
  | .unstake owner => do
    let (s', t) ← unstake self c.ctx s owner
    check (c.accepted = true) "transaction rejected"
    return (s', [t])
  | .addblacklist account => do
    let s' ← addblacklist self c.ctx s account
    return (s', [])
  | .rmblacklist account => do
    let s' ← rmblacklist self c.ctx s account
    return (s', [])

/-- What a call did: the stake rows it added and removed, and the transfers it sent. -/
structure Receipt where
  call : Call
  added : List Stake
  removed : List Stake
  transfers : List TransferAction

/-- `perform` with its receipt. -/
def step (rule : SubsidyRule) (self : Name) (s : State) (c : Call) :
    Result (State × List Receipt) := do
  let (s', transfers) ← perform rule self s c
  return (s', [⟨c, s'.accountStake.diff s.accountStake, s.accountStake.diff s'.accountStake,
    transfers⟩])

/-- Every row ever added. -/
def created (log : List Receipt) : List Stake := log.flatMap Receipt.added

/-- Every row ever removed. -/
def paid (log : List Receipt) : List Stake := log.flatMap Receipt.removed

/-- The total ever sent out by inline transfers. -/
def sent (log : List Receipt) : ℤ :=
  ((log.flatMap Receipt.transfers).map (fun t => t.quantity.amount)).sum

/-- Rows are added for the sender of the staked tokens; rows are removed only by an `unstake` of
their account, at or after their unlock time, for one transfer of exactly what is owed on them. -/
def Receipt.Honest (self : Name) (e : Receipt) : Prop :=
  match e.call.action with
  | .transfer sender recipient quantity _ =>
    e.removed = [] ∧ e.transfers = [] ∧
      (e.added = [] ∨ (recipient = self ∧
        ∃ row, e.added = [row] ∧ row.account = sender ∧ row.amount = quantity))
  | .unstake owner =>
    e.added = [] ∧
      e.transfers = [⟨⟨self, active⟩, self, owner, ⟨(e.removed.map Stake.owed).sum, vtx⟩,
        "unstaking fund"⟩] ∧
      ∀ r ∈ e.removed, r.account = owner ∧ r.unlockTimestamp ≤ e.call.ctx.now
  | _ => e.added = [] ∧ e.removed = [] ∧ e.transfers = []

/-! ## The invariant -/

/-- What `_stake` has checked of a row. -/
structure Stake.WellFormed (r : Stake) : Prop where
  amount_symbol : r.amount.symbol = vtx
  subsidy_symbol : r.subsidy.symbol = vtx
  amount_ge : 100000000000 ≤ r.amount.amount
  amount_le : r.amount.amount ≤ 1000000000000000
  subsidy_nonneg : 0 ≤ r.subsidy.amount

theorem Stake.WellFormed.owed_nonneg {r : Stake} (h : r.WellFormed) : 0 ≤ r.owed := by
  have h1 := h.amount_ge
  have h2 := h.subsidy_nonneg
  unfold Stake.owed
  omega

theorem Stake.WellFormed.amount_le_owed {r : Stake} (h : r.WellFormed) :
    r.amount.amount ≤ r.owed := by
  have := h.subsidy_nonneg
  unfold Stake.owed
  omega

theorem sum_owed_nonneg {l : List Stake} (h : ∀ r ∈ l, r.WellFormed) :
    0 ≤ (l.map Stake.owed).sum := by
  apply List.sum_nonneg
  rw [List.forall_mem_map]
  exact fun r hr => (h r hr).owed_nonneg

theorem sum_amount_nonneg {l : List Stake} (h : ∀ r ∈ l, r.WellFormed) :
    0 ≤ (l.map (fun r => r.amount.amount)).sum := by
  apply List.sum_nonneg
  rw [List.forall_mem_map]
  intro r hr
  have := (h r hr).amount_ge
  omega

/-- The principal of all live rows. -/
def State.staked (s : State) : ℤ := s.accountStake.sum (fun r => r.amount.amount)

/-- Principal and subsidy of all live rows. -/
def State.owed (s : State) : ℤ := s.accountStake.sum Stake.owed

/-- The totals `g` in step with the rows of `s` and the amount sent out so far. -/
structure GlobalAmount.Matches (g : GlobalAmount) (s : State) (out : ℤ) : Prop where
  currently : g.currentlyStaked = ⟨s.staked, vtx⟩
  cumulative : g.cumulativeStaked.amount + g.cumulativeSubsidy.amount = s.owed + out
  limit : g.cumulativeStaked.amount + g.cumulativeSubsidy.amount ≤ maxStakeAmount.amount
  staked_nonneg : 0 ≤ g.cumulativeStaked.amount
  subsidy_nonneg : 0 ≤ g.cumulativeSubsidy.amount
  staked_symbol : g.cumulativeStaked.symbol = vtx
  subsidy_symbol : g.cumulativeSubsidy.symbol = vtx

/-- The books are in order. -/
structure Books (me : Name) (s : State) (log : List Receipt) : Prop where
  rows : ∀ r ∈ s.accountStake.rows, r.WellFormed
  fresh : s.globals = none → s.accountStake = Table.empty ∧ sent log = 0
  globals : ∀ g, s.globals = some g → g.Matches s (sent log)
  sent_nonneg : 0 ≤ sent log
  once : (created log).Perm (s.accountStake.rows ++ paid log)
  honest : ∀ e ∈ log, e.Honest me

theorem books_init (self : Name) : Books self {} [] where
  rows := by simp
  fresh _ := ⟨rfl, rfl⟩
  globals := nofun
  sent_nonneg := le_rfl
  once := List.Perm.refl _
  honest := nofun

section Books

variable {rule : SubsidyRule} {self : Name} {s s' : State} {log : List Receipt}

theorem Books.staked_nonneg (h : Books self s log) : 0 ≤ s.staked :=
  Table.sum_nonneg (fun r hr => by have := (h.rows r hr).amount_ge; omega)

theorem Books.staked_le_owed (h : Books self s log) : s.staked ≤ s.owed :=
  List.sum_le_sum (fun r hr => (h.rows r hr).amount_le_owed)

/-- With globals, everything owed is below the limit. -/
theorem Books.owed_le {g : GlobalAmount} (h : Books self s log) (hg : s.globals = some g) :
    s.owed ≤ 1000000000000000 := by
  have h1 := (h.globals g hg).cumulative
  have h2 : g.cumulativeStaked.amount + g.cumulativeSubsidy.amount ≤ 1000000000000000 :=
    (h.globals g hg).limit
  have h3 := h.sent_nonneg
  omega

/-- Every row ever added is live or removed, once, whatever the next call does. -/
theorem once_step (h : (created log).Perm (s.accountStake.rows ++ paid log)) (c : Call)
    (ts : List TransferAction) (s' : State) :
    (created (log ++ [⟨c, s'.accountStake.diff s.accountStake, s.accountStake.diff s'.accountStake,
      ts⟩])).Perm (s'.accountStake.rows ++ paid (log ++
        [⟨c, s'.accountStake.diff s.accountStake, s.accountStake.diff s'.accountStake, ts⟩])) := by
  simp only [created, paid, List.flatMap_append, List.flatMap_singleton, ← Multiset.coe_eq_coe,
    ← Multiset.coe_add] at h ⊢
  have hdiff := Multiset.coe_eq_coe.mpr (Table.diff_perm s.accountStake s'.accountStake)
  simp only [← Multiset.coe_add] at hdiff
  calc (log.flatMap Receipt.added : Multiset Stake) + s'.accountStake.diff s.accountStake
    _ = (s'.accountStake.diff s.accountStake + s.accountStake.rows : Multiset Stake) +
          log.flatMap Receipt.removed := by rw [h]; abel
    _ = s'.accountStake.rows + (log.flatMap Receipt.removed +
          s.accountStake.diff s'.accountStake : Multiset Stake) := by rw [hdiff]; abel

theorem sent_append (log : List Receipt) (e : Receipt) :
    sent (log ++ [e]) = sent log + (e.transfers.map (fun t => t.quantity.amount)).sum := by
  simp [sent]

/-- What remains to be shown of a call once its receipt is known. -/
theorem Books.extend (h : Books self s log) {c : Call} {ts : List TransferAction}
    (hrows : ∀ r ∈ s'.accountStake.rows, r.WellFormed)
    (hfresh : s'.globals = none → s.globals = none ∧ s'.accountStake = Table.empty ∧
      (ts.map (fun t => t.quantity.amount)).sum = 0)
    (hglobals : ∀ g, s'.globals = some g →
      g.Matches s' (sent log + (ts.map (fun t => t.quantity.amount)).sum))
    (hpos : 0 ≤ (ts.map (fun t => t.quantity.amount)).sum)
    (honest : Receipt.Honest self ⟨c, s'.accountStake.diff s.accountStake,
      s.accountStake.diff s'.accountStake, ts⟩) :
    Books self s' (log ++ [⟨c, s'.accountStake.diff s.accountStake,
      s.accountStake.diff s'.accountStake, ts⟩]) where
  rows := hrows
  fresh hg := by
    obtain ⟨hg, ht, hts⟩ := hfresh hg
    exact ⟨ht, by rw [sent_append, (h.fresh hg).2, hts, add_zero]⟩
  globals g hg := by
    rw [sent_append]
    exact hglobals g hg
  sent_nonneg := by
    rw [sent_append]
    exact add_nonneg h.sent_nonneg hpos
  once := once_step h.once c ts s'
  honest e he := by
    rcases List.mem_append.mp he with he | he
    · exact h.honest e he
    · rw [List.mem_singleton.mp he]
      exact honest

/-- A call that touches neither the rows nor the totals. -/
theorem Books.extend_same (h : Books self s log) {c : Call} (ht : s'.accountStake = s.accountStake)
    (hg : s'.globals = s.globals) (honest : Receipt.Honest self ⟨c, [], [], []⟩) :
    Books self s' (log ++ [⟨c, s'.accountStake.diff s.accountStake,
      s.accountStake.diff s'.accountStake, []⟩]) := by
  refine h.extend (by rw [ht]; exact h.rows) (fun hn => ?_) (fun g hsome => ?_) le_rfl ?_
  · rw [hg] at hn
    exact ⟨hn, by rw [ht]; exact (h.fresh hn).1, rfl⟩
  · rw [hg] at hsome
    obtain ⟨h1, h2, h3, h4, h5, h6, h7⟩ := h.globals g hsome
    refine ⟨?_, ?_, h3, h4, h5, h6, h7⟩
    · rw [h1, State.staked, State.staked, ht]
    · rw [h2, State.owed, State.owed, ht, List.map_nil, List.sum_nil, add_zero]
  · rw [ht, Table.diff_self]
    exact honest

/-- A stake adds one row and its share to each total. -/
theorem Books.extend_stake (h : Books self s log) {c : Call} {sender : Name} {quantity : Asset}
    {memo : String} (hc : c.action = .transfer sender self quantity memo) {periodsNum : ℕ}
    (hs : stake rule c.ctx.now s sender quantity periodsNum = .ok s') :
    Books self s' (log ++ [⟨c, s'.accountStake.diff s.accountStake,
      s.accountStake.diff s'.accountStake, []⟩]) := by
  obtain ⟨row, g, hsym, hlo, hhi, hp, hacc, hamt, hsub, -, hnew, hg, hlimit, rfl⟩ := stake_ok hs
  have hm := h.globals g hg
  have hpart : 0 ≤ row.subsidy.amount := by
    rw [hsub]
    exact rule.nonneg _ _ (by omega) hp
  have howed : row.owed = quantity.amount + row.subsidy.amount := by rw [Stake.owed, hamt]
  refine h.extend ?_ ?_ ?_ le_rfl ?_
  · intro r hr
    rcases Table.mem_put.mp hr with rfl | ⟨hr, -⟩
    · exact ⟨by rw [hamt, hsym], by rw [hsub], by rw [hamt]; exact hlo, by rw [hamt]; exact hhi,
        hpart⟩
    · exact h.rows r hr
  · intro hnone
    cases hnone
  · intro g' hg'
    cases hg'
    have hcum := hm.cumulative
    have h1 := hm.staked_nonneg
    have h2 := hm.subsidy_nonneg
    refine ⟨?_, ?_, ?_, by simp only; omega, by simp only; omega, hm.staked_symbol,
      hm.subsidy_symbol⟩
    · simp only [State.staked, Table.sum_put_new hnew, hamt, hm.currently]
    · simp only [State.owed, Table.sum_put_new hnew, List.map_nil, List.sum_nil] at hcum ⊢
      omega
    · simp only
      omega
  · simp only [Receipt.Honest, hc, Table.put_diff_new hnew, Table.diff_put_new hnew]
    exact ⟨trivial, trivial, Or.inr ⟨trivial, row, rfl, hacc, hamt⟩⟩

/-- An `unstake` removes the unlocked rows of the owner and pays what is owed on them. -/
theorem Books.extend_unstake (h : Books self s log) {c : Call} {owner : Name} {t : TransferAction}
    (hc : c.action = .unstake owner) (hs : unstake self c.ctx s owner = .ok (s', t)) :
    Books self s' (log ++ [⟨c, s'.accountStake.diff s.accountStake,
      s.accountStake.diff s'.accountStake, [t]⟩]) := by
  obtain ⟨-, -, rfl, rfl⟩ := unstake_ok hs
  have hsplit := sum_due s owner c.ctx.now
  have hpos : 0 ≤ ((s.due owner c.ctx.now).map Stake.owed).sum := by
    refine Table.sum_nonneg (t := s.accountStake.filter _) (fun r hr => ?_)
    exact (h.rows r (Table.mem_filter.mp hr).1).owed_nonneg
  refine h.extend ?_ ?_ ?_ (by simpa using hpos) ?_
  · exact fun r hr => h.rows r (Table.mem_filter.mp hr).1
  · intro hn
    have hn : s.globals = none := Option.map_eq_none_iff.mp hn
    have hempty := (h.fresh hn).1
    refine ⟨hn, ?_, ?_⟩
    · simp only [hempty]
      rfl
    · simp only [State.due, hempty]
      rfl
  · intro g' hg'
    obtain ⟨g, hg, rfl⟩ := Option.map_eq_some_iff.mp hg'
    have hm := h.globals g hg
    have hcum := hm.cumulative
    refine ⟨?_, ?_, hm.limit, hm.staked_nonneg, hm.subsidy_nonneg, hm.staked_symbol,
      hm.subsidy_symbol⟩
    · simp only [withdrawn, hm.currently, State.staked, ← hsplit (fun r => r.amount.amount),
        add_sub_cancel_right]
    · simp only [withdrawn, State.owed, ← hsplit Stake.owed, List.map_cons, List.map_nil,
        List.sum_cons, List.sum_nil] at hcum ⊢
      omega
  · simp only [Receipt.Honest, hc, Table.filter_diff, Table.diff_filter, Bool.not_not]
    exact ⟨trivial, rfl, fun r hr => Stake.due_iff.mp (Table.mem_filter.mp hr).2⟩

theorem step_ok {c : Call} {out : List Receipt} (h : step rule self s c = .ok (s', out)) :
    ∃ ts, perform rule self s c = .ok (s', ts) ∧
      out =
        [⟨c, s'.accountStake.diff s.accountStake, s.accountStake.diff s'.accountStake, ts⟩] := by
  simp only [step, bind_eq_ok, pure_eq_ok] at h
  obtain ⟨⟨s₁, ts⟩, hp, h⟩ := h
  cases h
  exact ⟨ts, hp, rfl⟩

/-- **Step lemma**: every call that goes through keeps the books in order. -/
theorem books_step (h : Books self s log) {c : Call} {out : List Receipt}
    (hs : step rule self s c = .ok (s', out)) : Books self s' (log ++ out) := by
  obtain ⟨ts, hp, rfl⟩ := step_ok hs
  unfold perform at hp
  cases hc : c.action with
  | initglobal =>
    rw [hc] at hp
    cases hp
    refine h.extend h.rows nofun (fun g' hg' => ?_) le_rfl ?_
    · cases hg : s.globals with
      | none =>
        obtain ⟨hempty, hsent⟩ := h.fresh hg
        simp only [initglobal, hg, Option.getD_none, Option.some.injEq] at hg'
        subst hg'
        refine ⟨?_, ?_, by decide, by decide, by decide, rfl, rfl⟩
        · simp [initglobal, State.staked, hempty]
        · simp [initglobal, State.owed, hempty, hsent]
      | some g =>
        simp only [initglobal, hg, Option.getD_some, Option.some.injEq] at hg'
        subst hg'
        have hm := h.globals g hg
        rw [List.map_nil, List.sum_nil, add_zero]
        exact ⟨hm.1, hm.2, hm.3, hm.4, hm.5, hm.6, hm.7⟩
    · simp [Receipt.Honest, hc, initglobal]
  | transfer sender recipient quantity memo =>
    rw [hc] at hp
    simp only [bind_eq_ok, pure_eq_ok] at hp
    obtain ⟨s₁, hp, heq⟩ := hp
    cases heq
    rcases onTransfer_ok hp with ⟨-, rfl⟩ | ⟨-, rfl, -, n, -, hstake⟩
    · exact h.extend_same rfl rfl (by simp [Receipt.Honest, hc])
    · exact h.extend_stake hc hstake
  | unstake owner =>
    rw [hc] at hp
    simp only [bind_eq_ok, check_eq_ok, exists_const, pure_eq_ok] at hp
    obtain ⟨⟨s₁, t⟩, hp, -, heq⟩ := hp
    cases heq
    exact h.extend_unstake hc hp
  | addblacklist account =>
    rw [hc] at hp
    simp only [bind_eq_ok, pure_eq_ok] at hp
    obtain ⟨s₁, hp, heq⟩ := hp
    cases heq
    obtain ⟨hrows, hglobals⟩ := addblacklist_ok hp
    exact h.extend_same hrows hglobals (by simp [Receipt.Honest, hc])
  | rmblacklist account =>
    rw [hc] at hp
    simp only [bind_eq_ok, pure_eq_ok] at hp
    obtain ⟨s₁, hp, heq⟩ := hp
    cases heq
    obtain ⟨hrows, hglobals⟩ := rmblacklist_ok hp
    exact h.extend_same hrows hglobals (by simp [Receipt.Honest, hc])

/-- **Run lemma**: the books are in order after every run. -/
theorem books_run (rule : SubsidyRule) (self : Name) (calls : List Call) :
    Books self (run (step rule self) {} calls).1 (run (step rule self) {} calls).2 :=
  run_invariant (Books self) (books_init self) (fun _ _ _ _ _ h hs => books_step h hs) calls

end Books

/-! ## Staying in the asset range -/

section Range

variable {rule : SubsidyRule} {self : Name} {s : State} {log : List Receipt}

theorem inRange_stoi (memo : String) : InRange (stoi memo) (fun _ => True) := by
  unfold stoi
  refine (inRange_check (by decide)).bind (fun _ _ => ?_)
  exact (inRange_check (by decide)).bind (fun _ _ => outcome_ok trivial)

theorem inRange_checkQuantity (quantity : Asset) :
    InRange (checkQuantity quantity) (fun _ => True) := by
  unfold checkQuantity
  refine (inRange_check (by decide)).bind (fun _ _ => ?_)
  refine (inRange_check (by decide)).bind (fun _ _ => ?_)
  refine (inRange_check (by decide)).bind (fun _ _ => ?_)
  refine (inRange_le _ _).bind (fun _ _ => ?_)
  refine (inRange_check (by decide)).bind (fun _ _ => ?_)
  refine (inRange_le _ _).bind (fun _ _ => ?_)
  exact (inRange_check (by decide)).mono (fun _ _ => trivial) (fun _ h => h)

theorem inRange_calculateSubsidy (quantity : Asset) (periodsNum : ℕ) :
    InRange (calculateSubsidy rule quantity periodsNum) (fun subsidy =>
      0 ≤ quantity.amount ∧ quantity.amount ≤ 1000000000000000 ∧ 0 ≤ subsidy.amount ∧
        subsidy.amount ≤ 1000000000000000) := by
  refine ⟨fun subsidy h => ?_, fun e h => ?_⟩
  · obtain ⟨-, hlo, hhi, hp, rfl⟩ := calculateSubsidy_ok h
    have h1 := rule.nonneg quantity.amount periodsNum (by omega) hp
    have h2 := rule.le quantity.amount periodsNum (by omega) hp
    exact ⟨by omega, hhi, h1, by simp only; omega⟩
  · have hin : InRange (calculateSubsidy rule quantity periodsNum) (fun _ => True) := by
      unfold calculateSubsidy
      refine (inRange_checkQuantity quantity).bind (fun _ _ => ?_)
      exact (inRange_check (by decide)).bind (fun _ _ => outcome_ok trivial)
    exact hin.2 e h

/-- A stake of an admissible amount does not overflow totals that are below the limit. -/
theorem inRange_updateGlobals_stake {globals : Option GlobalAmount} {quantity subsidy : Asset}
    (hg : ∀ g, globals = some g → 0 ≤ g.cumulativeStaked.amount ∧ 0 ≤ g.cumulativeSubsidy.amount ∧
      g.cumulativeStaked.amount + g.cumulativeSubsidy.amount ≤ 1000000000000000 ∧
      0 ≤ g.currentlyStaked.amount ∧ g.currentlyStaked.amount ≤ 1000000000000000)
    (hq : 0 ≤ quantity.amount ∧ quantity.amount ≤ 1000000000000000)
    (hs : 0 ≤ subsidy.amount ∧ subsidy.amount ≤ 1000000000000000) :
    InRange (updateGlobals globals quantity subsidy false) (fun _ => True) := by
  cases globals with
  | none => exact outcome_error (by decide)
  | some g =>
    obtain ⟨h1, h2, h3, h4, h5⟩ := hg g rfl
    have hmax := Asset.maxAmount_eq
    simp only [updateGlobals, Bool.false_eq_true, if_false]
    refine (inRange_add (by omega) (by omega)).bind ?_
    rintro _ rfl
    refine (inRange_add (by simp only; omega) (by simp only; omega)).bind ?_
    rintro _ rfl
    refine (inRange_add (by simp only; omega) (by simp only; omega)).bind ?_
    rintro _ rfl
    refine (inRange_le _ _).bind (fun _ _ => ?_)
    refine (inRange_check (by decide)).bind (fun _ _ => ?_)
    refine (inRange_add (by omega) (by omega)).bind (fun _ _ => ?_)
    refine (inRange_add (by omega) (by omega)).bind (fun _ _ => ?_)
    refine (inRange_add (by omega) (by omega)).bind (fun _ _ => ?_)
    exact outcome_ok trivial

theorem Books.inRange_stake (h : Books self s log) (now : ℕ) (account : Name) (quantity : Asset)
    (periodsNum : ℕ) : InRange (stake rule now s account quantity periodsNum) (fun _ => True) := by
  unfold stake
  refine (inRange_calculateSubsidy quantity periodsNum).bind (fun subsidy hsub => ?_)
  refine (Table.inRange_availablePrimaryKey _ _ _).bind (fun rowId _ => ?_)
  refine (Table.inRange_emplace _ _).bind (fun _ _ => ?_)
  refine (inRange_updateGlobals_stake (fun g hg => ?_) ⟨hsub.1, hsub.2.1⟩ hsub.2.2).bind
    (fun _ _ => outcome_ok trivial)
  have hm := h.globals g hg
  have hcur : g.currentlyStaked.amount = s.staked := by rw [hm.currently]
  exact ⟨hm.staked_nonneg, hm.subsidy_nonneg, hm.limit, hcur ▸ h.staked_nonneg,
    hcur ▸ h.staked_le_owed.trans (h.owed_le hg)⟩

/-- One turn of the payout loop, with room for the rows `l` that are still to come. -/
structure Room (itrs : List Stake) (acc : Asset × State) : Prop where
  rows : ∀ r ∈ itrs, r.WellFormed
  nonneg : 0 ≤ acc.1.amount
  le : acc.1.amount + (itrs.map Stake.owed).sum ≤ 1000000000000000
  current : ∀ g, acc.2.globals = some g →
    (itrs.map (fun r => r.amount.amount)).sum ≤ g.currentlyStaked.amount ∧
      g.currentlyStaked.amount ≤ 1000000000000000

theorem inRange_unstakeRow {timestamp : ℕ} {itr : Stake} {itrs : List Stake} {acc : Asset × State}
    (h : Room (itr :: itrs) acc) : InRange (unstakeRow timestamp acc itr) (Room itrs) := by
  obtain ⟨hrows, hnonneg, hle, hcur⟩ := h
  have hwf := hrows itr (by simp)
  have hrest : ∀ r ∈ itrs, r.WellFormed := fun r hr => hrows r (by simp [hr])
  have howed : 0 ≤ itr.owed := hwf.owed_nonneg
  have hsum := sum_owed_nonneg hrest
  have hsum' := sum_amount_nonneg hrest
  have hmax := Asset.maxAmount_eq
  simp only [List.map_cons, List.sum_cons] at hle hcur
  have hdef : itr.owed = itr.amount.amount + itr.subsidy.amount := rfl
  have hamt := hwf.amount_ge
  have hsub := hwf.subsidy_nonneg
  unfold unstakeRow
  split_ifs with ht
  · refine outcome_ok ⟨hrest, hnonneg, by omega, fun g hg => ?_⟩
    have := hcur g hg
    omega
  · refine (inRange_add (by omega) (by omega)).bind ?_
    rintro _ rfl
    refine (inRange_add (by simp only; omega) (by simp only; omega)).bind ?_
    rintro _ rfl
    cases hg : acc.2.globals with
    | none => exact outcome_error (by decide)
    | some g =>
      obtain ⟨hlo, hhi⟩ := hcur g hg
      simp only [updateGlobals, if_true]
      refine Outcome.bind (P := fun g' => g' = { g with currentlyStaked :=
        ⟨g.currentlyStaked.amount - itr.amount.amount, g.currentlyStaked.symbol⟩ }) ?_ ?_
      · refine (inRange_sub (by omega) (by omega)).bind ?_
        rintro _ rfl
        exact outcome_ok rfl
      · rintro _ rfl
        refine outcome_ok ⟨hrest, by simp only; omega, by simp only; omega, fun g' hg' => ?_⟩
        simp only [Option.some.injEq] at hg'
        subst hg'
        simp only
        omega

theorem Books.inRange_unstake (h : Books self s log) (ctx : Ctx) (owner : Name) :
    InRange (unstake self ctx s owner) (fun _ => True) := by
  unfold unstake unstakeUnlocked checkBlacklist
  refine (inRange_check (by decide)).bind (fun _ _ => ?_)
  refine (inRange_check (by decide)).bind (fun _ _ => ?_)
  have hroom : Room (s.stakesOf owner) (⟨0, vtx⟩, s) := by
    have hsub : (s.stakesOf owner).Sublist s.accountStake.rows := List.filter_sublist
    have hrows : ∀ r ∈ s.stakesOf owner, r.WellFormed := fun r hr => h.rows r (hsub.mem hr)
    have howed : ((s.stakesOf owner).map Stake.owed).sum ≤ s.owed := by
      refine (hsub.map Stake.owed).sum_le_sum (fun x hx => ?_)
      obtain ⟨r, hr, rfl⟩ := List.mem_map.mp hx
      exact (h.rows r hr).owed_nonneg
    have hstaked : ((s.stakesOf owner).map (fun r => r.amount.amount)).sum ≤ s.staked := by
      refine (hsub.map _).sum_le_sum (fun x hx => ?_)
      obtain ⟨r, hr, rfl⟩ := List.mem_map.mp hx
      have := (h.rows r hr).amount_ge
      omega
    refine ⟨hrows, le_rfl, ?_, fun g hg => ?_⟩
    · cases hg : s.globals with
      | none =>
        have hempty : s.stakesOf owner = [] := by
          simp [State.stakesOf, Table.filter, (h.fresh hg).1]
        simp [hempty]
      | some g =>
        have := h.owed_le hg
        simp only
        omega
    · have := h.owed_le hg
      have := h.staked_le_owed
      rw [(h.globals g hg).currently]
      exact ⟨hstaked, by simp only; omega⟩
  refine (Outcome.foldlM Room (fun _ _ _ => inRange_unstakeRow) _ _ hroom).bind (fun _ _ => ?_)
  exact outcome_ok trivial

/-- From a state whose books are in order no call aborts for leaving the asset range. -/
theorem Books.inRange_step (h : Books self s log) (c : Call) :
    InRange (step rule self s c) (fun _ => True) := by
  unfold step
  refine Outcome.bind (P := fun _ => True) ?_ (fun _ _ => outcome_ok trivial)
  unfold perform
  cases c.action with
  | initglobal => exact outcome_ok trivial
  | transfer sender recipient quantity memo =>
    refine Outcome.bind (P := fun _ => True) ?_ (fun _ _ => outcome_ok trivial)
    unfold onTransfer
    split_ifs with hc
    · exact outcome_ok trivial
    · exact (inRange_stoi memo).bind (fun n _ => h.inRange_stake _ _ _ _)
  | unstake owner =>
    refine (h.inRange_unstake c.ctx owner).bind (fun _ _ => ?_)
    exact (inRange_check (by decide)).bind (fun _ _ => outcome_ok trivial)
  | addblacklist account =>
    refine Outcome.bind (P := fun _ => True) ?_ (fun _ _ => outcome_ok trivial)
    unfold addblacklist
    refine (inRange_requireAuth _ _).bind (fun _ _ => ?_)
    split_ifs with hbl
    · exact (Table.inRange_emplace _ _).bind (fun _ _ => outcome_ok trivial)
    · exact outcome_ok trivial
  | rmblacklist account =>
    refine Outcome.bind (P := fun _ => True) ?_ (fun _ _ => outcome_ok trivial)
    unfold rmblacklist
    refine (inRange_requireAuth _ _).bind (fun _ _ => ?_)
    split_ifs with hbl
    · exact outcome_ok trivial
    · exact outcome_ok trivial

end Range

/-! ## The ledger -/

/-- The rows an `unstake` leaves: all those of other accounts and all those still locked. -/
def KeepsLocked (s s' : State) (owner : Name) (now : ℕ) : Prop :=
  ∀ r ∈ s.accountStake.rows, r.account ≠ owner ∨ now < r.unlockTimestamp → r ∈ s'.accountStake.rows

theorem unstake_keepsLocked {self : Name} {ctx : Ctx} {s s' : State} {owner : Name}
    {t : TransferAction} (h : unstake self ctx s owner = .ok (s', t)) :
    KeepsLocked s s' owner ctx.now := by
  obtain ⟨-, -, -, rfl⟩ := unstake_ok h
  intro r hr hlocked
  refine Table.mem_filter.mpr ⟨hr, ?_⟩
  rw [Bool.not_eq_true', ← Bool.not_eq_true, Stake.due_iff]
  rintro ⟨hacc, hun⟩
  rcases hlocked with hne | hlt
  · exact hne hacc
  · omega

/-- **Ledger**: in every state a run reaches, the totals of `globals` are the sums over the live
rows and the transfers sent, below the limit; every row ever added is live or was removed, once,
and every removal paid its owner exactly what is owed, unlocked; an `unstake` keeps the locked rows;
and the next call, whatever it is, does not leave the asset range. -/
theorem ledger_conserved (rule : SubsidyRule) (self : Name) (calls : List Call) :
    let s := (run (step rule self) {} calls).1
    let log := (run (step rule self) {} calls).2
    (∀ g, s.globals = some g →
      g.currentlyStaked.amount = s.staked ∧
      g.cumulativeStaked.amount + g.cumulativeSubsidy.amount = s.owed + sent log ∧
      g.cumulativeStaked.amount + g.cumulativeSubsidy.amount ≤ maxStakeAmount.amount) ∧
    (created log).Perm (s.accountStake.rows ++ paid log) ∧
    (∀ e ∈ log, e.Honest self) ∧
    (∀ ctx owner s' t, unstake self ctx s owner = .ok (s', t) → KeepsLocked s s' owner ctx.now) ∧
    (∀ c e, step rule self s c = .error e → e ∉ Asset.rangeErrors) := by
  intro s log
  have h : Books self s log := books_run rule self calls
  refine ⟨fun g hg => ?_, h.once, h.honest, fun _ _ _ _ => unstake_keepsLocked,
    fun c e he => (h.inRange_step c).2 e he⟩
  have hm := h.globals g hg
  exact ⟨by rw [hm.currently], hm.cumulative, hm.limit⟩

end VDexNode.Stak

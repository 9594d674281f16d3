import VDexNode.Stak.Ledger

/-!
# VDexNode.Stak.Lock — subsidies against locks

`calculate_subsidy` bounds the number of periods from above only, and one percent of the subsidy
does not depend on it: a stake of no periods earns the percent and is unlocked as it is opened.  So
is one whose unlock time leaves the 32 bits of `unlock_timestamp`.

A run here is any list of calls of every entry point, the two administrative resets included.

* `AnyCall.Locks` : the stake a call opens, if it opens one, is locked for a period or more.
* `Idle` : with all calls of a run inside one period nothing ever falls due.
* `paidTo_le_stakedBy` : **then no account has been sent more than it staked.**
-/

namespace VDexNode.Stak

open Eosio

/-! ## Runs of every entry point -/

/-- A call of any entry point. -/
inductive AnyCall where
  | call (c : Call)
  | clearstakes (ctx : Ctx) (account : Name)
  | clearglobals (ctx : Ctx)
deriving DecidableEq, Repr

/-- The block time of a call. -/
def AnyCall.now : AnyCall → ℕ
  | .call c => c.ctx.now
  | .clearstakes ctx _ => ctx.now
  | .clearglobals ctx => ctx.now

/-- A committed call and the transfers it sent. -/
structure Effect where
  call : AnyCall
  transfers : List TransferAction

/-- One call of any entry point: the new state and the transfers it sends. -/
def performAny (rule : SubsidyRule) (self : Name) (s : State) :
    AnyCall → Result (State × List TransferAction)
  | .call c => perform rule self s c
  | .clearstakes ctx account => do
    let s' ← clearstakes self ctx s account
    return (s', [])
  | .clearglobals ctx => do
    let s' ← clearglobals self ctx s
    return (s', [])

/-- `performAny`, logged. -/
def stepAny (rule : SubsidyRule) (self : Name) (s : State) (c : AnyCall) :
    Result (State × List Effect) := do
  let (s', transfers) ← performAny rule self s c
  return (s', [⟨c, transfers⟩])

/-- What a call does to the rows and the totals. -/
inductive Changes (rule : SubsidyRule) (self : Name) (s : State) : AnyCall → State → Prop
  | same {c : AnyCall} {s' : State} : s'.accountStake = s.accountStake →
      s'.globals = s.globals → Changes rule self s c s'
  | initglobal {c : AnyCall} : Changes rule self s c (initglobal s)
  | stake {c : AnyCall} {s' : State} {now : ℕ} {account : Name} {quantity : Asset}
      {periodsNum : ℕ} : stake rule now s account quantity periodsNum = .ok s' →
      Changes rule self s c s'
  | unstake {c : AnyCall} {s' : State} {ctx : Ctx} {owner : Name} {t : TransferAction} :
      unstake self ctx s owner = .ok (s', t) → Changes rule self s c s'
  | clearstakes {s' : State} {ctx : Ctx} {account : Name} :
      clearstakes self ctx s account = .ok s' → Changes rule self s (.clearstakes ctx account) s'
  | clearglobals {s' : State} {ctx : Ctx} :
      clearglobals self ctx s = .ok s' → Changes rule self s (.clearglobals ctx) s'

theorem stepAny_changes {rule : SubsidyRule} {self : Name} {s s' : State} {c : AnyCall}
    {out : List Effect} (h : stepAny rule self s c = .ok (s', out)) : Changes rule self s c s' := by
  simp only [stepAny, bind_eq_ok, pure_eq_ok] at h
  obtain ⟨⟨s₁, ts⟩, hp, heq⟩ := h
  cases heq
  cases c with
  | clearstakes ctx account =>
    simp only [performAny, bind_eq_ok, pure_eq_ok] at hp
    obtain ⟨_, hp, heq⟩ := hp
    cases heq
    exact .clearstakes hp
  | clearglobals ctx =>
    simp only [performAny, bind_eq_ok, pure_eq_ok] at hp
    obtain ⟨_, hp, heq⟩ := hp
    cases heq
    exact .clearglobals hp
  | call c =>
    obtain ⟨ctx, action, accepted⟩ := c
    cases action with
    | initglobal =>
      cases hp
      exact .initglobal
    | transfer sender recipient quantity memo =>
      simp only [performAny, perform, bind_eq_ok, pure_eq_ok] at hp
      obtain ⟨_, hp, heq⟩ := hp
      cases heq
      rcases onTransfer_ok hp with ⟨-, rfl⟩ | ⟨-, -, -, n, -, hstake⟩
      · exact .same rfl rfl
      · exact .stake hstake
    | unstake owner =>
      simp only [performAny, perform, bind_eq_ok, check_eq_ok, exists_const, pure_eq_ok] at hp
      obtain ⟨⟨s₂, t⟩, hp, -, heq⟩ := hp
      cases heq
      exact .unstake hp
    | addblacklist account =>
      simp only [performAny, perform, bind_eq_ok, pure_eq_ok] at hp
      obtain ⟨_, hp, heq⟩ := hp
      cases heq
      exact .same (addblacklist_ok hp).1 (addblacklist_ok hp).2
    | rmblacklist account =>
      simp only [performAny, perform, bind_eq_ok, pure_eq_ok] at hp
      obtain ⟨_, hp, heq⟩ := hp
      cases heq
      exact .same (rmblacklist_ok hp).1 (rmblacklist_ok hp).2

/-- The stake a call asks for: its account, its quantity and its memo. -/
def AnyCall.stakes (self : Name) : AnyCall → Option (Name × Asset × String)
  | .call ⟨_, .transfer sender recipient quantity memo, _⟩ =>
    if sender = self ∨ recipient ≠ self ∨ sender = tokenAcc then none
    else some (sender, quantity, memo)
  | _ => none

/-- What a committed call sent to `account`. -/
def Effect.paid (account : Name) (e : Effect) : ℤ :=
  ((e.transfers.filter (fun t => decide (t.recipient = account))).map
    (fun t => t.quantity.amount)).sum

/-- What `account` staked by a committed call. -/
def Effect.staked (self account : Name) (e : Effect) : ℤ :=
  match e.call.stakes self with
  | some (sender, quantity, _) => if sender = account then quantity.amount else 0
  | none => 0

/-- The total sent to `account`. -/
def paidTo (account : Name) (log : List Effect) : ℤ := (log.map (Effect.paid account)).sum

/-- The total `account` has staked. -/
def stakedBy (self account : Name) (log : List Effect) : ℤ :=
  (log.map (Effect.staked self account)).sum

/-! ## Locks -/

/-- If the call asks for an admissible stake, the number of periods is not zero and the unlock time
fits `unlock_timestamp`. -/
def AnyCall.Locks (self : Name) (c : AnyCall) : Prop :=
  ∀ account quantity memo n, c.stakes self = some (account, quantity, memo) →
    checkQuantity quantity = .ok () → stoi memo = .ok n → toUInt16 n ≤ 10 →
      toUInt16 n ≠ 0 ∧ c.now + toUInt16 n * stakePeriod < 2 ^ 32

/-- Nothing falls due at the times of `calls`, nothing was paid, and only positive quantities were
staked. -/
structure Idle (me : Name) (calls : List AnyCall) (s : State) (log : List Effect) : Prop where
  locked : ∀ r ∈ s.accountStake.rows, ∀ c ∈ calls, c.now < r.unlockTimestamp
  unpaid : ∀ e ∈ log, ∀ t ∈ e.transfers, t.quantity.amount = 0
  positive : ∀ e ∈ log, ∀ account, 0 ≤ e.staked me account

section Idle

variable {rule : SubsidyRule} {self : Name} {calls : List AnyCall} {s s' : State}
  {log : List Effect}

/-- A call that opens no stake and pays nothing. -/
theorem Idle.extend (h : Idle self calls s log) {c : AnyCall} {ts : List TransferAction}
    (hrows : ∀ r ∈ s'.accountStake.rows, r ∈ s.accountStake.rows) (hnone : c.stakes self = none)
    (hts : ∀ t ∈ ts, t.quantity.amount = 0) : Idle self calls s' (log ++ [⟨c, ts⟩]) where
  locked r hr := h.locked r (hrows r hr)
  unpaid e he := by
    rcases List.mem_append.mp he with he | he
    · exact h.unpaid e he
    · rw [List.mem_singleton.mp he]
      exact hts
  positive e he account := by
    rcases List.mem_append.mp he with he | he
    · exact h.positive e he account
    · rw [List.mem_singleton.mp he, Effect.staked, hnone]

/-- A stake of at least one period stays locked for as long as the run lasts. -/
theorem Idle.extend_stake (h : Idle self calls s log) {c : AnyCall} {account : Name}
    {quantity : Asset} {memo : String} {n : ℤ} (hstakes : c.stakes self = some (account, quantity,
      memo)) (hn : stoi memo = .ok n) (hlocks : c.Locks self)
    (hshort : ∀ c' ∈ calls, c'.now < c.now + stakePeriod)
    (hs : stake rule c.now s account quantity (toUInt16 n) = .ok s') :
    Idle self calls s' (log ++ [⟨c, []⟩]) := by
  have hquantity : checkQuantity quantity = .ok () := by
    simp only [stake, calculateSubsidy, bind_eq_ok] at hs
    obtain ⟨_, ⟨_, hq, -⟩, -⟩ := hs
    exact hq
  obtain ⟨row, g, -, hlo, -, hp, -, -, -, hunlock, -, -, -, rfl⟩ := stake_ok hs
  obtain ⟨hpos, hfits⟩ := hlocks account quantity memo n hstakes hquantity hn hp
  have hperiods : stakePeriod ≤ toUInt16 n * stakePeriod :=
    Nat.le_mul_of_pos_left _ (Nat.pos_of_ne_zero hpos)
  rw [Nat.mod_eq_of_lt hfits] at hunlock
  refine ⟨?_, ?_, ?_⟩
  · intro r hr c' hc'
    rcases Table.mem_put.mp hr with rfl | ⟨hr, -⟩
    · have := hshort c' hc'
      omega
    · exact h.locked r hr c' hc'
  · intro e he
    rcases List.mem_append.mp he with he | he
    · exact h.unpaid e he
    · rw [List.mem_singleton.mp he]
      intro t ht
      cases ht
  · intro e he account'
    rcases List.mem_append.mp he with he | he
    · exact h.positive e he account'
    · rw [List.mem_singleton.mp he, Effect.staked, hstakes]
      show 0 ≤ if account = account' then quantity.amount else 0
      split_ifs <;> omega

/-- An `unstake` finds nothing due. -/
theorem Idle.extend_unstake (h : Idle self calls s log) {c : AnyCall} {ctx : Ctx} {owner : Name}
    {t : TransferAction} (hmem : c ∈ calls) (hnow : c.now = ctx.now) (hnone : c.stakes self = none)
    (hs : unstake self ctx s owner = .ok (s', t)) :
    Idle self calls s' (log ++ [⟨c, [t]⟩]) := by
  obtain ⟨-, -, rfl, rfl⟩ := unstake_ok hs
  have hdue : s.due owner ctx.now = [] := by
    rw [List.eq_nil_iff_forall_not_mem]
    intro r hr
    obtain ⟨hr, hdue⟩ := Table.mem_filter.mp hr
    have hunlocked := (Stake.due_iff.mp hdue).2
    have hlocked := h.locked r hr c hmem
    omega
  refine h.extend (fun r hr => (Table.mem_filter.mp hr).1) hnone ?_
  intro t' ht'
  rw [List.mem_singleton.mp ht', hdue]
  rfl

/-- **Step lemma**: a call within one period of all others keeps the contract idle. -/
theorem idle_step (h : Idle self calls s log) {c : AnyCall} (hmem : c ∈ calls)
    (hlocks : c.Locks self) (hshort : ∀ c' ∈ calls, c'.now < c.now + stakePeriod)
    {out : List Effect} (hs : stepAny rule self s c = .ok (s', out)) :
    Idle self calls s' (log ++ out) := by
  simp only [stepAny, bind_eq_ok, pure_eq_ok] at hs
  obtain ⟨⟨s₁, ts⟩, hp, heq⟩ := hs
  cases heq
  have hnil : ∀ t ∈ ([] : List TransferAction), t.quantity.amount = 0 := fun t ht => by cases ht
  cases c with
  | clearstakes ctx account =>
    simp only [performAny, clearstakes, bind_eq_ok, pure_eq_ok] at hp
    obtain ⟨_, ⟨_, -, rfl⟩, heq⟩ := hp
    cases heq
    exact h.extend (fun r hr => (Table.mem_filter.mp hr).1) rfl hnil
  | clearglobals ctx =>
    simp only [performAny, clearglobals, bind_eq_ok, pure_eq_ok] at hp
    obtain ⟨_, ⟨_, -, rfl⟩, heq⟩ := hp
    cases heq
    exact h.extend (fun r hr => hr) rfl hnil
  | call c =>
    obtain ⟨ctx, action, accepted⟩ := c
    cases action with
    | initglobal =>
      cases hp
      exact h.extend (fun r hr => hr) rfl hnil
    | transfer sender recipient quantity memo =>
      simp only [performAny, perform, bind_eq_ok, pure_eq_ok] at hp
      obtain ⟨s₂, hp, heq⟩ := hp
      cases heq
      rcases onTransfer_ok hp with ⟨hc, rfl⟩ | ⟨h1, h2, h3, n, hn, hstake⟩
      · exact h.extend (fun r hr => hr) (by rw [AnyCall.stakes, if_pos hc]) hnil
      · have hstakes : AnyCall.stakes self (.call ⟨ctx, .transfer sender recipient quantity memo,
            accepted⟩) = some (sender, quantity, memo) := by
          rw [AnyCall.stakes, if_neg (by rintro (hc | hc | hc) <;> contradiction)]
        exact h.extend_stake hstakes hn hlocks hshort hstake
    | unstake owner =>
      simp only [performAny, perform, bind_eq_ok, check_eq_ok, exists_const, pure_eq_ok] at hp
      obtain ⟨⟨s₂, t⟩, hp, -, heq⟩ := hp
      cases heq
      exact h.extend_unstake hmem rfl rfl hp
    | addblacklist account =>
      simp only [performAny, perform, bind_eq_ok, pure_eq_ok] at hp
      obtain ⟨s₂, hp, heq⟩ := hp
      cases heq
      exact h.extend (fun r hr => by rwa [(addblacklist_ok hp).1] at hr) rfl hnil
    | rmblacklist account =>
      simp only [performAny, perform, bind_eq_ok, pure_eq_ok] at hp
      obtain ⟨s₂, hp, heq⟩ := hp
      cases heq
      exact h.extend (fun r hr => by rwa [(rmblacklist_ok hp).1] at hr) rfl hnil

end Idle

/-! ## Runs within one period -/

theorem idle_init (self : Name) (calls : List AnyCall) : Idle self calls {} [] where
  locked := by simp
  unpaid := by simp
  positive := by simp

/-- **Run lemma**: a run within one period whose stakes are all locked stays idle. -/
theorem idle_run (rule : SubsidyRule) (self : Name) (calls : List AnyCall)
    (hshort : ∀ c ∈ calls, ∀ c' ∈ calls, c.now < c'.now + stakePeriod)
    (hlocks : ∀ c ∈ calls, c.Locks self) :
    Idle self calls (run (stepAny rule self) {} calls).1 (run (stepAny rule self) {} calls).2 :=
  run_invariant_of (Idle self calls) (fun _ c => c ∈ calls) (idle_init self calls)
    (fun _ _ c _ _ h hmem hs =>
      idle_step h hmem (hlocks c hmem) (fun c' hc' => hshort c' hc' c hmem) hs)
    calls (Along.of_forall (fun _ hc _ => hc))

/-- **No subsidy without a lock**: in a run within one period whose stakes are all locked for a
period or more, no account is sent more than it staked. -/
theorem paidTo_le_stakedBy (rule : SubsidyRule) (self : Name) (calls : List AnyCall)
    (hshort : ∀ c ∈ calls, ∀ c' ∈ calls, c.now < c'.now + stakePeriod)
    (hlocks : ∀ c ∈ calls, c.Locks self) (account : Name) :
    paidTo account (run (stepAny rule self) {} calls).2 ≤
      stakedBy self account (run (stepAny rule self) {} calls).2 := by
  have h := idle_run rule self calls hshort hlocks
  have hpaid : paidTo account (run (stepAny rule self) {} calls).2 = 0 := by
    refine List.sum_eq_zero (fun x hx => ?_)
    obtain ⟨e, he, rfl⟩ := List.mem_map.mp hx
    refine List.sum_eq_zero (fun y hy => ?_)
    obtain ⟨t, ht, rfl⟩ := List.mem_map.mp hy
    exact h.unpaid e he t (List.mem_of_mem_filter ht)
  have hstaked : 0 ≤ stakedBy self account (run (stepAny rule self) {} calls).2 := by
    apply List.sum_nonneg
    rw [List.forall_mem_map]
    exact fun e he => h.positive e he account
  omega

/-- A stake for one period and, a day later, an `unstake` that comes too early. -/
def stakedForAMonth : List AnyCall :=
  let owner := Name.ofString "owner"
  [.call ⟨⟨[], 1000⟩, .initglobal, true⟩,
    .call ⟨⟨[⟨owner, active⟩], 1000⟩,
      .transfer owner (Name.ofString "volentixstak") ⟨100000000000, vtx⟩ "1", true⟩,
    .call ⟨⟨[⟨owner, active⟩], 87400⟩, .unstake owner, true⟩]

theorem paidTo_le_stakedBy_month :
    paidTo (Name.ofString "owner")
        (run (stepAny .exact (Name.ofString "volentixstak")) {} stakedForAMonth).2 ≤
      stakedBy (Name.ofString "volentixstak") (Name.ofString "owner")
        (run (stepAny .exact (Name.ofString "volentixstak")) {} stakedForAMonth).2 := by
  refine paidTo_le_stakedBy .exact (Name.ofString "volentixstak") stakedForAMonth (by decide) ?_ _
  intro c hc account quantity memo n hstakes _ hn hp
  simp only [stakedForAMonth, List.mem_cons, List.not_mem_nil, or_false] at hc
  rcases hc with rfl | rfl | rfl
  · cases hstakes
  · cases hstakes
    have hone : stoi "1" = .ok 1 := by decide
    cases hone.symm.trans hn
    decide
  · cases hstakes

/-- A stake of no periods, withdrawn in the same block. -/
def stakedForNothing : List AnyCall :=
  let owner := Name.ofString "owner"
  [.call ⟨⟨[], 1000⟩, .initglobal, true⟩,
    .call ⟨⟨[⟨owner, active⟩], 1000⟩,
      .transfer owner (Name.ofString "volentixstak") ⟨100000000000, vtx⟩ "0", true⟩,
    .call ⟨⟨[⟨owner, active⟩], 1000⟩, .unstake owner, true⟩]

/-- The stake of no periods is paid back at once with one percent on top. -/
theorem stakedForNothing_pays : ¬ ∀ (rule : SubsidyRule) (self : Name) (calls : List AnyCall),
    (∀ c ∈ calls, ∀ c' ∈ calls, c.now < c'.now + stakePeriod) → ∀ account : Name,
      paidTo account (run (stepAny rule self) {} calls).2 ≤
        stakedBy self account (run (stepAny rule self) {} calls).2 := by
  intro h
  have hle := h .exact (Name.ofString "volentixstak") stakedForNothing (by decide)
    (Name.ofString "owner")
  exact absurd hle (by decide +kernel)

end VDexNode.Stak

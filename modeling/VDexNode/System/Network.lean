import VDexNode.Distribut.Collect
import VDexNode.Pool.Model
import VDexNode.System.Bridge
import VDexNode.System.Solvency

/-!
# VDexNode.System.Network — all contracts on one chain

The token contract with the staking, voting, custodian, reward and pool contracts.  Transfers notify
the staking contract, and the inline actions of every contract are run by the token contract; a
transaction goes through as a whole or not at all.

* `Cause` : why a balance falls.
* `network_outflow` : **in every run the supplies stay in order, and a balance falls only where its
  holder transfers, its issuer retires, or one of the four paying contracts pays what it owes.**
-/

namespace VDexNode.System

open Eosio

/-! ## The network -/

/-- The tables of the contracts. -/
structure Network (D : Type) where
  chain : Chain D
  custodian : Custodian.State := {}
  distribut : Distribut.State := {}

/-- Where the contracts whose names the code does not fix are deployed. -/
structure Accounts where
  custodian : Name
  distribut : Name
  pool : Name

/-- The actions of the staking contract. -/
inductive StakAction where
  | unstake (owner : Name)
  | initglobal
  | addblacklist (account : Name)
  | rmblacklist (account : Name)
  | clearstakes (account : Name)
  | clearglobals
deriving DecidableEq, Repr

/-- The actions on the network. -/
inductive NetworkAction where
  | token (action : Token.Action)
  | stak (action : StakAction)
  | vote (action : Vote.Action)
  | custodian (same previous : UInt64) (action : Custodian.Action)
  | distribut (action : Distribut.Action)
  | pool (action : Pool.Action)

/-- An inline transfer, as one of several authorities. -/
def paymentOf (t : TransferAction) : Pool.Payment :=
  ⟨[t.auth], t.sender, t.recipient, t.quantity, t.memo⟩

/-- An inline transfer is run, with the notification of the staking contract. -/
def sendPayment (rule : Stak.SubsidyRule) (env : Token.Env) (s : Bank) (t : Pool.Payment) :
    Result Bank :=
  deliver rule Vote.stakingContract { env with auths := t.auths } s t.sender t.recipient t.quantity
    t.memo

/-- An action of the token contract, with the notifications of the staking contract. -/
def tokenCall (rule : Stak.SubsidyRule) (env : Token.Env) (s : Bank) : Token.Action → Result Bank
  | .transfer sender recipient quantity memo =>
    deliver rule Vote.stakingContract env s sender recipient quantity memo
  | .issue recipient quantity memo => do
    let (token, inline) ← Token.issue env s.token recipient quantity memo
    (inline.toList.map paymentOf).foldlM (sendPayment rule env) { s with token := token }
  | action => do
    let (token, _) ← Token.step Custodian.tokenAcc s.token (env, action)
    return { s with token := token }

section Network

variable {D : Type} [Field D] [LinearOrder D]

/-- An action of the staking contract, with the notification of the voting contract. -/
def stakCall (sqrt : D → D) (rule : Stak.SubsidyRule) (env : Env) (s : Chain D)
    (action : StakAction) : Result (Chain D) :=
  let onBank (action : Action) : Result (Chain D) := do
    let (chain, _) ← chainStep sqrt rule Stak.votingContract s (env, .bank action)
    return chain
  match action with
  | .unstake owner => onBank (.unstake owner)
  | .initglobal => onBank .initglobal
  | .addblacklist account => onBank (.addblacklist account)
  | .rmblacklist account => onBank (.rmblacklist account)
  | .clearstakes account => do
    let stak ← Stak.clearstakes Vote.stakingContract env.toCtx s.bank.stak account
    return { s with bank := { s.bank with stak := stak } }
  | .clearglobals => do
    let stak ← Stak.clearglobals Vote.stakingContract env.toCtx s.bank.stak
    return { s with bank := { s.bank with stak := stak } }

/-- One transaction. -/
def networkStep (sqrt : D → D) (rule : Stak.SubsidyRule) (acc : Accounts) (s : Network D)
    (call : Env × NetworkAction) : Result (Network D × List Empty) :=
  match call.2 with
  | .token action => do
    let bank ← tokenCall rule call.1.toEnv s.chain.bank action
    check (call.1.accepted = true) "transaction rejected"
    return ({ s with chain := { s.chain with bank := bank } }, [])
  | .stak action => do
    let chain ← stakCall sqrt rule call.1 s.chain action
    return ({ s with chain := chain }, [])
  | .vote action => do
    let (chain, _) ← chainStep sqrt rule Stak.votingContract s.chain (call.1, .vote action)
    return ({ s with chain := chain }, [])
  | .custodian same previous action => do
    let env : Custodian.Env := ⟨call.1.toCtx, s.chain.bank.stak, call.1.accepted⟩
    let (custodian, sent) ←
      Custodian.step acc.custodian same.toNat previous s.custodian (env, action)
    let token ← sent.foldlM (fun token e => runRetire env token e.action) s.chain.bank.token
    return ({ s with
      chain := { s.chain with bank := { s.chain.bank with token := token } }
      custodian := custodian }, [])
  | .distribut action => do
    let (distribut, receipt) ← Distribut.perform acc.distribut s.distribut
      { toCtx := call.1.toCtx, voting := s.chain.vote } action
    let bank ← (receipt.transfers.map paymentOf).foldlM (sendPayment rule call.1.toEnv) s.chain.bank
    check (call.1.accepted = true) "transaction rejected"
    return ({ s with chain := { s.chain with bank := bank }, distribut := distribut }, [])
  | .pool action => do
    let payments ← Pool.perform acc.pool call.1.toCtx action
    let bank ← payments.foldlM (sendPayment rule call.1.toEnv) s.chain.bank
    check (call.1.accepted = true) "transaction rejected"
    return ({ s with chain := { s.chain with bank := bank } }, [])

/-- The tables of the token contract. -/
def Network.token (s : Network D) : Token.State := s.chain.bank.token

/-- Why the balance of `account` in `code` falls. -/
inductive Cause (acc : Accounts) (s : Network D) (env : Env) (account : Name) (code : SymbolCode) :
    NetworkAction → Prop
  /-- The account has transferred, under the authority over it. -/
  | sent (recipient : Name) (quantity : Asset) (memo : String)
    (auth : Token.Authorised s.token env.auths account) :
    Cause acc s env account code (.token (.transfer account recipient quantity memo))
  /-- The account has retired as the issuer. -/
  | retired (quantity : Asset) (memo : String) (st : Token.CurrencyStats)
    (retirable : Token.Retirable env.toEnv s.token quantity memo st)
    (issuer : st.issuer = account) :
    Cause acc s env account code (.token (.retire quantity memo))
  /-- The staking contract has paid rows that are due. -/
  | unstaked (owner : Name)
    (auth : hasAuth env.auths owner ∨ hasAuth env.auths Vote.stakingContract)
    (row : Stak.Stake) (due : row ∈ s.chain.bank.stak.due owner env.now)
    (staking : account = Vote.stakingContract) (vtx : code = Stak.vtx.code) :
    Cause acc s env account code (.stak (.unstake owner))
  /-- The reward contract has paid a row that was pending, or that the call has credited. -/
  | rewarded (action : Distribut.Action) (distribut : Distribut.State) (receipt : Distribut.Receipt)
    (performed : Distribut.perform acc.distribut s.distribut
      { toCtx := env.toCtx, voting := s.chain.vote } action = .ok (distribut, receipt))
    (row : Distribut.NodeReward)
    (pending : row ∈ receipt.credits.map Distribut.Credit.row ++ s.distribut.nodeReward.rows)
    (symbol : row.amount.symbol.code = code) (holder : account = acc.distribut) :
    Cause acc s env account code (.distribut action)
  /-- The pool has paid, under the authorities of the treasury and of the payee. -/
  | paid (payee : Name) (quantity : Asset) (treasury : hasAuth env.auths Pool.treasury)
    (auth : hasAuth env.auths payee) (symbol : quantity.symbol.code = code)
    (holder : account = acc.pool) :
    Cause acc s env account code (.pool (.payproducer payee quantity))
  /-- The custodian has retired the difference to a report. -/
  | reported (c : Custodian.Submission) (cur : UInt64) (sends : Custodian.Sends s.custodian c cur)
    (holder : account = Custodian.tokenAcc) (vtx : code = Stak.vtx.code) :
    Cause acc s env account code
      (.custodian c.same c.previous (.updtblnc c.account c.balance c.timestamp))

end Network

/-! ## Transfers -/

section Transfers

variable {rule : Stak.SubsidyRule} {env : Token.Env} {s s' : Bank}

/-- The token contract's part of a transfer. -/
theorem deliver_token {self sender recipient : Name} {quantity : Asset} {memo : String}
    (h : deliver rule self env s sender recipient quantity memo = .ok s') :
    Token.transfer env s.token sender recipient quantity memo = .ok s'.token := by
  simp only [deliver, bind_eq_ok, pure_eq_ok] at h
  obtain ⟨token, ht, stak, -, rfl⟩ := h
  exact ht

/-- A transfer takes from its sender only. -/
theorem transfer_falls {t t' : Token.State} {sender recipient : Name} {quantity : Asset}
    {memo : String} (h : Token.transfer env t sender recipient quantity memo = .ok t')
    {account : Name} {code : SymbolCode} (hlt : t'.balance account code < t.balance account code) :
    account = sender ∧ quantity.symbol.code = code := by
  obtain ⟨-, -, -, -, hpos, -⟩ := Token.transfer_ok h
  have hbal := Token.transfer_balance h account code
  by_cases hs : account = sender ∧ code = quantity.symbol.code
  · exact ⟨hs.1, hs.2.symm⟩
  · rw [if_neg hs] at hbal
    split_ifs at hbal <;> omega

/-- **Loop lemma**: the transfers an action sends keep the supplies in order, and a balance that
falls is that of the sender of one of them. -/
theorem sendAll_ok : ∀ {ts : List Pool.Payment} {s s' : Bank},
    ts.foldlM (sendPayment rule env) s = .ok s' →
      (Token.Sound s.token → Token.Sound s'.token) ∧
      ∀ account code, s'.token.balance account code < s.token.balance account code →
        ∃ t ∈ ts, account = t.sender ∧ t.quantity.symbol.code = code
  | [], s, s', h => by
    cases h
    exact ⟨id, fun _ _ hlt => absurd hlt (lt_irrefl _)⟩
  | t :: ts, s, s', h => by
    obtain ⟨s₁, ht, h⟩ := foldlM_cons_eq_ok.mp h
    have htoken := deliver_token ht
    obtain ⟨hsound, hfalls⟩ := sendAll_ok h
    refine ⟨fun hs => hsound (hs.of_transfer htoken), fun account code hlt => ?_⟩
    by_cases hfirst : s₁.token.balance account code < s.token.balance account code
    · exact ⟨t, List.mem_cons_self, transfer_falls htoken hfirst⟩
    · obtain ⟨t', ht', hcause⟩ := hfalls account code (by omega)
      exact ⟨t', List.mem_cons_of_mem t ht', hcause⟩

/-- A call of the token contract is a step of it. -/
theorem tokenCall_step {action : Token.Action} (h : tokenCall rule env s action = .ok s') :
    ∃ out, Token.step Custodian.tokenAcc s.token (env, action) = .ok (s'.token, out) := by
  cases action with
  | transfer sender recipient quantity memo =>
    refine ⟨[], ?_⟩
    simp only [Token.step, deliver_token h, ok_bind]
    rfl
  | issue recipient quantity memo =>
    simp only [tokenCall, bind_eq_ok] at h
    obtain ⟨⟨token, inline⟩, hi, h⟩ := h
    cases inline with
    | none =>
      cases h
      exact ⟨[], by simp only [Token.step, hi, ok_bind]; rfl⟩
    | some t =>
      obtain ⟨s₁, ht, h⟩ := foldlM_cons_eq_ok.mp h
      cases h
      have hrun : Token.runInline env token t = .ok s'.token := deliver_token ht
      exact ⟨[t], by simp only [Token.step, hi, hrun, ok_bind]; rfl⟩
  | _ =>
    simp only [tokenCall, bind_eq_ok, pure_eq_ok] at h
    obtain ⟨⟨token, out⟩, hs, rfl⟩ := h
    exact ⟨out, hs⟩

end Transfers

/-! ## One transaction -/

section Step

variable {D : Type} [Field D] [LinearOrder D] {sqrt : D → D} {rule : Stak.SubsidyRule}
  {acc : Accounts} {s s' : Network D} {env : Env}

/-- What is kept by a call that goes through, and why a balance falls. -/
def Accounted (acc : Accounts) (s s' : Network D) (env : Env) (action : NetworkAction) : Prop :=
  (Token.Sound s.token → Token.Sound s'.token) ∧
    ∀ account code, s'.token.balance account code < s.token.balance account code →
      Cause acc s env account code action

theorem accounted_of_same {action : NetworkAction} (h : s'.token = s.token) :
    Accounted acc s s' env action := by
  refine ⟨fun hs => h ▸ hs, fun account code hlt => ?_⟩
  rw [h] at hlt
  exact absurd hlt (lt_irrefl _)

theorem accounted_token {action : Token.Action} {bank : Bank}
    (h : tokenCall rule env.toEnv s.chain.bank action = .ok bank) (hs' : s'.chain.bank = bank) :
    Accounted acc s s' env (.token action) := by
  obtain ⟨out, hstep⟩ := tokenCall_step h
  have htoken : s'.token = bank.token := congrArg Bank.token hs'
  refine ⟨fun hs => ?_, fun account code hlt => ?_⟩
  · rw [htoken]
    exact Token.sound_step hs hstep
  · rw [htoken] at hlt
    rcases Token.outflow_cases hstep hlt with ⟨recipient, quantity, memo, rfl, hauth⟩ |
        ⟨quantity, memo, st, rfl, hret, hissuer⟩
    · exact .sent recipient quantity memo hauth
    · exact .retired quantity memo st hret hissuer

/-- What an action of the staking contract does to the bank. -/
theorem bankStep_of_onBank {action : Action} {chain : Chain D}
    (h : (do
      let (chain, _) ← chainStep sqrt rule Stak.votingContract s.chain (env, .bank action)
      return chain) = .ok chain) :
    ∃ receipts, bankStep rule Vote.stakingContract s.chain.bank (env, action) =
      .ok (chain.bank, receipts) := by
  simp only [bind_eq_ok, pure_eq_ok] at h
  obtain ⟨⟨chain', out⟩, hc, rfl⟩ := h
  simp only [chainStep, bind_eq_ok, pure_eq_ok] at hc
  obtain ⟨⟨bank, receipts⟩, hbank, vote, -, heq⟩ := hc
  cases heq
  exact ⟨receipts, hbank⟩

theorem accounted_unstake {owner : Name} {bank : Bank} {receipts : List Receipt}
    (h : bankStep rule Vote.stakingContract s.chain.bank (env, .unstake owner) =
      .ok (bank, receipts)) (hs' : s'.token = bank.token) :
    Accounted acc s s' env (.stak (.unstake owner)) := by
  simp only [bankStep, unstake, bind_eq_ok, pure_eq_ok, Prod.mk.injEq] at h
  obtain ⟨_, ⟨⟨stak, t⟩, hun, _, -, hd⟩, rfl, -⟩ := h
  obtain ⟨hauth, -, rfl, -⟩ := Stak.unstake_ok hun
  have htransfer := deliver_token hd
  refine ⟨fun hs => ?_, fun account code hlt => ?_⟩
  · rw [hs']
    exact hs.of_transfer htransfer
  · rw [hs'] at hlt
    obtain ⟨hstaking, hcode⟩ := transfer_falls htransfer hlt
    obtain ⟨-, -, -, -, hpos, -⟩ := Token.transfer_ok htransfer
    -- something positive was paid, so some row was due
    obtain ⟨row, hrow⟩ : ∃ row, row ∈ s.chain.bank.stak.due owner env.now := by
      refine List.exists_mem_of_ne_nil _ (fun hnil => ?_)
      simp only [hnil, List.map_nil, List.sum_nil] at hpos
      exact absurd hpos (lt_irrefl 0)
    exact .unstaked owner hauth row hrow hstaking hcode.symm

theorem accounted_stak {action : StakAction} {chain : Chain D}
    (h : stakCall sqrt rule env s.chain action = .ok chain) (hs' : s'.chain = chain) :
    Accounted acc s s' env (.stak action) := by
  have htoken : s'.token = chain.bank.token := congrArg (fun c => c.bank.token) hs'
  -- but for `unstake`, nothing is sent
  have hsame : ∀ {action' : StakAction}, s.chain.bank.token = chain.bank.token →
      Accounted acc s s' env (.stak action') := fun h => accounted_of_same (htoken.trans h.symm)
  cases action with
  | unstake owner =>
    obtain ⟨receipts, hbank⟩ := bankStep_of_onBank h
    exact accounted_unstake hbank htoken
  | initglobal =>
    obtain ⟨receipts, hbank⟩ := bankStep_of_onBank h
    exact hsame (congrArg (fun r => r.1.token) (Except.ok.inj hbank))
  | addblacklist account =>
    obtain ⟨receipts, hbank⟩ := bankStep_of_onBank h
    simp only [bankStep, bind_eq_ok, pure_eq_ok] at hbank
    obtain ⟨stak, -, hbank⟩ := hbank
    exact hsame (congrArg (fun r => r.1.token) hbank)
  | rmblacklist account =>
    obtain ⟨receipts, hbank⟩ := bankStep_of_onBank h
    simp only [bankStep, bind_eq_ok, pure_eq_ok] at hbank
    obtain ⟨stak, -, hbank⟩ := hbank
    exact hsame (congrArg (fun r => r.1.token) hbank)
  | clearstakes account =>
    simp only [stakCall, bind_eq_ok, pure_eq_ok] at h
    obtain ⟨stak, -, rfl⟩ := h
    exact hsame rfl
  | clearglobals =>
    simp only [stakCall, bind_eq_ok, pure_eq_ok] at h
    obtain ⟨stak, -, rfl⟩ := h
    exact hsame rfl

theorem accounted_custodian {same previous : UInt64} {action : Custodian.Action}
    {custodian : Custodian.State} {sent : List Custodian.Retirement} {token : Token.State}
    (hc : Custodian.step acc.custodian same.toNat previous s.custodian
      (⟨env.toCtx, s.chain.bank.stak, env.accepted⟩, action) = .ok (custodian, sent))
    (ht : sent.foldlM (fun token e =>
      runRetire ⟨env.toCtx, s.chain.bank.stak, env.accepted⟩ token e.action) s.chain.bank.token =
        .ok token) (hs' : s'.token = token) :
    Accounted acc s s' env (.custodian same previous action) := by
  rcases custodian_cases hc with ⟨rfl, -⟩ | ⟨c, cur, e, hcall, hsend, rfl, haction, -⟩
  · cases ht
    exact accounted_of_same hs'
  · obtain ⟨token', ht, heq⟩ := foldlM_cons_eq_ok.mp ht
    cases heq
    rw [haction] at ht
    refine ⟨fun hs => ?_, fun account code hlt => ?_⟩
    · rw [hs']
      exact hs.of_retire ht
    · obtain ⟨st, hret, hbal⟩ := Token.retire_balance ht
      rw [hs'] at hlt
      have hfell : account = st.issuer ∧
          code = (retireAction (cur - c.balance).toNat).quantity.symbol.code := by
        by_contra hne
        have hkept := hbal account code
        rw [if_neg hne, sub_zero] at hkept
        exact absurd (hkept ▸ hlt) (lt_irrefl _)
      have hissuer := issuer_of_runRetire ht hret.stat
      obtain ⟨rfl, rfl, -, rfl⟩ := BridgeCall.custodian.inj hcall
      exact .reported c cur hsend (hfell.1.trans hissuer) hfell.2

theorem accounted_distribut {action : Distribut.Action} {distribut : Distribut.State}
    {receipt : Distribut.Receipt} {bank : Bank}
    (hp : Distribut.perform acc.distribut s.distribut
      { toCtx := env.toCtx, voting := s.chain.vote } action = .ok (distribut, receipt))
    (hb : (receipt.transfers.map paymentOf).foldlM (sendPayment rule env.toEnv) s.chain.bank =
      .ok bank) (hs' : s'.chain.bank = bank) : Accounted acc s s' env (.distribut action) := by
  have htoken : s'.token = bank.token := congrArg Bank.token hs'
  obtain ⟨hsound, hfalls⟩ := sendAll_ok hb
  refine ⟨fun hs => htoken ▸ hsound hs, fun account code hlt => ?_⟩
  rw [htoken] at hlt
  obtain ⟨t, ht, hsender, hcode⟩ := hfalls account code hlt
  -- the transfers are the payments of rows that were there or have been credited
  obtain ⟨removed, htransfers, hperm⟩ := Distribut.moves_perform hp
  rw [htransfers, List.map_map] at ht
  obtain ⟨row, hrow, rfl⟩ := List.mem_map.mp ht
  exact .rewarded action distribut receipt hp row
    (hperm.mem_iff.mp (List.mem_append_right _ hrow)) hcode hsender

theorem accounted_pool {action : Pool.Action} {payments : List Pool.Payment} {bank : Bank}
    (hp : Pool.perform acc.pool env.toCtx action = .ok payments)
    (hb : payments.foldlM (sendPayment rule env.toEnv) s.chain.bank = .ok bank)
    (hs' : s'.chain.bank = bank) : Accounted acc s s' env (.pool action) := by
  have htoken : s'.token = bank.token := congrArg Bank.token hs'
  obtain ⟨hsound, hfalls⟩ := sendAll_ok hb
  refine ⟨fun hs => htoken ▸ hsound hs, fun account code hlt => ?_⟩
  rw [htoken] at hlt
  obtain ⟨t, ht, hsender, hcode⟩ := hfalls account code hlt
  cases action with
  | payproducer payee quantity =>
    simp only [Pool.perform, Pool.payproducer, requireAuth, bind_eq_ok, check_eq_ok, exists_const,
      pure_eq_ok] at hp
    obtain ⟨_, ⟨htreasury, hauth, rfl⟩, rfl⟩ := hp
    obtain rfl := List.mem_singleton.mp ht
    exact .paid payee quantity htreasury hauth hcode hsender
  | payliquid account quantity =>
    cases hp
    exact absurd ht List.not_mem_nil
  | payreward account quantity memo =>
    cases hp
    exact absurd ht List.not_mem_nil

/-- **Step lemma**: every transaction is accounted for. -/
theorem accounted_step {action : NetworkAction} {out : List Empty}
    (h : networkStep sqrt rule acc s (env, action) = .ok (s', out)) :
    Accounted acc s s' env action := by
  cases action with
  | token action =>
    simp only [networkStep, bind_eq_ok, pure_eq_ok] at h
    obtain ⟨bank, hb, _, -, heq⟩ := h
    cases heq
    exact accounted_token hb rfl
  | stak action =>
    simp only [networkStep, bind_eq_ok, pure_eq_ok] at h
    obtain ⟨chain, hc, heq⟩ := h
    cases heq
    exact accounted_stak hc rfl
  | vote action =>
    simp only [networkStep, chainStep, bind_eq_ok, pure_eq_ok] at h
    obtain ⟨_, ⟨vote, -, rfl⟩, heq⟩ := h
    cases heq
    exact accounted_of_same rfl
  | custodian same previous action =>
    simp only [networkStep, bind_eq_ok, pure_eq_ok] at h
    obtain ⟨⟨custodian, sent⟩, hc, token, ht, heq⟩ := h
    cases heq
    exact accounted_custodian hc ht rfl
  | distribut action =>
    simp only [networkStep, bind_eq_ok, pure_eq_ok] at h
    obtain ⟨⟨distribut, receipt⟩, hp, bank, hb, _, -, heq⟩ := h
    cases heq
    exact accounted_distribut hp hb rfl
  | pool action =>
    simp only [networkStep, bind_eq_ok, pure_eq_ok] at h
    obtain ⟨payments, hp, bank, hb, _, -, heq⟩ := h
    cases heq
    exact accounted_pool hp hb rfl

end Step

/-! ## Runs -/

/-- **Run lemma**: the supplies stay in order. -/
theorem sound_network_run {D : Type} [Field D] [LinearOrder D] (sqrt : D → D)
    (rule : Stak.SubsidyRule) (acc : Accounts) {s : Network D} (h : Token.Sound s.token)
    (calls : List (Env × NetworkAction)) :
    Token.Sound (run (networkStep sqrt rule acc) s calls).1.token :=
  run_invariant (fun (s : Network D) _ => Token.Sound s.token) h
    (fun _ _ _ _ _ h hs => (accounted_step hs).1 h) calls

/-- **Outflow**: from a state in order, every run of the network keeps the supplies in order, and at
each of its calls a balance falls for one of the causes only. -/
theorem network_outflow {D : Type} [Field D] [LinearOrder D] (sqrt : D → D)
    (rule : Stak.SubsidyRule) (acc : Accounts) {s : Network D} (h : Token.Sound s.token)
    (calls : List (Env × NetworkAction)) :
    Token.Sound (run (networkStep sqrt rule acc) s calls).1.token ∧
    Along (networkStep sqrt rule acc) (fun s call => ∀ s' out,
      networkStep sqrt rule acc s call = .ok (s', out) → ∀ account code,
        s'.token.balance account code < s.token.balance account code →
        Cause acc s call.1 account code call.2) s calls :=
  ⟨sound_network_run sqrt rule acc h calls,
    Along.of_forall (fun _ _ _ _ _ hs => (accounted_step hs).2)⟩

/-- The accounts the contracts are deployed at. -/
def mainAccounts : Accounts :=
  ⟨Name.ofString "vltxcstdn", Name.ofString "vtxdistribut", Name.ofString "volentixpool"⟩

/-- 500 units of VTX are issued to the pool. -/
def fundedPool : List (Env × NetworkAction) :=
  let issuer := Name.ofString "issuer"
  let env : Env := ⟨⟨⟨[⟨Custodian.tokenAcc, active⟩, ⟨issuer, active⟩], 0⟩, fun _ => true⟩, true⟩
  [(env, .token (.create issuer ⟨1000, Stak.vtx⟩)),
    (env, .token (.issue mainAccounts.pool ⟨500, Stak.vtx⟩ ""))]

/-- The network before anything has happened. -/
def emptyNetwork : Network ℚ := { chain := ⟨⟨{}, {}⟩, {}⟩ }

/-- The payment of all that to a node. -/
def nodePaid : Env × NetworkAction :=
  (⟨⟨⟨[⟨Pool.treasury, active⟩, ⟨Name.ofString "node", active⟩], 0⟩, fun _ => true⟩, true⟩,
    .pool (.payproducer (Name.ofString "node") ⟨500, Stak.vtx⟩))

/-- When the pool pays the node, its balance falls for the cause `paid`. -/
theorem network_outflow_fundedPool :
    let n := (run (networkStep id .exact mainAccounts) emptyNetwork fundedPool).1
    let n' := (run (networkStep id .exact mainAccounts) emptyNetwork (fundedPool ++ [nodePaid])).1
    Token.Sound n'.token ∧ n.token.balance mainAccounts.pool Stak.vtx.code = 500 ∧
      n'.token.balance mainAccounts.pool Stak.vtx.code = 0 ∧
      Cause mainAccounts n nodePaid.1 mainAccounts.pool Stak.vtx.code nodePaid.2 := by
  intro n n'
  have hbefore : n.token.balance mainAccounts.pool Stak.vtx.code = 500 := by decide +kernel
  have hafter : n'.token.balance mainAccounts.pool Stak.vtx.code = 0 := by decide +kernel
  obtain ⟨⟨m, out⟩, hpaid⟩ : ∃ r, networkStep id .exact mainAccounts n nodePaid = .ok r :=
    exists_of_isOk (by decide +kernel)
  have hm : n' = m := by
    show (run _ _ (fundedPool ++ [nodePaid])).1 = m
    rw [run_concat, commit_of_ok hpaid]
  obtain ⟨hsound, halong⟩ := network_outflow id .exact mainAccounts (s := emptyNetwork)
    Token.sound_init (fundedPool ++ [nodePaid])
  refine ⟨hsound, hbefore, hafter, ?_⟩
  refine ((along_concat _ _ _).mp halong).2 m out hpaid mainAccounts.pool Stak.vtx.code ?_
  rw [← hm, hafter]
  exact hbefore ▸ (by norm_num : (0 : ℤ) < 500)

end VDexNode.System

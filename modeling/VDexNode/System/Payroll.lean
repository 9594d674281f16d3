import VDexNode.System.Network

/-!
# VDexNode.System.Payroll — when the paying contracts can pay

An action of the reward contract or of the pool sends its transfers one after the other, and aborts
when one of them does.

* `Acceptable` : what the token contract asks of a transfer, apart from the funds.
* `sendAll_iff` : the transfers of one sender go through exactly when each is acceptable and the
  balance covers them in every currency.
* `payroll_iff` : **in every state a run reaches, an action of the reward contract or of the pool
  whose own checks pass goes through exactly when its transfers do.**
-/

namespace VDexNode.System

open Eosio

/-! ## Transfers of one sender -/

/-- What the token contract asks of a transfer, apart from the funds. -/
structure Acceptable (env : Token.Env) (s : Token.State) (t : Pool.Payment) : Prop where
  auth : Token.Authorised s t.auths t.sender
  other : t.sender ≠ t.recipient
  account : env.isAccount t.recipient = true
  currency : ∃ st, s.stats.find t.quantity.symbol.code = some st ∧
    t.quantity.symbol = st.supply.symbol
  valid : t.quantity.symbol.isValid
  positive : 0 < t.quantity.amount
  memo : t.memo.utf8ByteSize ≤ 256

/-- What a transfer takes in `code`. -/
def taken (code : SymbolCode) (t : Pool.Payment) : ℤ :=
  if t.quantity.symbol.code = code then t.quantity.amount else 0

/-- What transfers take in `code`. -/
def dueIn (code : SymbolCode) (ts : List Pool.Payment) : ℤ := (ts.map (taken code)).sum

/-- The transfers are acceptable, and the balance of `self` covers them in every currency. -/
def Covered (env : Token.Env) (self : Name) (s : Token.State) (ts : List Pool.Payment) : Prop :=
  (∀ t ∈ ts, Acceptable env s t) ∧ ∀ code, dueIn code ts ≤ s.balance self code

section Transfers

variable {rule : Stak.SubsidyRule} {env : Token.Env} {self : Name}

/-- A transfer leaves alone what `Acceptable` reads. -/
theorem acceptable_congr {s s' : Token.State} (hstats : s'.stats = s.stats)
    (hrest : s'.restrictions = s.restrictions) {t : Pool.Payment} :
    Acceptable env s' t ↔ Acceptable env s t := by
  have hauth : Token.Authorised s' t.auths t.sender ↔ Token.Authorised s t.auths t.sender := by
    unfold Token.Authorised
    rw [hrest]
  constructor
  · rintro ⟨h1, h2, h3, h4, h5, h6, h7⟩
    exact ⟨hauth.mp h1, h2, h3, hstats ▸ h4, h5, h6, h7⟩
  · rintro ⟨h1, h2, h3, h4, h5, h6, h7⟩
    exact ⟨hauth.mpr h1, h2, h3, hstats ▸ h4, h5, h6, h7⟩

/-- A transfer that goes through is acceptable and covered. -/
theorem acceptable_of_transfer {s s' : Token.State} {t : Pool.Payment}
    (h : Token.transfer { env with auths := t.auths } s t.sender t.recipient t.quantity t.memo =
      .ok s') :
    Acceptable env s t ∧ t.quantity.amount ≤ s.balance t.sender t.quantity.symbol.code := by
  simp only [Token.transfer, bind_eq_ok, Table.get_eq_ok, check_eq_ok, exists_const] at h
  obtain ⟨_, hauth, hne, hacc, st, hst, hval, hpos, hsym, hmemo, s₁, hsub, -⟩ := h
  obtain ⟨row, hrow, hle, -, -⟩ := Token.subBalance_ok hsub
  refine ⟨⟨Token.requireSender_eq_ok.mp hauth, hne, hacc, ⟨st, hst, hsym⟩, hval.2, hpos, hmemo⟩, ?_⟩
  rw [Token.State.balance, hrow]
  exact hle

/-- An acceptable and covered transfer goes through. -/
theorem Acceptable.transfer {s : Token.State} (hs : Token.Sound s) {t : Pool.Payment}
    (h : Acceptable env s t)
    (hle : t.quantity.amount ≤ s.balance t.sender t.quantity.symbol.code) :
    ∃ s', Token.transfer { env with auths := t.auths } s t.sender t.recipient t.quantity t.memo =
      .ok s' := by
  obtain ⟨st, hst, hsym⟩ := h.currency
  exact hs.transfer_of (Token.requireSender_eq_ok.mpr h.auth) h.other h.account hst hsym h.valid
    h.positive h.memo hle

/-- A transfer that does not touch the staking account is the token contract's alone. -/
theorem sendPayment_iff {s s' : Bank} {t : Pool.Payment} (hsender : t.sender ≠ Vote.stakingContract)
    (hrecipient : t.recipient ≠ Vote.stakingContract) :
    sendPayment rule env s t = .ok s' ↔
      Token.transfer { env with auths := t.auths } s.token t.sender t.recipient t.quantity t.memo =
        .ok s'.token ∧ s'.stak = s.stak := by
  have hother : ¬ (t.sender = Vote.stakingContract ∨ t.recipient = Vote.stakingContract) := by
    rintro (h | h)
    · exact hsender h
    · exact hrecipient h
  simp only [sendPayment, deliver, if_neg hother, bind_eq_ok, pure_eq_ok]
  constructor
  · rintro ⟨token, ht, stak, hstak, rfl⟩
    cases hstak
    exact ⟨ht, rfl⟩
  · rintro ⟨ht, hstak⟩
    refine ⟨s'.token, ht, s.stak, rfl, ?_⟩
    rw [← hstak]

/-- What is covered after the first transfer was covered with it before. -/
theorem covered_cons {s s₁ : Token.State} {t : Pool.Payment} {ts : List Pool.Payment}
    (hsender : t.sender = self)
    (ht : Token.transfer { env with auths := t.auths } s t.sender t.recipient t.quantity t.memo =
      .ok s₁) : Covered env self s (t :: ts) ↔ Covered env self s₁ ts := by
  have hacc := (acceptable_of_transfer ht).1
  have hcongr : ∀ t', Acceptable env s₁ t' ↔ Acceptable env s t' := fun t' =>
    acceptable_congr (Token.transfer_stats ht) (Token.transfer_restrictions ht)
  have hbal : ∀ code, s₁.balance self code = s.balance self code - taken code t := by
    intro code
    have hmoved := Token.transfer_balance ht self code
    have hother : ¬ (self = t.recipient ∧ code = t.quantity.symbol.code) := fun he =>
      hacc.other (hsender.trans he.1)
    rw [if_neg hother, add_zero] at hmoved
    rw [hmoved, taken]
    congr 1
    exact if_congr ⟨fun he => he.2.symm, fun he => ⟨hsender.symm, he.symm⟩⟩ rfl rfl
  have hdue : ∀ code, dueIn code (t :: ts) = taken code t + dueIn code ts := fun code =>
    List.sum_cons
  constructor
  · rintro ⟨hall, hle⟩
    refine ⟨fun t' ht' => (hcongr t').mpr (hall t' (List.mem_cons_of_mem t ht')), fun code => ?_⟩
    have := hle code
    rw [hdue] at this
    rw [hbal]
    omega
  · rintro ⟨hall, hle⟩
    refine ⟨fun t' ht' => ?_, fun code => ?_⟩
    · rcases List.mem_cons.mp ht' with rfl | ht'
      · exact hacc
      · exact (hcongr t').mp (hall t' ht')
    · have := hle code
      rw [hbal] at this
      rw [hdue]
      omega

/-- What covers transfers covers the first of them. -/
theorem Covered.head {s : Token.State} {t : Pool.Payment} {ts : List Pool.Payment}
    (h : Covered env self s (t :: ts)) (hsender : t.sender = self) :
    t.quantity.amount ≤ s.balance t.sender t.quantity.symbol.code := by
  have hrest : 0 ≤ dueIn t.quantity.symbol.code ts := by
    apply List.sum_nonneg
    rw [List.forall_mem_map]
    intro t' ht'
    have hpos := (h.1 t' (List.mem_cons_of_mem t ht')).positive
    unfold taken
    split_ifs <;> omega
  have hle := h.2 t.quantity.symbol.code
  have hdue : dueIn t.quantity.symbol.code (t :: ts) =
      taken t.quantity.symbol.code t + dueIn t.quantity.symbol.code ts := List.sum_cons
  rw [hdue, taken, if_pos rfl] at hle
  rw [hsender]
  omega

/-- **Loop lemma**: the transfers of `self` go through exactly when they are covered. -/
theorem sendAll_iff (hself : self ≠ Vote.stakingContract) : ∀ {ts : List Pool.Payment} {s : Bank},
    Token.Sound s.token → (∀ t ∈ ts, t.sender = self) →
    (∀ t ∈ ts, t.recipient ≠ Vote.stakingContract) →
    ((∃ s', ts.foldlM (sendPayment rule env) s = .ok s') ↔ Covered env self s.token ts)
  | [], s, hs, _, _ => by
    refine iff_of_true ⟨s, rfl⟩ ⟨by simp, fun code => ?_⟩
    exact (hs code).balance_nonneg self code
  | t :: ts, s, hs, hsender, hstak => by
    have ht0 : t.sender = self := hsender t List.mem_cons_self
    have hiff : ∀ s₁ : Bank, sendPayment rule env s t = .ok s₁ ↔ _ := fun s₁ =>
      sendPayment_iff (ht0 ▸ hself) (hstak t List.mem_cons_self)
    have hrest : ∀ s₁ : Bank, Token.Sound s₁.token →
        ((∃ s', ts.foldlM (sendPayment rule env) s₁ = .ok s') ↔ Covered env self s₁.token ts) :=
      fun _ hs₁ => sendAll_iff hself hs₁ (fun t' ht' => hsender t' (List.mem_cons_of_mem t ht'))
        (fun t' ht' => hstak t' (List.mem_cons_of_mem t ht'))
    constructor
    · rintro ⟨s', h⟩
      obtain ⟨s₁, ht, h⟩ := foldlM_cons_eq_ok.mp h
      obtain ⟨htransfer, -⟩ := (hiff s₁).mp ht
      exact (covered_cons ht0 htransfer).mpr ((hrest s₁ (hs.of_transfer htransfer)).mp ⟨s', h⟩)
    · intro hcov
      obtain ⟨token, htransfer⟩ := (hcov.1 t List.mem_cons_self).transfer hs (hcov.head ht0)
      have ht := (hiff ⟨token, s.stak⟩).mpr ⟨htransfer, rfl⟩
      obtain ⟨s', h⟩ := (hrest ⟨token, s.stak⟩ (hs.of_transfer htransfer)).mpr
        ((covered_cons ht0 htransfer).mp hcov)
      exact ⟨s', foldlM_cons_eq_ok.mpr ⟨_, ht, h⟩⟩

end Transfers

/-! ## Runs -/

section Runs

variable {D : Type} [Field D] [LinearOrder D] {sqrt : D → D} {rule : Stak.SubsidyRule}
  {acc : Accounts} {s : Network D} {env : Env}

/-- An action of the reward contract goes through exactly when its own checks pass and its transfers
do. -/
theorem distribut_iff {action : Distribut.Action} {distribut : Distribut.State}
    {receipt : Distribut.Receipt}
    (hp : Distribut.perform acc.distribut s.distribut
      { toCtx := env.toCtx, voting := s.chain.vote } action = .ok (distribut, receipt)) :
    (∃ r, networkStep sqrt rule acc s (env, .distribut action) = .ok r) ↔
      (∃ bank, (receipt.transfers.map paymentOf).foldlM (sendPayment rule env.toEnv) s.chain.bank =
        .ok bank) ∧ env.accepted = true := by
  simp only [networkStep, hp, ok_bind, bind_eq_ok, check_eq_ok, exists_const, pure_eq_ok]
  constructor
  · rintro ⟨_, bank, hb, hacc, -⟩
    exact ⟨⟨bank, hb⟩, hacc⟩
  · rintro ⟨⟨bank, hb⟩, hacc⟩
    exact ⟨_, bank, hb, hacc, rfl⟩

/-- The transfers of the reward contract are its own. -/
theorem sender_of_distribut {action : Distribut.Action} {distribut : Distribut.State}
    {receipt : Distribut.Receipt} {denv : Distribut.Env D}
    (hp : Distribut.perform acc.distribut s.distribut denv action = .ok (distribut, receipt)) :
    ∀ t ∈ receipt.transfers.map paymentOf, t.sender = acc.distribut := by
  obtain ⟨removed, htransfers, -⟩ := Distribut.moves_perform hp
  rw [htransfers, List.map_map]
  intro t ht
  obtain ⟨row, -, rfl⟩ := List.mem_map.mp ht
  rfl

theorem payproducer_iff {payee : Name} {quantity : Asset} :
    (∃ r, networkStep sqrt rule acc s (env, .pool (.payproducer payee quantity)) = .ok r) ↔
      hasAuth env.auths Pool.treasury ∧ hasAuth env.auths payee ∧
      (∃ bank, [⟨[⟨acc.pool, active⟩, ⟨Pool.treasury, active⟩], acc.pool, payee, quantity,
        ""⟩].foldlM (sendPayment rule env.toEnv) s.chain.bank = .ok bank) ∧
      env.accepted = true := by
  simp only [networkStep, Pool.perform, Pool.payproducer, requireAuth, bind_eq_ok, check_eq_ok,
    exists_const, pure_eq_ok]
  constructor
  · rintro ⟨_, _, ⟨_, ⟨htreasury, hauth, rfl⟩, rfl⟩, bank, hb, hacc, -⟩
    exact ⟨htreasury, hauth, ⟨bank, hb⟩, hacc⟩
  · rintro ⟨htreasury, hauth, ⟨bank, hb⟩, hacc⟩
    exact ⟨_, _, ⟨_, ⟨htreasury, hauth, rfl⟩, rfl⟩, bank, hb, hacc, rfl⟩

/-- A transfer of another account than `volentixtsys` to the staking contract needs a number in its
memo. -/
theorem not_sendPayment_of_memo {s s' : Bank} {t : Pool.Payment}
    (hrecipient : t.recipient = Vote.stakingContract) (hsender : t.sender ≠ Vote.stakingContract)
    (htoken : t.sender ≠ Stak.tokenAcc) (hmemo : t.memo = "") :
    sendPayment rule env.toEnv s t ≠ .ok s' := by
  intro h
  simp only [sendPayment, deliver, if_pos (Or.inr hrecipient), bind_eq_ok] at h
  obtain ⟨token, -, stak, hstak, -⟩ := h
  have hnone : ¬ (t.sender = Vote.stakingContract ∨ t.recipient ≠ Vote.stakingContract ∨
      t.sender = Stak.tokenAcc) := by
    rintro (h | h | h)
    · exact hsender h
    · exact h hrecipient
    · exact htoken h
  rw [Stak.onTransfer, if_neg hnone, hmemo] at hstak
  cases hstak

/-- **Payroll**: in every state a run reaches from one in order, with the reward contract and the
pool apart from the staking contract, an action of the reward contract whose own checks pass, and
which pays no node of the name of the staking contract, goes through exactly when its transfers are
covered and the other accounts that are notified accept them; and so does a payment of the pool to
another account than the staking contract, under the authorities it asks for.  A payment of the pool
to the staking contract, which finds no number of periods in its memo, never goes through. -/
theorem payroll_iff (sqrt : D → D) (rule : Stak.SubsidyRule) (acc : Accounts) {s : Network D}
    (h : Token.Sound s.token) (hdistribut : acc.distribut ≠ Vote.stakingContract)
    (hpool : acc.pool ≠ Vote.stakingContract) (calls : List (Env × NetworkAction)) (env : Env) :
    let n := (run (networkStep sqrt rule acc) s calls).1
    (∀ action distribut receipt, Distribut.perform acc.distribut n.distribut
        { toCtx := env.toCtx, voting := n.chain.vote } action = .ok (distribut, receipt) →
      (∀ t ∈ receipt.transfers, t.recipient ≠ Vote.stakingContract) →
      ((∃ r, networkStep sqrt rule acc n (env, .distribut action) = .ok r) ↔
        Covered env.toEnv acc.distribut n.token (receipt.transfers.map paymentOf) ∧
          env.accepted = true)) ∧
    (∀ payee quantity, payee ≠ Vote.stakingContract →
      ((∃ r, networkStep sqrt rule acc n (env, .pool (.payproducer payee quantity)) = .ok r) ↔
        hasAuth env.auths Pool.treasury ∧ hasAuth env.auths payee ∧
        Covered env.toEnv acc.pool n.token [⟨[⟨acc.pool, active⟩, ⟨Pool.treasury, active⟩],
          acc.pool, payee, quantity, ""⟩] ∧ env.accepted = true)) ∧
    ∀ quantity, acc.pool ≠ Stak.tokenAcc → ¬ ∃ r,
      networkStep sqrt rule acc n (env, .pool (.payproducer Vote.stakingContract quantity)) =
        .ok r := by
  intro n
  have hsound : Token.Sound n.token := sound_network_run sqrt rule acc h calls
  refine ⟨fun action distribut receipt hp hother => ?_, fun payee quantity hpayee => ?_,
    fun quantity htoken => ?_⟩
  · rw [distribut_iff hp, sendAll_iff hdistribut hsound (sender_of_distribut hp) ?_]
    · rfl
    · rw [List.forall_mem_map]
      exact hother
  · rw [payproducer_iff, sendAll_iff hpool hsound (by simp) (by simpa using hpayee)]
    rfl
  · rw [payproducer_iff]
    rintro ⟨-, -, ⟨bank, hb⟩, -⟩
    obtain ⟨bank', hpaid, -⟩ := foldlM_cons_eq_ok.mp hb
    exact not_sendPayment_of_memo rfl hpool htoken rfl hpaid

end Runs

theorem payroll_iff_fundedPool :
    let n := (run (networkStep id .exact mainAccounts) emptyNetwork fundedPool).1
    ∃ r, networkStep id .exact mainAccounts n nodePaid = .ok r := by
  intro n
  have hbal : n.token.balance mainAccounts.pool Stak.vtx.code = 500 := by decide +kernel
  have hsound : Token.Sound n.token :=
    sound_network_run id .exact mainAccounts (s := emptyNetwork) Token.sound_init fundedPool
  have hcov : Covered nodePaid.1.toEnv mainAccounts.pool n.token [⟨[⟨mainAccounts.pool, active⟩,
      ⟨Pool.treasury, active⟩], mainAccounts.pool, Name.ofString "node", ⟨500, Stak.vtx⟩, ""⟩] := by
    refine ⟨fun t ht => ?_, fun code => ?_⟩
    · obtain rfl := List.mem_singleton.mp ht
      exact ⟨by decide +kernel, by decide +kernel, rfl,
        ⟨⟨⟨500, Stak.vtx⟩, ⟨1000, Stak.vtx⟩, Name.ofString "issuer"⟩, by decide +kernel, rfl⟩,
        by decide, by decide, by decide⟩
    · have hnonneg := (hsound code).balance_nonneg mainAccounts.pool code
      show taken code _ + 0 ≤ _
      unfold taken
      split_ifs with hcode
      · have hvtx : Stak.vtx.code = code := hcode
        rw [← hvtx, hbal]
        exact le_refl (500 + 0 : ℤ)
      · omega
  have hpool : mainAccounts.pool ≠ Vote.stakingContract := by decide +kernel
  have hdistribut : mainAccounts.distribut ≠ Vote.stakingContract := by decide +kernel
  have hnode : Name.ofString "node" ≠ Vote.stakingContract := by decide +kernel
  exact ((payroll_iff id .exact mainAccounts (s := emptyNetwork) Token.sound_init hdistribut hpool
    fundedPool nodePaid.1).2.1 _ _ hnode).mpr ⟨by decide +kernel, by decide +kernel, hcov, rfl⟩

end VDexNode.System

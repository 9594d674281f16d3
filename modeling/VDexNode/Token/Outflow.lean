import VDexNode.Token.Supply

/-!
# VDexNode.Token.Outflow — who has to agree when a balance falls

A restriction replaces the authority of an account by a given permission.  `transfer` asks for it;
`retire` asks for the issuer's own authority and looks at no restriction.

* `outflow_cases` : **a balance falls in a transfer from the account or in a retirement by it.**
* `Retirable` : what `retire` checks; from a state in order it is all that `retire` needs.
* `outflow_guarded_iff` : an action respects the restrictions exactly when it is no retirement past
  the issuer's own.
-/

namespace VDexNode.Token

open Eosio

/-! ## Authority over a balance -/

/-- The authority over the balances of `account`: its restriction, where it has one, and its own
otherwise. -/
def Authorised (s : State) (auths : List PermissionLevel) (account : Name) : Prop :=
  match s.restrictions.find account with
  | some r => ⟨r.code, r.permission⟩ ∈ auths
  | none => hasAuth auths account

instance (s : State) (auths : List PermissionLevel) (account : Name) :
    Decidable (Authorised s auths account) := by
  unfold Authorised
  split <;> infer_instance

/-- No balance falls without the authority over it. -/
def OutflowGuarded (self : Name) (s : State) (call : Env × Action) : Prop :=
  ∀ s' out, step self s call = .ok (s', out) → ∀ account code,
    s'.balance account code < s.balance account code → Authorised s call.1.auths account

/-- `requireSender` asks for the authority over the balances of the sender. -/
theorem requireSender_eq_ok {env : Env} {s : State} {sender : Name} :
    requireSender env s sender = .ok () ↔ Authorised s env.auths sender := by
  unfold requireSender Authorised
  cases s.restrictions.find sender with
  | none => exact check_eq_ok
  | some r => exact check_eq_ok

/-! ## Retirements -/

/-- What `retire` asks of its caller and of the tables; `st` is the row of the retired symbol. -/
structure Retirable (env : Env) (s : State) (quantity : Asset) (memo : String)
    (st : CurrencyStats) : Prop where
  stat : s.stats.find quantity.symbol.code = some st
  auth : hasAuth env.auths st.issuer
  valid : quantity.isValid
  positive : 0 < quantity.amount
  symbol : quantity.symbol = st.supply.symbol
  memo : memo.utf8ByteSize ≤ 256
  covered : quantity.amount ≤ s.balance st.issuer quantity.symbol.code

section Retire

variable {env : Env} {s s' : State} {quantity : Asset} {memo : String} {st : CurrencyStats}

/-- A retirement takes its quantity from the issuer. -/
theorem retire_balance (h : retire env s quantity memo = .ok s') :
    ∃ st, Retirable env s quantity memo st ∧ ∀ o code, s'.balance o code = s.balance o code -
      (if o = st.issuer ∧ code = quantity.symbol.code then quantity.amount else 0) := by
  simp only [retire, bind_eq_ok, Table.get_eq_ok, check_eq_ok, exists_const, Asset.sub_eq_ok] at h
  obtain ⟨-, hmemo, st, hst, u, hauth, hval, hpos, hsym, _, -, hsub⟩ := h
  have hbal := subBalance_balance hsub
  obtain ⟨row, hrow, hle, -, -⟩ := subBalance_ok hsub
  have hcov : s.balance st.issuer quantity.symbol.code = row.balance.amount := by
    show ((s.account st.issuer quantity.symbol.code).map (fun a => a.balance.amount)).getD 0 = _
    rw [show s.account st.issuer quantity.symbol.code = some row from hrow]
    rfl
  refine ⟨st, ⟨hst, check_eq_ok.mp hauth, hval, hpos, hsym, hmemo, ?_⟩, hbal⟩
  rw [hcov]
  exact hle

/-- In a state in order, nothing else stops a retirement. -/
theorem Sound.retire_of (h : Sound s) (hr : Retirable env s quantity memo st) :
    ∃ s', retire env s quantity memo = .ok s' := by
  obtain ⟨hst, hauth, hval, hpos, hsym, hmemo, hcov⟩ := hr
  have hmem := Table.find_mem hst
  have hcode : st.code = quantity.symbol.code := Table.find_key hst
  cases hrow : s.account st.issuer quantity.symbol.code with
  | none =>
    rw [State.balance, hrow, Option.map_none, Option.getD_none] at hcov
    omega
  | some row =>
    rw [State.balance, hrow, Option.map_some, Option.getD_some] at hcov
    -- the row carries the symbol of the one `stat` row of its code
    obtain ⟨st', hst', hsym'⟩ := (h st.code).symbol row (Table.find_mem hrow)
    have hkey : st'.code = st.code := by
      rw [CurrencyStats.code, hsym', (account_key hrow).2, hcode]
    obtain rfl := s.stats.key_injOn hst' hmem hkey
    have htotal := (h st'.code).total st' hmem
    have hle := (h st'.code).balance_le hrow
    have hsup := (h st'.code).supply_le st' hmem
    have hmax := (h st'.code).max_le st' hmem
    have hmaxAmount := Asset.maxAmount_eq
    rw [if_pos rfl, add_zero, hcode] at htotal
    have hsupply : st'.supply.sub quantity =
        .ok ⟨st'.supply.amount - quantity.amount, st'.supply.symbol⟩ :=
      Asset.sub_eq_ok.mpr ⟨hsym, by omega, by omega, rfl⟩
    have hbalance : row.balance.sub quantity =
        .ok ⟨row.balance.amount - quantity.amount, row.balance.symbol⟩ :=
      Asset.sub_eq_ok.mpr ⟨by rw [hsym, hsym'], by omega, by omega, rfl⟩
    have hsub : ∀ stats, subBalance { s with stats := stats } st'.issuer quantity =
        .ok { s with
          stats := stats
          accounts := s.accounts.put
            ⟨st'.issuer, ⟨row.balance.amount - quantity.amount, row.balance.symbol⟩⟩ } := by
      intro stats
      have hget : s.accounts.get (toLex (st'.issuer, quantity.symbol.code))
          "no balance object found" = .ok row := Table.get_eq_ok.mpr hrow
      simp only [subBalance, hget, check_of hcov, hbalance, ok_bind]
      rfl
    simp only [retire, requireAuth, check_of hval.2, check_of hmemo, Table.get_eq_ok.mpr hst,
      check_of hauth, check_of hval, check_of hpos, check_of hsym, hsupply, ok_bind]
    exact ⟨_, hsub _⟩

end Retire

/-! ## One action -/

/-- An issue adds its quantity to the issuer, and the inline transfer takes it from there. -/
theorem issue_balance {env : Env} {s s' : State} {recipient : Name} {quantity : Asset}
    {memo : String} {inline : Option TransferAction}
    (h : issue env s recipient quantity memo = .ok (s', inline)) :
    ∃ issuer, 0 < quantity.amount ∧
      (∀ o code, s'.balance o code = s.balance o code +
        (if o = issuer ∧ code = quantity.symbol.code then quantity.amount else 0)) ∧
      ∀ t, inline = some t → t.sender = issuer ∧ t.quantity = quantity := by
  simp only [issue, bind_eq_ok, Table.get_eq_ok, check_eq_ok, exists_const] at h
  obtain ⟨-, -, st, -, _, -, -, hpos, -, -, _, -, s₁, hadd, h⟩ := h
  have hbal := addBalance_balance hadd
  refine ⟨st.issuer, hpos, ?_⟩
  split_ifs at h with hne
  · cases h
    refine ⟨fun o code => hbal o code, fun t ht => ?_⟩
    cases ht
    exact ⟨rfl, rfl⟩
  · cases h
    refine ⟨fun o code => hbal o code, fun t ht => ?_⟩
    cases ht

/-- An issue and the inline transfer it sends lower no balance. -/
theorem issue_balance_le {self : Name} {env : Env} {s s' : State} {recipient : Name}
    {quantity : Asset} {memo : String} {out : List TransferAction}
    (h : step self s (env, .issue recipient quantity memo) = .ok (s', out)) (o : Name)
    (code : SymbolCode) : s.balance o code ≤ s'.balance o code := by
  simp only [step, bind_eq_ok] at h
  obtain ⟨⟨s₁, inline⟩, hi, h⟩ := h
  obtain ⟨issuer, hpos, hissued, hinline⟩ := issue_balance hi
  have hissued := hissued o code
  cases inline with
  | none =>
    have hsame : s₁ = s' := (Prod.mk.inj (pure_eq_ok.mp h)).1
    rw [hsame] at hissued
    split_ifs at hissued <;> omega
  | some t =>
    -- the inline transfer only moves on what has just been issued
    simp only [bind_eq_ok, pure_eq_ok] at h
    obtain ⟨s₂, ht, heq⟩ := h
    cases heq
    obtain ⟨hsender, hquantity⟩ := hinline t rfl
    have hmoved := transfer_balance ht o code
    rw [hsender, hquantity] at hmoved
    split_ifs at hissued hmoved <;> omega

/-- Opening a row leaves the balances as they are. -/
theorem openAccount_balance {env : Env} {s s' : State} {owner : Name} {symbol : Symbol}
    {ramPayer : Name} (h : openAccount env s owner symbol ramPayer = .ok s') (o : Name)
    (code : SymbolCode) : s'.balance o code = s.balance o code := by
  obtain ⟨-, rfl | ⟨hnone, rfl⟩⟩ := openAccount_ok h
  · rfl
  · simp only [State.balance, State.account, Table.find_put, Account.key, toLex_inj,
      Prod.mk.injEq] at hnone ⊢
    split_ifs with hk
    · obtain ⟨rfl, rfl⟩ := hk
      rw [hnone]
      rfl
    · rfl

/-- Closing a row leaves the balances as they are. -/
theorem close_balance {env : Env} {s s' : State} {owner : Name} {symbol : Symbol}
    (h : close env s owner symbol = .ok s') (o : Name) (code : SymbolCode) :
    s'.balance o code = s.balance o code := by
  obtain ⟨row, hrow, hzero, rfl⟩ := close_ok h
  simp only [State.balance, State.account, Table.find_erase] at hrow ⊢
  split_ifs with hk
  · rw [hk, hrow, Option.map_some, Option.getD_some, hzero]
    rfl
  · rfl

/-- **Outflow**: a balance falls in a transfer from the account, or in a retirement where it is the
issuer. -/
theorem outflow_cases {self : Name} {s s' : State} {call : Env × Action}
    {out : List TransferAction} (hs : step self s call = .ok (s', out)) {account : Name}
    {code : SymbolCode} (hlt : s'.balance account code < s.balance account code) :
    (∃ recipient quantity memo, call.2 = .transfer account recipient quantity memo ∧
      Authorised s call.1.auths account) ∨
    ∃ quantity memo st, call.2 = .retire quantity memo ∧
      Retirable call.1 s quantity memo st ∧ st.issuer = account := by
  obtain ⟨env, action⟩ := call
  cases action with
  | create issuer maximumSupply =>
    simp only [step, bind_eq_ok, pure_eq_ok] at hs
    obtain ⟨s₁, hs, heq⟩ := hs
    cases heq
    obtain ⟨-, -, -, rfl⟩ := create_ok hs
    exact absurd hlt (lt_irrefl _)
  | issue recipient quantity memo => exact absurd hlt (issue_balance_le hs account code).not_gt
  | retire quantity memo =>
    simp only [step, bind_eq_ok, pure_eq_ok] at hs
    obtain ⟨s₁, hs, heq⟩ := hs
    cases heq
    obtain ⟨st, hr, hbal⟩ := retire_balance hs
    refine Or.inr ⟨quantity, memo, st, rfl, hr, ?_⟩
    by_contra hne
    rw [hbal, if_neg (fun hc => hne hc.1.symm), sub_zero] at hlt
    exact absurd hlt (lt_irrefl _)
  | transfer sender recipient quantity memo =>
    simp only [step, bind_eq_ok, pure_eq_ok] at hs
    obtain ⟨s₁, hs, heq⟩ := hs
    cases heq
    obtain ⟨hauth, -, -, -, hpos, -⟩ := transfer_ok hs
    have hbal := transfer_balance hs account code
    by_cases hacc : account = sender
    · subst hacc
      exact Or.inl ⟨recipient, quantity, memo, rfl, requireSender_eq_ok.mp hauth⟩
    · rw [if_neg (fun hc => hacc hc.1)] at hbal
      split_ifs at hbal <;> omega
  | «open» owner symbol ramPayer =>
    simp only [step, bind_eq_ok, pure_eq_ok] at hs
    obtain ⟨s₁, hs, heq⟩ := hs
    cases heq
    exact absurd hlt (openAccount_balance hs account code).not_lt
  | close owner symbol =>
    simp only [step, bind_eq_ok, pure_eq_ok] at hs
    obtain ⟨s₁, hs, heq⟩ := hs
    cases heq
    exact absurd hlt (close_balance hs account code).not_lt
  | arestriction restricted code permission =>
    simp only [step, arestriction, bind_eq_ok, pure_eq_ok] at hs
    obtain ⟨_, ⟨_, -, rfl⟩, heq⟩ := hs
    cases heq
    exact absurd hlt (lt_irrefl _)
  | erestriction restricted =>
    simp only [step, erestriction, bind_eq_ok, pure_eq_ok] at hs
    obtain ⟨_, ⟨_, -, _, -, rfl⟩, heq⟩ := hs
    cases heq
    exact absurd hlt (lt_irrefl _)

/-! ## Runs -/

/-- **Restrictions**: in every state a run reaches, an action lowers balances only with the
authority over them exactly when it is not a retirement that goes past the issuer's restriction. -/
theorem outflow_guarded_iff (self : Name) (calls : List (Env × Action)) (call : Env × Action) :
    let s := (run (step self) {} calls).1
    OutflowGuarded self s call ↔ ∀ quantity memo st, call.2 = .retire quantity memo →
      Retirable call.1 s quantity memo st → Authorised s call.1.auths st.issuer := by
  intro s
  have h : Sound s := sound_run self calls
  constructor
  · intro hguard quantity memo st haction hr
    obtain ⟨s', hs'⟩ := h.retire_of hr
    have hstep : step self s call = .ok (s', []) := by
      simp only [step, haction, hs', ok_bind]
      rfl
    refine hguard s' [] hstep st.issuer quantity.symbol.code ?_
    obtain ⟨st', hr', hbal⟩ := retire_balance hs'
    have hst : st' = st := Option.some.inj (hr'.stat.symm.trans hr.stat)
    rw [hbal, hst, if_pos ⟨rfl, rfl⟩]
    have := hr.positive
    omega
  · intro hcond s' out hs account code hlt
    rcases outflow_cases hs hlt with ⟨_, _, _, -, hauth⟩ | ⟨quantity, memo, st, haction, hr, rfl⟩
    · exact hauth
    · exact hcond quantity memo st haction hr

/-- The issuer of a token, restricted by the treasury to the permission of another account. -/
def restrictedIssuer : List (Env × Action) :=
  let issuer := Name.ofString "issuer"
  let env (signer : Name) : Env := ⟨⟨[⟨signer, active⟩], 0⟩, fun _ => true⟩
  [(env (Name.ofString "volentixgsys"), .create issuer ⟨1000, ⟨SymbolCode.ofString "VTX", 8⟩⟩),
    (env issuer, .issue issuer ⟨1000, ⟨SymbolCode.ofString "VTX", 8⟩⟩ ""),
    (env treasury, .arestriction issuer (Name.ofString "guardian") active)]

/-- The restricted issuer cannot transfer its tokens alone, but it can retire them. -/
theorem restrictedIssuer_retires : ¬ ∀ (self : Name) (calls : List (Env × Action))
    (call : Env × Action), OutflowGuarded self (run (step self) {} calls).1 call := by
  intro h
  have hlim := h (Name.ofString "volentixgsys") restrictedIssuer
    (⟨⟨[⟨Name.ofString "issuer", active⟩], 0⟩, fun _ => true⟩,
      .retire ⟨400, ⟨SymbolCode.ofString "VTX", 8⟩⟩ "") _ [] rfl (Name.ofString "issuer")
    (SymbolCode.ofString "VTX") (by decide +kernel)
  exact absurd hlim (by decide +kernel)

end VDexNode.Token

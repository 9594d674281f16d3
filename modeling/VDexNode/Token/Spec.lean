import VDexNode.Token.Model

/-!
# VDexNode.Token.Spec — what the functions of `volentixgsys` return

One lemma for each function: everything a call that returns has checked, and the state it leaves.
`State.balance` reads a balance as an integer, `0` where there is no row; `transfer_balance` is what
a transfer does to every balance.
-/

namespace VDexNode.Token

open Eosio

/-! ## Balances -/

theorem account_key {s : State} {owner : Name} {code : SymbolCode} {a : Account}
    (h : s.account owner code = some a) : a.owner = owner ∧ a.balance.symbol.code = code := by
  have := Table.find_key h
  simpa [Account.key] using this

/-- The balance of `owner` in `code`. -/
def State.balance (s : State) (owner : Name) (code : SymbolCode) : ℤ :=
  ((s.account owner code).map (fun a => a.balance.amount)).getD 0

theorem subBalance_ok {s s' : State} {owner : Name} {value : Asset}
    (h : subBalance s owner value = .ok s') :
    ∃ row, s.account owner value.symbol.code = some row ∧ value.amount ≤ row.balance.amount ∧
      value.symbol = row.balance.symbol ∧
      s' = { s with
        accounts :=
          s.accounts.put ⟨owner, ⟨row.balance.amount - value.amount, value.symbol⟩⟩ } := by
  simp only [subBalance, bind_eq_ok, Table.get_eq_ok, check_eq_ok, exists_const, Asset.sub_eq_ok,
    pure_eq_ok] at h
  obtain ⟨row, hrow, hle, _, ⟨hsym, -, -, rfl⟩, rfl⟩ := h
  exact ⟨row, hrow, hle, hsym, by rw [hsym]⟩

theorem addBalance_ok {s s' : State} {owner : Name} {value : Asset}
    (h : addBalance s owner value = .ok s') :
    (∀ row, s.account owner value.symbol.code = some row → value.symbol = row.balance.symbol) ∧
      s' = { s with
        accounts := s.accounts.put
          ⟨owner, ⟨s.balance owner value.symbol.code + value.amount, value.symbol⟩⟩ } := by
  unfold addBalance at h
  cases hrow : s.account owner value.symbol.code with
  | none =>
    simp only [hrow, bind_eq_ok, Table.emplace_eq_ok, pure_eq_ok] at h
    obtain ⟨_, ⟨-, rfl⟩, rfl⟩ := h
    refine ⟨?_, by simp [State.balance, hrow]⟩
    intro row hsome
    cases hsome
  | some row =>
    simp only [hrow, bind_eq_ok, Asset.add_eq_ok, pure_eq_ok] at h
    obtain ⟨_, ⟨hsym, -, -, rfl⟩, rfl⟩ := h
    refine ⟨fun r hr => by cases hr; exact hsym, ?_⟩
    rw [State.balance, hrow, hsym]
    rfl

theorem balance_put (s : State) (owner : Name) (b : Asset) (o : Name) (code : SymbolCode) :
    ({ s with accounts := s.accounts.put ⟨owner, b⟩ } : State).balance o code =
      if o = owner ∧ code = b.symbol.code then b.amount else s.balance o code := by
  simp only [State.balance, State.account, Table.find_put, Account.key, toLex_inj, Prod.mk.injEq]
  split_ifs <;> rfl

theorem subBalance_balance {s s' : State} {owner : Name} {value : Asset}
    (h : subBalance s owner value = .ok s') (o : Name) (code : SymbolCode) :
    s'.balance o code = s.balance o code -
      (if o = owner ∧ code = value.symbol.code then value.amount else 0) := by
  obtain ⟨row, hrow, -, -, rfl⟩ := subBalance_ok h
  rw [balance_put]
  split_ifs with hk
  · obtain ⟨rfl, rfl⟩ := hk
    rw [State.balance, hrow]
    rfl
  · rw [sub_zero]

theorem addBalance_balance {s s' : State} {owner : Name} {value : Asset}
    (h : addBalance s owner value = .ok s') (o : Name) (code : SymbolCode) :
    s'.balance o code = s.balance o code +
      (if o = owner ∧ code = value.symbol.code then value.amount else 0) := by
  obtain ⟨-, rfl⟩ := addBalance_ok h
  rw [balance_put]
  split_ifs with hk
  · obtain ⟨rfl, rfl⟩ := hk
    rfl
  · rw [add_zero]

/-! ## Actions -/

theorem create_ok {self : Name} {env : Env} {s s' : State} {issuer : Name} {maximumSupply : Asset}
    (h : create self env s issuer maximumSupply = .ok s') :
    maximumSupply.isValid ∧ 0 < maximumSupply.amount ∧
      s.stats.find maximumSupply.symbol.code = none ∧
      s' = { s with
        stats := s.stats.put ⟨⟨0, maximumSupply.symbol⟩, maximumSupply, issuer⟩ } := by
  simp only [create, bind_eq_ok, check_eq_ok, exists_const, Table.emplace_eq_ok, pure_eq_ok] at h
  obtain ⟨_, -, -, hval, hpos, hnone, _, ⟨-, rfl⟩, rfl⟩ := h
  exact ⟨hval, hpos, hnone, rfl⟩

/-- A transfer that goes through: its checks, then a subtraction and an addition. -/
theorem transfer_ok {env : Env} {s s' : State} {sender recipient : Name} {quantity : Asset}
    {memo : String} (h : transfer env s sender recipient quantity memo = .ok s') :
    requireSender env s sender = .ok () ∧ sender ≠ recipient ∧ env.isAccount recipient = true ∧
      quantity.isValid ∧ 0 < quantity.amount ∧
      (∃ st, s.stats.find quantity.symbol.code = some st ∧ quantity.symbol = st.supply.symbol) ∧
      ∃ s₁, subBalance s sender quantity = .ok s₁ ∧ addBalance s₁ recipient quantity = .ok s' := by
  simp only [transfer, bind_eq_ok, Table.get_eq_ok, check_eq_ok, exists_const] at h
  obtain ⟨u, hauth, hne, hacc, st, hst, hval, hpos, hsym, -, s₁, hsub, hadd⟩ := h
  exact ⟨hauth, hne, hacc, hval, hpos, ⟨st, hst, hsym⟩, s₁, hsub, hadd⟩

/-- What a transfer does to every balance. -/
theorem transfer_balance {env : Env} {s s' : State} {sender recipient : Name} {quantity : Asset}
    {memo : String} (h : transfer env s sender recipient quantity memo = .ok s') (o : Name)
    (code : SymbolCode) :
    s'.balance o code = s.balance o code -
      (if o = sender ∧ code = quantity.symbol.code then quantity.amount else 0) +
      (if o = recipient ∧ code = quantity.symbol.code then quantity.amount else 0) := by
  obtain ⟨-, -, -, -, -, -, s₁, hsub, hadd⟩ := transfer_ok h
  rw [addBalance_balance hadd, subBalance_balance hsub]

theorem issue_ok {env : Env} {s s' : State} {recipient : Name} {quantity : Asset} {memo : String}
    {inline : Option TransferAction}
    (h : issue env s recipient quantity memo = .ok (s', inline)) :
    ∃ st, s.stats.find quantity.symbol.code = some st ∧ quantity.symbol = st.supply.symbol ∧
      0 < quantity.amount ∧ quantity.amount ≤ st.maxSupply.amount - st.supply.amount ∧
      addBalance { s with
        stats := s.stats.put
          { st with supply := ⟨st.supply.amount + quantity.amount, st.supply.symbol⟩ } }
        st.issuer quantity = .ok s' := by
  simp only [issue, bind_eq_ok, Table.get_eq_ok, check_eq_ok, exists_const, Asset.add_eq_ok] at h
  obtain ⟨-, -, st, hst, _, -, -, hpos, hsym, hle, _, ⟨-, -, -, rfl⟩, s₁, hadd, h⟩ := h
  refine ⟨st, hst, hsym, hpos, hle, ?_⟩
  split_ifs at h with hne <;> cases h <;> exact hadd

theorem retire_ok {env : Env} {s s' : State} {quantity : Asset} {memo : String}
    (h : retire env s quantity memo = .ok s') :
    ∃ st, s.stats.find quantity.symbol.code = some st ∧ quantity.symbol = st.supply.symbol ∧
      0 < quantity.amount ∧
      subBalance { s with
        stats := s.stats.put
          { st with supply := ⟨st.supply.amount - quantity.amount, st.supply.symbol⟩ } }
        st.issuer quantity = .ok s' := by
  simp only [retire, bind_eq_ok, Table.get_eq_ok, check_eq_ok, exists_const, Asset.sub_eq_ok] at h
  obtain ⟨-, -, st, hst, _, -, -, hpos, hsym, _, ⟨-, -, -, rfl⟩, hsub⟩ := h
  exact ⟨st, hst, hsym, hpos, hsub⟩

theorem openAccount_ok {env : Env} {s s' : State} {owner : Name} {symbol : Symbol} {ramPayer : Name}
    (h : openAccount env s owner symbol ramPayer = .ok s') :
    (∃ st, s.stats.find symbol.code = some st ∧ st.supply.symbol = symbol) ∧
      (s' = s ∨ (s.account owner symbol.code = none ∧
        s' = { s with accounts := s.accounts.put ⟨owner, ⟨0, symbol⟩⟩ })) := by
  simp only [openAccount, bind_eq_ok, Table.get_eq_ok, check_eq_ok, exists_const] at h
  obtain ⟨_, -, st, hst, hsym, h⟩ := h
  refine ⟨⟨st, hst, hsym⟩, ?_⟩
  cases hrow : s.account owner symbol.code with
  | none =>
    simp only [hrow, bind_eq_ok, Table.emplace_eq_ok, pure_eq_ok] at h
    obtain ⟨_, ⟨-, rfl⟩, rfl⟩ := h
    exact Or.inr ⟨rfl, rfl⟩
  | some row =>
    simp only [hrow, pure_eq_ok] at h
    exact Or.inl h.symm

theorem close_ok {env : Env} {s s' : State} {owner : Name} {symbol : Symbol}
    (h : close env s owner symbol = .ok s') :
    ∃ row, s.account owner symbol.code = some row ∧ row.balance.amount = 0 ∧
      s' = { s with accounts := s.accounts.erase (toLex (owner, symbol.code)) } := by
  simp only [close, bind_eq_ok, Table.get_eq_ok, check_eq_ok, exists_const, pure_eq_ok] at h
  obtain ⟨_, -, row, hrow, hzero, rfl⟩ := h
  exact ⟨row, hrow, hzero, rfl⟩

end VDexNode.Token

import VDexNode.Token.Outflow

/-!
# VDexNode.Token.Issuance — where a supply comes from

* `supply_step` : only `issue` and `retire` change a supply, each by its quantity.
* `issuer_step` : the issuer of a token stays what `create` has made it.
* `retire_iff` : in a state in order, `Retirable` is all there is to a retirement.
-/

namespace VDexNode.Token

open Eosio

/-- The supply of `code`, `0` before the token is created. -/
def State.supply (s : State) (code : SymbolCode) : ℤ :=
  ((s.stats.find code).map (fun st => st.supply.amount)).getD 0

/-- What an action adds to the supply of `code`. -/
def Action.minted (code : SymbolCode) : Action → ℤ
  | .issue _ quantity _ => if quantity.symbol.code = code then quantity.amount else 0
  | .retire quantity _ => if quantity.symbol.code = code then -quantity.amount else 0
  | _ => 0

section Issuance

variable {s s' : State} {code : SymbolCode}

theorem subBalance_stats {owner : Name} {value : Asset} (h : subBalance s owner value = .ok s') :
    s'.stats = s.stats := by
  obtain ⟨_, -, -, -, rfl⟩ := subBalance_ok h
  rfl

theorem addBalance_stats {owner : Name} {value : Asset} (h : addBalance s owner value = .ok s') :
    s'.stats = s.stats := by
  obtain ⟨-, rfl⟩ := addBalance_ok h
  rfl

theorem transfer_stats {env : Env} {sender recipient : Name} {quantity : Asset} {memo : String}
    (h : transfer env s sender recipient quantity memo = .ok s') : s'.stats = s.stats := by
  obtain ⟨-, -, -, -, -, -, s₁, hsub, hadd⟩ := transfer_ok h
  rw [addBalance_stats hadd, subBalance_stats hsub]

theorem transfer_restrictions {env : Env} {sender recipient : Name} {quantity : Asset}
    {memo : String} (h : transfer env s sender recipient quantity memo = .ok s') :
    s'.restrictions = s.restrictions := by
  obtain ⟨-, -, -, -, -, -, s₁, hsub, hadd⟩ := transfer_ok h
  obtain ⟨_, -, -, -, rfl⟩ := subBalance_ok hsub
  obtain ⟨-, rfl⟩ := addBalance_ok hadd
  rfl

/-- The row with its supply changed by `x`. -/
def CurrencyStats.shift (st : CurrencyStats) (x : ℤ) : CurrencyStats :=
  { st with supply := ⟨st.supply.amount + x, st.supply.symbol⟩ }

theorem shift_code {st : CurrencyStats} (hst : s.stats.find code = some st) (x : ℤ) :
    (st.shift x).code = code :=
  have hcode : st.code = code := Table.find_key hst
  hcode

theorem issue_stats {env : Env} {recipient : Name} {quantity : Asset} {memo : String}
    {inline : Option TransferAction}
    (h : issue env s recipient quantity memo = .ok (s', inline)) :
    ∃ st, s.stats.find quantity.symbol.code = some st ∧
      s'.stats = s.stats.put (st.shift quantity.amount) := by
  obtain ⟨st, hst, -, -, -, hadd⟩ := issue_ok h
  exact ⟨st, hst, addBalance_stats hadd⟩

theorem retire_stats {env : Env} {quantity : Asset} {memo : String}
    (h : retire env s quantity memo = .ok s') :
    ∃ st, s.stats.find quantity.symbol.code = some st ∧
      s'.stats = s.stats.put (st.shift (-quantity.amount)) := by
  obtain ⟨st, hst, -, -, hsub⟩ := retire_ok h
  exact ⟨st, hst, subBalance_stats hsub⟩

/-- What an action does to the `stat` rows: it creates a token, changes the supply of one, or leaves
them alone. -/
theorem stats_cases {self : Name} {call : Env × Action} {out : List TransferAction}
    (h : step self s call = .ok (s', out)) :
    (s'.stats = s.stats ∧ ∀ code, call.2.minted code = 0) ∨
    (∃ (issuer : Name) (max : Asset), s.stats.find max.symbol.code = none ∧
      s'.stats = s.stats.put ⟨⟨0, max.symbol⟩, max, issuer⟩ ∧ ∀ code, call.2.minted code = 0) ∨
    ∃ (st : CurrencyStats) (quantity : Asset) (x : ℤ), s.stats.find quantity.symbol.code = some st ∧
      s'.stats = s.stats.put (st.shift x) ∧
      ∀ code, call.2.minted code = if quantity.symbol.code = code then x else 0 := by
  obtain ⟨env, action⟩ := call
  cases action with
  | create issuer maximumSupply =>
    simp only [step, bind_eq_ok, pure_eq_ok] at h
    obtain ⟨s₁, hs, heq⟩ := h
    cases heq
    obtain ⟨-, -, hnone, rfl⟩ := create_ok hs
    exact Or.inr (Or.inl ⟨issuer, maximumSupply, hnone, rfl, fun _ => rfl⟩)
  | issue recipient quantity memo =>
    simp only [step, bind_eq_ok] at h
    obtain ⟨⟨s₁, inline⟩, hi, h⟩ := h
    obtain ⟨st, hst, hstats⟩ := issue_stats hi
    refine Or.inr (Or.inr ⟨st, quantity, quantity.amount, hst, ?_, fun _ => rfl⟩)
    cases inline with
    | none =>
      cases h
      exact hstats
    | some t =>
      simp only [bind_eq_ok, pure_eq_ok] at h
      obtain ⟨s₂, ht, heq⟩ := h
      cases heq
      rw [transfer_stats ht, hstats]
  | retire quantity memo =>
    simp only [step, bind_eq_ok, pure_eq_ok] at h
    obtain ⟨s₁, hs, heq⟩ := h
    cases heq
    obtain ⟨st, hst, hstats⟩ := retire_stats hs
    exact Or.inr (Or.inr ⟨st, quantity, -quantity.amount, hst, hstats, fun _ => rfl⟩)
  | transfer sender recipient quantity memo =>
    simp only [step, bind_eq_ok, pure_eq_ok] at h
    obtain ⟨s₁, hs, heq⟩ := h
    cases heq
    exact Or.inl ⟨transfer_stats hs, fun _ => rfl⟩
  | «open» owner symbol ramPayer =>
    simp only [step, bind_eq_ok, pure_eq_ok] at h
    obtain ⟨s₁, hs, heq⟩ := h
    cases heq
    obtain ⟨-, rfl | ⟨-, rfl⟩⟩ := openAccount_ok hs
    · exact Or.inl ⟨rfl, fun _ => rfl⟩
    · exact Or.inl ⟨rfl, fun _ => rfl⟩
  | close owner symbol =>
    simp only [step, bind_eq_ok, pure_eq_ok] at h
    obtain ⟨s₁, hs, heq⟩ := h
    cases heq
    obtain ⟨_, -, -, rfl⟩ := close_ok hs
    exact Or.inl ⟨rfl, fun _ => rfl⟩
  | arestriction account code permission =>
    simp only [step, arestriction, bind_eq_ok, pure_eq_ok] at h
    obtain ⟨_, ⟨_, -, rfl⟩, heq⟩ := h
    cases heq
    exact Or.inl ⟨rfl, fun _ => rfl⟩
  | erestriction account =>
    simp only [step, erestriction, bind_eq_ok, pure_eq_ok] at h
    obtain ⟨_, ⟨_, -, _, -, rfl⟩, heq⟩ := h
    cases heq
    exact Or.inl ⟨rfl, fun _ => rfl⟩

/-- The supplies after a row was shifted. -/
theorem supply_of_shift {c : SymbolCode} {st : CurrencyStats} {x : ℤ}
    (hst : s.stats.find c = some st) (hstats : s'.stats = s.stats.put (st.shift x))
    (code : SymbolCode) : s'.supply code = s.supply code + if c = code then x else 0 := by
  have hkey := shift_code hst x
  unfold State.supply
  rw [hstats, Table.find_put, hkey]
  split_ifs with h1 h2
  · rw [h1, hst]
    rfl
  · exact absurd h1.symm h2
  · rename_i h2
    exact absurd h2.symm h1
  · rw [add_zero]

/-- **Step lemma**: a supply changes by what the action mints. -/
theorem supply_step {self : Name} {call : Env × Action} {out : List TransferAction}
    (h : step self s call = .ok (s', out)) (code : SymbolCode) :
    s'.supply code = s.supply code + call.2.minted code := by
  rcases stats_cases h with ⟨hstats, hminted⟩ | ⟨issuer, max, hnone, hstats, hminted⟩ |
      ⟨st, quantity, x, hst, hstats, hminted⟩
  · rw [State.supply, hstats, hminted, add_zero]
    rfl
  · rw [hminted, add_zero, State.supply, hstats, Table.find_put]
    split_ifs with hk
    · rw [hk]
      unfold State.supply
      rw [show s.stats.find (CurrencyStats.code ⟨⟨0, max.symbol⟩, max, issuer⟩) = none from hnone]
      rfl
    · rfl
  · rw [hminted]
    exact supply_of_shift hst hstats code

/-- **Step lemma**: a token keeps its issuer. -/
theorem issuer_step {self : Name} {call : Env × Action} {out : List TransferAction}
    (h : step self s call = .ok (s', out)) {st : CurrencyStats}
    (hst : s.stats.find code = some st) :
    ∃ st', s'.stats.find code = some st' ∧ st'.issuer = st.issuer := by
  rcases stats_cases h with ⟨hstats, -⟩ | ⟨issuer, max, hnone, hstats, -⟩ |
      ⟨st₁, quantity, x, hst₁, hstats, -⟩
  · exact ⟨st, by rw [hstats, hst], rfl⟩
  · have hne : code ≠ CurrencyStats.code ⟨⟨0, max.symbol⟩, max, issuer⟩ := by
      rintro rfl
      exact absurd (hst.symm.trans hnone) (Option.some_ne_none st)
    exact ⟨st, by rw [hstats, Table.find_put, if_neg hne, hst], rfl⟩
  · have hkey := shift_code hst₁ x
    by_cases hk : code = quantity.symbol.code
    · subst hk
      obtain rfl : st = st₁ := Option.some.inj (hst.symm.trans hst₁)
      exact ⟨st.shift x, by rw [hstats, Table.find_put, hkey, if_pos rfl], rfl⟩
    · exact ⟨st, by rw [hstats, Table.find_put, hkey, if_neg hk, hst], rfl⟩

/-- In a state in order, a retirement goes through exactly when it can be carried out. -/
theorem retire_iff (h : Sound s) {env : Env} {quantity : Asset} {memo : String} :
    (∃ s', retire env s quantity memo = .ok s') ↔ ∃ st, Retirable env s quantity memo st := by
  constructor
  · rintro ⟨s', hr⟩
    obtain ⟨st, hst, -⟩ := retire_balance hr
    exact ⟨st, hst⟩
  · rintro ⟨st, hst⟩
    exact h.retire_of hst

end Issuance

end VDexNode.Token

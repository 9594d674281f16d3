import Mathlib.Tactic.NormNum
import VDexNode.Token.Spec

/-!
# VDexNode.Token.Supply — the supply invariant of `volentixgsys`

`SoundBut c d s`: every balance row is non-negative and carries the symbol of its `stat` row, the
maximum supplies are in range, and the balances of each code add up to its supply, those of `c` to
its supply plus `d`.  `Sound s` is the case `d = 0`.  The elementary updates move `d`:
`sub_balance` and the change of `supply` by `retire` and `issue` pass through states that are off,
and each action ends in a sound one (`sound_step`).
-/

namespace VDexNode.Token

open Eosio

/-! ## The invariant -/

/-- What a balance row contributes to the total of `c`. -/
def Account.inCode (c : SymbolCode) (a : Account) : ℤ :=
  if a.balance.symbol.code = c then a.balance.amount else 0

/-- The sum of all balances in the code `c`. -/
def State.total (s : State) (c : SymbolCode) : ℤ := s.accounts.sum (Account.inCode c)

/-- The state is in order, except that the balances of `c` exceed its supply by `d`. -/
structure SoundBut (c : SymbolCode) (d : ℤ) (s : State) : Prop where
  nonneg : ∀ a ∈ s.accounts.rows, 0 ≤ a.balance.amount
  symbol : ∀ a ∈ s.accounts.rows, ∃ st ∈ s.stats.rows, st.supply.symbol = a.balance.symbol
  max_symbol : ∀ st ∈ s.stats.rows, st.maxSupply.symbol = st.supply.symbol
  supply_le : ∀ st ∈ s.stats.rows, st.supply.amount ≤ st.maxSupply.amount
  max_le : ∀ st ∈ s.stats.rows, st.maxSupply.amount ≤ Asset.maxAmount
  total : ∀ st ∈ s.stats.rows, s.total st.code = st.supply.amount + if st.code = c then d else 0

/-- The state is in order. -/
def Sound (s : State) : Prop := ∀ c, SoundBut c 0 s

section Sound

variable {s s' : State} {c : SymbolCode} {d : ℤ}

theorem SoundBut.sound (h : SoundBut c 0 s) : Sound s := fun c' =>
  ⟨h.nonneg, h.symbol, h.max_symbol, h.supply_le, h.max_le, fun st hst => by
    simpa using h.total st hst⟩

theorem SoundBut.inCode_nonneg (h : SoundBut c d s) (c' : SymbolCode) :
    ∀ a ∈ s.accounts.rows, 0 ≤ a.inCode c' := fun a ha => by
  unfold Account.inCode
  split_ifs
  · exact h.nonneg a ha
  · exact le_rfl

theorem SoundBut.total_nonneg (h : SoundBut c d s) (c' : SymbolCode) : 0 ≤ s.total c' :=
  Table.sum_nonneg (h.inCode_nonneg c')

/-- One balance is at most the total of its code. -/
theorem SoundBut.balance_le (h : SoundBut c d s) {owner : Name} {code : SymbolCode} {row : Account}
    (hrow : s.account owner code = some row) : row.balance.amount ≤ s.total code := by
  have hmem := Table.find_mem hrow
  have hle := Table.le_sum (h.inCode_nonneg code) hmem
  rwa [Account.inCode, if_pos (account_key hrow).2] at hle

theorem Sound.supply_nonneg (h : Sound s) {st : CurrencyStats} (hst : st ∈ s.stats.rows) :
    0 ≤ st.supply.amount := by
  have h1 := (h st.code).total st hst
  have h2 := (h st.code).total_nonneg st.code
  simp only [if_true, add_zero] at h1
  omega

/-! ### Elementary updates -/

/-- What storing a balance does to the totals. -/
theorem total_put (s : State) (owner : Name) (value : Asset) (c : SymbolCode) :
    (s.accounts.put ⟨owner, value⟩).sum (Account.inCode c) =
      s.total c + if value.symbol.code = c
        then value.amount - s.balance owner value.symbol.code else 0 := by
  cases hrow : s.account owner value.symbol.code with
  | none =>
    rw [Table.sum_put_new (t := s.accounts) (x := ⟨owner, value⟩) hrow]
    simp [State.total, Account.inCode, State.balance, hrow]
  | some row =>
    have hsum := Table.sum_put_old (t := s.accounts) (x := ⟨owner, value⟩) hrow (Account.inCode c)
    have hcode := (account_key hrow).2
    simp only [State.total, State.balance, hrow, Account.inCode, hcode, Option.map_some,
      Option.getD_some] at hsum ⊢
    split_ifs at hsum ⊢ with hc
    · omega
    · omega

theorem SoundBut.put_account (h : SoundBut c d s) (owner : Name) (value : Asset)
    (hnonneg : 0 ≤ value.amount) {st : CurrencyStats} (hst : st ∈ s.stats.rows)
    (hsym : st.supply.symbol = value.symbol) (hc : value.symbol.code = c) :
    SoundBut c (d + (value.amount - s.balance owner c))
      { s with accounts := s.accounts.put ⟨owner, value⟩ } where
  nonneg a ha := by
    rcases Table.mem_put.mp ha with rfl | ⟨ha, -⟩
    · exact hnonneg
    · exact h.nonneg a ha
  symbol a ha := by
    rcases Table.mem_put.mp ha with rfl | ⟨ha, -⟩
    · exact ⟨st, hst, hsym⟩
    · exact h.symbol a ha
  max_symbol := h.max_symbol
  supply_le := h.supply_le
  max_le := h.max_le
  total st' hst' := by
    have htot := h.total st' hst'
    simp only [State.total, total_put, hc] at htot ⊢
    by_cases hcode : st'.code = c
    · simp only [hcode, if_true] at htot ⊢
      omega
    · have hcode' : c ≠ st'.code := fun hne => hcode hne.symm
      simp only [hcode, hcode', if_false] at htot ⊢
      omega

theorem SoundBut.of_sub (h : SoundBut c d s) {owner : Name} {value : Asset}
    (hsub : subBalance s owner value = .ok s') (hc : value.symbol.code = c) :
    SoundBut c (d - value.amount) s' := by
  obtain ⟨row, hrow, hle, hsym, rfl⟩ := subBalance_ok hsub
  obtain ⟨st, hst, hst'⟩ := h.symbol row (Table.find_mem hrow)
  have hput := h.put_account owner ⟨row.balance.amount - value.amount, value.symbol⟩
    (by simp only; omega) hst
    (by rw [hst', hsym]) hc
  have hbal : s.balance owner c = row.balance.amount := by
    rw [← hc, State.balance, hrow]
    rfl
  have hd : d + (row.balance.amount - value.amount - s.balance owner c) = d - value.amount := by
    omega
  rw [hd] at hput
  exact hput

theorem SoundBut.balance_nonneg (h : SoundBut c d s) (owner : Name) (code : SymbolCode) :
    0 ≤ s.balance owner code := by
  unfold State.balance
  cases hrow : s.account owner code with
  | none => exact le_rfl
  | some row => exact h.nonneg row (Table.find_mem hrow)

theorem SoundBut.of_add (h : SoundBut c d s) {owner : Name} {value : Asset}
    (hadd : addBalance s owner value = .ok s') (hpos : 0 < value.amount) {st : CurrencyStats}
    (hst : st ∈ s.stats.rows) (hsym : st.supply.symbol = value.symbol)
    (hc : value.symbol.code = c) : SoundBut c (d + value.amount) s' := by
  obtain ⟨-, rfl⟩ := addBalance_ok hadd
  have hnn := h.balance_nonneg owner value.symbol.code
  have hput := h.put_account owner
    ⟨s.balance owner value.symbol.code + value.amount, value.symbol⟩
    (by simp only; omega) hst hsym hc
  have hd : d + (s.balance owner value.symbol.code + value.amount - s.balance owner c) =
      d + value.amount := by
    rw [hc]
    omega
  rw [hd] at hput
  exact hput

/-- Changing a supply by `x` leaves the balances of its code off by `-x`. -/
theorem SoundBut.put_supply (h : SoundBut c d s) {st : CurrencyStats}
    (hst : s.stats.find c = some st) {x : ℤ} (hle : st.supply.amount + x ≤ st.maxSupply.amount) :
    SoundBut c (d - x) { s with
      stats := s.stats.put { st with supply := ⟨st.supply.amount + x, st.supply.symbol⟩ } } := by
  have hmem := Table.find_mem hst
  have hcode : st.code = c := Table.find_key hst
  refine ⟨h.nonneg, ?_, ?_, ?_, ?_, ?_⟩
  · intro a ha
    obtain ⟨st', hst', hsym⟩ := h.symbol a ha
    by_cases hk : st'.code = st.code
    · obtain rfl := s.stats.key_injOn hst' hmem hk
      exact ⟨_, Table.mem_put.mpr (Or.inl rfl), hsym⟩
    · exact ⟨st', Table.mem_put.mpr (Or.inr ⟨hst', hk⟩), hsym⟩
  · intro st' hst'
    rcases Table.mem_put.mp hst' with rfl | ⟨hst', -⟩
    · exact h.max_symbol st hmem
    · exact h.max_symbol st' hst'
  · intro st' hst'
    rcases Table.mem_put.mp hst' with rfl | ⟨hst', -⟩
    · exact hle
    · exact h.supply_le st' hst'
  · intro st' hst'
    rcases Table.mem_put.mp hst' with rfl | ⟨hst', -⟩
    · exact h.max_le st hmem
    · exact h.max_le st' hst'
  · intro st' hst'
    rcases Table.mem_put.mp hst' with rfl | ⟨hst', hne⟩
    · have htot := h.total st hmem
      have hcode' : CurrencyStats.code
          { st with supply := ⟨st.supply.amount + x, st.supply.symbol⟩ } = c := hcode
      simp only [hcode, if_true] at htot
      rw [hcode', if_pos rfl]
      simp only [State.total] at htot ⊢
      omega
    · have htot := h.total st' hst'
      have hne' : st'.code ≠ c := fun hk => hne (hk.trans hcode.symm)
      rw [if_neg hne'] at htot ⊢
      exact htot

/-! ### Actions -/

theorem Sound.of_transfer (h : Sound s) {env : Env} {sender recipient : Name} {quantity : Asset}
    {memo : String} (ht : transfer env s sender recipient quantity memo = .ok s') : Sound s' := by
  obtain ⟨-, -, -, -, hpos, ⟨st, hst, hsym⟩, s₁, hsub, hadd⟩ := transfer_ok ht
  have h1 := (h quantity.symbol.code).of_sub hsub rfl
  obtain ⟨_, -, -, -, rfl⟩ := subBalance_ok hsub
  have h2 := h1.of_add hadd hpos (Table.find_mem hst) hsym.symm rfl
  have hd : 0 - quantity.amount + quantity.amount = 0 := by omega
  rw [hd] at h2
  exact h2.sound

theorem Sound.of_issue (h : Sound s) {env : Env} {recipient : Name} {quantity : Asset}
    {memo : String} {inline : Option TransferAction}
    (hi : issue env s recipient quantity memo = .ok (s', inline)) : Sound s' := by
  obtain ⟨st, hst, hsym, hpos, hle, hadd⟩ := issue_ok hi
  have h1 := (h quantity.symbol.code).put_supply hst (x := quantity.amount) (by omega)
  have h2 := h1.of_add hadd hpos (Table.mem_put.mpr (Or.inl rfl)) hsym.symm rfl
  have hd : 0 - quantity.amount + quantity.amount = 0 := by omega
  rw [hd] at h2
  exact h2.sound

theorem Sound.of_retire (h : Sound s) {env : Env} {quantity : Asset} {memo : String}
    (hr : retire env s quantity memo = .ok s') : Sound s' := by
  obtain ⟨st, hst, -, hpos, hsub⟩ := retire_ok hr
  have hmax := (h quantity.symbol.code).supply_le st (Table.find_mem hst)
  have h1 := (h quantity.symbol.code).put_supply hst (x := -quantity.amount) (by omega)
  have h2 := h1.of_sub hsub rfl
  have hd : 0 - -quantity.amount - quantity.amount = 0 := by omega
  rw [hd] at h2
  exact h2.sound

theorem Sound.of_create (h : Sound s) {self : Name} {env : Env} {issuer : Name}
    {maximumSupply : Asset}
    (hc : create self env s issuer maximumSupply = .ok s') : Sound s' := by
  obtain ⟨hval, hpos, hnone, rfl⟩ := create_ok hc
  obtain ⟨hnonneg, hsymbol, hmaxsym, hsupply, hmax, htotal⟩ := h maximumSupply.symbol.code
  refine SoundBut.sound (c := maximumSupply.symbol.code) ⟨hnonneg, ?_, ?_, ?_, ?_, ?_⟩
  · intro a ha
    obtain ⟨st, hst, hsym⟩ := hsymbol a ha
    exact ⟨st, Table.mem_put.mpr (Or.inr ⟨hst, Table.find_eq_none.mp hnone st hst⟩), hsym⟩
  · intro st hst
    rcases Table.mem_put.mp hst with rfl | ⟨hst, -⟩
    · rfl
    · exact hmaxsym st hst
  · intro st hst
    rcases Table.mem_put.mp hst with rfl | ⟨hst, -⟩
    · exact hpos.le
    · exact hsupply st hst
  · intro st hst
    rcases Table.mem_put.mp hst with rfl | ⟨hst, -⟩
    · exact hval.1.2
    · exact hmax st hst
  · intro st hst
    rcases Table.mem_put.mp hst with rfl | ⟨hst, -⟩
    · -- no balance row can carry a code that had no `stat` row
      have hzero : s.accounts.sum (Account.inCode maximumSupply.symbol.code) =
          s.accounts.sum (fun _ => 0) := by
        refine Table.sum_congr (fun a ha => ?_)
        obtain ⟨st, hst, hsym⟩ := hsymbol a ha
        refine if_neg (fun hk => Table.find_eq_none.mp hnone st hst ?_)
        rw [CurrencyStats.code, hsym, hk]
      simpa [State.total, CurrencyStats.code, Table.sum] using hzero
    · have htot := htotal st hst
      simp only [ite_self, add_zero] at htot ⊢
      exact htot

theorem Sound.of_openAccount (h : Sound s) {env : Env} {owner : Name} {symbol : Symbol}
    {ramPayer : Name} (ho : openAccount env s owner symbol ramPayer = .ok s') : Sound s' := by
  obtain ⟨⟨st, hst, hsym⟩, rfl | ⟨hnone, rfl⟩⟩ := openAccount_ok ho
  · exact h
  · have hput := (h symbol.code).put_account owner ⟨0, symbol⟩ le_rfl
      (Table.find_mem hst) hsym rfl
    have hd : 0 + (0 - s.balance owner symbol.code) = 0 := by
      simp [State.balance, hnone]
    rw [hd] at hput
    exact hput.sound

theorem Sound.of_close (h : Sound s) {env : Env} {owner : Name} {symbol : Symbol}
    (hc : close env s owner symbol = .ok s') : Sound s' := by
  obtain ⟨row, hrow, hzero, rfl⟩ := close_ok hc
  obtain ⟨hnonneg, hsymbol, hmaxsym, hsupply, hmax, htotal⟩ := h symbol.code
  have hrest : ∀ c, (s.accounts.erase (toLex (owner, symbol.code))).sum (Account.inCode c) =
      s.total c := fun c => by
    have hsum := Table.sum_erase hrow (Account.inCode c)
    have hin : row.inCode c = 0 := by
      unfold Account.inCode
      split_ifs
      · exact hzero
      · rfl
    rw [hin, add_zero] at hsum
    exact hsum
  refine SoundBut.sound (c := symbol.code) ⟨?_, ?_, hmaxsym, hsupply, hmax, ?_⟩
  · exact fun a ha => hnonneg a (Table.mem_erase.mp ha).1
  · exact fun a ha => hsymbol a (Table.mem_erase.mp ha).1
  · intro st hst
    have htot := htotal st hst
    simp only [State.total, hrest] at htot ⊢
    exact htot

/-- **Step lemma**: every action, with the inline transfer it sends, keeps the state in order. -/
theorem sound_step {self : Name} {call : Env × Action} {out : List TransferAction} (h : Sound s)
    (hs : step self s call = .ok (s', out)) : Sound s' := by
  obtain ⟨env, action⟩ := call
  cases action <;> simp only [step, bind_eq_ok, pure_eq_ok] at hs
  case create => obtain ⟨s₁, hs, heq⟩ := hs; cases heq; exact h.of_create hs
  case issue =>
    obtain ⟨⟨s₁, inline⟩, hi, hs⟩ := hs
    have h1 := h.of_issue hi
    cases inline with
    | none => cases hs; exact h1
    | some t =>
      simp only [bind_eq_ok, pure_eq_ok] at hs
      obtain ⟨s₂, ht, heq⟩ := hs
      cases heq
      exact h1.of_transfer ht
  case retire => obtain ⟨s₁, hs, heq⟩ := hs; cases heq; exact h.of_retire hs
  case transfer => obtain ⟨s₁, hs, heq⟩ := hs; cases heq; exact h.of_transfer hs
  case «open» => obtain ⟨s₁, hs, heq⟩ := hs; cases heq; exact h.of_openAccount hs
  case close => obtain ⟨s₁, hs, heq⟩ := hs; cases heq; exact h.of_close hs
  case arestriction =>
    obtain ⟨s₁, hs, heq⟩ := hs
    cases heq
    simp only [arestriction, bind_eq_ok, pure_eq_ok] at hs
    obtain ⟨_, -, rfl⟩ := hs
    exact fun c => ⟨(h c).1, (h c).2, (h c).3, (h c).4, (h c).5, (h c).6⟩
  case erestriction =>
    obtain ⟨s₁, hs, heq⟩ := hs
    cases heq
    simp only [erestriction, bind_eq_ok, pure_eq_ok] at hs
    obtain ⟨_, -, _, -, rfl⟩ := hs
    exact fun c => ⟨(h c).1, (h c).2, (h c).3, (h c).4, (h c).5, (h c).6⟩

theorem sound_init : Sound {} := fun _ =>
  ⟨by simp, by simp, by simp, by simp, by simp, by simp⟩

/-- **Run lemma**: every reachable state is in order. -/
theorem sound_run (self : Name) (calls : List (Env × Action)) :
    Sound (run (step self) {} calls).1 :=
  run_invariant (fun s _ => Sound s) sound_init (fun _ _ _ _ _ h hs => sound_step h hs) calls

end Sound

/-! ## Staying in the asset range -/

section Range

variable {s : State} {c : SymbolCode} {d : ℤ}

/-- In a sound state a balance is at most the supply of its code. -/
theorem SoundBut.balance_le_max (h : SoundBut c d s) {owner : Name} {row : Account}
    (hrow : s.account owner c = some row) : row.balance.amount ≤ Asset.maxAmount + d := by
  obtain ⟨st, hst, hsym⟩ := h.symbol row (Table.find_mem hrow)
  have hcode : st.code = c := by
    rw [CurrencyStats.code, hsym, (account_key hrow).2]
  have h1 := h.balance_le hrow
  have h2 := h.total st hst
  have h3 := h.supply_le st hst
  have h4 := h.max_le st hst
  rw [if_pos hcode, hcode] at h2
  omega

theorem SoundBut.inRange_subBalance (h : SoundBut c d s) {owner : Name} {value : Asset}
    (hc : value.symbol.code = c) (hd : d ≤ value.amount) :
    InRange (subBalance s owner value) (fun s' => subBalance s owner value = .ok s') := by
  refine InRange.of_ok (P := fun _ => True) ?_ (fun _ hs => hs)
  unfold subBalance
  refine (Table.inRange_get _ _ (by decide)).bind (fun row hrow => ?_)
  refine (inRange_check (by decide)).bind (fun _ hle => ?_)
  have hmax := Asset.maxAmount_eq
  have hrow' : row.balance.amount ≤ Asset.maxAmount + d := by
    rw [hc] at hrow
    exact h.balance_le_max hrow
  exact (inRange_sub (by omega) (by omega)).bind (fun _ _ => outcome_ok trivial)

/-- The balances of `c` leave room for what brings them up to its supply. -/
theorem SoundBut.inRange_addBalance (h : SoundBut c d s) {owner : Name} {value : Asset}
    (hc : value.symbol.code = c) (hpos : 0 ≤ value.amount) (hd : d + value.amount ≤ 0) :
    InRange (addBalance s owner value) (fun s' => addBalance s owner value = .ok s') := by
  refine InRange.of_ok (P := fun _ => True) ?_ (fun _ hs => hs)
  unfold addBalance
  cases hrow : s.account owner value.symbol.code with
  | none => exact (Table.inRange_emplace _ _).bind (fun _ _ => outcome_ok trivial)
  | some row =>
    have hmax := Asset.maxAmount_eq
    have hnn := h.nonneg row (Table.find_mem hrow)
    rw [hc] at hrow
    have hrow' := h.balance_le_max hrow
    exact (inRange_add (by omega) (by omega)).bind (fun _ _ => outcome_ok trivial)

theorem inRange_requireSender (env : Env) (s : State) (sender : Name) :
    InRange (requireSender env s sender) (fun _ => True) := by
  unfold requireSender
  cases s.restrictions.find sender with
  | none => exact inRange_requireAuth _ _
  | some r => exact (inRange_check (by decide)).mono (fun _ _ => trivial) (fun _ h => h)

theorem Sound.inRange_transfer (h : Sound s) (env : Env) (sender recipient : Name)
    (quantity : Asset) (memo : String) :
    InRange (transfer env s sender recipient quantity memo) (fun _ => True) := by
  unfold transfer
  refine (inRange_requireSender env s sender).bind (fun _ _ => ?_)
  refine (inRange_check (by decide)).bind (fun _ _ => ?_)
  refine (inRange_check (by decide)).bind (fun _ _ => ?_)
  refine (Table.inRange_get _ _ (by decide)).bind (fun st hst => ?_)
  refine (inRange_check (by decide)).bind (fun _ _ => ?_)
  refine (inRange_check (by decide)).bind (fun _ hpos => ?_)
  refine (inRange_check (by decide)).bind (fun _ hsym => ?_)
  refine (inRange_check (by decide)).bind (fun _ _ => ?_)
  have h0 := h quantity.symbol.code
  refine (h0.inRange_subBalance rfl hpos.le).bind (fun s₁ hsub => ?_)
  refine ((h0.of_sub hsub rfl).inRange_addBalance rfl hpos.le (by omega)).mono ?_ ?_
  · exact fun _ _ => trivial
  · exact fun _ he => he

/-- From a sound state a transfer that meets the checks and the balance of its sender goes
through. -/
theorem Sound.transfer_of (h : Sound s) {env : Env} {sender recipient : Name} {quantity : Asset}
    {memo : String} {st : CurrencyStats} (hauth : requireSender env s sender = .ok ())
    (hne : sender ≠ recipient) (hacc : env.isAccount recipient = true)
    (hst : s.stats.find quantity.symbol.code = some st) (hsym : quantity.symbol = st.supply.symbol)
    (hvalid : quantity.symbol.isValid) (hpos : 0 < quantity.amount)
    (hmemo : memo.utf8ByteSize ≤ 256)
    (hle : quantity.amount ≤ s.balance sender quantity.symbol.code) :
    ∃ s', transfer env s sender recipient quantity memo = .ok s' := by
  have h0 := h quantity.symbol.code
  have hmax := Asset.maxAmount_eq
  have hrowsym : ∀ {s₁ : State} {d : ℤ} {owner : Name} {row : Account},
      SoundBut quantity.symbol.code d s₁ → s₁.stats = s.stats →
      s₁.account owner quantity.symbol.code = some row → quantity.symbol = row.balance.symbol := by
    intro s₁ d owner row h₁ hstats hrow
    obtain ⟨st', hst', hsym'⟩ := h₁.symbol row (Table.find_mem hrow)
    have hcode : st'.code = quantity.symbol.code := by
      rw [CurrencyStats.code, hsym', (account_key hrow).2]
    rw [hstats] at hst'
    have hself := Table.find_self hst'
    rw [hcode, hst] at hself
    rw [hsym, Option.some.inj hself, hsym']
  obtain ⟨row, hrow⟩ : ∃ row, s.account sender quantity.symbol.code = some row := by
    by_contra hnone
    have hnone' : s.account sender quantity.symbol.code = none := by
      rw [Option.eq_none_iff_forall_ne_some]
      exact fun row hrow => hnone ⟨row, hrow⟩
    rw [State.balance, hnone'] at hle
    exact absurd hle (not_le.mpr hpos)
  rw [State.balance, hrow] at hle
  have hbal := h0.balance_le_max hrow
  have hamount : quantity.amount ≤ row.balance.amount := hle
  have hsub : subBalance s sender quantity = .ok { s with
      accounts :=
        s.accounts.put ⟨sender, ⟨row.balance.amount - quantity.amount, row.balance.symbol⟩⟩ } := by
    have hget : s.accounts.get (toLex (sender, quantity.symbol.code)) "no balance object found" =
        .ok row := Table.get_eq_ok.mpr hrow
    have hasset := Asset.sub_eq_ok.mpr ⟨hrowsym h0 rfl hrow,
      (by omega : -Asset.maxAmount ≤ row.balance.amount - quantity.amount), by omega, rfl⟩
    simp only [subBalance, hget, check_of hamount, hasset, ok_bind]
    rfl
  have h₁ := h0.of_sub hsub rfl
  obtain ⟨s', hadd⟩ : ∃ s', addBalance { s with
      accounts :=
        s.accounts.put ⟨sender, ⟨row.balance.amount - quantity.amount, row.balance.symbol⟩⟩ }
      recipient quantity = .ok s' := by
    unfold addBalance
    split
    · next hnone => exact ⟨_, bind_eq_ok.mpr ⟨_, Table.emplace_eq_ok.mpr ⟨hnone, rfl⟩, rfl⟩⟩
    · next row' hrow' =>
      have hnn := h₁.nonneg row' (Table.find_mem hrow')
      have hbal' := h₁.balance_le_max hrow'
      exact ⟨_, bind_eq_ok.mpr ⟨_, Asset.add_eq_ok.mpr
        ⟨hrowsym h₁ rfl hrow', by omega, by omega, rfl⟩, rfl⟩⟩
  have hq : quantity.isValid := ⟨⟨by omega, by omega⟩, hvalid⟩
  refine ⟨s', ?_⟩
  simp only [transfer, hauth, check_of hne, check_of hacc, Table.get_eq_ok.mpr hst, check_of hq,
    check_of hpos, check_of hsym, check_of hmemo, hsub, ok_bind]
  exact hadd

theorem Sound.inRange_issue (h : Sound s) (env : Env) (recipient : Name) (quantity : Asset)
    (memo : String) : InRange (issue env s recipient quantity memo)
      (fun r => issue env s recipient quantity memo = .ok r) := by
  refine InRange.of_ok (P := fun _ => True) ?_ (fun _ hs => hs)
  unfold issue
  refine (inRange_check (by decide)).bind (fun _ _ => ?_)
  refine (inRange_check (by decide)).bind (fun _ _ => ?_)
  refine (Table.inRange_get _ _ (by decide)).bind (fun st hst => ?_)
  refine (inRange_requireAuth _ _).bind (fun _ _ => ?_)
  refine (inRange_check (by decide)).bind (fun _ _ => ?_)
  refine (inRange_check (by decide)).bind (fun _ hpos => ?_)
  refine (inRange_check (by decide)).bind (fun _ hsym => ?_)
  refine (inRange_check (by decide)).bind (fun _ hle => ?_)
  have hmax := Asset.maxAmount_eq
  have hnn := h.supply_nonneg (Table.find_mem hst)
  have h0 := h quantity.symbol.code
  have hle' := h0.max_le st (Table.find_mem hst)
  refine (inRange_add (by omega) (by omega)).bind ?_
  rintro _ rfl
  have h1 := h0.put_supply hst (x := quantity.amount) (by omega)
  refine (h1.inRange_addBalance rfl hpos.le (by omega)).bind (fun s₁ _ => ?_)
  split_ifs with hne
  · exact outcome_ok trivial
  · exact outcome_ok trivial

theorem Sound.inRange_retire (h : Sound s) (env : Env) (quantity : Asset) (memo : String) :
    InRange (retire env s quantity memo) (fun _ => True) := by
  unfold retire
  refine (inRange_check (by decide)).bind (fun _ _ => ?_)
  refine (inRange_check (by decide)).bind (fun _ _ => ?_)
  refine (Table.inRange_get _ _ (by decide)).bind (fun st hst => ?_)
  refine (inRange_requireAuth _ _).bind (fun _ _ => ?_)
  refine (inRange_check (by decide)).bind (fun _ hval => ?_)
  refine (inRange_check (by decide)).bind (fun _ hpos => ?_)
  refine (inRange_check (by decide)).bind (fun _ hsym => ?_)
  have hmax := Asset.maxAmount_eq
  have hnn := h.supply_nonneg (Table.find_mem hst)
  have h0 := h quantity.symbol.code
  have hsup := h0.supply_le st (Table.find_mem hst)
  have hle' := h0.max_le st (Table.find_mem hst)
  have hq := hval.1.2
  refine (inRange_sub (by omega) (by omega)).bind ?_
  rintro _ rfl
  have h1 := h0.put_supply hst (x := -quantity.amount) (by omega)
  refine (h1.inRange_subBalance rfl (by omega)).mono ?_ ?_
  · exact fun _ _ => trivial
  · exact fun _ he => he

/-- From a sound state no action aborts for leaving the asset range. -/
theorem Sound.inRange_step (h : Sound s) (self : Name) (call : Env × Action) :
    InRange (step self s call) (fun _ => True) := by
  obtain ⟨env, action⟩ := call
  unfold step
  cases action with
  | create issuer maximumSupply =>
    refine Outcome.bind (P := fun _ => True) ?_ (fun _ _ => outcome_ok trivial)
    unfold create
    refine (inRange_requireAuth _ _).bind (fun _ _ => ?_)
    refine (inRange_check (by decide)).bind (fun _ _ => ?_)
    refine (inRange_check (by decide)).bind (fun _ _ => ?_)
    refine (inRange_check (by decide)).bind (fun _ _ => ?_)
    refine (inRange_check (by decide)).bind (fun _ _ => ?_)
    exact (Table.inRange_emplace _ _).bind (fun _ _ => outcome_ok trivial)
  | issue recipient quantity memo =>
    refine (h.inRange_issue env recipient quantity memo).bind ?_
    rintro ⟨s₁, inline⟩ hi
    cases inline with
    | none => exact outcome_ok trivial
    | some t =>
      exact ((h.of_issue hi).inRange_transfer _ _ _ _ _).bind (fun _ _ => outcome_ok trivial)
  | retire quantity memo =>
    exact (h.inRange_retire env quantity memo).bind (fun _ _ => outcome_ok trivial)
  | transfer sender recipient quantity memo =>
    exact (h.inRange_transfer env sender recipient quantity memo).bind
      (fun _ _ => outcome_ok trivial)
  | «open» owner symbol ramPayer =>
    refine Outcome.bind (P := fun _ => True) ?_ (fun _ _ => outcome_ok trivial)
    unfold openAccount
    refine (inRange_requireAuth _ _).bind (fun _ _ => ?_)
    refine (Table.inRange_get _ _ (by decide)).bind (fun st _ => ?_)
    refine (inRange_check (by decide)).bind (fun _ _ => ?_)
    cases s.account owner symbol.code with
    | none => exact (Table.inRange_emplace _ _).bind (fun _ _ => outcome_ok trivial)
    | some row => exact outcome_ok trivial
  | close owner symbol =>
    refine Outcome.bind (P := fun _ => True) ?_ (fun _ _ => outcome_ok trivial)
    unfold close
    refine (inRange_requireAuth _ _).bind (fun _ _ => ?_)
    refine (Table.inRange_get _ _ (by decide)).bind (fun row _ => ?_)
    exact (inRange_check (by decide)).bind (fun _ _ => outcome_ok trivial)
  | arestriction account code permission =>
    refine Outcome.bind (P := fun _ => True) ?_ (fun _ _ => outcome_ok trivial)
    exact (inRange_requireAuth _ _).bind (fun _ _ => outcome_ok trivial)
  | erestriction account =>
    refine Outcome.bind (P := fun _ => True) ?_ (fun _ _ => outcome_ok trivial)
    unfold erestriction
    refine (inRange_requireAuth _ _).bind (fun _ _ => ?_)
    exact (inRange_check (by decide)).bind (fun _ _ => outcome_ok trivial)

end Range

/-- **Supply**: in every state a run reaches, the balances of each code add up to its supply, which
is between zero and the maximum; every balance is non-negative and carries the symbol of its `stat`
row; and the next action, whatever it is, either goes through or leaves the tables as they were, for
another reason than the asset range. -/
theorem supply_invariant (self : Name) (calls : List (Env × Action)) :
    let s := (run (step self) {} calls).1
    (∀ st ∈ s.stats.rows, s.total st.code = st.supply.amount ∧ 0 ≤ st.supply.amount ∧
      st.supply.amount ≤ st.maxSupply.amount) ∧
    (∀ a ∈ s.accounts.rows, 0 ≤ a.balance.amount ∧
      ∃ st, s.stats.find a.balance.symbol.code = some st ∧ st.supply.symbol = a.balance.symbol) ∧
    ∀ call e, step self s call = .error e →
      e ∉ Asset.rangeErrors ∧ (run (step self) {} (calls ++ [call])).1 = s := by
  intro s
  have h : Sound s := sound_run self calls
  refine ⟨fun st hst => ?_, fun a ha => ?_, fun call e he => ?_⟩
  · have htot := (h st.code).total st hst
    simp only [ite_self, add_zero] at htot
    exact ⟨htot, h.supply_nonneg hst, (h st.code).supply_le st hst⟩
  · obtain ⟨st, hst, hsym⟩ := (h a.balance.symbol.code).symbol a ha
    refine ⟨(h a.balance.symbol.code).nonneg a ha, st, ?_, hsym⟩
    rw [← hsym]
    exact Table.find_self hst
  · refine ⟨(h.inRange_step self call).2 e he, ?_⟩
    rw [run_concat, commit_of_error he]

end VDexNode.Token

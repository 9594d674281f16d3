import VDexNode.Token.Supply

/-!
# VDexNode.Token.Destroy — the contract `destroy` on the tables of a token

The contract has the tables of a token contract and two actions that erase a row of them.  It is
deployed in the place of the token contract, which takes its place again afterwards.

* `Harmful` : a balance is erased that is not zero, or a token of which there are rows.
* `sound_deployed_iff` : **the supplies stay in order over all redeployments exactly when no such
  row is erased.**
-/

namespace VDexNode.Token

open Eosio

/-! ## The contract -/

/-- The constructor `symbol_code(str)`. -/
def symbolCode (symbol : String) : Result SymbolCode := do
  check (symbol.utf8ByteSize ≤ 7) "string is too long to be a valid symbol_code"
  check (symbol.toList.all Char.isUpper) "only uppercase letters allowed in symbol_code string"
  return SymbolCode.ofString symbol

/-- `destroytoken`. -/
def destroytoken (self : Name) (env : Env) (s : State) (symbol : String) : Result State := do
  requireAuth env.auths self
  let sym ← symbolCode symbol
  check (s.stats.find sym ≠ none) "Token with symbol does not exist"
  return { s with stats := s.stats.erase sym }

/-- `destroyacc`. -/
def destroyacc (self : Name) (env : Env) (s : State) (symbol : String) (account : Name) :
    Result State := do
  requireAuth env.auths self
  let sym ← symbolCode symbol
  let _row ← s.accounts.get (toLex (account, sym))
    "No balance object found for provided account and symbol"
  return { s with accounts := s.accounts.erase (toLex (account, sym)) }

/-- The calls of the two contracts, whichever is deployed. -/
inductive Call where
  | token (env : Env) (action : Action)
  | destroytoken (env : Env) (symbol : String)
  | destroyacc (env : Env) (symbol : String) (account : Name)

/-- One call. -/
def deployedStep (self : Name) (s : State) : Call → Result (State × List TransferAction)
  | .token env action => step self s (env, action)
  | .destroytoken env symbol => do
    let s ← destroytoken self env s symbol
    return (s, [])
  | .destroyacc env symbol account => do
    let s ← destroyacc self env s symbol account
    return (s, [])

/-- The call erases a balance that is not zero, or the `stat` row of a token that some account has a
row of. -/
def Harmful (self : Name) (s : State) (call : Call) : Prop :=
  (∃ s' out, deployedStep self s call = .ok (s', out)) ∧
  match call with
  | .token _ _ => False
  | .destroytoken _ symbol =>
    ∃ a ∈ s.accounts.rows, a.balance.symbol.code = SymbolCode.ofString symbol
  | .destroyacc _ symbol account => s.balance account (SymbolCode.ofString symbol) ≠ 0

/-! ## One call -/

section Step

variable {self : Name} {s s' : State} {env : Env} {symbol : String} {account : Name}

theorem symbolCode_ok {sym : SymbolCode} (h : symbolCode symbol = .ok sym) :
    sym = SymbolCode.ofString symbol := by
  simp only [symbolCode, bind_eq_ok, check_eq_ok, exists_const, pure_eq_ok] at h
  exact h.2.2.symm

theorem destroytoken_ok (h : destroytoken self env s symbol = .ok s') :
    (∃ st, s.stats.find (SymbolCode.ofString symbol) = some st) ∧
      s' = { s with stats := s.stats.erase (SymbolCode.ofString symbol) } := by
  simp only [destroytoken, bind_eq_ok, check_eq_ok, exists_const, pure_eq_ok] at h
  obtain ⟨_, -, sym, hsym, hst, rfl⟩ := h
  rw [symbolCode_ok hsym] at hst ⊢
  exact ⟨Option.ne_none_iff_exists'.mp hst, rfl⟩

theorem destroyacc_ok (h : destroyacc self env s symbol account = .ok s') :
    ∃ row, s.account account (SymbolCode.ofString symbol) = some row ∧ s' =
      { s with accounts := s.accounts.erase (toLex (account, SymbolCode.ofString symbol)) } := by
  simp only [destroyacc, bind_eq_ok, Table.get_eq_ok, pure_eq_ok] at h
  obtain ⟨_, -, sym, hsym, row, hrow, rfl⟩ := h
  rw [symbolCode_ok hsym] at hrow ⊢
  exact ⟨row, hrow, rfl⟩

/-- A `stat` row can go when no account has a row of its code, and only then. -/
theorem sound_erase_stat (h : Sound s) {code : SymbolCode} :
    Sound { s with stats := s.stats.erase code } ↔
      ∀ a ∈ s.accounts.rows, a.balance.symbol.code ≠ code := by
  constructor
  · intro hs a ha hcode
    obtain ⟨st, hst, hsym⟩ := (hs code).symbol a ha
    refine (Table.mem_erase.mp hst).2 ?_
    rw [CurrencyStats.code, hsym, hcode]
  · intro hnone c
    have hkept : ∀ st ∈ (s.stats.erase code).rows, st ∈ s.stats.rows :=
      fun st hst => (Table.mem_erase.mp hst).1
    refine ⟨(h c).nonneg, fun a ha => ?_, fun st hst => (h c).max_symbol st (hkept st hst),
      fun st hst => (h c).supply_le st (hkept st hst), fun st hst => (h c).max_le st (hkept st hst),
      fun st hst => (h c).total st (hkept st hst)⟩
    obtain ⟨st, hst, hsym⟩ := (h c).symbol a ha
    refine ⟨st, Table.mem_erase.mpr ⟨hst, fun hcode => hnone a ha ?_⟩, hsym⟩
    rw [← hsym]
    exact hcode

/-- A balance row can go when it is zero, and only then. -/
theorem sound_erase_account (h : Sound s) {code : SymbolCode} {row : Account}
    (hrow : s.account account code = some row) :
    Sound { s with accounts := s.accounts.erase (toLex (account, code)) } ↔
      row.balance.amount = 0 := by
  constructor
  · intro hs
    obtain ⟨st, hst, hsym⟩ := (h code).symbol row (Table.find_mem hrow)
    have hcode : st.code = code := by
      rw [CurrencyStats.code, hsym]
      exact (account_key hrow).2
    have hbefore := (h code).total st hst
    have hafter := (hs code).total st hst
    have hsum := Table.sum_erase hrow (Account.inCode code)
    rw [Account.inCode, if_pos (account_key hrow).2] at hsum
    rw [hcode] at hbefore hafter
    simp only [State.total] at hbefore hafter
    omega
  · intro hzero
    let env : Env := ⟨⟨[⟨account, active⟩], 0⟩, fun _ => true⟩
    have hauth : hasAuth env.auths account := ⟨_, List.mem_singleton_self _, rfl⟩
    have hget : s.accounts.get (toLex (account, code))
        "Balance row already deleted or never existed. Action won't have any effect." = .ok row :=
      Table.get_eq_ok.mpr hrow
    have hclose : close env s account ⟨code, 0⟩ =
        .ok { s with accounts := s.accounts.erase (toLex (account, code)) } := by
      simp only [close, requireAuth, check_of hauth, hget, check_of hzero, ok_bind]
      rfl
    exact h.of_close hclose

/-- **Step lemma**: a call keeps the supplies in order exactly when it is not harmful. -/
theorem sound_step_iff (h : Sound s) {call : Call} {out : List TransferAction}
    (hs : deployedStep self s call = .ok (s', out)) : Sound s' ↔ ¬ Harmful self s call := by
  cases call with
  | token env action =>
    have hstep : step self s (env, action) = .ok (s', out) := hs
    exact iff_of_true (sound_step h hstep) (fun hharm => hharm.2)
  | destroytoken env symbol =>
    have hok : ∃ s' out, deployedStep self s (.destroytoken env symbol) = .ok (s', out) :=
      ⟨s', out, hs⟩
    simp only [deployedStep, bind_eq_ok, pure_eq_ok] at hs
    obtain ⟨s₁, hd, heq⟩ := hs
    cases heq
    obtain ⟨-, rfl⟩ := destroytoken_ok hd
    rw [sound_erase_stat h, Harmful]
    constructor
    · rintro hnone ⟨-, a, ha, hcode⟩
      exact hnone a ha hcode
    · intro hnot a ha hcode
      exact hnot ⟨hok, a, ha, hcode⟩
  | destroyacc env symbol account =>
    have hok : ∃ s' out, deployedStep self s (.destroyacc env symbol account) = .ok (s', out) :=
      ⟨s', out, hs⟩
    simp only [deployedStep, bind_eq_ok, pure_eq_ok] at hs
    obtain ⟨s₁, hd, heq⟩ := hs
    cases heq
    obtain ⟨row, hrow, rfl⟩ := destroyacc_ok hd
    have hbalance : s.balance account (SymbolCode.ofString symbol) = row.balance.amount := by
      rw [State.balance, hrow]
      rfl
    rw [sound_erase_account h hrow, Harmful, ← hbalance]
    constructor
    · rintro hzero ⟨-, hne⟩
      exact hne hzero
    · intro hnot
      by_contra hne
      exact hnot ⟨hok, hne⟩

end Step

/-! ## Runs -/

/-- **Redeployment**: along every run of the calls of both contracts, the supplies are in order at
every moment exactly when no call of the run is harmful. -/
theorem sound_deployed_iff (self : Name) {s : State} (h : Sound s) (calls : List Call) :
    (∀ pre, pre <+: calls → Sound (run (deployedStep self) s pre).1) ↔
      Along (deployedStep self) (fun s call => ¬ Harmful self s call) s calls := by
  constructor
  · intro hall
    rw [along_iff_forall_append]
    rintro pre call post rfl hharm
    have hpre : pre ++ [call] <+: pre ++ call :: post := ⟨post, by rw [List.append_assoc]; rfl⟩
    obtain ⟨s', out, hs⟩ := hharm.1
    have hafter := hall (pre ++ [call]) hpre
    rw [run_concat, commit_of_ok hs] at hafter
    exact (sound_step_iff (hall pre (List.prefix_append pre _)) hs).mp hafter hharm
  · intro hnot pre hpre
    exact run_invariant_of (fun s _ => Sound s) (fun s call => ¬ Harmful self s call) h
      (fun _ _ _ _ _ h hc hs => (sound_step_iff h hs).mpr hc) pre (hnot.initial hpre)

/-- A token is created, a row opened for `alice`, and the row erased again. -/
def openedRow : List Call :=
  let self := Name.ofString "volentixgsys"
  let alice := Name.ofString "alice"
  let env : Env := ⟨⟨[⟨self, active⟩, ⟨alice, active⟩], 0⟩, fun _ => true⟩
  let vtx : Symbol := ⟨SymbolCode.ofString "VTX", 8⟩
  [.token env (.create alice ⟨1000, vtx⟩), .token env (.open alice vtx alice),
    .destroyacc env "VTX" alice]

theorem sound_deployed_iff_opened :
    Sound (run (deployedStep (Name.ofString "volentixgsys")) {} openedRow).1 :=
  (sound_deployed_iff (Name.ofString "volentixgsys") sound_init openedRow).mpr
    ⟨fun h => h.2, fun h => h.2, fun h => h.2 (by decide +kernel), trivial⟩ openedRow
    (List.prefix_refl openedRow)

end VDexNode.Token

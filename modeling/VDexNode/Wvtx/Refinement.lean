import VDexNode.Wvtx.Model

/-!
# VDexNode.Wvtx.Refinement — the two token contracts

* `perform_ok` : what goes through in `vtx222222222` goes through in `volentixgsys` with the same
  result, as long as nothing is restricted.
* `exists_perform` : what goes through in `volentixgsys` without restrictions is one or two actions
  of `vtx222222222`: an issue to another account is an issue and a transfer.
* `refines_gsys` : **the runs of `vtx222222222` are those of `volentixgsys` that restrict no account
  and open rows for existing accounts only.**
-/

namespace VDexNode.Wvtx

open Eosio

/-- The action as one of `volentixgsys`. -/
def Action.gsys : Action → Token.Action
  | .create issuer maximumSupply => .create issuer maximumSupply
  | .issue recipient quantity memo => .issue recipient quantity memo
  | .retire quantity memo => .retire quantity memo
  | .transfer sender recipient quantity memo => .transfer sender recipient quantity memo
  | .open owner symbol ramPayer => .open owner symbol ramPayer
  | .close owner symbol => .close owner symbol

/-- The call restricts no account, and opens rows for existing accounts only. -/
def Plain (call : Env × Token.Action) : Prop :=
  match call.2 with
  | .arestriction _ _ _ => False
  | .open owner _ _ => call.1.isAccount owner = true
  | _ => True

/-- The call is the call `c` of `volentixgsys`, or the issue to the issuer or the transfer from it
that an issue comes to, under an authority that `c` has. -/
def Matches (c : Env × Token.Action) (b : Env × Action) : Prop :=
  (b.1 = c.1 ∧ b.2.gsys = c.2) ∨
  ∃ issuer recipient quantity memo, c.2 = .issue recipient quantity memo ∧
    hasAuth c.1.auths issuer ∧ (b = (c.1, .issue issuer quantity memo) ∨
      b = ({ c.1 with auths := [⟨issuer, active⟩] }, .transfer issuer recipient quantity memo))

section Actions

variable {env : Env} {s s' : State}

/-- Without restrictions a transfer asks for the authority of the sender. -/
theorem requireSender_eq (hrest : s.restrictions = Table.empty) (sender : Name) :
    Token.requireSender env s sender = requireAuth env.auths sender := by
  have hnone : s.restrictions.find sender = none := by
    rw [hrest]
    rfl
  rw [Token.requireSender, hnone]

/-- The two transfers make the same checks, in another order. -/
theorem transfer_iff (hrest : s.restrictions = Table.empty) {sender recipient : Name}
    {quantity : Asset} {memo : String} :
    transfer env s sender recipient quantity memo = .ok s' ↔
      Token.transfer env s sender recipient quantity memo = .ok s' := by
  simp only [transfer, Token.transfer, requireSender_eq hrest, requireAuth, bind_eq_ok,
    check_eq_ok, exists_const]
  exact and_left_comm

/-- Opening a row asks for an existing owner as well. -/
theorem openAccount_iff {owner : Name} {symbol : Symbol} {ramPayer : Name} :
    openAccount env s owner symbol ramPayer = .ok s' ↔
      env.isAccount owner = true ∧ Token.openAccount env s owner symbol ramPayer = .ok s' := by
  simp only [openAccount, Token.openAccount, requireAuth, bind_eq_ok, check_eq_ok, exists_const]
  exact and_left_comm

/-- An issue that goes through has made out the issuer and added the quantity to it. -/
theorem issue_iff {recipient : Name} {quantity : Asset} {memo : String} :
    issue env s recipient quantity memo = .ok s' ↔
      Token.issue env s recipient quantity memo = .ok (s', none) := by
  simp only [issue, Token.issue, requireAuth, bind_eq_ok, check_eq_ok, exists_const,
    Table.get_eq_ok]
  constructor
  · rintro ⟨hval, hmemo, st, hst, hissuer, hauth, hq, hpos, hsym, hle, supply, hsupply, hadd⟩
    refine ⟨hval, hmemo, st, hst, hauth, hq, hpos, hsym, hle, supply, hsupply, s', hadd, ?_⟩
    rw [if_neg (fun hne => hne hissuer)]
    rfl
  · rintro ⟨hval, hmemo, st, hst, hauth, hq, hpos, hsym, hle, supply, hsupply, s₁, hadd, hout⟩
    split_ifs at hout with hissuer
    · cases hout
    · cases hout
      exact ⟨hval, hmemo, st, hst, not_not.mp hissuer, hauth, hq, hpos, hsym, hle, supply, hsupply,
        hadd⟩

/-- An issue to another account is an issue to the issuer and the transfer it sends. -/
theorem issue_of_inline {recipient : Name} {quantity : Asset} {memo : String} {t : TransferAction}
    (h : Token.issue env s recipient quantity memo = .ok (s', some t)) :
    ∃ issuer, hasAuth env.auths issuer ∧ issue env s issuer quantity memo = .ok s' ∧
      t = ⟨⟨issuer, active⟩, issuer, recipient, quantity, memo⟩ := by
  simp only [Token.issue, requireAuth, bind_eq_ok, check_eq_ok, exists_const,
    Table.get_eq_ok] at h
  obtain ⟨hval, hmemo, st, hst, hauth, hq, hpos, hsym, hle, supply, hsupply, s₁, hadd, hout⟩ := h
  split_ifs at hout with hissuer
  · cases hout
    refine ⟨st.issuer, hauth, ?_, rfl⟩
    simp only [issue, requireAuth, bind_eq_ok, check_eq_ok, exists_const, Table.get_eq_ok]
    exact ⟨hval, hmemo, st, hst, rfl, hauth, hq, hpos, hsym, hle, supply, hsupply, hadd⟩
  · cases hout

end Actions

/-! ## One call -/

section Step

variable {self : Name} {s s' : State}

/-- **Step lemma**: a call of `vtx222222222` is one of `volentixgsys`. -/
theorem step_gsys (hrest : s.restrictions = Table.empty) {call : Env × Action} {out : List Empty}
    (h : step self s call = .ok (s', out)) :
    Token.step self s (call.1, call.2.gsys) = .ok (s', []) := by
  obtain ⟨env, action⟩ := call
  simp only [step, bind_eq_ok, pure_eq_ok] at h
  obtain ⟨s₁, h, heq⟩ := h
  cases heq
  cases action with
  | create issuer maximumSupply =>
    have h' : Token.create self env s issuer maximumSupply = .ok s' := h
    simp only [Action.gsys, Token.step, h', ok_bind]
    rfl
  | issue recipient quantity memo =>
    simp only [Action.gsys, Token.step, issue_iff.mp h, ok_bind]
    rfl
  | retire quantity memo =>
    have h' : Token.retire env s quantity memo = .ok s' := h
    simp only [Action.gsys, Token.step, h', ok_bind]
    rfl
  | transfer sender recipient quantity memo =>
    simp only [Action.gsys, Token.step, (transfer_iff hrest).mp h, ok_bind]
    rfl
  | «open» owner symbol ramPayer =>
    simp only [Action.gsys, Token.step, (openAccount_iff.mp h).2, ok_bind]
    rfl
  | close owner symbol =>
    have h' : Token.close env s owner symbol = .ok s' := h
    simp only [Action.gsys, Token.step, h', ok_bind]
    rfl

/-- An action that goes through, as a call. -/
theorem step_of_perform {env : Env} {action : Action} (h : perform self s env action = .ok s') :
    step self s (env, action) = .ok (s', []) := by
  rw [step, h]
  rfl

theorem run_of_perform {env : Env} {action : Action} (h : perform self s env action = .ok s') :
    (run (step self) s [(env, action)]).1 = s' := by
  have hs := step_of_perform h
  show (commit (step self) (s, []) (env, action)).1 = s'
  rw [commit_of_ok hs]

/-- An action of `volentixgsys` that goes through as it is. -/
theorem exists_run_of_perform {env : Env} (action : Action)
    (h : perform self s env action = .ok s') :
    ∃ acts, (∀ b ∈ acts, Matches (env, action.gsys) b) ∧ (run (step self) s acts).1 = s' := by
  refine ⟨[(env, action)], fun b hb => ?_, run_of_perform h⟩
  rw [List.mem_singleton.mp hb]
  exact Or.inl ⟨rfl, rfl⟩

/-- An issue of `volentixgsys` with the transfer it sends, as calls of `vtx222222222`. -/
theorem exists_run_of_issue (hrest : s.restrictions = Table.empty) {env : Env} {recipient : Name}
    {quantity : Asset} {memo : String} {out : List TransferAction}
    (h : Token.step self s (env, .issue recipient quantity memo) = .ok (s', out)) :
    s'.restrictions = Table.empty ∧ ∃ acts,
      (∀ b ∈ acts, Matches (env, .issue recipient quantity memo) b) ∧
      (run (step self) s acts).1 = s' := by
  simp only [Token.step, bind_eq_ok] at h
  obtain ⟨⟨s₁, inline⟩, hi, h⟩ := h
  have hrest₁ : s₁.restrictions = Table.empty := by
    obtain ⟨_, -, -, -, -, hadd⟩ := Token.issue_ok hi
    obtain ⟨-, rfl⟩ := Token.addBalance_ok hadd
    exact hrest
  cases inline with
  | none =>
    cases h
    have hissue : issue env s recipient quantity memo = .ok s₁ := issue_iff.mpr hi
    exact ⟨hrest₁, exists_run_of_perform (.issue recipient quantity memo) hissue⟩
  | some t =>
    simp only [bind_eq_ok, pure_eq_ok] at h
    obtain ⟨s₂, ht, heq⟩ := h
    cases heq
    obtain ⟨issuer, hauth, hissue, rfl⟩ := issue_of_inline hi
    have hmatches : ∀ b, (b = (env, Action.issue issuer quantity memo) ∨
        b = ({ env with auths := [⟨issuer, active⟩] },
          Action.transfer issuer recipient quantity memo)) →
        Matches (env, .issue recipient quantity memo) b := fun b hb =>
      Or.inr ⟨issuer, recipient, quantity, memo, rfl, hauth, hb⟩
    have hfirst : (run (step self) s [(env, .issue issuer quantity memo)]).1 = s₁ :=
      run_of_perform hissue
    have hsecond : (run (step self) s₁ [({ env with auths := [⟨issuer, active⟩] },
        .transfer issuer recipient quantity memo)]).1 = s' :=
      run_of_perform ((transfer_iff hrest₁).mpr ht)
    refine ⟨(Token.transfer_restrictions ht).trans hrest₁,
      [(env, .issue issuer quantity memo)] ++ [({ env with auths := [⟨issuer, active⟩] },
        .transfer issuer recipient quantity memo)], fun b hb => ?_, ?_⟩
    · apply hmatches
      simpa using hb
    · rw [run_append_fst, hfirst]
      exact hsecond

/-- **Step lemma**: a plain call of `volentixgsys` is one or two of `vtx222222222`. -/
theorem exists_run_of_step (hrest : s.restrictions = Table.empty) {call : Env × Token.Action}
    (hplain : Plain call) {out : List TransferAction}
    (h : Token.step self s call = .ok (s', out)) :
    s'.restrictions = Table.empty ∧
      ∃ acts, (∀ b ∈ acts, Matches call b) ∧ (run (step self) s acts).1 = s' := by
  obtain ⟨env, action⟩ := call
  cases action with
  | create issuer maximumSupply =>
    simp only [Token.step, bind_eq_ok, pure_eq_ok] at h
    obtain ⟨s₁, hc, heq⟩ := h
    cases heq
    refine ⟨?_, exists_run_of_perform (.create issuer maximumSupply) hc⟩
    obtain ⟨-, -, -, rfl⟩ := Token.create_ok hc
    exact hrest
  | issue recipient quantity memo => exact exists_run_of_issue hrest h
  | retire quantity memo =>
    simp only [Token.step, bind_eq_ok, pure_eq_ok] at h
    obtain ⟨s₁, hr, heq⟩ := h
    cases heq
    refine ⟨?_, exists_run_of_perform (.retire quantity memo) hr⟩
    obtain ⟨_, -, -, -, hsub⟩ := Token.retire_ok hr
    obtain ⟨_, -, -, -, rfl⟩ := Token.subBalance_ok hsub
    exact hrest
  | transfer sender recipient quantity memo =>
    simp only [Token.step, bind_eq_ok, pure_eq_ok] at h
    obtain ⟨s₁, ht, heq⟩ := h
    cases heq
    exact ⟨(Token.transfer_restrictions ht).trans hrest,
      exists_run_of_perform (.transfer sender recipient quantity memo)
        ((transfer_iff hrest).mpr ht)⟩
  | «open» owner symbol ramPayer =>
    simp only [Token.step, bind_eq_ok, pure_eq_ok] at h
    obtain ⟨s₁, ho, heq⟩ := h
    cases heq
    refine ⟨?_, exists_run_of_perform (.open owner symbol ramPayer)
      (openAccount_iff.mpr ⟨hplain, ho⟩)⟩
    obtain ⟨-, rfl | ⟨-, rfl⟩⟩ := Token.openAccount_ok ho
    · exact hrest
    · exact hrest
  | close owner symbol =>
    simp only [Token.step, bind_eq_ok, pure_eq_ok] at h
    obtain ⟨s₁, hc, heq⟩ := h
    cases heq
    refine ⟨?_, exists_run_of_perform (.close owner symbol) hc⟩
    obtain ⟨_, -, -, rfl⟩ := Token.close_ok hc
    exact hrest
  | arestriction account code permission => exact absurd hplain id
  | erestriction account =>
    -- there is nothing to erase
    simp only [Token.step, Token.erestriction, bind_eq_ok, check_eq_ok, exists_const] at h
    obtain ⟨s₁, ⟨_, -, hsome, -⟩, -⟩ := h
    rw [hrest] at hsome
    exact absurd rfl hsome

/-- A call of `vtx222222222` that goes through is plain. -/
theorem plain_of_step {call : Env × Action} {out : List Empty}
    (h : step self s call = .ok (s', out)) : Plain (call.1, call.2.gsys) := by
  obtain ⟨env, action⟩ := call
  simp only [step, bind_eq_ok, pure_eq_ok] at h
  obtain ⟨s₁, h, -⟩ := h
  cases action with
  | «open» owner symbol ramPayer => exact (openAccount_iff.mp h).1
  | _ => trivial

end Step

/-! ## Runs -/

/-- The calls as calls of `volentixgsys`. -/
def gsysCalls (calls : List (Env × Action)) : List (Env × Token.Action) :=
  calls.map (fun c => (c.1, c.2.gsys))

/-- **Run lemma**: the calls of `vtx222222222` that go through are a run of `volentixgsys`. -/
theorem run_gsys (self : Name) (calls : List (Env × Action)) :
    (run (step self) {} calls).1.restrictions = Table.empty ∧
      (∀ c ∈ gsysCalls (returned (step self) {} calls), Plain c) ∧
      (run (step self) {} calls).1 =
        (run (Token.step self) {} (gsysCalls (returned (step self) {} calls))).1 := by
  refine run_history (fun s past => s.restrictions = Table.empty ∧ (∀ c ∈ gsysCalls past, Plain c) ∧
    s = (run (Token.step self) {} (gsysCalls past)).1) ⟨rfl, by simp [gsysCalls], rfl⟩ ?_ calls
  rintro s past call s' out ⟨hrest, hpast, heq⟩ hs
  have hgsys := step_gsys hrest hs
  have hplain := plain_of_step hs
  have hconcat : gsysCalls (past ++ [call]) = gsysCalls past ++ [(call.1, call.2.gsys)] :=
    List.map_append
  refine ⟨(exists_run_of_step hrest hplain hgsys).1, fun c hc => ?_, ?_⟩
  · rw [hconcat] at hc
    rcases List.mem_append.mp hc with hc | hc
    · exact hpast c hc
    · rw [List.mem_singleton.mp hc]
      exact hplain
  · rw [heq] at hgsys
    rw [hconcat, run_concat, commit_of_ok hgsys]

/-- **Run lemma**: a plain run of `volentixgsys` is a run of `vtx222222222`. -/
theorem exists_wvtx_run (self : Name) {calls : List (Env × Token.Action)}
    (hplain : ∀ c ∈ calls, Plain c) :
    ∃ calls', (∀ b ∈ calls', ∃ c ∈ calls, Matches c b) ∧
      (run (Token.step self) {} calls).1 = (run (step self) {} calls').1 := by
  have hstep : ∀ (s t : State) (call : Env × Token.Action) (s' : State) (out : List TransferAction),
      s.restrictions = Table.empty ∧ s = t → call ∈ calls ∧ Plain call →
      Token.step self s call = .ok (s', out) →
      ∃ acts, (∀ b ∈ acts, ∃ c ∈ calls, Matches c b) ∧
        (s'.restrictions = Table.empty ∧ s' = (run (step self) t acts).1) := by
    rintro s _ call s' out ⟨hrest, rfl⟩ ⟨hcall, hplain⟩ hs
    obtain ⟨hrest', acts, hmatches, hacts⟩ := exists_run_of_step hrest hplain hs
    exact ⟨acts, fun b hb => ⟨call, hcall, hmatches b hb⟩, hrest', hacts.symm⟩
  have hempty : ({} : State).restrictions = Table.empty ∧ ({} : State) = {} := ⟨rfl, rfl⟩
  obtain ⟨calls', hmatches, -, heq⟩ := exists_run_of_steps
    (fun (s t : State) => s.restrictions = Table.empty ∧ s = t) (fun _ c => c ∈ calls ∧ Plain c)
    (fun b => ∃ c ∈ calls, Matches c b) hempty hstep calls
    (Along.of_forall (fun c hc _ => ⟨hc, hplain c hc⟩))
  exact ⟨calls', hmatches, heq⟩

/-- **Refinement**: the calls of `vtx222222222` that go through are, as they are, a plain run of
`volentixgsys` that ends in the same state, and the supplies are in order there.  Conversely every
plain run of `volentixgsys` ends in the same state as a run of `vtx222222222` that matches it. -/
theorem refines_gsys (self : Name) :
    (∀ calls, (∀ c ∈ gsysCalls (returned (step self) {} calls), Plain c) ∧
      (run (step self) {} calls).1 =
        (run (Token.step self) {} (gsysCalls (returned (step self) {} calls))).1 ∧
      Token.Sound (run (step self) {} calls).1) ∧
    ∀ calls, (∀ c ∈ calls, Plain c) →
      ∃ calls', (∀ b ∈ calls', ∃ c ∈ calls, Matches c b) ∧
        (run (Token.step self) {} calls).1 = (run (step self) {} calls').1 := by
  refine ⟨fun calls => ?_, fun calls hplain => exists_wvtx_run self hplain⟩
  obtain ⟨-, hplain, heq⟩ := run_gsys self calls
  refine ⟨hplain, heq, ?_⟩
  rw [heq]
  exact Token.sound_run self _

end VDexNode.Wvtx

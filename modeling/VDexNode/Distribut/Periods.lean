import VDexNode.Distribut.Rate

/-!
# VDexNode.Distribut.Periods — who can hold up `uptime`

`uptime` goes through only if the records of the jobs 1 and 2 are both a period old.  It writes
both, and so does a `calcrewards` of anybody for that job: a record is the time of the last call
that went through of either kind (`history_run`).

* `Unforestalled` : no job has been stamped by a direct `calcrewards` less than a period ago.
* `uptime_unstarved` : a period after the last `uptime`, the checks pass exactly then.
-/

namespace VDexNode.Distribut

open Eosio

section Periods

variable {D : Type}

/-! ## Stamps of a run -/

/-- The call, where it writes the record of `jobId`. -/
def stampBy (jobId : ℕ) (call : Env D × Action) : Option (Env D × Action) :=
  match call.2 with
  | .calcrewards _ j => if j = jobId then some call else none
  | .uptime _ _ _ => if jobId = 1 ∨ jobId = 2 then some call else none
  | _ => none

/-- The time of an `uptime`. -/
def uptimeAt (call : Env D × Action) : Option ℕ :=
  match call.2 with
  | .uptime _ _ _ => some call.1.now
  | _ => none

/-- The last of the calls `past` that wrote the record of `jobId`. -/
def lastStamp (jobId : ℕ) (past : List (Env D × Action)) : Option (Env D × Action) :=
  latest (stampBy jobId) past

/-- The time of the last `uptime` of `past`. -/
def lastUptime (past : List (Env D × Action)) : Option ℕ := latest uptimeAt past

/-- Neither job was last stamped by a direct `calcrewards` whose period has not run out. -/
def Unforestalled (period now : ℕ) (past : List (Env D × Action)) : Prop :=
  ∀ jobId ∈ [1, 2], ∀ call ∈ lastStamp jobId past, uptimeAt call = none →
    (call.1.now + period) % 2 ^ 32 ≤ now

theorem stampBy_calcrewards {env : Env D} {account : Name} {j jobId : ℕ} :
    stampBy jobId (env, .calcrewards account j) = none ↔ jobId ≠ j := by
  show (if j = jobId then some _ else none) = none ↔ _
  by_cases h : j = jobId
  · simp [h]
  · simp [h, Ne.symm h]

theorem stampBy_uptime {env : Env D} {account : Name} {nodeId memo : String} {jobId : ℕ} :
    stampBy jobId (env, .uptime account nodeId memo) = none ↔ ¬ (jobId = 1 ∨ jobId = 2) := by
  show (if jobId = 1 ∨ jobId = 2 then some _ else none) = none ↔ _
  by_cases h : jobId = 1 ∨ jobId = 2
  · simp [h]
  · simp [h]

/-- A stamp names the call that made it. -/
theorem stampBy_self {jobId : ℕ} {a b : Env D × Action} (h : stampBy jobId a = some b) :
    b = a := by
  obtain ⟨env, action⟩ := a
  cases action with
  | calcrewards account j =>
    obtain ⟨-, hb⟩ := Option.ite_none_right_eq_some.mp h
    exact (Option.some.inj hb).symm
  | uptime account nodeId memo =>
    obtain ⟨-, hb⟩ := Option.ite_none_right_eq_some.mp h
    exact (Option.some.inj hb).symm
  | _ => cases h

instance (period now : ℕ) (past : List (Env D × Action)) :
    Decidable (Unforestalled period now past) :=
  inferInstanceAs (Decidable (∀ jobId ∈ [1, 2], ∀ call ∈ lastStamp jobId past, _ → _))

/-- A record last written by an `uptime` was written by the last one. -/
theorem lastUptime_of_lastStamp {jobId : ℕ} (hjob : jobId = 1 ∨ jobId = 2)
    (past : List (Env D × Action)) {call : Env D × Action} {t : ℕ}
    (hlast : lastStamp jobId past = some call) (ht : uptimeAt call = some t) :
    lastUptime past = some t := by
  induction past using List.reverseRecOn with
  | nil => cases hlast
  | append_singleton past a ih =>
    rw [lastStamp, latest_concat] at hlast
    rw [lastUptime, latest_concat]
    cases hup : uptimeAt a with
    | some u =>
      -- the new call is an `uptime`, so it is the one that wrote the record
      have hstamp : stampBy jobId a = some a := by
        obtain ⟨env, action⟩ := a
        cases action with
        | uptime account nodeId memo => exact if_pos hjob
        | _ => cases hup
      rw [hstamp, Option.some_or] at hlast
      cases hlast
      rw [hup] at ht
      rw [ht, Option.some_or]
    | none =>
      rw [Option.none_or]
      apply ih
      cases hstamp : stampBy jobId a with
      | none =>
        rw [hstamp, Option.none_or] at hlast
        exact hlast
      | some b =>
        -- the new call wrote the record, and it is no `uptime`
        rw [hstamp, Option.some_or, stampBy_self hstamp] at hlast
        cases hlast
        rw [hup] at ht
        cases ht

/-! ## The two checks -/

/-- A period check passes exactly when the period has run out. -/
theorem stampHistory_iff {now : ℕ} {s : State} {rule : RewardInfo} {jobId : ℕ} :
    (∃ s', stampHistory now s rule jobId = .ok s') ↔ PeriodElapsed s rule now jobId := by
  constructor
  · rintro ⟨s', h⟩
    exact (stampHistory_ok h).1
  · intro h
    unfold stampHistory
    cases hlast : s.rewardhistory.find jobId with
    | none =>
      simp only [Table.emplace, hlast, check_of, ok_bind]
      exact ⟨_, rfl⟩
    | some last =>
      simp only [check_of (h last hlast), ok_bind]
      exact ⟨_, rfl⟩

/-- Stamping one job leaves the check of another as it was. -/
theorem periodElapsed_of_stamp {now now' : ℕ} {s s' : State} {rule : RewardInfo} {j jobId : ℕ}
    (h : s'.rewardhistory = s.rewardhistory.put ⟨j, now'⟩) (hne : jobId ≠ j) :
    PeriodElapsed s' rule now jobId ↔ PeriodElapsed s rule now jobId := by
  unfold PeriodElapsed
  rw [h, Table.find_put, if_neg hne]

/-- Both period checks of an `uptime`: job 1, then job 2. -/
def ChecksPass (now : ℕ) (s : State) (rule : RewardInfo) : Prop :=
  ∃ s₁, stampHistory now s rule 1 = .ok s₁ ∧ ∃ s₂, stampHistory now s₁ rule 2 = .ok s₂

theorem checksPass_iff {now : ℕ} {s : State} {rule : RewardInfo} :
    ChecksPass now s rule ↔ ∀ jobId ∈ [1, 2], PeriodElapsed s rule now jobId := by
  have hsecond : ∀ s₁, stampHistory now s rule 1 = .ok s₁ →
      (PeriodElapsed s₁ rule now 2 ↔ PeriodElapsed s rule now 2) := by
    intro s₁ h
    exact periodElapsed_of_stamp (by rw [(stampHistory_ok h).2]) (by omega)
  simp only [ChecksPass, stampHistory_iff, List.forall_mem_cons, List.not_mem_nil, false_imp_iff,
    implies_true, and_true]
  constructor
  · rintro ⟨s₁, h₁, h₂⟩
    exact ⟨stampHistory_iff.mp ⟨s₁, h₁⟩, (hsecond s₁ h₁).mp h₂⟩
  · rintro ⟨h₁, h₂⟩
    obtain ⟨s₁, hs₁⟩ := stampHistory_iff.mpr h₁
    exact ⟨s₁, hs₁, (hsecond s₁ hs₁).mpr h₂⟩

instance (now : ℕ) (s : State) (rule : RewardInfo) : Decidable (ChecksPass now s rule) :=
  decidable_of_iff _ checksPass_iff.symm

/-! ### What `uptime` makes of them -/

/-- The text `calcrewards` aborts with when the period has not run out. -/
def periodText : String := "rewards for previous period have been already calculated"

theorem outcome_stampHistory (now : ℕ) (s : State) (rule : RewardInfo) (jobId : ℕ) :
    Outcome (stampHistory now s rule jobId) (fun _ => True)
      (fun e => e = periodText → ¬ PeriodElapsed s rule now jobId) := by
  unfold stampHistory
  cases hlast : s.rewardhistory.find jobId with
  | none =>
    refine (Table.outcome_emplace _ _ ?_).bind (fun _ _ => outcome_ok trivial)
    intro he
    exact absurd he (by decide)
  | some last =>
    refine (outcome_check ?_).bind (fun _ _ => outcome_ok trivial)
    intro hnot _ helapsed
    exact hnot (helapsed last hlast)

section Uptime

variable [Field D] [LinearOrder D] {env : Env D}

/-- Adding rewards fails with other texts. -/
theorem outcome_creditNode {rule : RewardInfo} {jobId : ℕ} (acc : State × List Credit)
    (node : Name) :
    Outcome (creditNode env rule jobId acc node) (fun _ => True) (fun e => e ≠ periodText) := by
  have hadd : ∀ amount memo, Outcome (addReward acc.1 node amount memo) (fun _ => True)
      (fun e => e ≠ periodText) := by
    intro amount memo
    refine (Table.outcome_availablePrimaryKey _ _ _ (by decide)).bind (fun _ _ => ?_)
    exact (Table.outcome_emplace _ _ (by decide)).bind (fun _ _ => outcome_ok trivial)
  exact (hadd _ _).bind (fun _ _ => outcome_ok trivial)

/-- A `calcrewards` that fails with that text has failed its period check. -/
theorem outcome_calcrewards {s : State} {rule : RewardInfo} (hrule : s.rewards.find 2 = some rule)
    (account : Name) (jobId : ℕ) :
    Outcome (calcrewards env s account jobId)
      (fun r => PeriodElapsed s rule env.now jobId ∧ r.1.rewards = s.rewards ∧
        r.1.rewardhistory = s.rewardhistory.put ⟨jobId, env.now⟩)
      (fun e => e = periodText → ¬ PeriodElapsed s rule env.now jobId) := by
  constructor
  · intro r h
    obtain ⟨rule', hrule', helapsed, hrewards, hhist, -⟩ := calcrewards_ok account h
    rw [hrule] at hrule'
    cases hrule'
    exact ⟨helapsed, hrewards, hhist⟩
  · have herr : Outcome (calcrewards env s account jobId) (fun _ => True)
        (fun e => e = periodText → ¬ PeriodElapsed s rule env.now jobId) := by
      refine (Table.outcome_get _ _ (fun he => absurd he (by decide))).bind ?_
      intro rule' hrule'
      rw [hrule] at hrule'
      cases hrule'
      refine (outcome_stampHistory env.now s rule jobId).bind (fun s₁ _ => ?_)
      refine (Outcome.foldlM (fun _ _ => True) ?_ _ (s₁, []) trivial).mono (fun _ _ => trivial)
        (fun _ hne he => absurd he hne)
      exact fun node _ acc _ => outcome_creditNode acc node
    exact herr.2

/-- `uptime` aborts with that text only if one of its two checks fails, and goes through only if
both pass. -/
theorem outcome_uptime (self : Name) {s : State} {rule : RewardInfo}
    (hrule : s.rewards.find 2 = some rule) (account : Name) (nodeId memo : String) :
    Outcome (uptime self env s account nodeId memo) (fun _ => ChecksPass env.now s rule)
      (fun e => e = periodText → ¬ ChecksPass env.now s rule) := by
  have hsecond : ∀ {s₁ : State}, s₁.rewardhistory = s.rewardhistory.put ⟨1, env.now⟩ →
      (PeriodElapsed s₁ rule env.now 2 ↔ PeriodElapsed s rule env.now 2) :=
    fun h => periodElapsed_of_stamp h (by omega)
  simp only [checksPass_iff, List.forall_mem_cons, List.not_mem_nil, false_imp_iff, implies_true,
    and_true]
  have hjobs : Outcome (Vote.getJobs env.voting account) (fun _ => True) (· ≠ periodText) :=
    (Table.outcome_get _ _ (by decide)).bind (fun _ _ => outcome_ok trivial)
  refine (hjobs.mono (fun _ h => h) (fun _ hne he => absurd he hne)).bind (fun _ _ => ?_)
  refine ((outcome_calcrewards hrule account 1).mono (fun _ h => h)
    (fun _ hE he hboth => hE he hboth.1)).bind ?_
  rintro ⟨s₁, credits₁⟩ ⟨h₁, hrewards, hhist⟩
  simp only at hrewards hhist
  have hrule₁ : s₁.rewards.find 2 = some rule := by rw [hrewards, hrule]
  refine ((outcome_calcrewards hrule₁ account 2).mono (fun _ h => h)
    (fun _ hE he hboth => hE he ((hsecond hhist).mpr hboth.2))).bind ?_
  rintro ⟨s₂, credits₂⟩ ⟨h₂, -⟩
  exact outcome_ok ⟨h₁, (hsecond hhist).mp h₂⟩

end Uptime

/-- What the record of a job says after the calls `past`. -/
def recordOf (jobId : ℕ) (past : List (Env D × Action)) : Option RewardHistory :=
  (lastStamp jobId past).map (fun call => ⟨jobId, call.1.now⟩)

theorem recordOf_concat {jobId : ℕ} {past : List (Env D × Action)} {call : Env D × Action} :
    recordOf jobId (past ++ [call]) =
      if stampBy jobId call = none then recordOf jobId past else some ⟨jobId, call.1.now⟩ := by
  rw [recordOf, lastStamp, latest_concat]
  cases hstamp : stampBy jobId call with
  | none =>
    rw [if_pos rfl, Option.none_or]
    rfl
  | some b =>
    rw [if_neg (Option.some_ne_none b), Option.some_or, stampBy_self hstamp]
    rfl

variable [Field D] [LinearOrder D] {self : Name}

/-- **Step lemma**: a call that goes through stamps its jobs with its time. -/
theorem history_step {s s' : State} {call : Env D × Action} {out : List Receipt}
    (h : step self s call = .ok (s', out)) (jobId : ℕ) :
    s'.rewardhistory.find jobId =
      if stampBy jobId call = none then s.rewardhistory.find jobId
      else some ⟨jobId, call.1.now⟩ := by
  obtain ⟨receipt, hp, -⟩ := step_ok h
  obtain ⟨env, action⟩ := call
  cases action with
  | getreward node =>
    cases hp
    rw [(getreward_moves self s node).1.2]
    rfl
  | calcrewards account j =>
    obtain ⟨_, -, -, -, hhist, -⟩ := calcrewards_ok self (perform_calcrewards hp).1
    simp only at hhist
    rw [hhist, Table.find_put]
    by_cases hj : jobId = j
    · rw [if_pos hj, if_neg (fun he => stampBy_calcrewards.mp he hj), hj]
    · rw [if_neg hj, if_pos (stampBy_calcrewards.mpr hj)]
  | uptime account nodeId memo =>
    obtain ⟨s₁, s₂, credits₁, credits₂, h₁, h₂, -, hsame, -⟩ := uptime_ok (perform_uptime hp)
    obtain ⟨_, -, -, -, hhist₁, -⟩ := calcrewards_ok self h₁
    obtain ⟨_, -, -, -, hhist₂, -⟩ := calcrewards_ok self h₂
    simp only at hhist₁ hhist₂
    rw [hsame.2, hhist₂, Table.find_put, hhist₁, Table.find_put]
    by_cases h2 : jobId = 2
    · rw [if_pos h2, if_neg (fun he => stampBy_uptime.mp he (Or.inr h2)), h2]
    · rw [if_neg h2]
      by_cases h1 : jobId = 1
      · rw [if_pos h1, if_neg (fun he => stampBy_uptime.mp he (Or.inl h1)), h1]
      · have hnone : ¬ (jobId = 1 ∨ jobId = 2) := by omega
        rw [if_neg h1, if_pos (stampBy_uptime.mpr hnone)]
  | _ =>
    obtain ⟨-, -, hhist⟩ := perform_still rfl hp
    rw [hhist]
    rfl

/-- **Run lemma**: the record of a job is the time of the last call that stamped it. -/
theorem history_run (rules : Table RewardInfo.rewardId) (calls : List (Env D × Action))
    (jobId : ℕ) :
    (run (step self) { rewards := rules } calls).1.rewardhistory.find jobId =
      recordOf jobId (returned (step self) { rewards := rules } calls) := by
  refine run_history
    (fun (s : State) past => s.rewardhistory.find jobId = recordOf jobId past) rfl ?_ calls
  intro s past call s' out hpast h
  rw [history_step h, recordOf_concat, hpast]

/-- Rules that every call keeps are those of the beginning. -/
theorem rewards_run {rules : Table RewardInfo.rewardId} {calls : List (Env D × Action)}
    (hrules : Along (step self) (KeepsRules self) { rewards := rules } calls) :
    (run (step self) { rewards := rules } calls).1.rewards = rules := by
  refine run_invariant_of (fun s _ => s.rewards = rules) _ rfl ?_ calls hrules
  intro s log call s' out hs hkeep h
  rw [KeepsRules, next_of_ok h] at hkeep
  exact hkeep.trans hs

/-- **Periods**: over unchanging rules, a call made at least a period after the last `uptime` passes
both period checks exactly when no direct `calcrewards` for job 1 or 2 stamped its job less than a
period ago and last.  `uptime` goes through only if the checks pass, and where they do it does not
abort with their text. -/
theorem uptime_unstarved (self : Name) (rules : Table RewardInfo.rewardId) (rule : RewardInfo)
    (hrule : rules.find 2 = some rule) (calls : List (Env D × Action))
    (hrules : Along (step self) (KeepsRules self) { rewards := rules } calls) (env : Env D)
    (hdue : ∀ t ∈ lastUptime (returned (step self) { rewards := rules } calls),
      t + rule.rewardPeriod ≤ env.now) :
    let s := (run (step self) { rewards := rules } calls).1
    let past := returned (step self) { rewards := rules } calls
    (ChecksPass env.now s rule ↔ Unforestalled rule.rewardPeriod env.now past) ∧
    ∀ account nodeId memo, Outcome (uptime self env s account nodeId memo)
      (fun _ => ChecksPass env.now s rule)
      (fun e => e = periodText → ¬ ChecksPass env.now s rule) := by
  intro s past
  have hfind : s.rewards.find 2 = some rule := by rw [rewards_run hrules, hrule]
  refine ⟨?_, fun account nodeId memo => outcome_uptime self hfind account nodeId memo⟩
  rw [checksPass_iff]
  refine forall₂_congr (fun jobId hjob => ?_)
  rw [PeriodElapsed, history_run]
  show (∀ last ∈ (lastStamp jobId past).map _, _) ↔ _
  have hjob' : jobId = 1 ∨ jobId = 2 := by simpa using hjob
  constructor
  · intro hall call hcall _
    exact hall _ (Option.mem_map_of_mem _ hcall)
  · intro hall last hlast
    obtain ⟨call, hcall, rfl⟩ := Option.mem_map.mp hlast
    cases hup : uptimeAt call with
    | none => exact hall call hcall hup
    | some t =>
      -- the record is that of the last `uptime`
      have ht : call.1.now = t := by
        unfold uptimeAt at hup
        split at hup
        · exact Option.some.inj hup
        · cases hup
      have hlater := hdue t (lastUptime_of_lastStamp hjob' past hcall hup)
      show (call.1.now + rule.rewardPeriod) % 2 ^ 32 ≤ env.now
      rw [ht]
      exact (Nat.mod_le _ _).trans hlater

/-- A stranger who calculates job 3 a day later holds nobody up. -/
theorem uptime_unstarved_stranger :
    ChecksPass 87400 (run (step (Name.ofString "vtxdistribut")) { rewards := dailyRules }
      [(onlyProducer 1000, .uptime (Name.ofString "node") "" ""),
        (onlyProducer 87399, .calcrewards (Name.ofString "stranger") 3)]).1
      ⟨2, 86400, ⟨500, Stak.vtx⟩, ⟨100, Stak.vtx⟩, 3, 3, "", ""⟩ :=
  (uptime_unstarved (Name.ofString "vtxdistribut") dailyRules _ (by decide +kernel) _
    (by decide +kernel) (onlyProducer 87400) (by decide +kernel)).1.mpr (by decide +kernel)

/-- One who calculates job 1 does. -/
theorem uptime_starved : ¬ ∀ (self : Name) (rules : Table RewardInfo.rewardId) (rule : RewardInfo)
    (calls : List (Env ℚ × Action)) (env : Env ℚ) (account : Name),
    rules.find 2 = some rule →
    Along (step self) (KeepsRules self) { rewards := rules } calls →
    env.voting.producers.find account ≠ none →
    (∀ t ∈ lastUptime (returned (step self) { rewards := rules } calls),
      t + rule.rewardPeriod ≤ env.now) →
    ChecksPass env.now (run (step self) { rewards := rules } calls).1 rule := by
  intro h
  exact absurd (h (Name.ofString "vtxdistribut") dailyRules
    ⟨2, 86400, ⟨500, Stak.vtx⟩, ⟨100, Stak.vtx⟩, 3, 3, "", ""⟩
    [(onlyProducer 1000, .uptime (Name.ofString "node") "" ""),
      (onlyProducer 87400, .calcrewards (Name.ofString "stranger") 1)] (onlyProducer 87401)
    (Name.ofString "node") (by decide +kernel) (by decide +kernel) (by decide +kernel)
    (by decide +kernel)) (by decide +kernel)

/-! ## Times that wrap around -/

/-- The jobs a call credits. -/
def jobsOf (call : Env D × Action) : List ℕ :=
  match call.2 with
  | .calcrewards _ jobId => [jobId]
  | .uptime _ _ _ => [1, 2]
  | _ => []

/-- In the run of `calls`, a call that goes through comes a period after the one that stamped its
job before it, the period being that of the rule it reads. -/
def Apart (self : Name) (rules : Table RewardInfo.rewardId) (calls : List (Env D × Action)) :
    Prop :=
  ∀ pre call post, calls = pre ++ call :: post →
    (step self (run (step self) { rewards := rules } pre).1 call).isOk = true →
    ∀ jobId ∈ jobsOf call, ∀ rule ∈ (run (step self) { rewards := rules } pre).1.rewards.find 2,
    ∀ prev ∈ lastStamp jobId (returned (step self) { rewards := rules } pre),
      prev.1.now + rule.rewardPeriod ≤ call.1.now

/-- A call that goes through finds the ends of the periods of its jobs within 32 bits. -/
def Fits (self : Name) (s : State) (call : Env D × Action) : Prop :=
  (step self s call).isOk = true → ∀ jobId ∈ jobsOf call, ∀ rule ∈ s.rewards.find 2,
    ∀ last ∈ s.rewardhistory.find jobId, last.lastTimestamp + rule.rewardPeriod < 2 ^ 32

instance (self : Name) (s : State) (call : Env D × Action) : Decidable (Fits self s call) :=
  inferInstanceAs (Decidable (_ = true → ∀ jobId ∈ _, ∀ rule ∈ _, ∀ last ∈ _, _))

/-- A call that goes through has passed the period checks of its jobs. -/
theorem periodElapsed_of_step {s s' : State} {call : Env D × Action} {out : List Receipt}
    (h : step self s call = .ok (s', out)) {jobId : ℕ} (hjob : jobId ∈ jobsOf call)
    {rule : RewardInfo} (hrule : s.rewards.find 2 = some rule) :
    PeriodElapsed s rule call.1.now jobId := by
  have hcalc : ∀ {env : Env D} {s s' : State} {account : Name} {j : ℕ} {credits : List Credit},
      s.rewards.find 2 = some rule → calcrewards env s account j = .ok (s', credits) →
        PeriodElapsed s rule env.now j := by
    intro env s s' account j credits hrule h
    exact ((outcome_calcrewards hrule account j).1 _ h).1
  obtain ⟨receipt, hp, -⟩ := step_ok h
  obtain ⟨env, action⟩ := call
  cases action with
  | calcrewards account j =>
    rw [List.mem_singleton.mp hjob]
    exact hcalc hrule (perform_calcrewards hp).1
  | uptime account nodeId memo =>
    obtain ⟨s₁, s₂, credits₁, credits₂, h₁, h₂, -⟩ := uptime_ok (perform_uptime hp)
    obtain ⟨-, hrewards, hhist⟩ := (outcome_calcrewards hrule account 1).1 _ h₁
    simp only at hrewards hhist
    rcases List.mem_cons.mp hjob with rfl | hjob
    · exact hcalc hrule h₁
    · -- job 1 has been stamped in between
      rw [List.mem_singleton.mp hjob]
      exact (periodElapsed_of_stamp hhist (by omega)).mp (hcalc (by rw [hrewards, hrule]) h₂)
  | _ => cases hjob

/-- **Periods and the clock**: with times of 32 bits, successive calls of a job that go through are
a period apart exactly when the end of that period never wraps around. -/
theorem apart_iff_fits (self : Name) (rules : Table RewardInfo.rewardId)
    (calls : List (Env D × Action)) (hnow : ∀ call ∈ calls, call.1.now < 2 ^ 32) :
    Apart self rules calls ↔ Along (step self) (Fits self) { rewards := rules } calls := by
  rw [along_iff_forall_append]
  refine forall₄_congr (fun pre call post hcalls => ?_)
  refine forall₄_congr (fun hok jobId hjob rule => forall_congr' (fun hrule => ?_))
  obtain ⟨⟨s', out⟩, h⟩ := exists_of_isOk hok
  have helapsed := periodElapsed_of_step h hjob hrule
  rw [PeriodElapsed, history_run] at helapsed
  rw [history_run]
  have htime : call.1.now < 2 ^ 32 := hnow call (by rw [hcalls]; simp)
  constructor
  · intro hall last hlast
    obtain ⟨prev, hprev, rfl⟩ := Option.mem_map.mp hlast
    exact (hall prev hprev).trans_lt htime
  · intro hall prev hprev
    have hmem := Option.mem_map_of_mem (fun call => (⟨jobId, call.1.now⟩ : RewardHistory)) hprev
    have hle := helapsed _ hmem
    rw [Nat.mod_eq_of_lt (hall _ hmem)] at hle
    exact hle

/-- Two calls a day apart. -/
theorem apart_iff_fits_daily : Apart (Name.ofString "vtxdistribut") dailyRules
    [(onlyProducer 1000, .calcrewards (Name.ofString "node") 1),
      (onlyProducer 87400, .calcrewards (Name.ofString "node") 1)] :=
  (apart_iff_fits _ _ _ (by decide +kernel)).mpr (by decide +kernel)

/-- The rule an operator sets so that nothing is paid again. -/
def neverAgain : Table RewardInfo.rewardId :=
  Table.empty.put ⟨2, 4294967295, ⟨500, Stak.vtx⟩, ⟨100, Stak.vtx⟩, 3, 3, "", ""⟩

/-- The longest period is over at once. -/
theorem neverAgain_together : ¬ ∀ (self : Name) (rules : Table RewardInfo.rewardId)
    (calls : List (Env ℚ × Action)), (∀ rule ∈ rules.rows, rule.rewardPeriod < 2 ^ 32) →
    (∀ call ∈ calls, call.1.now < 2 ^ 32) → Apart self rules calls := by
  intro h
  let self := Name.ofString "vtxdistribut"
  let call : Env ℚ × Action := (onlyProducer 1000, .calcrewards (Name.ofString "node") 1)
  have hlast : lastStamp 1 (returned (step self) { rewards := neverAgain } [call]) = some call := by
    rw [returned, if_pos (by decide +kernel)]
    rfl
  have hapart := h self neverAgain [call, call] (by decide +kernel) (by decide +kernel) [call] call
    [] rfl (by decide +kernel) 1 (by decide +kernel)
    ⟨2, 4294967295, ⟨500, Stak.vtx⟩, ⟨100, Stak.vtx⟩, 3, 3, "", ""⟩ (by decide +kernel) call hlast
  exact absurd hapart (by decide +kernel)

end Periods

end VDexNode.Distribut

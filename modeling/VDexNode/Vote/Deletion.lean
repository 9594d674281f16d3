import VDexNode.Vote.Spec

/-!
# VDexNode.Vote.Deletion — the bulk deletions do not complete

`unregprodall` and `deluserinfo` erase row after row until the iterator is `end()`, and then erase
that iterator once more (`unregprodall_eq`, `deluserinfo_eq`).  The loop is right
(`Table.eraseWhile_begin`); the call after it aborts and undoes it.
-/

namespace VDexNode.Vote

open Eosio

variable {D : Type}

/-- `unregprodall` with its iterator. -/
theorem unregprodall_eq (self : Name) (env : Env) (s : State D) :
    unregprodall self env s = (do
      requireAuth env.auths self
      let producers ← s.producers.eraseAll.1
      return { s with producers := producers }) := by
  unfold unregprodall
  rw [Table.foldlM_eraseAt s.producers.rows s.producers rfl, Table.eraseAll_eq]
  rfl

/-- `deluserinfo` with its iterator. -/
theorem deluserinfo_eq (self : Name) (env : Env) (s : State D) :
    deluserinfo self env s = (do
      requireAuth env.auths self
      let voters ← s.voters.eraseAll.1
      return { s with voters := voters }) := by
  unfold deluserinfo
  rw [Table.foldlM_eraseAt s.voters.rows s.voters rfl, Table.eraseAll_eq]
  rfl

theorem unregprodall_eq_error {self : Name} {env : Env} {s : State D}
    (hauth : hasAuth env.auths self) :
    unregprodall self env s = .error "cannot pass end iterator to erase" := by
  rw [unregprodall_eq, requireAuth, check_of hauth, Table.eraseAll_eq]
  rfl

theorem deluserinfo_eq_error {self : Name} {env : Env} {s : State D}
    (hauth : hasAuth env.auths self) :
    deluserinfo self env s = .error "cannot pass end iterator to erase" := by
  rw [deluserinfo_eq, requireAuth, check_of hauth, Table.eraseAll_eq]
  rfl

/-- A deletion of `t` completes: it commits and leaves nothing in the table, and `erase` is called
with every row once and with no other iterator. -/
structure Completes {R K : Type} [LinearOrder K] {key : R → K} (result : Result (State D))
    (left : State D → Table key) (t : Table key) : Prop where
  commits : ∃ s', result = .ok s' ∧ left s' = Table.empty
  erased : t.eraseAll.2.Perm (t.rows.map some)

theorem not_completes_of_error {R K : Type} [LinearOrder K] {key : R → K}
    {result : Result (State D)} {left : State D → Table key} {t : Table key} {e : String}
    (h : result = .error e) : ¬ Completes result left t := by
  intro hcompletes
  obtain ⟨s', hs', -⟩ := hcompletes.commits
  rw [h] at hs'
  cases hs'

section Deletions

variable [Field D] [LinearOrder D] (sqrt : D → D)

/-- A call that aborts leaves the tables as they are. -/
theorem next_of_perform_error {self : Name} {env : Env} {s : State D} {action : Action} {e : String}
    (h : perform sqrt self env s action = .error e) :
    next (step sqrt self) s (env, action) = s := by
  refine next_of_error (e := e) ?_
  unfold step
  rw [h, error_bind]

/-- **The bulk deletions never complete**: with the contract's authority each of them erases every
row once, in order, and then `end()`, which aborts; the tables stay as they were. -/
theorem deletions_never_complete (self : Name) (env : Env) (s : State D)
    (hauth : hasAuth env.auths self) :
    (unregprodall self env s = .error "cannot pass end iterator to erase" ∧
      s.producers.eraseAll.2 = s.producers.rows.map some ++ [none] ∧
      next (step sqrt self) s (env, .unregprodall) = s ∧
      ¬ Completes (unregprodall self env s) State.producers s.producers) ∧
    (deluserinfo self env s = .error "cannot pass end iterator to erase" ∧
      s.voters.eraseAll.2 = s.voters.rows.map some ++ [none] ∧
      next (step sqrt self) s (env, .deluserinfo) = s ∧
      ¬ Completes (deluserinfo self env s) State.voters s.voters) := by
  have hprods := unregprodall_eq_error (s := s) hauth
  have hvoters := deluserinfo_eq_error (s := s) hauth
  refine ⟨⟨hprods, ?_, ?_, ?_⟩, ⟨hvoters, ?_, ?_, ?_⟩⟩
  · rw [Table.eraseAll_eq]
  · exact next_of_perform_error sqrt hprods
  · exact not_completes_of_error hprods
  · rw [Table.eraseAll_eq]
  · exact next_of_perform_error sqrt hvoters
  · exact not_completes_of_error hvoters

end Deletions

/-- The contract acting for itself. -/
def ownEnv : Env :=
  { auths := [⟨Name.ofString "volentixvote", active⟩], now := 0, staking := {}, token := {} }

/-- Two producers and one voter. -/
def twoProducers : State ℚ where
  producers := (Table.empty.put ⟨Name.ofString "node", 0, true, "", "", "", "", [1]⟩).put
    ⟨Name.ofString "other", 0, false, "", "", "", "", [2]⟩
  voters := Table.empty.put ⟨Name.ofString "voter", [Name.ofString "node"], 1, 0, 0⟩

theorem deletions_never_complete_two :
    (unregprodall (Name.ofString "volentixvote") ownEnv twoProducers =
        .error "cannot pass end iterator to erase" ∧
      twoProducers.producers.eraseAll.2 = twoProducers.producers.rows.map some ++ [none] ∧
      next (step id (Name.ofString "volentixvote")) twoProducers (ownEnv, .unregprodall) =
        twoProducers ∧
      ¬ Completes (unregprodall (Name.ofString "volentixvote") ownEnv twoProducers) State.producers
        twoProducers.producers) ∧
    (deluserinfo (Name.ofString "volentixvote") ownEnv twoProducers =
        .error "cannot pass end iterator to erase" ∧
      twoProducers.voters.eraseAll.2 = twoProducers.voters.rows.map some ++ [none] ∧
      next (step id (Name.ofString "volentixvote")) twoProducers (ownEnv, .deluserinfo) =
        twoProducers ∧
      ¬ Completes (deluserinfo (Name.ofString "volentixvote") ownEnv twoProducers) State.voters
        twoProducers.voters) :=
  deletions_never_complete id (Name.ofString "volentixvote") ownEnv twoProducers (by decide)

/-- Not even the deletion of no rows completes. -/
theorem empty_deletions_abort :
    hasAuth ownEnv.auths (Name.ofString "volentixvote") ∧
    ¬ Completes (unregprodall (Name.ofString "volentixvote") ownEnv ({} : State ℚ)) State.producers
      Table.empty ∧
    ¬ Completes (deluserinfo (Name.ofString "volentixvote") ownEnv ({} : State ℚ)) State.voters
      Table.empty := by
  have hauth : hasAuth ownEnv.auths (Name.ofString "volentixvote") := by decide
  refine ⟨hauth, ?_, ?_⟩
  · exact not_completes_of_error (unregprodall_eq_error hauth)
  · exact not_completes_of_error (deluserinfo_eq_error hauth)

end VDexNode.Vote

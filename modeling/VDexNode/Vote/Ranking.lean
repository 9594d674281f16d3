import VDexNode.Vote.Tally

/-!
# VDexNode.Vote.Ranking — active producers before inactive ones

The index key is the negated total of an active producer and the total of an inactive one.  Totals
are not negative, so the active producers have the keys up to zero and the inactive ones those from
zero on, and only at zero does the account name decide.

* `Ranked` : active producers come first, in order of their votes.
* `ranked_run_iff` : **in every state a run reaches they do, unless an inactive producer without
  votes has a smaller name than an active one without votes.**
-/

namespace VDexNode.Vote

open Eosio

section Ranking

variable {D : Type} [Field D] [LinearOrder D]

/-- Active producers precede inactive ones in the index and come in non-increasing order of their
votes, and the rank of an active one counts no inactive one. -/
structure Ranked (s : State D) : Prop where
  activeFirst : s.protoTotalVote.Pairwise (fun a b => b.isActive = true → a.isActive = true)
  descending : (s.protoTotalVote.filter Producer.isActive).Pairwise
    (fun a b => b.totalVotes ≤ a.totalVotes)
  counted : ∀ p ∈ s.producers.rows, p.isActive = true →
    ∀ o ∈ s.protoTotalVote.take (getRank s p.owner), o.isActive = true

/-- An inactive producer without votes has a smaller name than an active one without votes. -/
def IdleFirst (s : State D) : Prop :=
  ∃ a ∈ s.producers.rows, ∃ b ∈ s.producers.rows, a.isActive = false ∧ b.isActive = true ∧
    a.totalVotes = 0 ∧ b.totalVotes = 0 ∧ a.owner < b.owner

variable {s : State D}

/-- A rank counts the rows in front of a producer. -/
theorem Ranked.of_activeFirst (hdesc : (s.protoTotalVote.filter Producer.isActive).Pairwise
      (fun a b => b.totalVotes ≤ a.totalVotes))
    (hfirst : s.protoTotalVote.Pairwise (fun a b => b.isActive = true → a.isActive = true)) :
    Ranked s := by
  refine ⟨hfirst, hdesc, fun p hp hactive o ho => ?_⟩
  obtain ⟨i, hi⟩ := List.mem_iff_getElem?.mp ((mem_protoTotalVote s).mpr hp)
  rw [getRank_of_getElem? hi] at ho
  obtain ⟨hlt, hget⟩ := List.getElem?_eq_some_iff.mp hi
  obtain ⟨j, hj, rfl⟩ := List.mem_take_iff_getElem.mp ho
  refine List.pairwise_iff_getElem.mp hfirst j i (by omega) hlt (by omega) ?_
  rw [hget]
  exact hactive

variable [IsStrictOrderedRing D]

/-- Keys of active producers are the negated totals, whatever the names. -/
theorem pairwise_active (s : State D) : (s.protoTotalVote.filter Producer.isActive).Pairwise
    (fun a b => b.totalVotes ≤ a.totalVotes) := by
  rw [List.pairwise_filter]
  refine (pairwise_protoTotalVote s).imp (fun {a b} hle ha hb => ?_)
  have hkey : a.byVotes ≤ b.byVotes := Prod.Lex.monotone_fst _ _ hle
  rw [Producer.byVotes, Producer.byVotes, if_pos ha, if_pos hb] at hkey
  exact neg_le_neg_iff.mp hkey

/-- An inactive row in front of an active one: both are without votes, and the names decide. -/
theorem zero_of_le {a b : Producer D} (ha : a.isActive = false) (hb : b.isActive = true)
    (hpa : 0 ≤ a.totalVotes) (hpb : 0 ≤ b.totalVotes)
    (hle : toLex (a.byVotes, a.owner) ≤ toLex (b.byVotes, b.owner)) :
    a.totalVotes = 0 ∧ b.totalVotes = 0 ∧ a.owner ≤ b.owner := by
  have hkeya : a.byVotes = a.totalVotes := if_neg (by rw [ha]; exact Bool.false_ne_true)
  have hkeyb : b.byVotes = -b.totalVotes := if_pos hb
  rw [hkeya, hkeyb, Prod.Lex.toLex_le_toLex] at hle
  rcases hle with hlt | ⟨heq, howner⟩
  · simp only at hlt
    linarith
  · simp only at heq howner
    exact ⟨by linarith, by linarith, howner⟩

/-- **Ranking**: with totals that are not negative, only names of producers without votes can put
an inactive one first. -/
theorem ranked_iff (hpos : ∀ p ∈ s.producers.rows, 0 ≤ p.totalVotes) :
    Ranked s ↔ ¬ IdleFirst s := by
  constructor
  · rintro hranked ⟨a, ha, b, hb, hinactive, hactive, hza, hzb, hlt⟩
    have hkeya : a.byVotes = 0 := by
      rw [Producer.byVotes, if_neg (by rw [hinactive]; exact Bool.false_ne_true), hza]
    have hkeyb : b.byVotes = 0 := by
      rw [Producer.byVotes, if_pos hactive, hzb, neg_zero]
    obtain ⟨i, hi, rfl⟩ := List.mem_iff_getElem.mp ((mem_protoTotalVote s).mpr ha)
    obtain ⟨j, hj, rfl⟩ := List.mem_iff_getElem.mp ((mem_protoTotalVote s).mpr hb)
    rcases Nat.lt_trichotomy i j with hij | rfl | hji
    · -- the inactive row stands first
      have hact := List.pairwise_iff_getElem.mp hranked.activeFirst i j hi hj hij hactive
      rw [hinactive] at hact
      cases hact
    · exact lt_irrefl _ hlt
    · -- and not behind, since its name is smaller
      have hle := List.pairwise_iff_getElem.mp (pairwise_protoTotalVote s) j i hj hi hji
      rw [hkeya, hkeyb, Prod.Lex.toLex_le_toLex] at hle
      rcases hle with hlt' | ⟨-, howner⟩
      · exact lt_irrefl _ hlt'
      · exact not_le_of_gt hlt howner
  · intro hidle
    refine Ranked.of_activeFirst (pairwise_active s) ?_
    refine (pairwise_protoTotalVote s).imp_of_mem (fun {a b} ha hb hle hactive => ?_)
    by_contra hna
    have ha := (mem_protoTotalVote s).mp ha
    have hb := (mem_protoTotalVote s).mp hb
    have hinactive : a.isActive = false := Bool.eq_false_iff.mpr hna
    obtain ⟨hza, hzb, howner⟩ := zero_of_le hinactive hactive (hpos a ha) (hpos b hb) hle
    refine hidle ⟨a, ha, b, hb, hinactive, hactive, hza, hzb, lt_of_le_of_ne howner ?_⟩
    intro hsame
    rw [s.producers.key_injOn ha hb hsame, hactive] at hinactive
    cases hinactive

end Ranking

/-- In every state a run reaches no total is negative. -/
theorem totalVotes_nonneg (self : Name) (calls : List (Env × Action)) :
    ∀ p ∈ (run (step Real.sqrt self) {} calls).1.producers.rows, 0 ≤ p.totalVotes := by
  intro p hp
  have ht := tally_run Real.sqrt self calls
  rw [ht.votes p hp]
  refine Table.sum_nonneg (fun v hv => ?_)
  rw [Voter.cast, ht.weight v hv]
  exact mul_nonneg (Nat.cast_nonneg _) (div_nonneg (Real.sqrt_nonneg _) (Nat.cast_nonneg _))

/-- **Ranking in a run**: in every state a run reaches, active producers come first, by their votes,
exactly when no inactive producer without votes has a smaller name than an active one without
votes. -/
theorem ranked_run_iff (self : Name) (calls : List (Env × Action)) :
    let s := (run (step Real.sqrt self) {} calls).1
    Ranked s ↔ ¬ IdleFirst s :=
  ranked_iff (totalVotes_nonneg self calls)

/-- A call of `account`. -/
def callOf (account : Name) : Env :=
  { auths := [⟨account, active⟩], now := 1, staking := {}, token := {} }

/-- Two producers register, and the one with the smaller name leaves. -/
def aliceLeaves : List (Env × Action) :=
  let alice := Name.ofString "alice"
  let bob := Name.ofString "bob"
  [(callOf bob, .regproducer bob "" "" "" "" [1]),
    (callOf alice, .regproducer alice "" "" "" "" [1]), (callOf alice, .unregprod alice)]

/-- She is still listed before the other. -/
theorem aliceLeaves_first : ¬ ∀ (self : Name) (calls : List (Env × Action)),
    Ranked (run (step Real.sqrt self) {} calls).1 := by
  intro h
  have hranked := h (Name.ofString "volentixvote") aliceLeaves
  rw [ranked_iff (totalVotes_nonneg _ _)] at hranked
  apply hranked
  refine ⟨⟨Name.ofString "alice", 0, false, "", "", "", "", [1]⟩, ?_,
    ⟨Name.ofString "bob", 0, true, "", "", "", "", [1]⟩, ?_, rfl, rfl, rfl, rfl, by decide⟩
  · exact List.mem_of_getElem? (i := 0) rfl
  · exact List.mem_of_getElem? (i := 1) rfl

end VDexNode.Vote

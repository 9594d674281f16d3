import VDexNode.Mpt.Sessions

/-!
# VDexNode.Mpt.Lockstep — every interleaving computes the rounds in step

The clients of a session reach a round at different times, and some are a round ahead of others.
What a client has read is nevertheless what it would read if all of them went from round to round
together: `lockstep` computes that from the programs alone.

* `Traced` : the vectors of a client and the messages it has posted, round by round.
* `Traced.take_eq_lockstep` : the vectors of a client are those of the rounds in step, by induction
  on the round.
* `Traced.progress` : the client with the most left to do waits for nobody.
* `runs_in_step` : **in every run, the clients of a full session have the vectors of the rounds in
  step, and the session can be completed.**
-/

namespace VDexNode.Mpt

open Api

variable {M : Type}

/-! ## Rounds in step -/

section Rounds

variable (n : ℕ) (uuid : String) (prog : ℕ → Program M)

/-- What party `i` has at the end of a round, when each party `j` had `past j` before it: all
broadcasts, or the messages of the others to it. -/
def roundVec (r : Round) (past : ℕ → List (List M)) (i : ℕ) : List M :=
  if r.p2p then (others n i).map (fun j => (prog j).p2p ⟨j, uuid⟩ (past j) i)
  else (List.range' 1 n).map (fun j => (prog j).broadcast ⟨j, uuid⟩ (past j))

/-- The vectors of party `i` after the first `r` rounds, all parties in step. -/
def lockstep (k : Kind) : ℕ → ℕ → List (List M)
  | 0, _ => []
  | r + 1, i => lockstep k r i ++
      (k.rounds[r]?).toList.map (fun rd => roundVec n uuid prog rd (lockstep k r) i)

theorem lockstep_succ {k : Kind} {r : ℕ} {rd : Round} (hrd : k.rounds[r]? = some rd) (i : ℕ) :
    lockstep n uuid prog k (r + 1) i =
      lockstep n uuid prog k r i ++ [roundVec n uuid prog rd (lockstep n uuid prog k r) i] := by
  rw [lockstep, hrd]
  rfl

end Rounds

/-! ## The trace of a client -/

/-- The variables of a client as they were when it had come through `r` rounds. -/
def Locals.upTo (l : Locals M) (r : ℕ) : Locals M := { l with past := l.past.take r }

section Traced

variable (N : Network M)

/-- What has been logged of a round that is over. -/
def Concluded (log : List (Event M)) (a : ℕ) (l : Locals M) (rd : Round) (vec : List M) : Prop :=
  if rd.p2p then .received a l.signup rd.name vec ∈ log else .built a l.signup rd.name vec ∈ log

/-- Every client has logged the vector of each round it has come through and has posted all its
messages of that round, and every message is one of a round the client has come to. -/
structure Traced (s : World M) (log : List (Event M)) : Prop where
  concluded : ∀ a l, s.clients a = some l → ∀ r rd, (N.kind a).rounds[r]? = some rd →
    r < l.past.length → ∃ vec, l.past[r]? = some vec ∧ Concluded log a l rd vec
  sent : ∀ a l, s.clients a = some l → ∀ r rd, (N.kind a).rounds[r]? = some rd →
    r < l.past.length → ∀ e ∈ outbox (N.program a) (N.parties a) (l.upTo r) rd,
      .posted a l.signup rd.name e.1 e.2 ∈ log
  posted : ∀ a p round dest m, .posted a p round dest m ∈ log → ∃ l, s.clients a = some l ∧
    l.signup = p ∧ ∃ r rd, (N.kind a).rounds[r]? = some rd ∧ rd.name = round ∧ r ≤ l.past.length ∧
      (dest, m) ∈ outbox (N.program a) (N.parties a) (l.upTo r) rd
  short : ∀ a l, s.clients a = some l → l.past.length ≤ (N.kind a).rounds.length

variable {N}

theorem traced_init : Traced N (init N) [] where
  concluded a l h := by cases h
  sent a l h := by cases h
  posted a p round dest m h := by cases h
  short a l h := by cases h

theorem Concluded.mono {log log' : List (Event M)} (hsub : log ⊆ log') {a : ℕ} {l : Locals M}
    {rd : Round} {vec : List M} (h : Concluded log a l rd vec) : Concluded log' a l rd vec := by
  unfold Concluded at h ⊢
  split_ifs at h ⊢
  · exact hsub h
  · exact hsub h

/-- A client that keeps its vectors goes on as before, with what it has posted since. -/
theorem Traced.stage {s : World M} {log out : List (Event M)} (h : Traced N s log) {a : ℕ}
    {l l' : Locals M} {s' : World M} (hl : s.clients a = some l)
    (hclients : s'.clients = (s.put a l').clients) (hsignup : l'.signup = l.signup)
    (hpast : l'.past = l.past)
    (hout : ∀ b p round dest m, .posted b p round dest m ∈ out → b = a ∧ p = l.signup ∧
      ∃ rd, (N.kind a).rounds[l.past.length]? = some rd ∧ rd.name = round ∧
        (dest, m) ∈ outbox (N.program a) (N.parties a) l rd) :
    Traced N s' (log ++ out) := by
  have hsub : log ⊆ log ++ out := List.subset_append_left log out
  have hupTo : ∀ r rd, outbox (N.program a) (N.parties a) (l'.upTo r) rd =
      outbox (N.program a) (N.parties a) (l.upTo r) rd := by
    intro r rd
    simp only [outbox, Locals.upTo, hsignup, hpast]
  refine ⟨?_, ?_, fun b p round dest m he => ?_, ?_⟩
  · rw [hclients]
    refine forall_put (fun b lb hlb r rd hrd hr => ?_) (fun r rd hrd hr => ?_)
    · obtain ⟨vec, hvec, hconcluded⟩ := h.concluded b lb hlb r rd hrd hr
      exact ⟨vec, hvec, hconcluded.mono hsub⟩
    · rw [hpast] at hr ⊢
      obtain ⟨vec, hvec, hconcluded⟩ := h.concluded a l hl r rd hrd hr
      refine ⟨vec, hvec, ?_⟩
      unfold Concluded
      rw [hsignup]
      exact hconcluded.mono hsub
  · rw [hclients]
    refine forall_put (fun b lb hlb r rd hrd hr e he => hsub (h.sent b lb hlb r rd hrd hr e he))
      (fun r rd hrd hr e he => ?_)
    rw [hpast] at hr
    rw [hupTo] at he
    rw [hsignup]
    exact hsub (h.sent a l hl r rd hrd hr e he)
  · rw [hclients]
    rcases List.mem_append.mp he with he | he
    · refine exists_put hl (fun hba hq => ?_) (h.posted b p round dest m he)
      obtain ⟨hp, r, rd, hrd, hname, hr, hmem⟩ := hq
      subst hba
      refine ⟨hsignup.trans hp, r, rd, hrd, hname, ?_, ?_⟩
      · rw [hpast]
        exact hr
      · rw [hupTo]
        exact hmem
    · obtain ⟨rfl, rfl, rd, hrd, hname, hmem⟩ := hout b p round dest m he
      refine ⟨l', put_self s b l', hsignup, l.past.length, rd, hrd, hname, ?_, ?_⟩
      · rw [hpast]
      · have hall : l.upTo l.past.length = l := by rw [Locals.upTo, List.take_length]
        rw [hupTo, hall]
        exact hmem
  · rw [hclients]
    refine forall_put h.short ?_
    rw [hpast]
    exact h.short a l hl

/-- A client that signs up has neither vectors nor messages. -/
theorem Traced.signup {s : World M} {log : List (Event M)} (h : Traced N s log) {a : ℕ}
    {node : Api.Node} {p : PartySignup} (hnone : s.clients a = none) :
    Traced N ({ s with node }.put a ⟨p, [], .posting 0⟩) (log ++ [.signedUp (N.kind a) a p]) := by
  have hsub : log ⊆ log ++ [.signedUp (N.kind a) a p] := List.subset_append_left log _
  refine ⟨?_, ?_, fun b p' round dest m he => ?_, ?_⟩
  · refine forall_put (fun b lb hlb r rd hrd hr => ?_)
      (fun r rd _ hr => absurd hr (Nat.not_lt_zero r))
    obtain ⟨vec, hvec, hconcluded⟩ := h.concluded b lb hlb r rd hrd hr
    exact ⟨vec, hvec, hconcluded.mono hsub⟩
  · exact forall_put (fun b lb hlb r rd hrd hr e he => hsub (h.sent b lb hlb r rd hrd hr e he))
      (fun r rd _ hr => absurd hr (Nat.not_lt_zero r))
  · rcases List.mem_append.mp he with he | he
    · obtain ⟨lb, hlb, hrest⟩ := h.posted b p' round dest m he
      have hba : b ≠ a := by
        rintro rfl
        rw [hnone] at hlb
        cases hlb
      exact ⟨lb, by rw [put_of_ne _ hba]; exact hlb, hrest⟩
    · cases List.mem_singleton.mp he
  · exact forall_put h.short (Nat.zero_le _)

/-- A client that ends a round has posted all of it, and logs the vector. -/
theorem Traced.finish {s : World M} {log : List (Event M)} (hinv : Inv N s log)
    (h : Traced N s log) {a : ℕ} {l : Locals M} {rd : Round} {ansVec : List String} {vec : List M}
    {event : Event M} (hl : s.clients a = some l)
    (hrd : (N.kind a).rounds[l.past.length]? = some rd) (hstage : l.stage = .polling ansVec)
    (hfinish : Mpt.finish N a l rd ansVec = .ok (vec, event)) :
    Traced N (s.put a { l with past := l.past ++ [vec], stage := .posting 0 })
      (log ++ [event]) := by
  have hsub : log ⊆ log ++ [event] := List.subset_append_left log _
  obtain ⟨values, -, hfinish⟩ := bind_eq_ok.mp hfinish
  have hevent : Concluded (log ++ [event]) a l rd vec ∧
      ∀ b p round dest m, event ≠ .posted b p round dest m := by
    unfold Concluded
    by_cases hp2p : rd.p2p = true
    · rw [if_pos hp2p] at hfinish ⊢
      cases hfinish
      exact ⟨List.mem_append_right log List.mem_cons_self, nofun⟩
    · rw [if_neg hp2p] at hfinish ⊢
      obtain ⟨vec', -, hfinish⟩ := bind_eq_ok.mp hfinish
      cases hfinish
      exact ⟨List.mem_append_right log List.mem_cons_self, nofun⟩
  -- the rounds before are those of the vectors before
  have hupTo : ∀ r, r ≤ l.past.length →
      (⟨l.signup, l.past ++ [vec], .posting 0⟩ : Locals M).past.take r = l.past.take r := by
    intro r hr
    exact List.take_append_of_le_length hr
  have houtbox : ∀ r rd, r ≤ l.past.length →
      outbox (N.program a) (N.parties a)
        ((⟨l.signup, l.past ++ [vec], .posting 0⟩ : Locals M).upTo r) rd =
      outbox (N.program a) (N.parties a) (l.upTo r) rd := by
    intro r rd hr
    simp only [outbox, Locals.upTo, hupTo r hr]
  have hlast : ∀ r, r < (l.past ++ [vec]).length → r < l.past.length ∨ r = l.past.length := by
    intro r hr
    rw [List.length_append, List.length_singleton] at hr
    omega
  refine ⟨?_, ?_, fun b p round dest m he => ?_, ?_⟩
  · refine forall_put (fun b lb hlb r rd' hrd' hr => ?_) (fun r rd' hrd' hr => ?_)
    · obtain ⟨vec', hvec, hconcluded⟩ := h.concluded b lb hlb r rd' hrd' hr
      exact ⟨vec', hvec, hconcluded.mono hsub⟩
    · rcases hlast r hr with hr | rfl
      · obtain ⟨vec', hvec, hconcluded⟩ := h.concluded a l hl r rd' hrd' hr
        refine ⟨vec', ?_, hconcluded.mono hsub⟩
        rw [List.getElem?_append_left hr, hvec]
      · rw [hrd] at hrd'
        cases hrd'
        refine ⟨vec, ?_, hevent.1⟩
        rw [List.getElem?_append_right (le_refl _), Nat.sub_self, List.getElem?_cons_zero]
  · refine forall_put (fun b lb hlb r rd' hrd' hr e he => hsub (h.sent b lb hlb r rd' hrd' hr e he))
      (fun r rd' hrd' hr e he => ?_)
    rcases hlast r hr with hr | rfl
    · rw [houtbox r rd' hr.le] at he
      exact hsub (h.sent a l hl r rd' hrd' hr e he)
    · rw [hrd] at hrd'
      cases hrd'
      rw [houtbox _ rd (le_refl _)] at he
      refine hsub ((hinv.following a l hl).outboxed rd hrd e ?_)
      rw [hstage]
      show e ∈ (outbox (N.program a) (N.parties a) l rd).take
        (outbox (N.program a) (N.parties a) l rd).length
      have hall : l.upTo l.past.length = l := by rw [Locals.upTo, List.take_length]
      rw [List.take_length]
      rw [hall] at he
      exact he
  · have he := (List.mem_append.mp he).resolve_right
      (fun he => hevent.2 b p round dest m (List.mem_singleton.mp he).symm)
    refine exists_put hl (fun hba hq => ?_) (h.posted b p round dest m he)
    obtain ⟨hp, r, rd', hrd', hname, hr, hmem⟩ := hq
    subst hba
    refine ⟨hp, r, rd', hrd', hname, ?_, ?_⟩
    · show r ≤ (l.past ++ [vec]).length
      rw [List.length_append]
      exact le_trans hr (Nat.le_add_right _ _)
    · rw [houtbox r rd' hr]
      exact hmem
  · refine forall_put h.short ?_
    show (l.past ++ [vec]).length ≤ _
    rw [List.length_append, List.length_singleton]
    exact (List.getElem?_eq_some_iff.mp hrd).1

/-- **Step lemma**: every request keeps the trace. -/
theorem traced_step {s s' : World M} {log out : List (Event M)} {a : ℕ} (hinv : Inv N s log)
    (h : Traced N s log) (hstep : step N s a = .ok (s', out)) : Traced N s' (log ++ out) := by
  cases move_of_step hstep with
  | signup hnone hsign => exact h.signup hnone
  | stay =>
    rw [List.append_nil]
    exact h
  | @post l rd sent dest m hl hr hstage hout =>
    refine h.stage hl rfl rfl rfl (fun b p round dest' m' he => ?_)
    injection List.mem_singleton.mp he with hb hp hround hdest hm
    subst hb hp hround hdest hm
    exact ⟨rfl, rfl, rd, hr, rfl, List.mem_of_getElem? hout⟩
  | turn hl hr hstage hout =>
    exact h.stage hl rfl rfl rfl (fun b p round dest m he => absurd he List.not_mem_nil)
  | read hl hr hstage hi hv =>
    exact h.stage hl rfl rfl rfl (fun b p round dest m he => absurd he List.not_mem_nil)
  | finish hl hr hstage hi hfinish => exact h.finish hinv hl hr hstage hfinish

/-- **Run lemma**: every run keeps the trace. -/
theorem traced_run (hn : 1 ≤ N.setup.params.parties) (acts : List ℕ) :
    Inv N (run (step N) (init N) acts).1 (run (step N) (init N) acts).2 ∧
      Traced N (run (step N) (init N) acts).1 (run (step N) (init N) acts).2 :=
  run_invariant (fun s log => Inv N s log ∧ Traced N s log) ⟨inv_init, traced_init⟩
    (fun _ _ _ _ _ h hstep => ⟨inv_step hn h.1 hstep, traced_step h.1 h.2 hstep⟩) acts

/-! ## A full session -/

/-- Client `holder i` has the number `i` of the session. -/
def FullSession (N : Network M) (k : Kind) (uuid : String) (holder : ℕ → ℕ)
    (log : List (Event M)) : Prop :=
  ∀ i, 1 ≤ i → i ≤ k.parties N.setup.params → .signedUp k (holder i) ⟨i, uuid⟩ ∈ log

section Session

variable {s : World M} {log : List (Event M)} {k : Kind} {uuid : String} {holder : ℕ → ℕ}

/-- The client with the number `i`. -/
theorem FullSession.client (hfull : FullSession N k uuid holder log) (hinv : Inv N s log) {i : ℕ}
    (h1 : 1 ≤ i) (hi : i ≤ k.parties N.setup.params) :
    N.kind (holder i) = k ∧ N.parties (holder i) = k.parties N.setup.params ∧
      ∃ l, s.clients (holder i) = some l ∧ l.signup = ⟨i, uuid⟩ := by
  obtain ⟨hkind, hclient⟩ := hinv.signed k (holder i) ⟨i, uuid⟩ (hfull i h1 hi)
  exact ⟨hkind.symm, by rw [Network.parties, ← hkind], hclient⟩

/-- A message of the session is what its sender computes in step. -/
theorem Traced.message (hn : 1 ≤ N.setup.params.parties) (hinv : Inv N s log) (h : Traced N s log)
    (hfull : FullSession N k uuid holder log) {r : ℕ} {rd : Round} (hrd : k.rounds[r]? = some rd)
    {j b : ℕ} (h1 : 1 ≤ j) (hj : j ≤ k.parties N.setup.params) {dest : String} {m : M}
    (hb : .posted b ⟨j, uuid⟩ rd.name dest m ∈ log) :
    ∃ l, s.clients (holder j) = some l ∧ r ≤ l.past.length ∧
      (dest, m) ∈ outbox (N.program (holder j)) (k.parties N.setup.params) (l.upTo r) rd := by
  obtain ⟨hkind, hparties, -⟩ := hfull.client hinv h1 hj
  obtain ⟨-, hsame⟩ := hinv.holder hn (hinv.poster hb) (hfull j h1 hj) rfl
  obtain rfl := hsame rfl
  obtain ⟨l, hl, -, r', rd', hrd', hname, hr, hmem⟩ := h.posted _ _ _ _ _ hb
  rw [hkind] at hrd'
  -- the name says which round it is
  have hidx : r' = r := by
    have hlt : r' < (k.rounds.map Round.name).length := by
      rw [List.length_map]
      exact (List.getElem?_eq_some_iff.mp hrd').1
    refine (List.getElem?_inj hlt k.nodup_rounds).mp ?_
    rw [List.getElem?_map, List.getElem?_map, hrd', hrd, Option.map_some, Option.map_some, hname]
  subst hidx
  rw [hrd] at hrd'
  cases hrd'
  rw [hparties] at hmem
  exact ⟨l, hl, hr, hmem⟩

/-- **Rounds in step**: what a client of a full session has come through is what it comes through
when all clients go from round to round together. -/
theorem Traced.take_eq_lockstep (hn : 1 ≤ N.setup.params.parties) (hinv : Inv N s log)
    (h : Traced N s log) (hfull : FullSession N k uuid holder log) :
    ∀ (r i : ℕ) (l : Locals M), 1 ≤ i → i ≤ k.parties N.setup.params →
      s.clients (holder i) = some l → r ≤ l.past.length → l.past.take r =
        lockstep (k.parties N.setup.params) uuid (fun j => N.program (holder j)) k r i
  | 0, _, _, _, _, _, _ => rfl
  | r + 1, i, l, h1, hi, hl, hr => by
    obtain ⟨hkind, hparties, l', hl', hsignup⟩ := hfull.client hinv h1 hi
    rw [hl] at hl'
    cases hl'
    have hshort := h.short (holder i) l hl
    rw [hkind] at hshort
    obtain ⟨rd, hrd⟩ : ∃ rd, k.rounds[r]? = some rd :=
      ⟨_, List.getElem?_eq_getElem (by omega)⟩
    obtain ⟨vec, hvec, hconcluded⟩ := h.concluded (holder i) l hl r rd (by rw [hkind, hrd]) hr
    rw [List.take_add_one, hvec, lockstep_succ _ _ _ hrd,
      h.take_eq_lockstep hn hinv hfull r i l h1 hi hl (by omega)]
    refine congrArg (_ ++ ·) (congrArg (fun v => [v]) ?_)
    -- the messages that make up the vector were computed from vectors of the round before
    have hmessage : ∀ j b dest m, 1 ≤ j → j ≤ k.parties N.setup.params →
        .posted b ⟨j, uuid⟩ rd.name dest m ∈ log →
        (dest, m) ∈ outbox (N.program (holder j)) (k.parties N.setup.params)
          ⟨⟨j, uuid⟩,
            lockstep (k.parties N.setup.params) uuid (fun j => N.program (holder j)) k r j,
            .posting 0⟩ rd := by
      intro j b dest m hj1 hj hb
      obtain ⟨lj, hlj, hrj, hmem⟩ := h.message hn hinv hfull hrd hj1 hj hb
      obtain ⟨-, -, lj', hlj', hsignupj⟩ := hfull.client hinv hj1 hj
      rw [hlj] at hlj'
      cases hlj'
      rw [← h.take_eq_lockstep hn hinv hfull r j lj hj1 hj hlj hrj, ← hsignupj]
      exact hmem
    unfold Concluded at hconcluded
    unfold roundVec
    by_cases hp2p : rd.p2p = true
    · rw [if_pos hp2p] at hconcluded ⊢
      obtain ⟨-, f, rfl, hposted⟩ := hinv.sound _ hconcluded
      rw [hparties, hsignup] at hposted ⊢
      refine List.map_congr_left (fun j hj => ?_)
      obtain ⟨b, hb⟩ := hposted j hj
      obtain ⟨hj1, hjn⟩ := (mem_others.mp hj).1
      have hmem := hmessage j b _ _ hj1 hjn hb
      rw [outbox, if_pos hp2p] at hmem
      obtain ⟨i', -, heq⟩ := List.mem_map.mp hmem
      obtain ⟨hdest, hm⟩ := Prod.mk.inj heq
      obtain rfl := number_of_toString hdest
      exact hm.symm
    · rw [if_neg hp2p] at hconcluded ⊢
      obtain ⟨-, f, rfl, hposted⟩ := hinv.sound _ hconcluded
      rw [hparties]
      refine List.map_congr_left (fun j hj => ?_)
      obtain ⟨hj1, hjn⟩ := mem_range'_one.mp hj
      rw [hsignup, hparties] at hposted
      obtain ⟨b, hb⟩ := hposted j hj1 hjn
      have hmem := hmessage j b _ _ hj1 hjn hb
      rw [outbox, if_neg hp2p] at hmem
      exact (Prod.mk.inj (List.mem_singleton.mp hmem)).2

/-! ## Completion -/

/-- What is left to do in a round with so many messages to post and entries to read. -/
def Stage.left (outs reads : ℕ) : Stage → ℕ
  | .posting sent => outs - sent + reads + 2
  | .polling ansVec => reads - ansVec.length + 1

/-- A bound on the requests that client `a` still has to make. -/
def work (N : Network M) (a : ℕ) (l : Locals M) : ℕ :=
  match (N.kind a).rounds[l.past.length]? with
  | none => 0
  | some rd => ((N.kind a).rounds.length - l.past.length - 1) * (2 * N.parties a + 3) +
      l.stage.left (outbox (N.program a) (N.parties a) l rd).length
        (others (N.parties a) l.signup.number).length

theorem work_of_round {a : ℕ} {l : Locals M} {rd : Round}
    (hrd : (N.kind a).rounds[l.past.length]? = some rd) :
    work N a l = ((N.kind a).rounds.length - l.past.length - 1) * (2 * N.parties a + 3) +
      l.stage.left (outbox (N.program a) (N.parties a) l rd).length
        (others (N.parties a) l.signup.number).length := by
  unfold work
  rw [hrd]

theorem length_others_le (n i : ℕ) : (others n i).length ≤ n :=
  (List.length_filter_le _ _).trans_eq List.length_range'

theorem length_outbox_le (prog : Program M) {n : ℕ} (hn : 1 ≤ n) (l : Locals M) (rd : Round) :
    (outbox prog n l rd).length ≤ n := by
  unfold outbox
  split_ifs
  · rw [List.length_map]
    exact length_others_le n l.signup.number
  · exact hn

theorem Stage.left_pos (outs reads : ℕ) (stage : Stage) : 0 < stage.left outs reads := by
  cases stage with
  | posting sent => exact Nat.succ_pos _
  | polling ansVec => exact Nat.succ_pos _

theorem Stage.left_le {outs reads n : ℕ} (houts : outs ≤ n) (hreads : reads ≤ n) (stage : Stage) :
    stage.left outs reads ≤ 2 * n + 2 := by
  cases stage with
  | posting sent =>
    show outs - sent + reads + 2 ≤ 2 * n + 2
    omega
  | polling ansVec =>
    show reads - ansVec.length + 1 ≤ 2 * n + 2
    omega

/-- The round after needs less than the rounds before had left. -/
theorem work_next {a : ℕ} (hn : 1 ≤ N.parties a) {l : Locals M} {rd : Round}
    (hrd : (N.kind a).rounds[l.past.length]? = some rd) (vec : List M) :
    work N a { l with past := l.past ++ [vec], stage := .posting 0 } ≤
      ((N.kind a).rounds.length - l.past.length - 1) * (2 * N.parties a + 3) := by
  have hlen : ({ l with past := l.past ++ [vec], stage := .posting 0 } : Locals M).past.length =
      l.past.length + 1 := by
    rw [List.length_append, List.length_singleton]
  have hlt := (List.getElem?_eq_some_iff.mp hrd).1
  cases hnext : (N.kind a).rounds[l.past.length + 1]? with
  | none =>
    rw [← hlen] at hnext
    unfold work
    rw [hnext]
    exact Nat.zero_le _
  | some rd' =>
    have hlt' := (List.getElem?_eq_some_iff.mp hnext).1
    have hleft := Stage.left_le (length_outbox_le (N.program a) hn
      { l with past := l.past ++ [vec], stage := .posting 0 } rd')
      (length_others_le (N.parties a) l.signup.number) (.posting 0)
    obtain ⟨rest, hrest⟩ : ∃ rest, (N.kind a).rounds.length - l.past.length - 1 = rest + 1 :=
      ⟨(N.kind a).rounds.length - l.past.length - 2, by omega⟩
    rw [← hlen] at hnext
    rw [work_of_round hnext, hlen, hrest, Nat.add_one_mul rest]
    have hrest' : (N.kind a).rounds.length - (l.past.length + 1) - 1 = rest := by omega
    rw [hrest']
    exact Nat.add_le_add_left (hleft.trans (Nat.le_succ _)) _

/-- The poll of a client finds its next entry, if it waits for one. -/
def Ready (N : Network M) (s : World M) (a : ℕ) (l : Locals M) (rd : Round) : Prop :=
  ∀ ansVec i, l.stage = .polling ansVec →
    (others (N.parties a) l.signup.number)[ansVec.length]? = some i →
      ∃ v, Api.get s.node (inboxKey l.signup rd i) = some v

/-- A request of a client that is ready brings it nearer to its end, and leaves the others. -/
theorem Inv.step_work (hn : 1 ≤ N.setup.params.parties) (hinv : Inv N s log) {a : ℕ}
    {l : Locals M} (hl : s.clients a = some l) {rd : Round}
    (hrd : (N.kind a).rounds[l.past.length]? = some rd) (hready : Ready N s a l rd) :
    ∃ s' out l', step N s a = .ok (s', out) ∧ s'.clients = (s.put a l').clients ∧
      work N a l' < work N a l := by
  have hparties : 1 ≤ N.parties a := one_le_parties hn (N.kind a)
  cases hstage : l.stage with
  | posting sent =>
    cases hout : (outbox (N.program a) (N.parties a) l rd)[sent]? with
    | some e =>
      have hstep : step N s a = .ok ({ s with
          node := Api.set s.node (entryKey l.signup.uuid l.signup.number rd.name e.1)
            (N.json.toString e.2) }.put a (l.sentNext sent),
          [.posted a l.signup rd.name e.1 e.2]) := by
        simp only [step, hl, hrd, hstage, hout]
        rfl
      refine ⟨_, _, _, hstep, rfl, ?_⟩
      have hlt := (List.getElem?_eq_some_iff.mp hout).1
      rw [work_of_round (l := l.sentNext sent) hrd, work_of_round hrd, hstage]
      refine Nat.add_lt_add_left ?_ _
      show (outbox (N.program a) (N.parties a) l rd).length - (sent + 1) +
          (others (N.parties a) l.signup.number).length + 2 <
        (outbox (N.program a) (N.parties a) l rd).length - sent +
          (others (N.parties a) l.signup.number).length + 2
      omega
    | none =>
      have hstep : step N s a = .ok (s.put a { l with stage := .polling [] }, []) := by
        simp only [step, hl, hrd, hstage, hout]
      refine ⟨_, _, _, hstep, rfl, ?_⟩
      rw [work_of_round (l := { l with stage := .polling [] }) hrd, work_of_round hrd, hstage]
      refine Nat.add_lt_add_left ?_ _
      show (others (N.parties a) l.signup.number).length - 0 + 1 <
        (outbox (N.program a) (N.parties a) l rd).length - sent +
          (others (N.parties a) l.signup.number).length + 2
      omega
  | polling ansVec =>
    cases hi : (others (N.parties a) l.signup.number)[ansVec.length]? with
    | some i =>
      obtain ⟨v, hv⟩ := hready ansVec i hstage hi
      have hstep : step N s a = .ok (s.put a { l with stage := .polling (ansVec ++ [v]) }, []) := by
        simp only [step, hl, hrd, hstage, hi, hv]
      refine ⟨_, _, _, hstep, rfl, ?_⟩
      have hlt := (List.getElem?_eq_some_iff.mp hi).1
      rw [work_of_round (l := { l with stage := .polling (ansVec ++ [v]) }) hrd, work_of_round hrd,
        hstage]
      refine Nat.add_lt_add_left ?_ _
      show (others (N.parties a) l.signup.number).length - (ansVec ++ [v]).length + 1 <
        (others (N.parties a) l.signup.number).length - ansVec.length + 1
      rw [List.length_append, List.length_singleton]
      omega
    | none =>
      obtain ⟨vec, event, hfinish, -⟩ := hinv.finish_ok hn hl hrd hstage hi
      have hstep : step N s a = .ok
          (s.put a { l with past := l.past ++ [vec], stage := .posting 0 }, [event]) := by
        simp only [step, hl, hrd, hstage, hi, hfinish, ok_bind]
        rfl
      refine ⟨_, _, _, hstep, rfl, ?_⟩
      refine lt_of_le_of_lt (work_next hparties hrd vec) ?_
      rw [work_of_round hrd]
      exact Nat.lt_add_of_pos_right (Stage.left_pos _ _ _)

/-- What a client has posted can be read. -/
theorem Inv.get_posted (hinv : Inv N s log) {a j i : ℕ} {l : Locals M} {rd : Round} {m : M}
    (hpost : .posted a ⟨j, l.signup.uuid⟩ rd.name
      (if rd.p2p then toString l.signup.number else "") m ∈ log) (hij : i = j) :
    ∃ v, Api.get s.node (inboxKey l.signup rd i) = some v := by
  subst hij
  exact ⟨_, (hinv.stored _ _ _ _ _).mpr ⟨a, m, hpost, rfl⟩⟩

/-- The messages of a round reach every other party. -/
theorem exists_mem_outbox (prog : Program M) {n i : ℕ} {l : Locals M}
    (hi : i ∈ others n l.signup.number) (rd : Round) :
    ∃ m, ((if rd.p2p then toString i else ""), m) ∈ outbox prog n l rd := by
  unfold outbox
  by_cases hp2p : rd.p2p = true
  · rw [if_pos hp2p, if_pos hp2p]
    exact ⟨_, List.mem_map_of_mem hi⟩
  · rw [if_neg hp2p, if_neg hp2p]
    exact ⟨_, List.mem_cons_self⟩

/-- A client behind has more left to do. -/
theorem work_lt_of_behind {a b : ℕ} {l l' : Locals M} (hkind : N.kind b = N.kind a)
    (hparties : N.parties b = N.parties a) (hn : 1 ≤ N.parties a) {rd : Round}
    (hrd : (N.kind a).rounds[l.past.length]? = some rd)
    (hbehind : l'.past.length < l.past.length) : work N a l < work N b l' := by
  have hlt := (List.getElem?_eq_some_iff.mp hrd).1
  obtain ⟨rd', hrd'⟩ : ∃ rd', (N.kind b).rounds[l'.past.length]? = some rd' := by
    rw [hkind]
    exact ⟨_, List.getElem?_eq_getElem (hbehind.trans hlt)⟩
  have hbound := Stage.left_le (length_outbox_le (N.program a) hn l rd)
    (length_others_le (N.parties a) l.signup.number) l.stage
  rw [work_of_round hrd, work_of_round hrd', hkind, hparties]
  have hmore : ((N.kind a).rounds.length - l.past.length - 1 + 1) * (2 * N.parties a + 3) ≤
      ((N.kind a).rounds.length - l'.past.length - 1) * (2 * N.parties a + 3) :=
    Nat.mul_le_mul_right _ (by omega)
  rw [Nat.add_one_mul] at hmore
  omega

/-- The client with the most left to do waits for nobody. -/
theorem Traced.ready (hn : 1 ≤ N.setup.params.parties) (hinv : Inv N s log) (h : Traced N s log)
    (hfull : FullSession N k uuid holder log) {i : ℕ} (h1 : 1 ≤ i)
    (hi : i ≤ k.parties N.setup.params) {l : Locals M} (hl : s.clients (holder i) = some l)
    {rd : Round} (hrd : k.rounds[l.past.length]? = some rd)
    (hmost : ∀ j lj, 1 ≤ j → j ≤ k.parties N.setup.params → s.clients (holder j) = some lj →
      work N (holder j) lj ≤ work N (holder i) l) : Ready N s (holder i) l rd := by
  intro ansVec j hstage hj
  obtain ⟨hkind, hparties, l', hl', hsignup⟩ := hfull.client hinv h1 hi
  rw [hl] at hl'
  cases hl'
  have hmem : j ∈ others (k.parties N.setup.params) i := by
    rw [hparties, hsignup] at hj
    exact List.mem_of_getElem? hj
  obtain ⟨⟨hj1, hjn⟩, hne⟩ := mem_others.mp hmem
  obtain ⟨hkindj, hpartiesj, lj, hlj, hsignupj⟩ := hfull.client hinv hj1 hjn
  have hle := hmost j lj hj1 hjn hlj
  have hrdi : (N.kind (holder i)).rounds[l.past.length]? = some rd := by rw [hkind, hrd]
  have hlen : (others (k.parties N.setup.params) i).length
      = (others (k.parties N.setup.params) j).length :=
    Nat.succ.inj ((length_others h1 hi).trans (length_others hj1 hjn).symm)
  -- the message of `j` to `i` in the round, once `j` has posted all of it
  have hdest : ∀ lj' : Locals M, lj'.signup = ⟨j, uuid⟩ →
      ∃ m, ((if rd.p2p then toString l.signup.number else ""), m) ∈
        outbox (N.program (holder j)) (N.parties (holder j)) lj' rd := by
    intro lj' hsignup'
    refine exists_mem_outbox _ ?_ rd
    rw [hsignup', hpartiesj, hsignup]
    exact mem_others.mpr ⟨⟨h1, hi⟩, fun heq => hne heq.symm⟩
  have huuid : l.signup.uuid = uuid := by rw [hsignup]
  rcases lt_trichotomy lj.past.length l.past.length with hbehind | hsame | hahead
  · -- a client behind has more left
    refine absurd (work_lt_of_behind (hkindj.trans hkind.symm) (hpartiesj.trans hparties.symm) ?_
      hrdi hbehind) (not_lt.mpr hle)
    rw [hparties]
    exact one_le_parties hn k
  · -- a client in the same round has posted, since posting comes before polling
    have hrdj : (N.kind (holder j)).rounds[lj.past.length]? = some rd := by rw [hkindj, hsame, hrd]
    cases hstagej : lj.stage with
    | posting sent =>
      exfalso
      rw [work_of_round hrdi, work_of_round hrdj, hkind, hkindj, hparties, hpartiesj, hsame,
        hsignup, hsignupj, hstage, hstagej] at hle
      have hle : (outbox (N.program (holder j)) (k.parties N.setup.params) lj rd).length - sent +
          (others (k.parties N.setup.params) j).length + 2 ≤
        (others (k.parties N.setup.params) i).length - ansVec.length + 1 :=
        Nat.le_of_add_le_add_left hle
      omega
    | polling ansVecj =>
      obtain ⟨m, hm⟩ := hdest lj hsignupj
      have hall := (hinv.following (holder j) lj hlj).outboxed rd hrdj _ (by
        rw [hstagej]
        show _ ∈ (outbox (N.program (holder j)) (N.parties (holder j)) lj rd).take
          (outbox (N.program (holder j)) (N.parties (holder j)) lj rd).length
        rw [List.take_length]
        exact hm)
      rw [hsignupj, ← huuid] at hall
      exact hinv.get_posted hall rfl
  · obtain ⟨m, hm⟩ := hdest (lj.upTo l.past.length) hsignupj
    have hall := h.sent (holder j) lj hlj l.past.length rd (by rw [hkindj, hrd]) hahead _ hm
    rw [hsignupj, ← huuid] at hall
    exact hinv.get_posted hall rfl

/-! ## Runs of a session -/

/-- A bound on the requests that a client still has to make. -/
def World.left (N : Network M) (s : World M) (a : ℕ) : ℕ :=
  match s.clients a with
  | none => 0
  | some l => work N a l

theorem World.left_of_client {a : ℕ} {l : Locals M} (hl : s.clients a = some l) :
    s.left N a = work N a l := by
  unfold World.left
  rw [hl]

/-- A client with nothing left has come through all rounds. -/
theorem Traced.finished (h : Traced N s log) {a : ℕ} {l : Locals M} (hl : s.clients a = some l)
    (hnone : s.left N a = 0) : l.past.length = (N.kind a).rounds.length := by
  rw [World.left_of_client hl] at hnone
  cases hrd : (N.kind a).rounds[l.past.length]? with
  | none => exact le_antisymm (h.short a l hl) (List.getElem?_eq_none_iff.mp hrd)
  | some rd =>
    rw [work_of_round hrd] at hnone
    have := Stage.left_pos (outbox (N.program a) (N.parties a) l rd).length
      (others (N.parties a) l.signup.number).length l.stage
    omega

/-- While something is left to do, some client of the session can do a part of it. -/
theorem Traced.progress (hn : 1 ≤ N.setup.params.parties) (hinv : Inv N s log) (h : Traced N s log)
    (hfull : FullSession N k uuid holder log)
    (hleft : ∃ i, 1 ≤ i ∧ i ≤ k.parties N.setup.params ∧ s.left N (holder i) ≠ 0) :
    ∃ a s' out, step N s a = .ok (s', out) ∧
      ∑ i ∈ Finset.Icc 1 (k.parties N.setup.params), s'.left N (holder i) <
        ∑ i ∈ Finset.Icc 1 (k.parties N.setup.params), s.left N (holder i) := by
  obtain ⟨j, hj1, hjn, hj⟩ := hleft
  obtain ⟨i, hi, hmax⟩ := Finset.exists_max_image (Finset.Icc 1 (k.parties N.setup.params))
    (fun i => s.left N (holder i)) ⟨j, Finset.mem_Icc.mpr ⟨hj1, hjn⟩⟩
  obtain ⟨h1, hin⟩ := Finset.mem_Icc.mp hi
  obtain ⟨hkind, -, l, hl, -⟩ := hfull.client hinv h1 hin
  have hpos := Nat.pos_of_ne_zero (fun hzero =>
    hj (Nat.le_zero.mp (hzero ▸ hmax j (Finset.mem_Icc.mpr ⟨hj1, hjn⟩))))
  rw [World.left_of_client hl] at hpos
  cases hrd : k.rounds[l.past.length]? with
  | none =>
    unfold work at hpos
    rw [hkind, hrd] at hpos
    exact absurd hpos (lt_irrefl 0)
  | some rd =>
    have hready : Ready N s (holder i) l rd := by
      refine h.ready hn hinv hfull h1 hin hl hrd (fun j' lj hj1' hjn' hlj => ?_)
      have hle := hmax j' (Finset.mem_Icc.mpr ⟨hj1', hjn'⟩)
      rw [World.left_of_client hl, World.left_of_client hlj] at hle
      exact hle
    rw [← hkind] at hrd
    obtain ⟨s', out, l', hstep, hclients, hless⟩ := hinv.step_work hn hl hrd hready
    have hless' : s'.left N (holder i) < s.left N (holder i) := by
      have hl' : s'.clients (holder i) = some l' := by rw [hclients, put_self]
      rw [World.left_of_client hl', World.left_of_client hl]
      exact hless
    refine ⟨holder i, s', out, hstep, Finset.sum_lt_sum (fun j' hj' => ?_) ⟨i, hi, hless'⟩⟩
    by_cases hsame : holder j' = holder i
    · rw [hsame]
      exact hless'.le
    · unfold World.left
      rw [hclients, put_of_ne s hsame]

/-- A session that is full stays so. -/
theorem FullSession.mono {log' : List (Event M)} (hfull : FullSession N k uuid holder log)
    (hsub : log ⊆ log') : FullSession N k uuid holder log' :=
  fun i h1 hi => hsub (hfull i h1 hi)

/-- The requests that are left can be made. -/
theorem exists_completion (hn : 1 ≤ N.setup.params.parties) : ∀ (bound : ℕ) (acts : List ℕ),
    FullSession N k uuid holder (run (step N) (init N) acts).2 →
    ∑ i ∈ Finset.Icc 1 (k.parties N.setup.params),
      (run (step N) (init N) acts).1.left N (holder i) ≤ bound →
    ∃ acts', ∀ i, 1 ≤ i → i ≤ k.parties N.setup.params →
      (run (step N) (init N) (acts ++ acts')).1.left N (holder i) = 0 := by
  intro bound
  induction bound with
  | zero =>
    intro acts _ hbound
    refine ⟨[], fun i h1 hi => ?_⟩
    rw [List.append_nil]
    exact (Finset.sum_eq_zero_iff.mp (Nat.le_zero.mp hbound)) i (Finset.mem_Icc.mpr ⟨h1, hi⟩)
  | succ bound ih =>
    intro acts hfull hbound
    by_cases hleft : ∃ i, 1 ≤ i ∧ i ≤ k.parties N.setup.params ∧
        (run (step N) (init N) acts).1.left N (holder i) ≠ 0
    · obtain ⟨hinv, htraced⟩ := traced_run hn acts
      obtain ⟨a, s', out, hstep, hless⟩ := htraced.progress hn hinv hfull hleft
      have hrun : run (step N) (init N) (acts ++ [a]) =
          (s', (run (step N) (init N) acts).2 ++ out) := by
        rw [run_concat, commit_of_ok hstep]
      have hfull' : FullSession N k uuid holder (run (step N) (init N) (acts ++ [a])).2 := by
        rw [hrun]
        exact hfull.mono (List.subset_append_left _ _)
      have hbound' : ∑ i ∈ Finset.Icc 1 (k.parties N.setup.params),
          (run (step N) (init N) (acts ++ [a])).1.left N (holder i) ≤ bound := by
        rw [hrun]
        exact Nat.le_of_lt_succ (hless.trans_le hbound)
      obtain ⟨acts', hdone⟩ := ih (acts ++ [a]) hfull' hbound'
      exact ⟨a :: acts', by rw [List.append_cons]; exact hdone⟩
    · refine ⟨[], fun i h1 hi => ?_⟩
      rw [List.append_nil]
      by_contra hne
      exact hleft ⟨i, h1, hi, hne⟩

/-- What a client has read is what it reads when all go from round to round together. -/
theorem FullSession.past_eq_lockstep (hn : 1 ≤ N.setup.params.parties) {acts : List ℕ}
    (hfull : FullSession N k uuid holder (run (step N) (init N) acts).2) {i : ℕ} {l : Locals M}
    (h1 : 1 ≤ i) (hi : i ≤ k.parties N.setup.params)
    (hl : (run (step N) (init N) acts).1.clients (holder i) = some l) :
    l.past = lockstep (k.parties N.setup.params) uuid (fun j => N.program (holder j)) k
      l.past.length i := by
  obtain ⟨hinv, htraced⟩ := traced_run hn acts
  have htake := htraced.take_eq_lockstep hn hinv hfull l.past.length i l h1 hi hl (le_refl _)
  rwa [List.take_length] at htake

/-- A full session can be completed. -/
theorem FullSession.exists_completed (hn : 1 ≤ N.setup.params.parties) {acts : List ℕ}
    (hfull : FullSession N k uuid holder (run (step N) (init N) acts).2) :
    ∃ acts', FullSession N k uuid holder (run (step N) (init N) (acts ++ acts')).2 ∧
      ∀ i, 1 ≤ i → i ≤ k.parties N.setup.params → ∃ l,
        (run (step N) (init N) (acts ++ acts')).1.clients (holder i) = some l ∧
        l.past.length = k.rounds.length := by
  obtain ⟨acts', hdone⟩ := exists_completion hn _ acts hfull (le_refl _)
  have hfull' : FullSession N k uuid holder (run (step N) (init N) (acts ++ acts')).2 := by
    obtain ⟨rest, hrest⟩ : ∃ rest, (run (step N) (init N) (acts ++ acts')).2 =
        (run (step N) (init N) acts).2 ++ rest := exists_log_append (init N) acts acts'
    rw [hrest]
    exact hfull.mono (List.subset_append_left _ _)
  refine ⟨acts', hfull', fun i h1 hi => ?_⟩
  obtain ⟨hinv, htraced⟩ := traced_run hn (acts ++ acts')
  obtain ⟨hkind, -, l, hl, -⟩ := hfull'.client hinv h1 hi
  have hlen := htraced.finished hl (hdone i h1 hi)
  rw [hkind] at hlen
  exact ⟨l, hl, hlen⟩

end Session

/-- **Interleavings compute the rounds in step.**  Whatever the order of the requests, a client of a
full session has at every moment the vectors that it has when all clients go from round to round
together; and from every moment on the session can be completed. -/
theorem runs_in_step (N : Network M) (hn : 1 ≤ N.setup.params.parties) (acts : List ℕ) {k : Kind}
    {uuid : String} {holder : ℕ → ℕ}
    (hfull : FullSession N k uuid holder (run (step N) (init N) acts).2) :
    (∀ i l, 1 ≤ i → i ≤ k.parties N.setup.params →
      (run (step N) (init N) acts).1.clients (holder i) = some l →
      l.past = lockstep (k.parties N.setup.params) uuid (fun j => N.program (holder j)) k
        l.past.length i) ∧
    ∃ acts', ∀ i, 1 ≤ i → i ≤ k.parties N.setup.params → ∃ l,
      (run (step N) (init N) (acts ++ acts')).1.clients (holder i) = some l ∧
      l.past = lockstep (k.parties N.setup.params) uuid (fun j => N.program (holder j)) k
        k.rounds.length i := by
  refine ⟨fun i l h1 hi hl => hfull.past_eq_lockstep hn h1 hi hl, ?_⟩
  obtain ⟨acts', hfull', hdone⟩ := hfull.exists_completed hn
  refine ⟨acts', fun i h1 hi => ?_⟩
  obtain ⟨l, hl, hlen⟩ := hdone i h1 hi
  refine ⟨l, hl, ?_⟩
  rw [← hlen]
  exact hfull'.past_eq_lockstep hn h1 hi hl

end Traced

/-- Client `1` signs up before client `0`. -/
theorem fullSession_pair : FullSession pairNetwork .keygen "" (fun i => 2 - i)
    (run (step pairNetwork) (init pairNetwork) [1, 0]).2 := by
  intro i h1 h2
  have h2 : i ≤ 2 := h2
  have hlog : (run (step pairNetwork) (init pairNetwork) [1, 0]).2 =
      [.signedUp .keygen 1 ⟨1, ""⟩, .signedUp .keygen 0 ⟨2, ""⟩] := rfl
  rw [hlog]
  interval_cases i
  · exact List.mem_cons_self
  · exact List.mem_cons_of_mem _ List.mem_cons_self

/-- However far the two have come, both can end with the vectors of the rounds in step. -/
theorem runs_in_step_pair : ∃ acts', ∀ i, 1 ≤ i → i ≤ 2 → ∃ l,
    (run (step pairNetwork) (init pairNetwork) ([1, 0] ++ acts')).1.clients (2 - i) = some l ∧
      l.past = lockstep 2 "" (fun j => pairNetwork.program (2 - j)) .keygen 5 i :=
  (runs_in_step pairNetwork (by decide) [1, 0] fullSession_pair).2

end VDexNode.Mpt

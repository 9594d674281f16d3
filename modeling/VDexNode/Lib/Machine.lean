import Mathlib.Data.List.Induction

/-!
# VDexNode.Lib.Machine — calls that may abort, and runs of them

A call is a value of `Except ε α`.  `Outcome x Q E` says that `x`, if it returns, returns a value
satisfying `Q` and, if it aborts, aborts with an error satisfying `E`; the rules follow the shape of
the call (`pure`, `throw`, bind, a loop over a list).

A machine is a step function `σ → α → Except ε (σ × List ω)`: a call in a state either moves to a
state and emits outputs or aborts.  `run` executes a list of calls and keeps the log of outputs; an
aborted call leaves the state and the log as they were.  `run_invariant` carries an invariant of
state and log from one step to every run, `Along` says that all calls of a run meet a condition,
`returned` are the calls that went through, with `run_trace_of` for invariants of these as well, and
`latest` is what the last one of a kind said.
-/

namespace VDexNode

variable {σ α β γ ε ω : Type}

/-! ## Calls -/

/-- A bind returns exactly when both parts do. -/
theorem bind_eq_ok {x : Except ε α} {f : α → Except ε β} {b : β} :
    (x >>= f) = .ok b ↔ ∃ a, x = .ok a ∧ f a = .ok b := by
  cases x with
  | error e => exact iff_of_false nofun (by rintro ⟨_, h, -⟩; cases h)
  | ok a => exact ⟨fun h => ⟨a, rfl, h⟩, by rintro ⟨_, h, hf⟩; cases h; exact hf⟩

/-- A bind aborts exactly when one of its parts does. -/
theorem bind_eq_error {x : Except ε α} {f : α → Except ε β} {e : ε} :
    (x >>= f) = .error e ↔ x = .error e ∨ ∃ a, x = .ok a ∧ f a = .error e := by
  cases x with
  | error e' =>
    constructor
    · intro h
      cases h
      exact Or.inl rfl
    · rintro (h | ⟨_, h, -⟩) <;> cases h
      rfl
  | ok a =>
    constructor
    · exact fun h => Or.inr ⟨a, rfl, h⟩
    · rintro (h | ⟨_, h, hf⟩) <;> cases h
      exact hf

theorem exists_of_isOk {x : Except ε α} (h : x.isOk = true) : ∃ a, x = .ok a := by
  cases x with
  | error e => cases h
  | ok a => exact ⟨a, rfl⟩

/-- What holds of every value a call returns holds of the one it does. -/
theorem forall_ok_iff {x : Except ε (α × β)} {P : α → β → Prop} {a : α} {b : β}
    (h : x = .ok (a, b)) : (∀ a' b', x = .ok (a', b') → P a' b') ↔ P a b := by
  rw [h]
  constructor
  · exact fun hall => hall a b rfl
  · intro hP a' b' heq
    cases heq
    exact hP

@[simp] theorem pure_eq_ok {a b : α} : (pure a : Except ε α) = .ok b ↔ a = b :=
  ⟨fun h => by cases h; rfl, fun h => by rw [h]; rfl⟩

@[simp] theorem ok_bind (a : α) (f : α → Except ε β) : ((.ok a : Except ε α) >>= f) = f a := rfl

@[simp] theorem error_bind (e : ε) (f : α → Except ε β) :
    ((.error e : Except ε α) >>= f) = .error e := rfl

/-- `x` returns a value satisfying `Q` or aborts with an error satisfying `E`. -/
def Outcome (x : Except ε α) (Q : α → Prop) (E : ε → Prop) : Prop :=
  (∀ a, x = .ok a → Q a) ∧ ∀ e, x = .error e → E e

theorem outcome_ok {Q : α → Prop} {E : ε → Prop} {a : α} (h : Q a) :
    Outcome (.ok a : Except ε α) Q E :=
  ⟨fun _ ha => by cases ha; exact h, nofun⟩

theorem outcome_error {Q : α → Prop} {E : ε → Prop} {e : ε} (h : E e) :
    Outcome (.error e : Except ε α) Q E :=
  ⟨nofun, fun _ he => by cases he; exact h⟩

theorem Outcome.mono {x : Except ε α} {Q Q' : α → Prop} {E E' : ε → Prop} (h : Outcome x Q E)
    (hQ : ∀ a, Q a → Q' a) (hE : ∀ e, E e → E' e) : Outcome x Q' E' :=
  ⟨fun a ha => hQ a (h.1 a ha), fun e he => hE e (h.2 e he)⟩

theorem Outcome.bind {x : Except ε α} {f : α → Except ε β} {P : α → Prop} {Q : β → Prop}
    {E : ε → Prop} (hx : Outcome x P E) (hf : ∀ a, P a → Outcome (f a) Q E) :
    Outcome (x >>= f) Q E := by
  refine ⟨fun b hb => ?_, fun e he => ?_⟩
  · obtain ⟨a, ha, hb⟩ := bind_eq_ok.mp hb
    exact (hf a (hx.1 a ha)).1 b hb
  · rcases bind_eq_error.mp he with he | ⟨a, ha, he⟩
    · exact hx.2 e he
    · exact (hf a (hx.1 a ha)).2 e he

theorem Outcome.of_eq_ok {x : Except ε α} {a : α} {E : ε → Prop} (h : x = .ok a) :
    Outcome x (· = a) E := by
  rw [h]
  exact outcome_ok rfl

/-- A call that can only return `a` does. -/
theorem Outcome.eq_ok {x : Except ε α} {a : α} {E : ε → Prop} (h : Outcome x (· = a) E)
    (hE : ∀ e, ¬ E e) : x = .ok a := by
  cases hx : x with
  | ok b => rw [h.1 b hx]
  | error e => exact absurd (h.2 e hx) (hE e)

/-- A bind after a call that can only return `a`. -/
theorem Outcome.bind_eq {x : Except ε α} {f : α → Except ε β} {a : α} {Q : β → Prop}
    {E : ε → Prop} (hx : Outcome x (· = a) E) (hf : Outcome (f a) Q E) : Outcome (x >>= f) Q E :=
  hx.bind (fun b hb => by rw [hb]; exact hf)

/-- A bind after a call that does not return. -/
theorem Outcome.bind_of_ne_ok {x : Except ε α} {f : α → Except ε β} {Q : β → Prop} {E : ε → Prop}
    (hx : ∀ a, x ≠ .ok a) (hE : ∀ e, E e) : Outcome (x >>= f) Q E := by
  refine ⟨fun b hb => ?_, fun e _ => hE e⟩
  obtain ⟨a, ha, -⟩ := bind_eq_ok.mp hb
  exact absurd ha (hx a)

/-- A loop whose every call can only return one value. -/
theorem Outcome.mapM_map {f : α → Except ε β} {g : α → β} {E : ε → Prop} {l : List α}
    (h : ∀ a ∈ l, Outcome (f a) (· = g a) E) : Outcome (l.mapM f) (· = l.map g) E := by
  induction l with
  | nil => exact outcome_ok rfl
  | cons a l ih =>
    rw [List.mapM_cons]
    refine (h a List.mem_cons_self).bind_eq ?_
    exact (ih (fun b hb => h b (List.mem_cons_of_mem a hb))).bind_eq (outcome_ok rfl)

/-- **Loop rule**: an invariant of the elements still to come and the accumulator. -/
theorem Outcome.foldlM {f : β → α → Except ε β} {E : ε → Prop} (I : List α → β → Prop)
    (hf : ∀ a l b, I (a :: l) b → Outcome (f b a) (I l) E) :
    ∀ (l : List α) (b : β), I l b → Outcome (l.foldlM f b) (I []) E
  | [], _, hb => outcome_ok hb
  | a :: l, b, hb => by
    rw [List.foldlM_cons]
    exact (hf a l b hb).bind (fun b' hb' => Outcome.foldlM I hf l b' hb')

/-- A loop that returns, one iteration at a time. -/
theorem foldlM_cons_eq_ok {f : β → α → Except ε β} {a : α} {l : List α} {b c : β} :
    (a :: l).foldlM f b = .ok c ↔ ∃ b', f b a = .ok b' ∧ l.foldlM f b' = .ok c := by
  rw [List.foldlM_cons, bind_eq_ok]

/-- A loop whose every call returns. -/
theorem mapM_eq_ok_map {f : α → Except ε β} {g : α → β} {l : List α}
    (h : ∀ a ∈ l, f a = .ok (g a)) : l.mapM f = .ok (l.map g) :=
  (Outcome.mapM_map (fun a ha => .of_eq_ok (h a ha))).eq_ok (fun _ hE => hE)

/-- Every call of a loop that returns has returned. -/
theorem exists_ok_of_mapM {f : α → Except ε β} {l : List α} {bs : List β}
    (h : l.mapM f = .ok bs) : ∀ a ∈ l, ∃ b, f a = .ok b := by
  induction l generalizing bs with
  | nil => exact fun a ha => absurd ha List.not_mem_nil
  | cons a l ih =>
    rw [List.mapM_cons, bind_eq_ok] at h
    obtain ⟨b, hb, h⟩ := h
    obtain ⟨bs', hbs, -⟩ := bind_eq_ok.mp h
    exact List.forall_mem_cons.mpr ⟨⟨b, hb⟩, ih hbs⟩

/-- Everything a loop returns is what one of its calls has returned. -/
theorem exists_mem_of_mapM {f : α → Except ε β} {l : List α} {bs : List β}
    (h : l.mapM f = .ok bs) {b : β} (hb : b ∈ bs) : ∃ a ∈ l, f a = .ok b := by
  induction l generalizing bs with
  | nil =>
    cases h
    exact absurd hb List.not_mem_nil
  | cons a l ih =>
    rw [List.mapM_cons, bind_eq_ok] at h
    obtain ⟨b', hb', h⟩ := h
    obtain ⟨bs', hbs, h⟩ := bind_eq_ok.mp h
    cases h
    rcases List.mem_cons.mp hb with rfl | hb
    · exact ⟨a, List.mem_cons_self, hb'⟩
    · obtain ⟨a', ha', heq⟩ := ih hbs hb
      exact ⟨a', List.mem_cons_of_mem a ha', heq⟩

theorem length_of_mapM {f : α → Except ε β} {l : List α} {bs : List β} (h : l.mapM f = .ok bs) :
    bs.length = l.length := by
  induction l generalizing bs with
  | nil =>
    cases h
    rfl
  | cons a l ih =>
    rw [List.mapM_cons, bind_eq_ok] at h
    obtain ⟨b, -, h⟩ := h
    obtain ⟨bs', hbs, h⟩ := bind_eq_ok.mp h
    cases h
    rw [List.length_cons, List.length_cons, ih hbs]

/-- A loop that returns has called `f` on every element and kept what came back. -/
theorem map_eq_of_mapM {f : α → Except ε β} {l : List α} {bs : List β} (h : l.mapM f = .ok bs) :
    l.map f = bs.map .ok := by
  induction l generalizing bs with
  | nil =>
    cases h
    rfl
  | cons a l ih =>
    rw [List.mapM_cons, bind_eq_ok] at h
    obtain ⟨b, hb, h⟩ := h
    obtain ⟨bs', hbs, h⟩ := bind_eq_ok.mp h
    cases h
    rw [List.map_cons, List.map_cons, hb, ih hbs]

/-- What a loop over some elements returns, as a function of the element. -/
theorem exists_map_of_mapM {f : α → Except ε β} {l : List α} {bs : List β} (h : l.mapM f = .ok bs)
    (hne : l ≠ []) : ∃ g : α → β, bs = l.map g ∧ ∀ a ∈ l, f a = .ok (g a) := by
  obtain ⟨a₀, ha₀⟩ := List.exists_mem_of_ne_nil l hne
  obtain ⟨b₀, -⟩ := exists_ok_of_mapM h a₀ ha₀
  have hg : ∀ a ∈ l, f a = .ok ((f a).toOption.getD b₀) := by
    intro a ha
    obtain ⟨b, hb⟩ := exists_ok_of_mapM h a ha
    rw [hb]
    rfl
  refine ⟨fun a => (f a).toOption.getD b₀, ?_, hg⟩
  rw [mapM_eq_ok_map hg] at h
  exact (Except.ok.inj h).symm

/-! ## Runs -/

section Runs

variable (step : σ → α → Except ε (σ × List ω))

/-- One call: if it returns, the state moves and the outputs are logged; if it aborts, nothing
happens. -/
def commit (c : σ × List ω) (a : α) : σ × List ω :=
  match step c.1 a with
  | .ok (s', out) => (s', c.2 ++ out)
  | .error _ => c

/-- The state and the log after a list of calls. -/
def run (s : σ) (acts : List α) : σ × List ω := acts.foldl (commit step) (s, [])

variable {step}

theorem commit_of_ok {c : σ × List ω} {a : α} {s' : σ} {out : List ω}
    (h : step c.1 a = .ok (s', out)) : commit step c a = (s', c.2 ++ out) := by
  simp [commit, h]

theorem commit_of_error {c : σ × List ω} {a : α} {e : ε} (h : step c.1 a = .error e) :
    commit step c a = c := by
  simp [commit, h]

@[simp] theorem run_nil (s : σ) : run step s [] = (s, []) := rfl

theorem run_concat (s : σ) (acts : List α) (a : α) :
    run step s (acts ++ [a]) = commit step (run step s acts) a := by
  simp [run, List.foldl_append]

/-! ### Conditions on the calls of a run -/

variable (step) in
/-- The state after one call. -/
def next (s : σ) (a : α) : σ := (commit step (s, []) a).1

variable (step) in
/-- Every call of the run meets `C` in the state it starts from. -/
def Along (C : σ → α → Prop) : σ → List α → Prop
  | _, [] => True
  | s, a :: acts => C s a ∧ Along C (next step s a) acts

instance Along.decidable (C : σ → α → Prop) [∀ s a, Decidable (C s a)] :
    ∀ (s : σ) (acts : List α), Decidable (Along step C s acts)
  | _, [] => isTrue trivial
  | s, a :: acts =>
    have := Along.decidable C (next step s a) acts
    inferInstanceAs (Decidable (_ ∧ _))

theorem next_of_ok {s : σ} {a : α} {s' : σ} {out : List ω} (h : step s a = .ok (s', out)) :
    next step s a = s' := by
  rw [next, commit_of_ok h]

theorem next_of_error {s : σ} {a : α} {e : ε} (h : step s a = .error e) : next step s a = s := by
  rw [next, commit_of_error h]

/-- The log plays no part in the state. -/
theorem commit_fst (c : σ × List ω) (a : α) : (commit step c a).1 = next step c.1 a := by
  cases h : step c.1 a with
  | error e => rw [commit_of_error h, next_of_error h]
  | ok r => rw [commit_of_ok h, next_of_ok h]

theorem along_concat {C : σ → α → Prop} (s : σ) (acts : List α) (a : α) :
    Along step C s (acts ++ [a]) ↔ Along step C s acts ∧ C (run step s acts).1 a := by
  have hgen : ∀ (acts : List α) (c : σ × List ω), Along step C c.1 (acts ++ [a]) ↔
      Along step C c.1 acts ∧ C (acts.foldl (commit step) c).1 a := by
    intro acts
    induction acts with
    | nil => simp [Along]
    | cons b acts ih =>
      intro c
      rw [List.cons_append, Along, Along, ← commit_fst, ih, List.foldl_cons, and_assoc]
  exact hgen acts (s, [])

theorem Along.and {C C' : σ → α → Prop} : ∀ {s : σ} {acts : List α}, Along step C s acts →
    Along step C' s acts → Along step (fun s a => C s a ∧ C' s a) s acts
  | _, [], _, _ => trivial
  | _, _ :: _, ⟨h, hs⟩, ⟨h', hs'⟩ => ⟨⟨h, h'⟩, Along.and hs hs'⟩

theorem Along.mono {C C' : σ → α → Prop} (h : ∀ s a, C s a → C' s a) :
    ∀ {s : σ} {acts : List α}, Along step C s acts → Along step C' s acts
  | _, [], _ => trivial
  | _, _ :: _, ⟨hc, hs⟩ => ⟨h _ _ hc, hs.mono h⟩

/-- A condition on the calls alone holds along every run of calls that meet it. -/
theorem Along.of_forall {C : σ → α → Prop} : ∀ {s : σ} {acts : List α},
    (∀ a ∈ acts, ∀ s, C s a) → Along step C s acts
  | _, [], _ => trivial
  | s, a :: _, h => ⟨h a List.mem_cons_self s,
      Along.of_forall (fun b hb => h b (List.mem_cons_of_mem a hb))⟩

/-- A condition met along a run is met along its beginning. -/
theorem Along.initial {C : σ → α → Prop} : ∀ {s : σ} {pre acts : List α}, pre <+: acts →
    Along step C s acts → Along step C s pre
  | _, [], _, _, _ => trivial
  | _, a :: pre, acts, hpre, h => by
    obtain ⟨rest, rfl⟩ := hpre
    exact ⟨h.1, h.2.initial (List.prefix_append pre rest)⟩

/-- A condition along a run, call by call: it holds of every call in the state the calls before it
lead to. -/
theorem along_iff_forall_append {C : σ → α → Prop} {s : σ} {acts : List α} :
    Along step C s acts ↔ ∀ pre a post, acts = pre ++ a :: post → C (run step s pre).1 a := by
  constructor
  · rintro h pre a post rfl
    have hpre : pre ++ [a] <+: pre ++ a :: post := ⟨post, by rw [List.append_assoc]; rfl⟩
    exact ((along_concat s pre a).mp (h.initial hpre)).2
  · intro h
    induction acts using List.reverseRecOn with
    | nil => trivial
    | append_singleton acts a ih =>
      refine (along_concat s acts a).mpr ⟨ih (fun pre b post heq => ?_), h acts a [] rfl⟩
      exact h pre b (post ++ [a]) (by rw [heq, List.append_assoc]; rfl)

/-! ### The calls of a run that return -/

variable (step) in
/-- The calls of a run that return, in order. -/
def returned : σ → List α → List α
  | _, [] => []
  | s, a :: acts => (if (step s a).isOk then [a] else []) ++ returned (next step s a) acts

theorem returned_concat (s : σ) (acts : List α) (a : α) :
    returned step s (acts ++ [a]) =
      returned step s acts ++ if (step (run step s acts).1 a).isOk then [a] else [] := by
  have hgen : ∀ (acts : List α) (c : σ × List ω), returned step c.1 (acts ++ [a]) =
      returned step c.1 acts ++
        if (step (acts.foldl (commit step) c).1 a).isOk then [a] else [] := by
    intro acts
    induction acts with
    | nil =>
      intro c
      show _ ++ [] = [] ++ _
      rw [List.append_nil, List.nil_append]
      rfl
    | cons b acts ih =>
      intro c
      rw [List.cons_append, returned, returned, ← commit_fst, ih, List.foldl_cons,
        List.append_assoc]
  exact hgen acts (s, [])

/-! ### Rules -/

/-- **Trace rule**: an invariant of the state, the log and the calls that returned, for calls that
meet a condition in the state they start from. -/
theorem run_trace_of {s : σ} (I : σ → List ω → List α → Prop) (C : σ → α → Prop) (h0 : I s [] [])
    (hstep : ∀ s log past a s' out, I s log past → C s a → step s a = .ok (s', out) →
      I s' (log ++ out) (past ++ [a]))
    (acts : List α) (hC : Along step C s acts) :
    I (run step s acts).1 (run step s acts).2 (returned step s acts) := by
  induction acts using List.reverseRecOn with
  | nil => exact h0
  | append_singleton acts a ih =>
    obtain ⟨hC, hc⟩ := (along_concat s acts a).mp hC
    have ih := ih hC
    rw [run_concat, returned_concat]
    cases h : step (run step s acts).1 a with
    | error e =>
      rw [commit_of_error h]
      show I _ _ (_ ++ [])
      rw [List.append_nil]
      exact ih
    | ok r =>
      rw [commit_of_ok h]
      exact hstep _ _ _ _ _ _ ih hc h

/-- **Run rule**: an invariant of state and log that every returning call meeting `C` preserves
holds after every run along which `C` is met. -/
theorem run_invariant_of {s : σ} (I : σ → List ω → Prop) (C : σ → α → Prop) (h0 : I s [])
    (hstep : ∀ s log a s' out, I s log → C s a → step s a = .ok (s', out) → I s' (log ++ out))
    (acts : List α) (hC : Along step C s acts) : I (run step s acts).1 (run step s acts).2 :=
  run_trace_of (fun s log _ => I s log) C h0
    (fun s log _ a s' out hI hc h => hstep s log a s' out hI hc h) acts hC

/-- The run rule for an invariant that every returning call preserves. -/
theorem run_invariant {s : σ} (I : σ → List ω → Prop) (h0 : I s [])
    (hstep : ∀ s log a s' out, I s log → step s a = .ok (s', out) → I s' (log ++ out))
    (acts : List α) : I (run step s acts).1 (run step s acts).2 :=
  run_invariant_of I (fun _ _ => True) h0
    (fun s log a s' out hI _ => hstep s log a s' out hI) acts
    (Along.of_forall (fun _ _ _ => trivial))

/-- **History rule**: an invariant of the state and of the calls that returned, for calls that meet
a condition in the state they start from. -/
theorem run_history_of {s : σ} (I : σ → List α → Prop) (C : σ → α → Prop) (h0 : I s [])
    (hstep : ∀ s past a s' out, I s past → C s a → step s a = .ok (s', out) → I s' (past ++ [a]))
    (acts : List α) (hC : Along step C s acts) : I (run step s acts).1 (returned step s acts) :=
  run_trace_of (fun s _ past => I s past) C h0
    (fun s _ past a s' out hI hc h => hstep s past a s' out hI hc h) acts hC

/-- The history rule for an invariant that every returning call preserves. -/
theorem run_history {s : σ} (I : σ → List α → Prop) (h0 : I s [])
    (hstep : ∀ s past a s' out, I s past → step s a = .ok (s', out) → I s' (past ++ [a]))
    (acts : List α) : I (run step s acts).1 (returned step s acts) :=
  run_history_of I (fun _ _ => True) h0
    (fun s past a s' out hI _ => hstep s past a s' out hI) acts
    (Along.of_forall (fun _ _ _ => trivial))

/-- Conditions that agree in the states of an invariant agree along every run. -/
theorem along_congr {s : σ} (I : σ → Prop) {C C' : σ → α → Prop} (h0 : I s)
    (hstep : ∀ s a s' out, I s → step s a = .ok (s', out) → I s')
    (hC : ∀ s a, I s → (C s a ↔ C' s a)) (acts : List α) :
    Along step C s acts ↔ Along step C' s acts := by
  induction acts using List.reverseRecOn with
  | nil => exact Iff.rfl
  | append_singleton acts a ih =>
    have hrun : I (run step s acts).1 :=
      run_invariant (fun s _ => I s) h0 (fun s _ a s' out => hstep s a s' out) acts
    rw [along_concat, along_concat, ih, hC _ a hrun]

/-- **Log rule**: every output of a run satisfies `P` exactly when those of each of its calls do. -/
theorem forall_mem_log {s : σ} {P : ω → Prop} (acts : List α) :
    (∀ o ∈ (run step s acts).2, P o) ↔
      Along step (fun s a => ∀ s' out, step s a = .ok (s', out) → ∀ o ∈ out, P o) s acts := by
  induction acts using List.reverseRecOn with
  | nil => simp [Along]
  | append_singleton acts a ih =>
    rw [along_concat, ← ih, run_concat]
    cases h : step (run step s acts).1 a with
    | error e => simp [commit_of_error h]
    | ok r =>
      obtain ⟨s', out⟩ := r
      rw [commit_of_ok h]
      constructor
      · intro hall
        refine ⟨fun o ho => hall o (List.mem_append_left _ ho), fun _ _ heq o ho => ?_⟩
        cases heq
        exact hall o (List.mem_append_right _ ho)
      · rintro ⟨hold, hnew⟩ o ho
        rcases List.mem_append.mp ho with ho | ho
        · exact hold o ho
        · exact hnew s' out rfl o ho

/-! ### Simulations -/

theorem run_append_fst (s : σ) (acts acts' : List α) :
    (run step s (acts ++ acts')).1 = (run step (run step s acts).1 acts').1 := by
  induction acts' using List.reverseRecOn with
  | nil => rw [List.append_nil, run_nil]
  | append_singleton acts' a ih =>
    rw [← List.append_assoc, run_concat, run_concat, commit_fst, commit_fst, ih]

/-- More calls only add to the log. -/
theorem exists_log_append (s : σ) (acts acts' : List α) :
    ∃ rest, (run step s (acts ++ acts')).2 = (run step s acts).2 ++ rest := by
  induction acts' using List.reverseRecOn with
  | nil => exact ⟨[], by rw [List.append_nil, List.append_nil]⟩
  | append_singleton acts' a ih =>
    obtain ⟨rest, hrest⟩ := ih
    rw [← List.append_assoc, run_concat]
    cases h : step (run step s (acts ++ acts')).1 a with
    | ok r => exact ⟨rest ++ r.2, by rw [commit_of_ok h, hrest, List.append_assoc]⟩
    | error e => exact ⟨rest, by rw [commit_of_error h, hrest]⟩

/-- **Simulation rule**: when every returning call that meets `C` is matched by some calls of
another machine, all of which meet `D`, so is every run along which `C` is met. -/
theorem exists_run_of_steps {τ ε' ω' : Type} {step' : τ → β → Except ε' (τ × List ω')}
    {s : σ} {t : τ} (R : σ → τ → Prop) (C : σ → α → Prop) (D : β → Prop) (h0 : R s t)
    (hstep : ∀ s t a s' out, R s t → C s a → step s a = .ok (s', out) →
      ∃ acts, (∀ b ∈ acts, D b) ∧ R s' (run step' t acts).1)
    (acts : List α) (hC : Along step C s acts) :
    ∃ acts', (∀ b ∈ acts', D b) ∧ R (run step s acts).1 (run step' t acts').1 := by
  refine run_invariant_of (fun s' _ => ∃ acts', (∀ b ∈ acts', D b) ∧ R s' (run step' t acts').1) C
    ⟨[], by simp, h0⟩ ?_ acts hC
  rintro s₁ log a s₂ out ⟨acts₁, hD₁, hR⟩ hc hs
  obtain ⟨acts₂, hD₂, hR₂⟩ := hstep s₁ _ a s₂ out hR hc hs
  refine ⟨acts₁ ++ acts₂, fun b hb => ?_, ?_⟩
  · rcases List.mem_append.mp hb with hb | hb
    · exact hD₁ b hb
    · exact hD₂ b hb
  · rw [run_append_fst]
    exact hR₂

/-! ### The last call of a kind -/

/-- What the last of the calls that `f` reads anything from says. -/
def latest (f : α → Option β) (past : List α) : Option β := (past.filterMap f).getLast?

@[simp] theorem latest_nil (f : α → Option β) : latest f [] = none := rfl

theorem latest_concat (f : α → Option β) (past : List α) (a : α) :
    latest f (past ++ [a]) = (f a).or (latest f past) := by
  rw [latest, List.filterMap_append, List.getLast?_append]
  cases h : f a with
  | none => rw [List.filterMap_cons_none h]; rfl
  | some b => rw [List.filterMap_cons_some h]; rfl

end Runs

end VDexNode

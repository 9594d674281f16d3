import Mathlib.Data.PNat.Defs
import VDexNode.Api.Handler
import VDexNode.Lib.Machine

/-!
# VDexNode.Api.Chat — what a chat reader delivers

`read` copies the first bytes of a line into the buffer with `clone_from_slice`, which takes no
source longer than its target: a line that does not fit panics before the code that would have
returned can.

A run is any list of messages queued and reads made.  `Delivered` is what the stream owes its
client; `delivered_iff` : **it is kept exactly when every line read fits its buffer.**
-/

namespace VDexNode.Api

/-! ## Runs -/

/-- A message arrives, or the HTTP layer reads into a buffer of some length. -/
inductive ReaderEvent where
  | push (msg : ChatMessage)
  | read (len : ℕ+)

/-- A call of `read`: the message that was waiting, how the call ended, and the buffer. -/
structure Reading where
  waiting : Option ChatMessage
  result : ReadResult
  buf : List UInt8

/-- The bytes a call hands over. -/
def Reading.bytes (o : Reading) : List UInt8 :=
  match o.result with
  | .ok n => o.buf.take n
  | .panic => []

section Chat

variable (toJson : ChatMessage → Option (List UInt8))

/-- One event of a reader's life. -/
def chatStep (r : ChatReader) : ReaderEvent → Except String (ChatReader × List Reading)
  | .push msg => .ok (r.push msg, [])
  | .read len =>
    let (result, buf, r') := r.read toJson len
    .ok (r', [⟨r.chat.head?, result, buf⟩])

/-- The line of a message. -/
def line (msg : ChatMessage) : List UInt8 := (toJson msg).getD [] ++ [newline]

/-- The messages queued by a list of events. -/
def queued (events : List ReaderEvent) : List ChatMessage :=
  events.filterMap (fun e => match e with
    | .push msg => some msg
    | .read _ => none)

/-- The messages that were waiting when `read` was called. -/
def served (log : List Reading) : List ChatMessage := log.filterMap Reading.waiting

/-- The bytes handed over by all calls, without the zeros. -/
def output (log : List Reading) : List UInt8 :=
  (log.flatMap Reading.bytes).filter (fun b => decide (b ≠ 0))

/-- No call panics or ends the stream, every message queued was served, in order, or still waits,
and the bytes handed over are the lines of those served. -/
def Delivered (events : List ReaderEvent) : Prop :=
  let r := (run (chatStep toJson) {} events).1
  let log := (run (chatStep toJson) {} events).2
  (∀ o ∈ log, o.result ≠ .panic ∧ o.result ≠ .ok 0) ∧ queued events = served log ++ r.chat ∧
    output log = (served log).flatMap (line toJson)

/-- A read finds no message, or one whose line fits the buffer. -/
def Fits (r : ChatReader) : ReaderEvent → Prop
  | .push _ => True
  | .read len => ∀ msg ∈ r.chat.head?, (line toJson msg).length ≤ len

/-! ## One read -/

variable {toJson} {r : ChatReader}

/-- A read of an empty queue hands over zeros. -/
theorem read_empty (hstopped : r.stopped = false) (hlock : r.poisoned = false) (hchat : r.chat = [])
    (len : ℕ) : r.read toJson len = (.ok len, List.replicate len 0, r) := by
  simp only [ChatReader.read, hstopped, hlock, hchat, Bool.false_eq_true, if_false]

/-- A read of a line that fits hands over the line and zeros, and takes the message. -/
theorem read_fits (hstopped : r.stopped = false) (hlock : r.poisoned = false) {msg : ChatMessage}
    {rest : List ChatMessage} (hchat : r.chat = msg :: rest) {json : List UInt8}
    (hjson : toJson msg = some json) {len : ℕ} (hfits : (line toJson msg).length ≤ len) :
    r.read toJson len = (.ok len,
      line toJson msg ++ List.replicate (len - (line toJson msg).length) 0,
      { r with chat := rest }) := by
  have hline : line toJson msg = json ++ [newline] := by rw [line, hjson, Option.getD_some]
  rw [hline] at hfits ⊢
  simp only [ChatReader.read, hstopped, hlock, hchat, hjson, Bool.false_eq_true, if_false,
    Nat.min_eq_right hfits, ne_eq, not_true_eq_false, lt_irrefl, List.drop_replicate]

/-- A read of a line that does not fit panics or ends the stream. -/
theorem read_overflows {msg : ChatMessage} (hhead : r.chat.head? = some msg) {json : List UInt8}
    (hjson : toJson msg = some json) {len : ℕ} (hlong : len < (line toJson msg).length) :
    (r.read toJson len).1 = .panic ∨ (r.read toJson len).1 = .ok 0 := by
  obtain ⟨rest, hchat⟩ := List.head?_eq_some_iff.mp hhead
  have hline : line toJson msg = json ++ [newline] := by rw [line, hjson, Option.getD_some]
  rw [hline] at hlong
  simp only [ChatReader.read, hchat, hjson]
  split_ifs with h1 h2 h3
  · exact Or.inr rfl
  · exact Or.inl rfl
  · exact Or.inl rfl
  · exact Or.inr rfl
  · rw [not_not] at h3
    omega

/-! ## Runs of reads that fit -/

theorem served_concat (log : List Reading) (o : Reading) :
    served (log ++ [o]) = served log ++ o.waiting.toList := by
  rw [served, List.filterMap_append]
  cases hw : o.waiting <;> simp [served, hw]

theorem output_concat (log : List Reading) (o : Reading) :
    output (log ++ [o]) = output log ++ o.bytes.filter (fun b => decide (b ≠ 0)) := by
  simp only [output, List.flatMap_append, List.filter_append, List.flatMap_singleton]

/-- The line of a message has no zero byte where its JSON has none. -/
theorem filter_line {msg : ChatMessage} {json : List UInt8} (hjson : toJson msg = some json)
    (hzero : 0 ∉ json) :
    (line toJson msg).filter (fun b => decide (b ≠ 0)) = line toJson msg := by
  refine List.filter_eq_self.mpr (fun b hb => decide_eq_true ?_)
  rw [line, hjson, Option.getD_some] at hb
  rcases List.mem_append.mp hb with hb | hb
  · intro hb0
    exact hzero (hb0 ▸ hb)
  · rw [List.mem_singleton.mp hb]
    decide

/-- Padding is filtered out. -/
theorem filter_zeros (n : ℕ) :
    (List.replicate n (0 : UInt8)).filter (fun b => decide (b ≠ 0)) = [] := by
  refine List.filter_eq_nil_iff.mpr (fun b hb => ?_)
  rw [(List.mem_replicate.mp hb).2]
  decide

/-- Reporting a buffer as read neither panics nor ends the stream. -/
theorem ok_len_good (len : ℕ+) : ReadResult.ok len ≠ .panic ∧ ReadResult.ok len ≠ .ok 0 := by
  constructor
  · intro h
    cases h
  · intro h
    exact len.ne_zero (ReadResult.ok.inj h)

/-- The reader is open, and what was queued has been handed over or waits. -/
structure Intact (toJson : ChatMessage → Option (List UInt8)) (events : List ReaderEvent)
    (r : ChatReader) (log : List Reading) : Prop where
  stopped : r.stopped = false
  lock : r.poisoned = false
  results : ∀ o ∈ log, o.result ≠ .panic ∧ o.result ≠ .ok 0
  queue : queued events = served log ++ r.chat
  lines : output log = (served log).flatMap (line toJson)

section Intact

variable {events : List ReaderEvent} {log : List Reading}

theorem Intact.push (h : Intact toJson events r log) (msg : ChatMessage) :
    Intact toJson (events ++ [.push msg]) (r.push msg) log := by
  have hpush : r.push msg = { r with chat := r.chat ++ [msg] } := by
    rw [ChatReader.push, h.lock]
    rfl
  rw [hpush]
  refine ⟨h.stopped, h.lock, h.results, ?_, h.lines⟩
  rw [queued, List.filterMap_append, ← queued, h.queue, List.append_assoc]
  rfl

/-- **Step lemma**: a read that fits hands over the line of the message that waits, if one does. -/
theorem Intact.read (h : Intact toJson events r log)
    (hjson : ∀ msg, ∃ json, toJson msg = some json ∧ 0 ∉ json) {len : ℕ+}
    (hfits : Fits toJson r (.read len)) :
    Intact toJson (events ++ [.read len]) (r.read toJson len).2.2
      (log ++ [⟨r.chat.head?, (r.read toJson len).1, (r.read toJson len).2.1⟩]) := by
  have hqueued : queued (events ++ [.read len]) = queued events := by
    rw [queued, List.filterMap_append, ← queued]
    exact List.append_nil _
  -- a read returns the length of its buffer
  have hresults : ∀ msg buf, ∀ o ∈ log ++ [⟨msg, .ok len, buf⟩], o.result ≠ .panic ∧
      o.result ≠ .ok 0 := by
    intro msg buf o ho
    rcases List.mem_append.mp ho with ho | ho
    · exact h.results o ho
    · rw [List.mem_singleton.mp ho]
      exact ok_len_good len
  cases hchat : r.chat with
  | nil =>
    rw [read_empty h.stopped h.lock hchat]
    refine ⟨h.stopped, h.lock, hresults _ _, ?_, ?_⟩
    · rw [hqueued, h.queue, served_concat]
      exact (congrArg (· ++ r.chat) (List.append_nil _)).symm
    · rw [output_concat, served_concat, h.lines, Reading.bytes]
      simp only [List.take_replicate, min_self, filter_zeros, List.append_nil, List.head?_nil,
        Option.toList_none]
  | cons msg rest =>
    obtain ⟨json, hmsg, hzero⟩ := hjson msg
    have hlen : (line toJson msg).length ≤ len := hfits msg (by rw [hchat]; rfl)
    rw [read_fits h.stopped h.lock hchat hmsg hlen]
    refine ⟨h.stopped, h.lock, hresults _ _, ?_, ?_⟩
    · rw [hqueued, h.queue, served_concat, hchat, List.append_assoc]
      rfl
    · have hbuf : (line toJson msg ++ List.replicate (len - (line toJson msg).length) 0).take len =
          line toJson msg ++ List.replicate (len - (line toJson msg).length) 0 := by
        refine List.take_of_length_le ?_
        rw [List.length_append, List.length_replicate]
        omega
      rw [output_concat, served_concat, h.lines, Reading.bytes]
      simp only [hbuf, List.filter_append, filter_line hmsg hzero, filter_zeros, List.append_nil,
        List.head?_cons, Option.toList_some, List.flatMap_append, List.flatMap_singleton]

end Intact

/-- **Run lemma**: reads that fit keep the stream intact. -/
theorem intact_run (hjson : ∀ msg, ∃ json, toJson msg = some json ∧ 0 ∉ json)
    (events : List ReaderEvent) (hfits : Along (chatStep toJson) (Fits toJson) {} events) :
    Intact toJson events (run (chatStep toJson) {} events).1
      (run (chatStep toJson) {} events).2 := by
  induction events using List.reverseRecOn with
  | nil => exact ⟨rfl, rfl, by simp, rfl, rfl⟩
  | append_singleton events e ih =>
    obtain ⟨hfits, he⟩ := (along_concat _ _ _).mp hfits
    have h := ih hfits
    rw [run_concat]
    cases e with
    | push msg =>
      have hstep : chatStep toJson (run (chatStep toJson) {} events).1 (.push msg) =
          .ok ((run (chatStep toJson) {} events).1.push msg, []) := rfl
      rw [commit_of_ok hstep, List.append_nil]
      exact h.push msg
    | read len =>
      rw [commit_of_ok rfl]
      exact h.read hjson he

/-! ## The stream -/

/-- **Delivery**: the stream hands over every message, intact, once and in order exactly when each
line that is read fits its buffer. -/
theorem delivered_iff (toJson : ChatMessage → Option (List UInt8))
    (hjson : ∀ msg, ∃ json, toJson msg = some json ∧ 0 ∉ json) (events : List ReaderEvent) :
    Delivered toJson events ↔ Along (chatStep toJson) (Fits toJson) {} events := by
  constructor
  · rintro ⟨hresults, -, -⟩
    refine ((forall_mem_log events).mp hresults).mono (fun r e hgood => ?_)
    cases e with
    | push msg => exact trivial
    | read len =>
      intro msg hmsg
      obtain ⟨json, hmsg', -⟩ := hjson msg
      obtain ⟨hpanic, hend⟩ := hgood _ _ rfl _ List.mem_cons_self
      by_contra hlong
      rcases read_overflows hmsg hmsg' (not_le.mp hlong) with hr | hr
      · exact hpanic hr
      · exact hend hr
  · intro hfits
    have h := intact_run hjson events hfits
    exact ⟨h.results, h.queue, h.lines⟩

/-- The JSON of a message with author `a`, body `hi` and no recipient. -/
def greetingJson : List UInt8 :=
  "\x7b\"author\":\"a\",\"body\":\"hi\",\"encrypted\":false\x7d".toList.map
    (fun c => UInt8.ofNat c.toNat)

/-- The message arrives and is read into a buffer of the given length. -/
def greeting (len : ℕ+) : List ReaderEvent := [.push ⟨"a", "hi", false⟩, .read len]

theorem delivered_iff_greeting : Delivered (fun _ => some greetingJson) (greeting 64) := by
  refine (delivered_iff (fun _ => some greetingJson) ?_ (greeting 64)).mpr ?_
  · intro _
    exact ⟨greetingJson, rfl, by decide⟩
  · refine ⟨trivial, ?_, trivial⟩
    intro msg _
    show (greetingJson ++ [newline]).length ≤ 64
    decide

/-- A buffer of sixteen bytes is too short for the line. -/
theorem greeting_panics : ¬ ∀ toJson : ChatMessage → Option (List UInt8),
    (∀ msg, ∃ json, toJson msg = some json ∧ 0 ∉ json) →
      ∀ events, Delivered toJson events := by
  intro h
  have hgood := h (fun _ => some greetingJson) (fun _ => ⟨greetingJson, rfl, by decide⟩)
    (greeting 16)
  exact absurd hgood.1 (by decide)

end Chat

end VDexNode.Api

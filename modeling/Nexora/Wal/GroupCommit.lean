import Nexora.Wal.CodecRoundTrip
import Nexora.Wal.Log

/-!
# Group commit

Under the group policy `append` only buffers, a flush publishes the last number through a watch
channel, and a committer waits for its own. `truncate` starts the numbers again and leaves the
published one; and what an inline flush publishes while nobody is subscribed is lost.
-/

namespace Nexora
open Lib List WriteAheadLog WatchChannel Nat Option
variable (S : Serde) (cipher : Option Cipher)

namespace WriteAheadLog

def watermark (w : WriteAheadLog) : Nat := (w.group.map value).getD 0

def flushesInline (w : WriteAheadLog) (operation : WalOperation) : Bool :=
  match w.syncPolicy with
  | .group maxOps maxBytes => (w.write S cipher operation).overBudget maxOps maxBytes
  | _ => false

theorem watermark_durableReceiver (w : WriteAheadLog) :
    w.durableReceiver.watermark = w.watermark := by
  simp only [durableReceiver, watermark, Option.map_map]
  rfl

theorem watermark_unsubscribe (w : WriteAheadLog) :
    watermark { w with group := w.group.map (·.unsubscribe) } = w.watermark := by
  simp only [watermark, Option.map_map]
  rfl

variable {maxBytes : Option Nat}
variable {w : WriteAheadLog} {operation : WalOperation} {maxOps : Nat}

theorem append_of_group (hpolicy : w.syncPolicy = .group maxOps maxBytes) :
    (w.append S cipher operation).1 = if w.flushesInline S cipher operation = true then
      (w.write S cipher operation).sync.publish w.nextSeq else w.write S cipher operation := by
  have hwritten : (w.write S cipher operation).syncPolicy = .group maxOps maxBytes := hpolicy
  rw [flushesInline, hpolicy]
  simp only [append, applyPolicy, hwritten]

theorem append_group (w : WriteAheadLog) (operation : WalOperation)
    (hpolicy : w.syncPolicy = .group maxOps maxBytes) :
    (w.append S cipher operation).1.syncPolicy = w.syncPolicy ∧
      w.file.length ≤ (w.append S cipher operation).1.file.length ∧
      (w.flushesInline S cipher operation = true →
        (w.append S cipher operation).1.synced = (w.append S cipher operation).1.file.length) ∧
      (¬ w.flushesInline S cipher operation = true → (w.append S cipher operation).1.watermark = w.watermark) := by
  have hfile : w.file.length ≤ (w.write S cipher operation).file.length := by
    simp only [write, length_append]
    omega
  by_cases h : w.flushesInline S cipher operation = true
  · rw [append_of_group S cipher hpolicy, if_pos h]
    exact ⟨rfl, hfile, fun _ => rfl, fun hnot => absurd h hnot⟩
  · rw [append_of_group S cipher hpolicy, if_neg h]
    exact ⟨rfl, hfile, fun hyes => absurd hyes h, fun _ => rfl⟩

theorem flusherTick_cases (w : WriteAheadLog) :
    w.flusherTick = w ∨ (w.flusherTick.synced = w.flusherTick.file.length ∧ w.flusherTick.file = w.file ∧
      w.flusherTick.syncPolicy = w.syncPolicy) := by
  unfold flusherTick
  split
  · exact Or.inr ⟨rfl, rfl, rfl⟩
  · exact Or.inl rfl

end WriteAheadLog

/-! ### What the watermark promises -/

/-- A record that was appended: its sequence number, where its frame ends in the file of its epoch,
and whether it has been fsynced or covered by a completed checkpoint. Every truncation starts a new
epoch. -/
structure LogEntry where
  seq : Nat
  epoch : Nat
  fileEnd : Nat
  durable : Bool
deriving DecidableEq

structure WatermarkState where
  wal : WriteAheadLog
  epoch : Nat
  entries : List LogEntry

inductive WatermarkStep where
  | append (operation : WalOperation)
  | subscribe
  | unsubscribe
  | flusherTick
  | sync
  | truncate (covered : LogEntry → Bool)

namespace WatermarkState

def settle (s : WatermarkState) : WatermarkState :=
  { s with entries := s.entries.map fun e =>
      if e.epoch = s.epoch ∧ e.fileEnd ≤ s.wal.synced then { e with durable := true } else e }

def step (s : WatermarkState) : WatermarkStep → WatermarkState
  | .append operation =>
      let wal := (s.wal.append S cipher operation).1
      settle ⟨wal, s.epoch, s.entries ++ [⟨(s.wal.append S cipher operation).2, s.epoch, wal.file.length, false⟩]⟩
  | .subscribe => { s with wal := s.wal.durableReceiver }
  | .unsubscribe => { s with wal := { s.wal with group := s.wal.group.map (·.unsubscribe) } }
  | .flusherTick => settle { s with wal := s.wal.flusherTick }
  | .sync => settle { s with wal := s.wal.sync }
  | .truncate covered =>
      { wal := s.wal.truncate
        epoch := s.epoch + 1
        entries := s.entries.map fun e => if covered e then { e with durable := true } else e }

/-- A committer that finds its sequence number published may conclude that its record is safe. -/
def Sound (s : WatermarkState) : Prop := ∀ e ∈ s.entries, e.seq ≤ s.wal.watermark → e.durable = true

/-- An append must get a number above the published one, or flush at once; a truncation must not
remove a record that is neither fsynced nor covered by the checkpoint it completes. -/
def StepOk (s : WatermarkState) : WatermarkStep → Prop
  | .append operation => s.wal.watermark < s.wal.nextSeq ∨ s.wal.flushesInline S cipher operation = true
  | .truncate covered => ∀ e ∈ s.entries, e.durable = true ∨ covered e = true
  | _ => True

def init (maxOps : Nat) (maxBytes : Option Nat) (file : List UInt8) (fileGeneration : Nat) :
    WatermarkState :=
  ⟨openWithOptions S cipher (.group maxOps maxBytes) file fileGeneration, 0, []⟩

/-- Every record that is not yet safe is in the current file and has a number that is not yet
published. -/
structure Inv (s : WatermarkState) : Prop where
  policy : ∃ maxOps maxBytes, s.wal.syncPolicy = .group maxOps maxBytes
  pending : ∀ e ∈ s.entries, e.durable = true ∨
    (e.epoch = s.epoch ∧ e.fileEnd ≤ s.wal.file.length ∧ s.wal.watermark < e.seq)

variable {s : WatermarkState}

theorem Inv.sound (h : s.Inv) : s.Sound := by
  intro e he hle
  obtain hdurable | ⟨-, -, hlt⟩ := h.pending e he
  · exact hdurable
  · omega

theorem settle_pending (h : ∀ e ∈ s.entries, e.durable = true ∨
      (e.epoch = s.epoch ∧ e.fileEnd ≤ s.wal.file.length ∧ (s.wal.synced < e.fileEnd → s.wal.watermark < e.seq))) :
    ∀ e ∈ s.settle.entries, e.durable = true ∨
      (e.epoch = s.epoch ∧ e.fileEnd ≤ s.wal.file.length ∧ s.wal.watermark < e.seq) := by
  intro e he
  obtain ⟨e', he', rfl⟩ := mem_map.mp he
  split
  · exact Or.inl rfl
  · next hnot =>
    obtain hdurable | ⟨hepoch, hend, hmark⟩ := h e' he'
    · exact Or.inl hdurable
    · exact Or.inr ⟨hepoch, hend, hmark (by by_contra hle; exact hnot ⟨hepoch, by omega⟩)⟩

theorem settle_all (hsynced : s.wal.synced = s.wal.file.length)
    (h : ∀ e ∈ s.entries, e.durable = true ∨ (e.epoch = s.epoch ∧ e.fileEnd ≤ s.wal.file.length)) :
    ∀ e ∈ s.settle.entries, e.durable = true ∨
      (e.epoch = s.epoch ∧ e.fileEnd ≤ s.wal.file.length ∧ s.wal.watermark < e.seq) := by
  refine settle_pending fun e he => ?_
  obtain hdurable | ⟨hepoch, hend⟩ := h e he
  · exact Or.inl hdurable
  · exact Or.inr ⟨hepoch, hend, fun hlt => by omega⟩

theorem step_append_inv {operation : WalOperation} (h : s.Inv)
    (hok : s.StepOk S cipher (.append operation)) : (s.step S cipher (.append operation)).Inv := by
  obtain ⟨maxOps, maxBytes, hpolicy⟩ := h.policy
  obtain ⟨hkeep, hlen, hflush, hbuffer⟩ := s.wal.append_group S cipher operation hpolicy
  refine ⟨⟨maxOps, maxBytes, hkeep.trans hpolicy⟩, ?_⟩
  by_cases hinline : s.wal.flushesInline S cipher operation = true
  · refine settle_all (hflush hinline) fun e he => ?_
    obtain he | he := mem_append.mp he
    · obtain hdurable | ⟨hepoch, hend, -⟩ := h.pending e he
      · exact Or.inl hdurable
      · exact Or.inr ⟨hepoch, le_trans hend hlen⟩
    · rw [mem_singleton] at he
      subst he
      exact Or.inr ⟨rfl, le_refl _⟩
  · have hmark := hbuffer hinline
    refine settle_pending fun e he => ?_
    obtain he | he := mem_append.mp he
    · obtain hdurable | ⟨hepoch, hend, hlt⟩ := h.pending e he
      · exact Or.inl hdurable
      · exact Or.inr ⟨hepoch, le_trans hend hlen, fun _ => hmark ▸ hlt⟩
    · rw [mem_singleton] at he
      subst he
      exact Or.inr ⟨rfl, le_refl _, fun _ => hmark ▸ hok.resolve_right hinline⟩

theorem step_inv (s : WatermarkState) (label : WatermarkStep) (h : s.Inv)
    (hok : s.StepOk S cipher label) :
    (s.step S cipher label).Inv := by
  cases label with
  | append operation => exact step_append_inv S cipher h hok
  | subscribe =>
    refine ⟨h.policy, fun e he => ?_⟩
    simp only [step, watermark_durableReceiver]
    exact h.pending e he
  | unsubscribe =>
    refine ⟨h.policy, fun e he => ?_⟩
    simp only [step, watermark_unsubscribe]
    exact h.pending e he
  | flusherTick =>
    obtain hidle | ⟨hsynced, hfile, hpolicy⟩ := s.wal.flusherTick_cases
    · refine ⟨?_, settle_pending fun e he => ?_⟩
      · change ∃ maxOps maxBytes, s.wal.flusherTick.syncPolicy = _
        rw [hidle]
        exact h.policy
      · simp only [hidle]
        obtain hdurable | ⟨hepoch, hend, hlt⟩ := h.pending e he
        · exact Or.inl hdurable
        · exact Or.inr ⟨hepoch, hend, fun _ => hlt⟩
    · refine ⟨?_, settle_all hsynced fun e he => ?_⟩
      · change ∃ maxOps maxBytes, s.wal.flusherTick.syncPolicy = _
        rw [hpolicy]
        exact h.policy
      · obtain hdurable | ⟨hepoch, hend, -⟩ := h.pending e he
        · exact Or.inl hdurable
        · exact Or.inr ⟨hepoch, hfile ▸ hend⟩
  | sync =>
    refine ⟨h.policy, settle_all rfl fun e he => ?_⟩
    obtain hdurable | ⟨hepoch, hend, -⟩ := h.pending e he
    · exact Or.inl hdurable
    · exact Or.inr ⟨hepoch, hend⟩
  | truncate covered =>
    refine ⟨h.policy, fun e he => Or.inl ?_⟩
    obtain ⟨e', he', rfl⟩ := mem_map.mp he
    split
    · rfl
    · next hnot => exact (hok e' he').resolve_right hnot

theorem init_inv (maxOps : Nat) (maxBytes : Option Nat) (file : List UInt8) (fileGeneration : Nat) :
    (init S cipher maxOps maxBytes file fileGeneration).Inv where
  policy := ⟨maxOps, maxBytes, rfl⟩
  pending := fun _ he => nomatch he

/-- **The watermark is sound** along every run in which appends get unpublished numbers and
truncations remove only what is safe. -/
theorem sound_of_along (maxOps : Nat) (maxBytes : Option Nat) (file : List UInt8)
    (fileGeneration : Nat) (steps : List WatermarkStep)
    (hsteps : Along (step S cipher) (StepOk S cipher) (init S cipher maxOps maxBytes file fileGeneration) steps) :
    (run (step S cipher) (init S cipher maxOps maxBytes file fileGeneration) steps).Sound :=
  (run_invariant (step_inv S cipher) (init_inv S cipher maxOps maxBytes file fileGeneration) hsteps).sound

/-- A log whose first number is never published may be truncated and used on. -/
theorem sound_after_truncate :
    let s := run (step flagLibraries none) (init flagLibraries none 256 none [] 0)
      [.append flagBatch, .flusherTick, .truncate (fun _ => true), .subscribe, .append flagBatch,
        .flusherTick]
    s.Sound ∧ s.wal.watermark = 1 := by
  refine ⟨sound_of_along flagLibraries none 256 none [] 0 _ ?_, by decide +kernel⟩
  refine ⟨Or.inl ?_, trivial, ?_, trivial, Or.inl ?_, trivial, trivial⟩
  · decide +kernel
  · exact fun e he => Or.inr rfl
  · decide +kernel

/-- The second record has the number that was published for the first one, and is not on disk. -/
theorem not_sound_after_truncate :
    let s := run (step flagLibraries none) (init flagLibraries none 256 none [] 0)
      [.subscribe, .append flagBatch, .flusherTick, .truncate (fun _ => true), .append flagBatch]
    s.entries = [⟨1, 0, 161, true⟩, ⟨1, 1, 161, false⟩] ∧ s.wal.watermark = 1 ∧ ¬ s.Sound := by
  intro s
  have hentries : s.entries = [⟨1, 0, 161, true⟩, ⟨1, 1, 161, false⟩] := by decide +kernel
  have hmark : s.wal.watermark = 1 := by decide +kernel
  refine ⟨hentries, hmark, fun hsound => ?_⟩
  have hdurable := hsound ⟨1, 1, 161, false⟩ (by rw [hentries]; decide) (by rw [hmark])
  cases hdurable

end WatermarkState

/-! ### Waiting for the watermark -/

/-- The log with the sequence numbers that committers are waiting for, each of them holding a
receiver, and the number of receivers that are held but no longer waited on. -/
structure CommitState where
  wal : WriteAheadLog
  waiting : List Nat
  idle : Nat

inductive CommitStep where
  | commit (operation : WalOperation)
  | commitRelaxed (operation : WalOperation)
  | append (operation : WalOperation)
  | flusherTick
  | finish (seq : Nat)
  | dropReceiver

namespace CommitState

/-- A commit appends and subscribes under one lock; a relaxed one does not wait, and other appends
do not subscribe. A committer stops waiting when it reads a number that is not below its own. -/
def step (s : CommitState) : CommitStep → CommitState
  | .commit operation =>
      { s with
        wal := (s.wal.append S cipher operation).1.durableReceiver
        waiting := s.waiting ++ [(s.wal.append S cipher operation).2] }
  | .commitRelaxed operation =>
      { s with wal := (s.wal.append S cipher operation).1.durableReceiver, idle := s.idle + 1 }
  | .append operation => { s with wal := (s.wal.append S cipher operation).1 }
  | .flusherTick => { s with wal := s.wal.flusherTick }
  | .finish seq =>
      if seq ∈ s.waiting ∧ seq ≤ s.wal.watermark then
        { s with waiting := s.waiting.erase seq, idle := s.idle + 1 }
      else s
  | .dropReceiver =>
      if 0 < s.idle then
        { s with wal := { s.wal with group := s.wal.group.map (·.unsubscribe) }, idle := s.idle - 1 }
      else s

/-- Whoever waits can already read a sufficient number, or a flush is pending that will publish
one. -/
def NoLostWakeup (s : CommitState) : Prop :=
  ∀ seq ∈ s.waiting, seq ≤ s.wal.watermark ∨ (0 < s.wal.opsSinceSync ∧ seq ≤ s.wal.flusherTick.watermark)

/-- A committer that will wait must not flush inside `append` while nobody is subscribed. -/
def StepOk (s : CommitState) : CommitStep → Prop
  | .commit operation => s.wal.flushesInline S cipher operation = true → ∃ c ∈ s.wal.group, 0 < c.receivers
  | _ => True

def init (maxOps : Nat) (maxBytes : Option Nat) (file : List UInt8) (fileGeneration : Nat) :
    CommitState :=
  ⟨openWithOptions S cipher (.group maxOps maxBytes) file fileGeneration, [], 0⟩

/-- What holds of the log when `held` receivers are held and these sequence numbers are waited for:
the numbers have been handed out, the published number lags behind the next one, and for whoever it
does not serve a flush is pending. -/
structure Serves (wal : WriteAheadLog) (waiting : List Nat) (held : Nat) : Prop where
  policy : ∃ maxOps maxBytes, wal.syncPolicy = .group maxOps maxBytes
  channel : ∃ c, wal.group = some c ∧ c.receivers = held ∧ c.value < wal.nextSeq ∧
    ∀ seq ∈ waiting, seq < wal.nextSeq ∧ (seq ≤ c.value ∨ 0 < wal.opsSinceSync)

def Inv (s : CommitState) : Prop := Serves s.wal s.waiting (s.waiting.length + s.idle)

theorem Inv.noLostWakeup {s : CommitState} (h : s.Inv) : s.NoLostWakeup := by
  obtain ⟨c, hgroup, hreceivers, -, hwaiting⟩ := h.channel
  intro seq hseq
  obtain ⟨hlt, hserved⟩ := hwaiting seq hseq
  have hmark : s.wal.watermark = c.value := by simp [watermark, hgroup]
  obtain hle | hops := hserved
  · exact Or.inl (hmark ▸ hle)
  · have hpos : c.receivers ≠ 0 := by
      have := length_pos_iff.mpr (ne_nil_of_mem hseq)
      omega
    have htick : s.wal.flusherTick.watermark = s.wal.nextSeq - 1 := by
      simp [flusherTick, hops, watermark, publish, sync,
        flush, resetCounters, hgroup, send, hpos, lastSeq]
    exact Or.inr ⟨hops, by omega⟩

variable {wal : WriteAheadLog}

theorem append_channel {maxOps : Nat} {maxBytes : Option Nat}
    (hpolicy : wal.syncPolicy = .group maxOps maxBytes) (operation : WalOperation) :
    (wal.append S cipher operation).1.syncPolicy = .group maxOps maxBytes ∧
      (wal.append S cipher operation).1.nextSeq = wal.nextSeq + 1 ∧
      ((wal.flushesInline S cipher operation = false ∧ (wal.append S cipher operation).1.group = wal.group ∧
          0 < (wal.append S cipher operation).1.opsSinceSync) ∨
        (wal.flushesInline S cipher operation = true ∧
          (wal.append S cipher operation).1.group = wal.group.map (·.send wal.nextSeq) ∧
          (wal.append S cipher operation).1.opsSinceSync = 0)) := by
  cases hinline : wal.flushesInline S cipher operation with
  | false =>
    rw [append_of_group S cipher hpolicy, if_neg (by simp [hinline])]
    exact ⟨hpolicy, rfl, Or.inl ⟨rfl, rfl, succ_pos _⟩⟩
  | true =>
    rw [append_of_group S cipher hpolicy, if_pos hinline]
    exact ⟨hpolicy, rfl, Or.inr ⟨rfl, rfl, rfl⟩⟩

variable {waiting : List Nat} {held : Nat}
section
variable (h : Serves wal waiting held) (hheld : waiting.length ≤ held)
include h hheld

theorem Serves.append (operation : WalOperation) :
    Serves (wal.append S cipher operation).1 waiting held := by
  obtain ⟨maxOps, maxBytes, hpolicy⟩ := h.policy
  obtain ⟨c, hgroup, hreceivers, hvalue, hwaiting⟩ := h.channel
  obtain ⟨hpolicy', hnext, ⟨-, hgroup', hops⟩ | ⟨-, hgroup', -⟩⟩ :=
    append_channel S cipher hpolicy operation
  · refine ⟨⟨maxOps, maxBytes, hpolicy'⟩, c, hgroup'.trans hgroup, hreceivers, by omega, fun seq hseq => ?_⟩
    exact ⟨by have := (hwaiting seq hseq).1; omega, Or.inr hops⟩
  · rw [hgroup] at hgroup'
    refine ⟨⟨maxOps, maxBytes, hpolicy'⟩, c.send wal.nextSeq, hgroup', ?_⟩
    rw [send, hnext]
    split
    · have hempty : waiting = [] := length_eq_zero_iff.mp (by omega)
      exact ⟨hreceivers, by omega, by simp [hempty]⟩
    · refine ⟨hreceivers, lt_succ_self _, fun seq hseq => ?_⟩
      have hlt := (hwaiting seq hseq).1
      exact ⟨lt_succ_of_lt hlt, Or.inl (le_of_lt hlt)⟩

omit h hheld in
theorem Serves.durableReceiver (h : Serves wal waiting held) :
    Serves wal.durableReceiver waiting (held + 1) := by
  obtain ⟨c, hgroup, hreceivers, hvalue, hwaiting⟩ := h.channel
  exact ⟨h.policy, c.subscribe, by simp [WriteAheadLog.durableReceiver, hgroup], congrArg (· + 1) hreceivers, hvalue,
    hwaiting⟩

omit h hheld in
theorem Serves.unsubscribe (h : Serves wal waiting (held + 1)) :
    Serves { wal with group := wal.group.map (·.unsubscribe) } waiting held := by
  obtain ⟨c, hgroup, hreceivers, hvalue, hwaiting⟩ := h.channel
  refine ⟨h.policy, c.unsubscribe, by simp [hgroup], ?_, hvalue, hwaiting⟩
  simp [WatchChannel.unsubscribe, hreceivers]

theorem Serves.flusherTick : Serves wal.flusherTick waiting held := by
  unfold WriteAheadLog.flusherTick
  split
  · obtain ⟨c, hgroup, hreceivers, hvalue, hwaiting⟩ := h.channel
    have hgroup' : (wal.sync.publish wal.lastSeq).group = some (c.send wal.lastSeq) := by
      simp [publish, sync, flush, resetCounters, hgroup]
    refine ⟨h.policy, c.send wal.lastSeq, hgroup', ?_⟩
    rw [send]
    split
    · have hempty : waiting = [] := length_eq_zero_iff.mp (by omega)
      exact ⟨hreceivers, hvalue, by simp [hempty]⟩
    · have hlast : wal.lastSeq = wal.nextSeq - 1 := rfl
      refine ⟨hreceivers, ?_, fun seq hseq => ?_⟩
      · change wal.lastSeq < wal.nextSeq
        omega
      · have hlt := (hwaiting seq hseq).1
        exact ⟨hlt, Or.inl (by change seq ≤ wal.lastSeq; omega)⟩
  · exact h

theorem Serves.waitFor (operation : WalOperation)
    (hok : wal.flushesInline S cipher operation = true → ∃ c ∈ wal.group, 0 < c.receivers) :
    Serves (wal.append S cipher operation).1 (waiting ++ [wal.nextSeq]) held := by
  obtain ⟨maxOps, maxBytes, hpolicy⟩ := h.policy
  obtain ⟨c, hgroup, -, -, -⟩ := h.channel
  obtain ⟨hpolicy', c', hgroup', hreceivers', hvalue', hwaiting'⟩ :=
    h.append S cipher hheld operation
  refine ⟨hpolicy', c', hgroup', hreceivers', hvalue', fun seq hseq => ?_⟩
  obtain hseq | hseq := mem_append.mp hseq
  · exact hwaiting' seq hseq
  rw [mem_singleton] at hseq
  obtain ⟨-, hnext, ⟨-, -, hops⟩ | ⟨hinline, hsent, -⟩⟩ := append_channel S cipher hpolicy operation
  · exact ⟨by omega, Or.inr hops⟩
  · obtain ⟨c'', hc'', hpos⟩ := hok hinline
    have hc : c'' = c := some.inj (hc''.symm.trans hgroup)
    rw [hgroup, map_some, hgroup', send, if_neg (by rw [← hc]; omega)] at hsent
    have hvalue := congrArg value (some.inj hsent)
    exact ⟨by omega, Or.inl (by rw [hseq, hvalue])⟩

end

theorem step_inv (s : CommitState) (label : CommitStep) (h : s.Inv)
    (hok : s.StepOk S cipher label) :
    (s.step S cipher label).Inv := by
  have hheld : s.waiting.length ≤ s.waiting.length + s.idle := le_add_right _ _
  cases label with
  | commit operation =>
    have hcommit := (Serves.waitFor S cipher h hheld operation hok).durableReceiver
    have hcount : (s.waiting ++ [s.wal.nextSeq]).length + s.idle = s.waiting.length + s.idle + 1 := by
      rw [length_append, length_singleton]
      omega
    rw [← hcount] at hcommit
    exact hcommit
  | commitRelaxed operation => exact (Serves.append S cipher h hheld operation).durableReceiver
  | append operation => exact Serves.append S cipher h hheld operation
  | flusherTick => exact Serves.flusherTick h hheld
  | finish seq =>
    simp only [step]
    split
    · next hfinish =>
      obtain ⟨c, hgroup, hreceivers, hvalue, hwaiting⟩ := h.channel
      refine ⟨h.policy, c, hgroup, ?_, hvalue, fun other hother => hwaiting other (mem_of_mem_erase hother)⟩
      have hlength := length_erase_of_mem hfinish.1
      have hpos := length_pos_iff.mpr (ne_nil_of_mem hfinish.1)
      change c.receivers = (s.waiting.erase seq).length + (s.idle + 1)
      omega
    · exact h
  | dropReceiver =>
    simp only [step]
    split
    · next hidle =>
      have hcount : s.waiting.length + s.idle = s.waiting.length + (s.idle - 1) + 1 := by omega
      rw [Inv, hcount] at h
      exact h.unsubscribe
    · exact h

/-- A committer that flushes while nobody is subscribed waits for a number that no pending flush
will publish. -/
theorem step_breaks (s : CommitState) (label : CommitStep) (h : s.Inv)
    (hnot : ¬ s.StepOk S cipher label) :
    ¬ (s.step S cipher label).NoLostWakeup := by
  cases label with
  | commit operation =>
    obtain ⟨hinline, hnobody⟩ := Classical.not_imp.mp hnot
    obtain ⟨maxOps, maxBytes, hpolicy⟩ := h.policy
    obtain ⟨c, hgroup, -, hvalue, -⟩ := h.channel
    have hzero : c.receivers = 0 := by
      by_contra hpos
      exact hnobody ⟨c, hgroup, pos_of_ne_zero hpos⟩
    obtain ⟨-, -, ⟨hfalse, -, -⟩ | ⟨-, hsent, hops⟩⟩ := append_channel S cipher hpolicy operation
    · rw [hfalse] at hinline
      cases hinline
    rw [hgroup, map_some, send, if_pos hzero] at hsent
    have hmark : (s.wal.append S cipher operation).1.durableReceiver.watermark = c.value := by
      simp [durableReceiver, watermark, hsent, subscribe]
    intro hall
    obtain hread | ⟨hpending, -⟩ := hall s.wal.nextSeq (mem_append_right _ mem_cons_self)
    · have hread' : s.wal.nextSeq ≤ (s.wal.append S cipher operation).1.durableReceiver.watermark := hread
      omega
    · have hpending' : 0 < (s.wal.append S cipher operation).1.opsSinceSync := hpending
      omega
  | commitRelaxed | append | flusherTick | finish | dropReceiver => exact absurd trivial hnot

theorem init_inv (maxOps : Nat) (maxBytes : Option Nat) (file : List UInt8) (fileGeneration : Nat) :
    (init S cipher maxOps maxBytes file fileGeneration).Inv where
  policy := ⟨maxOps, maxBytes, rfl⟩
  channel := ⟨.new, rfl, rfl, succ_pos _, fun _ hseq => nomatch hseq⟩

/-- **No lost wakeup.** Along a run of committers and flushes nobody waits in vain exactly when no
committer that waits flushes inside its own `append` while nobody is subscribed. -/
theorem noLostWakeup_iff_along (maxOps : Nat) (maxBytes : Option Nat) (file : List UInt8)
    (fileGeneration : Nat) (steps : List CommitStep) :
    (∀ k, (run (step S cipher) (init S cipher maxOps maxBytes file fileGeneration) (steps.take k)).NoLostWakeup) ↔
      Along (step S cipher) (StepOk S cipher) (init S cipher maxOps maxBytes file fileGeneration) steps :=
  forall_take_iff_along (step_inv S cipher) (fun _ h => h.noLostWakeup) (step_breaks S cipher)
    (init_inv S cipher maxOps maxBytes file fileGeneration) steps

/-- With a budget of two records, a relaxed commit and one that waits: the inline flush of the
second publishes into the void, and nothing is left to flush. -/
theorem lost_wakeup :
    let s := run (step flagLibraries none) (init flagLibraries none 2 none [] 0)
      [.commitRelaxed flagBatch, .dropReceiver, .commit flagBatch]
    s.waiting = [2] ∧ s.wal.watermark = 0 ∧ s.wal.opsSinceSync = 0 ∧ ¬ s.NoLostWakeup := by
  refine ⟨by decide +kernel, by decide +kernel, by decide +kernel, fun hall => ?_⟩
  obtain hread | ⟨hpending, -⟩ := hall 2 (by decide +kernel)
  · exact absurd hread (by decide +kernel)
  · exact absurd hpending (by decide +kernel)

end CommitState
end Nexora

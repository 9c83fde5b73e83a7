import Nexora.Wal.GroupCommit
import Nexora.Wal.TornTail

/-!
# What a crash leaves of the log

A log in use holds the operations since its last truncation, of which the first few are known to be
synced (`Holds`). A crash cuts the file anywhere behind the synced bytes: what is left are some of
the records, the synced ones among them, and a torn piece.
-/

namespace Nexora
open Lib List

/-- The file consists of the records of these operations, the first `count` of which are synced. -/
structure WriteAheadLog.Holds (S : Serde) (cipher : Option Cipher) (ops : List WalOperation)
    (count : Nat) (w : WriteAheadLog) : Prop
    extends HoldsRecords S cipher w.fileGeneration ops w.file where
  nextSeq : w.nextSeq = ops.length + 1
  count_le : count ≤ ops.length
  synced : w.synced = ((recordsFrom 1 (ops.take count)).flatMap (recordFrame S cipher w.fileGeneration)).length

namespace WriteAheadLog
variable {S : Serde} {cipher : Option Cipher} {ops : List WalOperation} {count : Nat}
    {w : WriteAheadLog}

/-! ### Operations that leave the records -/

section
variable (h : w.Holds S cipher ops count)
include h

theorem Holds.sync : w.sync.Holds S cipher ops ops.length :=
  ⟨h.toHoldsRecords, h.nextSeq, le_rfl, by rw [take_length]; exact congrArg length h.file⟩

theorem Holds.setGroup (group : Option WatchChannel) :
    Holds S cipher ops count { w with group := group } :=
  ⟨h.toHoldsRecords, h.nextSeq, h.count_le, h.synced⟩

theorem Holds.flusherTick : w.flusherTick.Holds S cipher ops ops.length ∨ w.flusherTick = w := by
  unfold WriteAheadLog.flusherTick
  split
  · exact Or.inl (h.sync.setGroup _)
  · exact Or.inr rfl

end
section
variable (w : WriteAheadLog)

theorem Holds.truncate : w.truncate.Holds S cipher [] 0 :=
  ⟨⟨rfl, fun _ hrecord => absurd hrecord not_mem_nil⟩, rfl, le_rfl, rfl⟩

theorem holds_openWithOptions_nil (policy : WalSyncPolicy) (fileGeneration : Nat) :
    (openWithOptions S cipher policy [] fileGeneration).Holds S cipher [] 0 := by
  exact ⟨⟨congrArg Prod.snd (replayDir_nil S cipher), fun _ hrecord => absurd hrecord not_mem_nil⟩,
    openWithOptions_nil_nextSeq S cipher fileGeneration policy, le_rfl, rfl⟩

/-! ### Appending -/

theorem applyPolicy_syncPolicy (seq : Nat) :
    (w.applyPolicy seq).syncPolicy = w.syncPolicy ∧ (w.applyPolicy seq).group.isSome = w.group.isSome := by
  unfold applyPolicy
  split
  · exact ⟨rfl, rfl⟩
  · split <;> exact ⟨rfl, rfl⟩
  · exact ⟨rfl, rfl⟩
  · split
    · exact ⟨rfl, Option.isSome_map⟩
    · exact ⟨rfl, rfl⟩

theorem append_syncPolicy (operation : WalOperation) :
    (w.append S cipher operation).1.syncPolicy = w.syncPolicy ∧
      (w.append S cipher operation).1.group.isSome = w.group.isSome :=
  applyPolicy_syncPolicy _ _

theorem append_synced (operation : WalOperation) :
    (w.append S cipher operation).1.synced = (w.append S cipher operation).1.file.length ∨
      ((w.append S cipher operation).1.synced = w.synced ∧ (w.append S cipher operation).1.watermark = w.watermark ∧
        w.syncPolicy ≠ .always ∧ w.flushesInline S cipher operation = false) := by
  cases hpolicy : w.syncPolicy with
  | always =>
    have hwritten : (w.write S cipher operation).syncPolicy = .always := hpolicy
    left
    simp only [append, applyPolicy, hwritten]
    rfl
  | everyN n =>
    have hwritten : (w.write S cipher operation).syncPolicy = .everyN n := hpolicy
    simp only [append, applyPolicy, hwritten, flushesInline, hpolicy]
    split
    · exact Or.inl rfl
    · exact Or.inr ⟨rfl, rfl, by rintro ⟨⟩, trivial⟩
  | never =>
    have hwritten : (w.write S cipher operation).syncPolicy = .never := hpolicy
    simp only [append, applyPolicy, hwritten, flushesInline, hpolicy]
    exact Or.inr ⟨rfl, rfl, by rintro ⟨⟩, trivial⟩
  | group maxOps maxBytes =>
    by_cases hinline : w.flushesInline S cipher operation = true
    · exact Or.inl ((w.append_group S cipher operation hpolicy).2.2.1 hinline)
    · rw [append_of_group S cipher hpolicy, if_neg hinline]
      exact Or.inr ⟨rfl, rfl, by rintro ⟨⟩, Bool.eq_false_iff.mpr hinline⟩

end

theorem Holds.append (h : w.Holds S cipher ops count) {operation : WalOperation}
    (hreadable : Readable S cipher w.fileGeneration ⟨w.nextSeq, operation, w.nextSeq⟩) :
    ∃ count', (w.append S cipher operation).1.Holds S cipher (ops ++ [operation]) count' ∧
      (count' = ops.length + 1 ∨ (count' = count ∧ (w.append S cipher operation).1.watermark = w.watermark ∧
        w.syncPolicy ≠ .always ∧ w.flushesInline S cipher operation = false)) := by
  have hrecords := h.toHoldsRecords.append h.nextSeq hreadable
  have hnextSeq : (w.append S cipher operation).1.nextSeq = (ops ++ [operation]).length + 1 := by
    simp [append_nextSeq, h.nextSeq]
  have hlength : (ops ++ [operation]).length = ops.length + 1 := by rw [length_append, length_singleton]
  have hcount := h.count_le
  obtain hsynced | ⟨hsynced, hrest⟩ := w.append_synced operation
  · refine ⟨ops.length + 1, ⟨hrecords, hnextSeq, hlength.ge, ?_⟩, Or.inl rfl⟩
    rw [hsynced, ← hlength, take_length]
    exact congrArg length hrecords.file
  · refine ⟨count, ⟨hrecords, hnextSeq, by omega, ?_⟩, Or.inr ⟨rfl, hrest⟩⟩
    rw [hsynced, h.synced, take_append_of_le_length h.count_le, append_fileGeneration]

/-! ### Crashing -/

/-- **What a crash leaves.** However much of the unsynced part is lost, the synced records are
there, some of the others may be, and what stands behind them is no record. -/
theorem Holds.take_file (h : w.Holds S cipher ops count) (cut : Nat) :
    ∃ kept tail, count ≤ kept ∧ kept ≤ ops.length ∧ (walReader S cipher).Stops tail ∧
      w.file.take (max cut w.synced) =
        (recordsFrom 1 (ops.take kept)).flatMap (recordFrame S cipher w.fileGeneration) ++ tail := by
  set bytes := max cut w.synced with hbytes
  have hreads : ∀ record ∈ recordsFrom 1 ops, (walReader S cipher).Reads (recordFrame S cipher w.fileGeneration) record :=
    fun record hrecord => (h.readable record hrecord).reads
  refine ⟨(survivors S cipher w.fileGeneration ops bytes).length, tornBytes S cipher w.fileGeneration ops bytes, ?_, ?_,
    (walReader S cipher).stops_torn bytes _ hreads, ?_⟩
  · refine Reader.le_length_complete (by rw [length_recordsFrom]; exact h.count_le) ?_
    rw [take_recordsFrom, ← h.synced]
    exact le_max_right _ _
  · rw [← length_recordsFrom 1 ops]
    exact (Reader.complete_isPrefix _ _).length_le
  · rw [← survivors_eq_recordsFrom, h.file]
    exact (Reader.take_flatMap (recordFrame S cipher w.fileGeneration) bytes _).1

end WriteAheadLog
end Nexora

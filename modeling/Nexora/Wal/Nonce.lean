import Nexora.Wal.TornTail

/-!
# Nonces of an encrypted log

The nonce of a record is the file generation and its sequence number. `truncate` stores the next
generation after it has removed the log, and `open` takes the next number from the records it can
read. A crash that loses a record, or falls in between, makes a later record use an earlier nonce.
-/

namespace Nexora
open Lib List WriteAheadLog Nat

structure Encryption where
  fileGeneration : Nat
  seqNo : Nat
  plaintext : List UInt8
deriving DecidableEq

def Encryption.nonce (e : Encryption) : List UInt8 := nonceBytes e.fileGeneration e.seqNo

/-- Where the process that owns the log stands. While it is closed there is only the file; a
truncation is at its first or second point between two file operations. -/
inductive LogProcess where
  | closed (file : List UInt8)
  | opened (w : WriteAheadLog)
  | removed (w : WriteAheadLog)
  | bumped (w : WriteAheadLog)

/-- What a crash leaves of the log file: at least what was synced. -/
def LogProcess.survivingFile (cut : Nat) : LogProcess → List UInt8
  | .closed file => file
  | .opened w => w.file.take (max cut w.synced)
  | .removed w => w.file.take (max cut w.synced)
  | .bumped w => w.file.take (max cut w.synced)

/-- The directory and its process, with all encryptions that were ever made in it. The stored
generation is renamed into place without a sync, so that a crash may bring back the one before. -/
structure NonceState where
  process : LogProcess
  generation : Nat
  syncedGeneration : Nat
  encryptions : List Encryption

inductive NonceStep where
  | openLog (policy : WalSyncPolicy)
  | append (operation : WalOperation)
  | sync
  | removeFile
  | writeGeneration
  | reopenFile
  | syncGeneration
  | crash (cut : Nat) (generationKept : Bool)

namespace NonceState
variable (S : Serde) (cipher : Cipher)

def step (s : NonceState) : NonceStep → NonceState
  | .openLog policy =>
      match s.process with
      | .closed file =>
          { s with process := .opened (.openWithOptions S (some cipher) policy file s.generation) }
      | _ => s
  | .append operation =>
      match s.process with
      | .opened w =>
          { s with
            process := .opened (w.append S (some cipher) operation).1
            encryptions := s.encryptions ++
              [⟨w.fileGeneration, w.nextSeq, encodeWalRecordFb S ⟨w.nextSeq, operation, w.nextSeq⟩⟩] }
      | _ => s
  | .sync =>
      match s.process with
      | .opened w => { s with process := .opened w.sync }
      | _ => s
  | .removeFile =>
      match s.process with
      | .opened w => { s with process := .removed w.removeFile }
      | _ => s
  | .writeGeneration =>
      match s.process with
      | .removed w => { s with process := .bumped w.bumpGeneration, generation := w.bumpGeneration.fileGeneration }
      | _ => s
  | .reopenFile =>
      match s.process with
      | .bumped w => { s with process := .opened w.reopenFile }
      | _ => s
  | .syncGeneration => { s with syncedGeneration := s.generation }
  | .crash cut generationKept =>
      let generation := if generationKept then s.generation else s.syncedGeneration
      { s with process := .closed (s.process.survivingFile cut), generation := generation, syncedGeneration := generation }

def init : NonceState := ⟨.closed [], 0, 0, []⟩

/-- No two records with different plaintexts are encrypted under one nonce. -/
def NonceUnique (s : NonceState) : Prop :=
  ∀ a ∈ s.encryptions, ∀ b ∈ s.encryptions, a.nonce = b.nonce → a.plaintext = b.plaintext

/-- What the steps of a run must meet. Appended records must be readable, and their numbers must fit
into 64 bits; the generation must not wrap; a crash must leave the whole log and the stored
generation, and must not fall between the removal of a log and the next generation when that log
held records. -/
def StepOk (s : NonceState) : NonceStep → Prop
  | .append operation => ∀ w, s.process = .opened w → w.nextSeq < 2 ^ 64 ∧
      Readable S (some cipher) w.fileGeneration ⟨w.nextSeq, operation, w.nextSeq⟩
  | .writeGeneration => ∀ w, s.process = .removed w → w.fileGeneration + 1 < 2 ^ 32
  | .crash cut generationKept => (generationKept = true ∨ s.syncedGeneration = s.generation) ∧
      (∀ w, s.process = .opened w → w.file.length ≤ max cut w.synced) ∧
      (∀ w, s.process = .removed w → ∀ e ∈ s.encryptions, e.fileGeneration ≠ s.generation)
  | _ => True

/-! ### The invariant -/

def UsedBelow (encryptions : List Encryption) (fileGeneration nextSeq : Nat) : Prop :=
  ∀ e ∈ encryptions, e.fileGeneration < fileGeneration ∨ (e.fileGeneration = fileGeneration ∧ e.seqNo < nextSeq)

/-- What holds at each point of the process: the next nonce to be used is above every used one. -/
def ProcessInv (generation : Nat) (encryptions : List Encryption) : LogProcess → Prop
  | .closed file => ∃ ops, HoldsRecords S (some cipher) generation ops file ∧
      UsedBelow encryptions generation (ops.length + 1)
  | .opened w => ∃ ops, HoldsRecords S (some cipher) generation ops w.file ∧
      w.fileGeneration = generation ∧
      w.nextSeq = ops.length + 1 ∧ UsedBelow encryptions generation (ops.length + 1)
  | .removed w => w.file = [] ∧ w.fileGeneration = generation ∧ ∀ e ∈ encryptions, e.fileGeneration ≤ generation
  | .bumped w => w.file = [] ∧ w.fileGeneration = generation ∧ ∀ e ∈ encryptions, e.fileGeneration < generation

structure Inv (s : NonceState) : Prop where
  unique : s.NonceUnique
  fits : ∀ e ∈ s.encryptions, e.fileGeneration < 2 ^ 32 ∧ e.seqNo < 2 ^ 64
  generation_lt : s.generation < 2 ^ 32
  process : ProcessInv S cipher s.generation s.encryptions s.process

theorem nonceBytes_inj {g g' n n' : Nat} (hg : g < 2 ^ 32) (hg' : g' < 2 ^ 32) (hn : n < 2 ^ 64)
    (hn' : n' < 2 ^ 64) (h : nonceBytes g n = nonceBytes g' n') : g = g' ∧ n = n' := by
  obtain ⟨hgen, hseq⟩ := append_inj h (by rw [length_toBe, length_toBe])
  have h32 : 2 ^ 32 = 256 ^ 4 := by decide
  have h64 : 2 ^ 64 = 256 ^ 8 := by decide
  rw [h32] at hg hg'
  rw [h64] at hn hn'
  exact ⟨toBe_injOn hg hg' hgen, toBe_injOn hn hn' hseq⟩

section
variable {S cipher}

theorem NonceUnique.snoc {s : NonceState} (hunique : s.NonceUnique)
    (hfits : ∀ e ∈ s.encryptions, e.fileGeneration < 2 ^ 32 ∧ e.seqNo < 2 ^ 64) {new : Encryption}
    (hgen : new.fileGeneration < 2 ^ 32) (hseq : new.seqNo < 2 ^ 64)
    (hbelow : UsedBelow s.encryptions new.fileGeneration new.seqNo) (process : LogProcess) :
    NonceUnique { s with process := process, encryptions := s.encryptions ++ [new] } := by
  have hfresh : ∀ e ∈ s.encryptions, e.nonce ≠ new.nonce := by
    intro e he hnonce
    obtain ⟨hsame, hsame'⟩ := nonceBytes_inj (hfits e he).1 hgen (hfits e he).2 hseq hnonce
    obtain hlt | ⟨-, hlt⟩ := hbelow e he <;> omega
  intro a ha b hb hnonce
  obtain ha | ha := mem_append.mp ha <;> obtain hb | hb := mem_append.mp hb
  · exact hunique a ha b hb hnonce
  · exact absurd (hnonce.trans (congrArg _ (mem_singleton.mp hb))) (hfresh a ha)
  · exact absurd (hnonce.symm.trans (congrArg _ (mem_singleton.mp ha))) (hfresh b hb)
  · rw [mem_singleton.mp ha, mem_singleton.mp hb]

theorem UsedBelow.snoc {encryptions : List Encryption} {fileGeneration nextSeq : Nat}
    (h : UsedBelow encryptions fileGeneration nextSeq) (plaintext : List UInt8) :
    UsedBelow (encryptions ++ [⟨fileGeneration, nextSeq, plaintext⟩]) fileGeneration (nextSeq + 1) := by
  intro e he
  obtain he | he := mem_append.mp he
  · obtain hlt | ⟨heq, hlt⟩ := h e he
    · exact Or.inl hlt
    · exact Or.inr ⟨heq, lt_succ_of_lt hlt⟩
  · rw [mem_singleton.mp he]
    exact Or.inr ⟨rfl, lt_succ_self _⟩

end
variable {s : NonceState}

theorem step_openLog_inv (h : s.Inv S cipher) (policy : WalSyncPolicy) :
    (s.step S cipher (.openLog policy)).Inv S cipher := by
  match hp : s.process with
  | .opened _ | .removed _ | .bumped _ => simpa only [step, hp] using h
  | .closed file =>
    have hprocess := h.process
    rw [hp] at hprocess
    obtain ⟨ops, ⟨hfile, hreadable⟩, hbelow⟩ := hprocess
    have hopen := openWithOptions_frames policy ops hreadable (walReader S (some cipher)).stops_nil
    rw [append_nil, ← hfile] at hopen
    simp only [step, hp]
    refine ⟨h.unique, h.fits, h.generation_lt, ops, ⟨?_, hreadable⟩, rfl, hopen.1, hbelow⟩
    rw [hopen.2, hfile]
    exact append_nil _

theorem step_append_inv (h : s.Inv S cipher) (operation : WalOperation)
    (hok : s.StepOk S cipher (.append operation)) :
    (s.step S cipher (.append operation)).Inv S cipher := by
  match hp : s.process with
  | .closed _ | .removed _ | .bumped _ => simpa only [step, hp] using h
  | .opened w =>
    have hprocess := h.process
    rw [hp] at hprocess
    obtain ⟨ops, hholds, hgen, hnext, hbelow⟩ := hprocess
    obtain ⟨hseq, hreadable⟩ := hok w hp
    have hlt : w.fileGeneration < 2 ^ 32 := hgen ▸ h.generation_lt
    simp only [step, hp]
    rw [← hnext, ← hgen] at hbelow
    have hgeneration := (w.append_fileGeneration S (some cipher) operation).trans hgen
    rw [← hgen] at hholds
    refine ⟨h.unique.snoc h.fits hlt hseq hbelow _, ?_, h.generation_lt, ops ++ [operation],
      hgeneration ▸ hholds.append hnext hreadable, hgeneration, ?_, ?_⟩
    · intro e he
      obtain he | he := mem_append.mp he
      · exact h.fits e he
      · rw [mem_singleton.mp he]
        exact ⟨hlt, hseq⟩
    · rw [append_nextSeq, hnext, length_append, length_singleton]
    · rw [length_append, length_singleton, ← hnext, ← hgen]
      exact hbelow.snoc _

theorem step_sync_inv (h : s.Inv S cipher) : (s.step S cipher .sync).Inv S cipher := by
  match hp : s.process with
  | .closed _ | .removed _ | .bumped _ => simpa only [step, hp] using h
  | .opened w =>
    have hprocess := h.process
    rw [hp] at hprocess
    simp only [step, hp]
    exact ⟨h.unique, h.fits, h.generation_lt, hprocess⟩

theorem step_removeFile_inv (h : s.Inv S cipher) : (s.step S cipher .removeFile).Inv S cipher := by
  match hp : s.process with
  | .closed _ | .removed _ | .bumped _ => simpa only [step, hp] using h
  | .opened w =>
    have hprocess := h.process
    rw [hp] at hprocess
    obtain ⟨ops, -, hgen, -, hbelow⟩ := hprocess
    simp only [step, hp]
    refine ⟨h.unique, h.fits, h.generation_lt, rfl, hgen, ?_⟩
    intro e he
    obtain hlt | ⟨heq, -⟩ := hbelow e he
    · exact le_of_lt hlt
    · exact le_of_eq heq

theorem step_writeGeneration_inv (h : s.Inv S cipher) (hok : s.StepOk S cipher .writeGeneration) :
    (s.step S cipher .writeGeneration).Inv S cipher := by
  match hp : s.process with
  | .closed _ | .opened _ | .bumped _ => simpa only [step, hp] using h
  | .removed w =>
    have hprocess := h.process
    rw [hp] at hprocess
    obtain ⟨hfile, hgen, hle⟩ := hprocess
    have hlt := hok w hp
    have hbump : w.bumpGeneration.fileGeneration = w.fileGeneration + 1 := mod_eq_of_lt hlt
    simp only [step, hp]
    refine ⟨h.unique, h.fits, hbump ▸ hlt, hfile, rfl, ?_⟩
    intro e he
    rw [hbump, hgen]
    exact lt_succ_of_le (hle e he)

theorem step_reopenFile_inv (h : s.Inv S cipher) : (s.step S cipher .reopenFile).Inv S cipher := by
  match hp : s.process with
  | .closed _ | .opened _ | .removed _ => simpa only [step, hp] using h
  | .bumped w =>
    have hprocess := h.process
    rw [hp] at hprocess
    obtain ⟨hfile, hgen, hlt⟩ := hprocess
    simp only [step, hp]
    exact ⟨h.unique, h.fits, h.generation_lt, [], ⟨hfile, by simp [recordsFrom]⟩, hgen, rfl,
      fun e he => Or.inl (hlt e he)⟩

theorem step_crash_inv (h : s.Inv S cipher) (cut : Nat) (generationKept : Bool)
    (hok : s.StepOk S cipher (.crash cut generationKept)) :
    (s.step S cipher (.crash cut generationKept)).Inv S cipher := by
  obtain ⟨hkept, hwhole, hbetween⟩ := hok
  have hgeneration :
      (if generationKept then s.generation else s.syncedGeneration) = s.generation := by
    obtain rfl | hsynced := hkept
    · rfl
    · rw [hsynced, ite_self]
  have hclosed : ProcessInv S cipher s.generation s.encryptions (.closed (s.process.survivingFile cut)) := by
    have hprocess := h.process
    match hp : s.process with
    | .closed file => exact hp ▸ hprocess
    | .opened w =>
      rw [hp] at hprocess
      obtain ⟨ops, hholds, -, -, hbelow⟩ := hprocess
      rw [LogProcess.survivingFile, take_of_length_le (hwhole w hp)]
      exact ⟨ops, hholds, hbelow⟩
    | .removed w =>
      rw [hp] at hprocess
      obtain ⟨hfile, -, hle⟩ := hprocess
      rw [LogProcess.survivingFile, hfile, take_nil]
      exact ⟨[], ⟨rfl, by simp [recordsFrom]⟩,
        fun e he => Or.inl (lt_of_le_of_ne (hle e he) (hbetween w hp e he))⟩
    | .bumped w =>
      rw [hp] at hprocess
      obtain ⟨hfile, -, hlt⟩ := hprocess
      rw [LogProcess.survivingFile, hfile, take_nil]
      exact ⟨[], ⟨rfl, by simp [recordsFrom]⟩, fun e he => Or.inl (hlt e he)⟩
  simp only [step, hgeneration]
  exact ⟨h.unique, h.fits, h.generation_lt, hclosed⟩

theorem step_inv {label : NonceStep} (h : s.Inv S cipher) (hok : s.StepOk S cipher label) :
    (s.step S cipher label).Inv S cipher := by
  cases label with
  | openLog policy => exact step_openLog_inv S cipher h policy
  | append operation => exact step_append_inv S cipher h operation hok
  | sync => exact step_sync_inv S cipher h
  | removeFile => exact step_removeFile_inv S cipher h
  | writeGeneration => exact step_writeGeneration_inv S cipher h hok
  | reopenFile => exact step_reopenFile_inv S cipher h
  | syncGeneration => exact ⟨h.unique, h.fits, h.generation_lt, h.process⟩
  | crash cut generationKept => exact step_crash_inv S cipher h cut generationKept hok

theorem init_inv : init.Inv S cipher where
  unique := by simp [NonceUnique, init]
  fits := by simp [init]
  generation_lt := by decide
  process := ⟨[], ⟨rfl, by simp [recordsFrom]⟩, by simp [UsedBelow, init]⟩

/-- **Nonce uniqueness.** In every run whose steps all meet the condition no two plaintexts share a
nonce. -/
theorem nonceUnique_of_along {labels : List NonceStep}
    (h : Along (step S cipher) (StepOk S cipher) init labels) :
    (run (step S cipher) init labels).NonceUnique :=
  (run_invariant (fun _ _ hinv hok => step_inv S cipher hinv hok) (init_inv S cipher) h).unique

end NonceState

/-! ### Runs of a cipher that only adds a tag -/

/-- Stands for AES-GCM: sixteen more bytes, and decryption undoes encryption. -/
def tagCipher : Cipher where
  encrypt _ plaintext := plaintext ++ List.replicate 16 0
  decrypt _ encrypted := some (encrypted.take (encrypted.length - 16))

theorem decryptPayload_tagCipher (plaintext : List UInt8) (fileGeneration seqNo : Nat) :
    decryptPayload tagCipher (encryptPayload tagCipher plaintext fileGeneration seqNo) = .ok plaintext := by
  have hnonce : (nonceBytes fileGeneration seqNo).length = 12 := by
    simp [nonceBytes, length_toBe]
  have hlong : ¬ (encryptPayload tagCipher plaintext fileGeneration seqNo).length < 12 + 16 := by
    simp [encryptPayload, tagCipher, hnonce]
    omega
  have hdrop : (encryptPayload tagCipher plaintext fileGeneration seqNo).drop 12 =
      plaintext ++ replicate 16 0 := by
    rw [encryptPayload, drop_append_of_le_length hnonce.ge, ← hnonce, drop_length]
    rfl
  rw [decryptPayload, if_neg hlong, hdrop]
  simp [tagCipher]

theorem flagBatch_readable_tagCipher (fileGeneration : Nat) :
    Readable flagLibraries (some tagCipher) fileGeneration ⟨1, flagBatch, 1⟩ := by
  refine ⟨?_, ?_⟩
  · simp [storedPayload, encryptPayload, tagCipher, nonceBytes, length_toBe, length_encodeWalRecordFb_flagBatch,
      maxRecordLen]
  · simp [decodeFrame, openPayload, storedPayload, length_encodeWalRecordFb_flagBatch, decryptPayload_tagCipher,
      decodeWalRecordAuto_flagBatch]

namespace NonceState

/-- Two records before and after a truncation, then a crash and a new start. -/
def truncateRun : List NonceStep :=
  [.openLog .always, .append flagBatch, .removeFile, .writeGeneration, .reopenFile, .append flagBatch, .crash 0 true,
    .openLog .always]

theorem nonceUnique_truncateRun :
    (run (step flagLibraries tagCipher) init truncateRun).NonceUnique := by
  refine nonceUnique_of_along flagLibraries tagCipher ⟨trivial, ?_, trivial, ?_, trivial, ?_, ?_, trivial, trivial⟩
  · intro w hw
    obtain rfl := LogProcess.opened.inj hw
    rw [openWithOptions_nil_nextSeq]
    exact ⟨by decide, flagBatch_readable_tagCipher 0⟩
  · intro w hw
    obtain rfl := LogProcess.removed.inj hw
    decide
  · intro w hw
    obtain rfl := LogProcess.opened.inj hw
    exact ⟨by decide, flagBatch_readable_tagCipher 1⟩
  · refine ⟨Or.inl rfl, ?_, ?_⟩
    · intro w hw
      obtain rfl := LogProcess.opened.inj hw
      exact le_max_right _ _
    · intro w hw
      cases hw

/-- The log is removed, the process stops before it has stored the next generation, and the first
record of the new log is encrypted under the nonce of the first record of the old one. -/
def crashInTruncateRun : List NonceStep :=
  [.openLog .always, .append flagBatch, .removeFile, .crash 0 true, .openLog .always,
    .append (propertyBatch (.boolean false))]

theorem not_nonceUnique_crashInTruncateRun :
    ¬ (run (step flagLibraries tagCipher) init crashInTruncateRun).NonceUnique := by
  intro h
  have hrun : (run (step flagLibraries tagCipher) init crashInTruncateRun).encryptions =
      [⟨0, 1, encodeWalRecordFb flagLibraries ⟨1, flagBatch, 1⟩⟩,
        ⟨0, 1, encodeWalRecordFb flagLibraries ⟨1, propertyBatch (.boolean false), 1⟩⟩] := by
    simp only [crashInTruncateRun, run_cons, run_nil, step, init, LogProcess.survivingFile, removeFile,
      take_nil, openWithOptions_nil_nextSeq]
    rfl
  rw [NonceUnique, hrun] at h
  have hsame := h _ mem_cons_self _ (mem_cons_of_mem _ mem_cons_self) rfl
  exact absurd hsame (by decide +kernel)

end NonceState
end Nexora

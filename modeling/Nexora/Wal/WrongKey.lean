import Nexora.Wal.Nonce

/-!
# A log under the wrong key

The replay takes a record that it cannot decrypt or decode for a damaged one, and cuts the file
before it. What the file keeps is therefore all that is framed correctly only if the key, or its
absence, fits every one of these records.
-/

namespace Nexora
open Lib List

/-- The frames at the beginning of a file, up to the first one that is not whole or whose checksum
is wrong. -/
def frames : Nat → List UInt8 → List RawFrame × List UInt8
  | 0, bytes => ([], bytes)
  | fuel + 1, bytes =>
    match readFrame bytes with
    | .ok (f, rest) => (f :: (frames fuel rest).1, (frames fuel rest).2)
    | .error _ => ([], bytes)

def framesEnd (file : List UInt8) : Nat := file.length - (frames (file.length + 1) file).2.length

theorem length_frames_le (fuel : Nat) (bytes : List UInt8) :
    (frames fuel bytes).2.length ≤ bytes.length := by
  induction fuel generalizing bytes with
  | zero => exact le_rfl
  | succ fuel ih =>
    rw [frames]
    split
    · next f rest hread =>
      have hlength := (length_of_readFrame hread).2
      exact (ih rest).trans (by omega)
    · exact le_rfl

variable (S : Serde) (cipher : Option Cipher)

theorem read_walReader_of_error {bytes : List UInt8} {e : WalReadError}
    (h : readFrame bytes = .error e) :
    (walReader S cipher).Stops bytes := by
  intro record rest hread
  obtain ⟨f, hf, -⟩ := (readRecord_eq_ok_iff S cipher _ _ _).mp ((walReader_read_eq_record_iff S cipher _ _ _).mp hread)
  rw [h] at hf
  cases hf

theorem scan_walReader (fuel : Nat) (bytes : List UInt8) :
    ((∀ f ∈ (frames fuel bytes).1, ∃ record, decodeFrame S cipher f = .ok record) →
        ((walReader S cipher).scan fuel bytes).rest = (frames fuel bytes).2) ∧
      ((∃ f ∈ (frames fuel bytes).1, ∀ record, decodeFrame S cipher f ≠ .ok record) →
        ((walReader S cipher).scan fuel bytes).clean = false ∧
          (frames fuel bytes).2.length < ((walReader S cipher).scan fuel bytes).rest.length ∧
          ((walReader S cipher).scan fuel bytes).rest.length ≤ bytes.length) := by
  induction fuel generalizing bytes with
  | zero => exact ⟨fun _ => rfl, fun ⟨f, hf, _⟩ => absurd hf not_mem_nil⟩
  | succ fuel ih =>
    cases hread : readFrame bytes with
    | error e =>
      have hstop := (walReader S cipher).scan_stops (Nat.succ_pos fuel) (read_walReader_of_error S cipher hread)
      simp only [frames, hread]
      exact ⟨fun _ => congrArg Scan.rest hstop, fun ⟨f, hf, _⟩ => absurd hf not_mem_nil⟩
    | ok found =>
      obtain ⟨f, rest⟩ := found
      have hlength := (length_of_readFrame hread).2
      have hle := length_frames_le fuel rest
      simp only [frames, hread]
      cases hdecode : decodeFrame S cipher f with
      | error e =>
        have hbad : (walReader S cipher).read bytes = .bad := by
          cases e with
          | eof => exact absurd hdecode (decodeFrame_ne_eof S cipher f)
          | _ => simp [walReader, readRecord, hread, hdecode]
        rw [(walReader S cipher).scan_bad (Nat.succ_pos fuel) hbad]
        refine ⟨fun h => ?_, fun _ => ⟨rfl, by simp only; omega, le_rfl⟩⟩
        obtain ⟨record, hrecord⟩ := h f mem_cons_self
        rw [hdecode] at hrecord
        cases hrecord
      | ok record =>
        have hrecord := (walReader_read_eq_record_iff S cipher bytes record rest).mpr
          ((readRecord_eq_ok_iff S cipher bytes record rest).mpr ⟨f, hread, hdecode⟩)
        rw [(walReader S cipher).scan_record fuel hrecord]
        refine ⟨fun h => (ih rest).1 fun g hg => h g (mem_cons_of_mem f hg), ?_⟩
        rintro ⟨g, hg, hnot⟩
        obtain rfl | hg := mem_cons.mp hg
        · exact absurd hdecode (hnot record)
        · obtain ⟨hclean, hlt, hrest⟩ := (ih rest).2 ⟨g, hg, hnot⟩
          exact ⟨hclean, hlt, hrest.trans (by omega)⟩

/-- **What opening and replaying a log leaves of its file.** Nothing is cut off before the end of
the last correct frame exactly when every one of these frames is decrypted and decoded under the key
that is given. -/
theorem framesEnd_le_length_iff (policy : WalSyncPolicy) (file : List UInt8)
    (fileGeneration : Nat) :
    (WriteAheadLog.openWithOptions S cipher policy file fileGeneration).file = (replayDir S cipher file).2 ∧
      (framesEnd file ≤ (replayDir S cipher file).2.length ↔
        ∀ f ∈ (frames (file.length + 1) file).1, ∃ record, decodeFrame S cipher f = .ok record) := by
  refine ⟨rfl, ?_⟩
  obtain ⟨hall, hsome⟩ := scan_walReader S cipher (file.length + 1) file
  have hle := length_frames_le (file.length + 1) file
  unfold framesEnd replayDir
  dsimp only
  constructor
  · intro hkept
    by_contra hnot
    push Not at hnot
    obtain ⟨hclean, hlt, hrest⟩ := hsome hnot
    rw [if_neg (by simp [hclean]), length_take] at hkept
    omega
  · intro h
    have hrest := hall h
    split
    · omega
    · rw [length_take, hrest]
      omega

theorem replayDir_frame_of_decrypt_none {c : Cipher}
    (hnone : ∀ nonce bytes, c.decrypt nonce bytes = none) {payload : List UInt8}
    (hlong : 28 ≤ payload.length) (hshort : payload.length ≤ maxRecordLen) {originalLen : Nat}
    (hencrypted : 0 < originalLen % 2 ^ 32) :
    framesEnd (frame payload originalLen) = 15 + payload.length ∧
      (replayDir S (some c) (frame payload originalLen)).2 = [] := by
  have hread := readFrame_frame payload originalLen hshort []
  rw [append_nil] at hread
  have hdecrypt : ∃ message, decryptPayload c payload = .error message := by
    rw [decryptPayload, if_neg (by omega), hnone]
    exact ⟨_, rfl⟩
  obtain ⟨message, hdecrypt⟩ := hdecrypt
  have hbad : (walReader S (some c)).read (frame payload originalLen) = .bad := by
    simp only [walReader, readRecord, hread, decodeFrame, openPayload, gt_iff_lt, if_pos hencrypted, hdecrypt]
  constructor
  · have hframes : ∀ fuel, (frames (fuel + 1) (frame payload originalLen)).2 = [] := by
      intro fuel
      simp only [frames, hread]
      cases fuel <;> rfl
    rw [framesEnd, hframes, length_frame]
    rfl
  · simp only [replayDir, (walReader S (some c)).scan_bad (Nat.succ_pos _) hbad]
    simp

/-- A record that was written under one key is gone when the log has been opened under another
one. -/
theorem openWithOptions_wrong_key :
    let file := recordFrame flagLibraries (some tagCipher) 0 ⟨1, flagBatch, 1⟩
    let wrongKey : Cipher := { tagCipher with decrypt := fun _ _ => none }
    framesEnd file = 189 ∧ (WriteAheadLog.openWithOptions flagLibraries (some wrongKey) .always file 0).file = [] := by
  intro file wrongKey
  generalize hstored : storedPayload flagLibraries (some tagCipher) 0 ⟨1, flagBatch, 1⟩ = stored
  have hpayload : stored.1.length = 174 := by
    rw [← hstored]
    simp [storedPayload, encryptPayload, tagCipher, nonceBytes, length_toBe, length_encodeWalRecordFb_flagBatch]
  have horiginal : stored.2 = 146 := hstored ▸ length_encodeWalRecordFb_flagBatch
  have hfile : file = frame stored.1 stored.2 := hstored ▸ rfl
  obtain ⟨hend, hlost⟩ := @replayDir_frame_of_decrypt_none flagLibraries wrongKey (fun _ _ => rfl) stored.1
    (by rw [hpayload]; decide) (by rw [hpayload]; decide) stored.2 (by rw [horiginal]; decide)
  rw [← hfile] at hend hlost
  refine ⟨by rw [hend, hpayload], ?_⟩
  simp [WriteAheadLog.openWithOptions, hlost]

end Nexora

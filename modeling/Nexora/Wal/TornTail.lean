import Nexora.Wal.RoundTrip

/-!
# A log cut by a crash

A crash keeps some first part of the file. Opening the log again cuts off what is left of a torn
record, except when a single byte of it is left: then the reader takes the file for ended, the byte
stays, and the records appended behind it are lost at the next opening.
-/

namespace Nexora
open Lib List WriteAheadLog Reader
variable (S : Serde) (cipher : Option Cipher) (fileGeneration : Nat) (policy : WalSyncPolicy)

/-- Append `first` to a new log, crash with `cut` bytes of the file left, open it, append `second`,
open it once more and replay it. -/
def replayAfterCut (first : List WalOperation) (cut : Nat) (second : List WalOperation) :
    WalReplayResult :=
  let reopened := WriteAheadLog.openWithOptions S cipher policy
    ((freshLog S cipher fileGeneration policy first).file.take cut) fileGeneration
  let again := WriteAheadLog.openWithOptions S cipher policy (reopened.appendAll S cipher second).file fileGeneration
  (again.replay S cipher).1

def survivors (first : List WalOperation) (cut : Nat) : List WalRecord :=
  Reader.complete (recordFrame S cipher fileGeneration) cut (recordsFrom 1 first)

def tornBytes (first : List WalOperation) (cut : Nat) : List UInt8 :=
  Reader.torn (recordFrame S cipher fileGeneration) cut (recordsFrom 1 first)

theorem survivors_eq_recordsFrom (first : List WalOperation) (cut : Nat) :
    survivors S cipher fileGeneration first cut =
      recordsFrom 1 (first.take (survivors S cipher fileGeneration first cut).length) := by
  rw [← take_recordsFrom]
  exact prefix_iff_eq_take.mp (complete_isPrefix _ _)

theorem seqNo_lt_of_mem_recordsFrom {seq : Nat} {ops : List WalOperation} {record : WalRecord}
    (h : record ∈ recordsFrom seq ops) : record.seqNo < seq + ops.length := by
  induction ops generalizing seq with
  | nil => cases h
  | cons op rest ih =>
    rw [recordsFrom, mem_cons] at h
    rw [length_cons]
    obtain rfl | h := h
    · exact Nat.lt_add_of_pos_right (Nat.succ_pos _)
    · have := ih h
      omega

theorem findMaxSeq_recordsFrom (ops : List WalOperation) (hadDuplicates : Bool) (gaps : List Nat) :
    findMaxSeq ⟨recordsFrom 1 ops, hadDuplicates, gaps⟩ = ops.length := by
  induction ops using reverseRecOn with
  | nil => rfl
  | append_singleton ops op _ =>
    have hmax : ((recordsFrom 1 (ops ++ [op])).map WalRecord.seqNo).max? = some (1 + ops.length) := by
      rw [max?_eq_some_iff]
      constructor
      · rw [recordsFrom_append, map_append]
        exact mem_append_right _ mem_cons_self
      · intro seq hseq
        obtain ⟨record, hrecord, rfl⟩ := mem_map.mp hseq
        have hlt := seqNo_lt_of_mem_recordsFrom hrecord
        rw [length_append, length_singleton] at hlt
        omega
    rw [findMaxSeq, hmax, Option.getD_some, length_append, length_singleton, Nat.add_comm]

section Reopen
variable {S cipher fileGeneration}
section
variable (ops : List WalOperation) (h : ∀ record ∈ recordsFrom 1 ops, Readable S cipher fileGeneration record)
  {tail : List UInt8} (htail : (walReader S cipher).Stops tail)

include h htail

/-- **Opening a log of readable records.** Whatever torn piece stands behind them, the next sequence
number follows the last record, and the file keeps of the piece only what is shorter than a magic
number. -/
theorem openWithOptions_frames : (WriteAheadLog.openWithOptions S cipher policy
        ((recordsFrom 1 ops).flatMap (recordFrame S cipher fileGeneration) ++ tail) fileGeneration).nextSeq = ops.length + 1 ∧
      (WriteAheadLog.openWithOptions S cipher policy
        ((recordsFrom 1 ops).flatMap (recordFrame S cipher fileGeneration) ++ tail) fileGeneration).file =
        (recordsFrom 1 ops).flatMap (recordFrame S cipher fileGeneration) ++ (if tail.length < 2 then tail else []) := by
  have hreplay := replayDir_frames S cipher fileGeneration _ h htail
  rw [dedup_sortBySeq_recordsFrom] at hreplay
  simp only [openWithOptions, hreplay, findMaxSeq_recordsFrom, true_and]
  split <;> simp

theorem replay_openWithOptions_frames : ((WriteAheadLog.openWithOptions S cipher policy
        ((recordsFrom 1 ops).flatMap (recordFrame S cipher fileGeneration) ++ tail) fileGeneration).replay S cipher).1 =
      ⟨recordsFrom 1 ops, false, []⟩ := by
  have hfile := (openWithOptions_frames policy ops h htail).2
  have hkept : (walReader S cipher).Stops (if tail.length < 2 then tail else []) := by
    split
    · exact htail
    · exact (walReader S cipher).stops_nil
  have hreplay := replayDir_frames S cipher fileGeneration _ h hkept
  rw [replay, sync_file, hfile, hreplay, dedup_sortBySeq_recordsFrom]

end

theorem stops_of_bad_magic {a b : UInt8} {rest : List UInt8} (hjson : [a, b] ≠ walMagicJson)
    (hfb : [a, b] ≠ walMagicFb) :
    (walReader S cipher).Stops (a :: b :: rest) := by
  intro record rest' hread
  obtain ⟨f, hf, -⟩ := (readRecord_eq_ok_iff S cipher _ _ _).mp ((walReader_read_eq_record_iff S cipher _ _ _).mp hread)
  obtain ⟨bytes⟩ := frameBytes_of_readFrame hf
  have hmagic : [a, b] = f.magic := by
    have hlen : [a, b].length = f.magic.length := by
      obtain h | h := bytes.magic <;> rw [h] <;> rfl
    have hbytes : [a, b] ++ rest = f.magic ++ _ := bytes.bytes_eq
    exact (append_inj hbytes hlen).1
  obtain h | h := bytes.magic
  · exact hjson (hmagic.trans h)
  · exact hfb (hmagic.trans h)

end Reopen

theorem tornBytes_eq_of_length_one {first : List WalOperation} {cut : Nat}
    (h : (tornBytes S cipher fileGeneration first cut).length = 1) :
    tornBytes S cipher fileGeneration first cut = [0x51] := by
  obtain hnil | ⟨record, -, more, -, hframe⟩ :=
    (take_flatMap (recordFrame S cipher fileGeneration) cut (recordsFrom 1 first)).2
  · rw [tornBytes, hnil] at h
    cases h
  · obtain ⟨b, hb⟩ := length_eq_one_iff.mp h
    rw [← tornBytes, hb] at hframe
    injection hframe with hhead
    rw [hb, hhead]

theorem replayAfterCut_records (first : List WalOperation) (cut : Nat) (second : List WalOperation)
    (hfirst : ∀ record ∈ recordsFrom 1 first, Readable S cipher fileGeneration record)
    (hsecond : ∀ record ∈ recordsFrom ((survivors S cipher fileGeneration first cut).length + 1) second,
      Readable S cipher fileGeneration record) :
    (replayAfterCut S cipher fileGeneration policy first cut second).records =
      survivors S cipher fileGeneration first cut ++
        if (tornBytes S cipher fileGeneration first cut).length = 1 then []
        else recordsFrom ((survivors S cipher fileGeneration first cut).length + 1) second := by
  set kept := survivors S cipher fileGeneration first cut with hkept
  set torn := tornBytes S cipher fileGeneration first cut with htorn
  set F := recordFrame S cipher fileGeneration with hF
  set firstOps := first.take kept.length with hfirstOps
  have hkeptOps : kept = recordsFrom 1 firstOps :=
    survivors_eq_recordsFrom S cipher fileGeneration first cut
  have hlength : firstOps.length = kept.length := by rw [hkeptOps, length_recordsFrom]
  have hreadable : ∀ record ∈ recordsFrom 1 firstOps, Readable S cipher fileGeneration record := by
    intro record hrecord
    rw [← hkeptOps] at hrecord
    exact hfirst record ((complete_isPrefix cut _).subset hrecord)
  have hcut : (freshLog S cipher fileGeneration policy first).file.take cut =
      (recordsFrom 1 firstOps).flatMap F ++ torn := by
    rw [freshLog_file, ← hkeptOps]
    exact (take_flatMap F cut (recordsFrom 1 first)).1
  have hstops : (walReader S cipher).Stops torn :=
    (walReader S cipher).stops_torn cut _ fun record hrecord => (hfirst record hrecord).reads
  have hopen := openWithOptions_frames policy firstOps hreadable hstops
  have hafter : ((openWithOptions S cipher policy
      ((freshLog S cipher fileGeneration policy first).file.take cut) fileGeneration).appendAll S cipher second).file =
        (recordsFrom 1 firstOps).flatMap F ++ ((if torn.length < 2 then torn else []) ++
          (recordsFrom (kept.length + 1) second).flatMap F) := by
    rw [appendAll_file, hcut, hopen.1, hopen.2, hlength, append_assoc]
    rfl
  rw [replayAfterCut, hafter]
  by_cases hone : torn.length = 1
  · rw [if_pos hone, if_pos (by omega), append_nil]
    have hbyte : torn = [0x51] := tornBytes_eq_of_length_one S cipher fileGeneration hone
    have hbad : (walReader S cipher).Stops (torn ++ (recordsFrom (kept.length + 1) second).flatMap F) := by
      cases second with
      | nil => simpa [recordsFrom] using hstops
      | cons op rest =>
        rw [hbyte, recordsFrom, flatMap_cons]
        exact stops_of_bad_magic (by decide) (by decide)
    have hreplay := replay_openWithOptions_frames policy firstOps hreadable hbad
    exact (congrArg WalReplayResult.records hreplay).trans hkeptOps.symm
  · have hnil : (if torn.length < 2 then torn else []) = [] := by
      split
      · exact length_eq_zero_iff.mp (by omega)
      · rfl
    have hall : recordsFrom 1 (firstOps ++ second) = kept ++ recordsFrom (kept.length + 1) second := by
      rw [recordsFrom_append, ← hkeptOps, hlength, Nat.add_comm]
    have hread : ∀ record ∈ recordsFrom 1 (firstOps ++ second), Readable S cipher fileGeneration record := by
      intro record hrecord
      rw [hall] at hrecord
      obtain hrecord | hrecord := mem_append.mp hrecord
      · exact hreadable record (hkeptOps ▸ hrecord)
      · exact hsecond record hrecord
    have hreplay := replay_openWithOptions_frames policy (firstOps ++ second) hread (walReader S cipher).stops_nil
    rw [append_nil, hall, flatMap_append, ← hF] at hreplay
    rw [if_neg hone, hnil, nil_append, ← hkeptOps]
    exact congrArg WalReplayResult.records hreplay

/-- **The torn tail.** With records the reader takes, the second opening finds the whole records
before the cut and all that were appended behind it exactly when nothing was appended or the cut did
not leave one single byte of a record. -/
theorem replayAfterCut_records_iff (first : List WalOperation) (cut : Nat)
    (second : List WalOperation)
    (hfirst : ∀ record ∈ recordsFrom 1 first, Readable S cipher fileGeneration record)
    (hsecond : ∀ record ∈ recordsFrom ((survivors S cipher fileGeneration first cut).length + 1) second,
      Readable S cipher fileGeneration record) :
    (replayAfterCut S cipher fileGeneration policy first cut second).records =
        survivors S cipher fileGeneration first cut ++
          recordsFrom ((survivors S cipher fileGeneration first cut).length + 1) second ↔
      second = [] ∨ (tornBytes S cipher fileGeneration first cut).length ≠ 1 := by
  rw [replayAfterCut_records S cipher fileGeneration policy first cut second hfirst hsecond, append_cancel_left_eq]
  split
  · next hone =>
    cases second with
    | nil => simp [recordsFrom]
    | cons op rest => simp [recordsFrom, hone]
  · next hne => exact iff_of_true rfl (Or.inr hne)

theorem decodeWalRecordAuto_flagBatch :
    decodeWalRecordAuto flagLibraries walMagicFb (encodeWalRecordFb flagLibraries ⟨1, flagBatch, 1⟩) 0 =
      .ok ⟨1, flagBatch, 1⟩ := by
  set document := propertyDocument (.obj [("Boolean", .bool true)]) with hdocument
  have hencode : encodeWalRecordFb flagLibraries ⟨1, flagBatch, 1⟩ = document.render fun _ => "1.5" := rfl
  have hread : flagLibraries.jsonFromSlice (document.render fun _ => "1.5") = some document :=
    sampleLibraries_read _
  have hrecord : WalRecord.ofJson flagLibraries document = some ⟨1, flagBatch, 1⟩ := rfl
  have hnone : decodeWalRecordFb flagLibraries (document.render fun _ => "1.5") = none := rfl
  rw [hencode, decodeWalRecordAuto_fb, hnone]
  simp [jsonDecode_eq_ok_iff, hread, hrecord]

theorem length_encodeWalRecordFb_flagBatch :
    (encodeWalRecordFb flagLibraries ⟨1, flagBatch, 1⟩).length = 146 := by
  have hencode : encodeWalRecordFb flagLibraries ⟨1, flagBatch, 1⟩ =
      (propertyDocument (.obj [("Boolean", .bool true)])).render fun _ => "1.5" := rfl
  rw [hencode]
  decide +kernel

theorem flagBatch_readable (fileGeneration : Nat) :
    Readable flagLibraries none fileGeneration ⟨1, flagBatch, 1⟩ := by
  refine ⟨?_, ?_⟩
  · simp only [storedPayload, length_encodeWalRecordFb_flagBatch]
    decide
  · simp [decodeFrame, openPayload, storedPayload, decodeWalRecordAuto_flagBatch]

theorem survivors_flagBatch {cut : Nat} (hcut : cut < 15) :
    survivors flagLibraries none 0 [flagBatch] cut = [] := by
  have hlong : ¬ (recordFrame flagLibraries none 0 ⟨1, flagBatch, 1⟩).length ≤ cut := by
    rw [recordFrame, length_frame]
    omega
  rw [survivors, recordsFrom, complete, if_neg hlong]

theorem length_tornBytes_flagBatch {cut : Nat} (hcut : cut < 15) :
    (tornBytes flagLibraries none 0 [flagBatch] cut).length = cut := by
  have hsurvivors := survivors_flagBatch hcut
  rw [survivors] at hsurvivors
  have hlong : cut ≤ (recordFrame flagLibraries none 0 ⟨1, flagBatch, 1⟩).length := by
    rw [recordFrame, length_frame]
    omega
  rw [tornBytes, torn, hsurvivors, recordsFrom, recordsFrom, flatMap_singleton, flatMap_nil,
    length_nil, drop_zero, length_take, Nat.min_eq_left hlong]

theorem flagBatch_all_readable :
    ∀ record ∈ recordsFrom 1 [flagBatch], Readable flagLibraries none 0 record := by
  intro record hrecord
  rw [recordsFrom, recordsFrom, mem_singleton] at hrecord
  exact hrecord ▸ flagBatch_readable 0

/-- Seven bytes of a torn record are cut off, and the record appended behind them is found. -/
theorem replayAfterCut_seven :
    (replayAfterCut flagLibraries none 0 .always [flagBatch] 7 [flagBatch]).records = [⟨1, flagBatch, 1⟩] := by
  have hsurvivors : survivors flagLibraries none 0 [flagBatch] 7 = [] :=
    survivors_flagBatch (by decide)
  have htorn : (tornBytes flagLibraries none 0 [flagBatch] 7).length = 7 :=
    length_tornBytes_flagBatch (by decide)
  have hall := (replayAfterCut_records_iff flagLibraries none 0 .always [flagBatch] 7 [flagBatch] flagBatch_all_readable
    (by rw [hsurvivors]; exact flagBatch_all_readable)).mpr (Or.inr (by rw [htorn]; decide))
  rw [hsurvivors] at hall
  exact hall

/-- One byte of a torn record stays, and the record appended behind it is lost. -/
theorem replayAfterCut_one :
    (replayAfterCut flagLibraries none 0 .always [flagBatch] 1 [flagBatch]).records = [] ∧
      survivors flagLibraries none 0 [flagBatch] 1 ++
        recordsFrom ((survivors flagLibraries none 0 [flagBatch] 1).length + 1) [flagBatch] = [⟨1, flagBatch, 1⟩] := by
  have hsurvivors : survivors flagLibraries none 0 [flagBatch] 1 = [] :=
    survivors_flagBatch (by decide)
  have htorn : (tornBytes flagLibraries none 0 [flagBatch] 1).length = 1 :=
    length_tornBytes_flagBatch (by decide)
  have hall := replayAfterCut_records flagLibraries none 0 .always [flagBatch] 1 [flagBatch] flagBatch_all_readable
    (by rw [hsurvivors]; exact flagBatch_all_readable)
  rw [hsurvivors, if_pos htorn] at hall
  rw [hsurvivors]
  exact ⟨hall, rfl⟩

/-! ### Opening again -/

theorem walReader_local : (walReader S cipher).Local := by
  intro bytes record rest h
  obtain ⟨f, hf, hd⟩ := (readRecord_eq_ok_iff ..).mp ((walReader_read_eq_record_iff ..).mp h)
  obtain ⟨hb⟩ := frameBytes_of_readFrame hf
  refine ⟨f.magic ++ (hb.lengthBytes ++ (hb.originalLenBytes ++ (f.payload ++ (hb.crcBytes ++ [walStopMarker])))), by simp,
    by simpa using hb.bytes_eq, fun more => ?_⟩
  have hmore := @readFrame_of_frameBytes _ more f { hb with bytes_eq := rfl }
  exact (walReader_read_eq_record_iff ..).mpr ((readRecord_eq_ok_iff ..).mpr ⟨f, by simpa using hmore, hd⟩)

theorem replayDir_replayDir (file : List UInt8) :
    replayDir S cipher (replayDir S cipher file).2 = replayDir S cipher file := by
  obtain ⟨front, hfile, hfront⟩ := exists_scan_front (walReader_local S cipher) (file.length + 1) file
  unfold replayDir
  dsimp only
  split
  · rfl
  · have htake : file.take (file.length - ((walReader S cipher).scan (file.length + 1) file).rest.length) = front := by
      set rest := ((walReader S cipher).scan (file.length + 1) file).rest
      rw [hfile, length_append, Nat.add_sub_cancel, take_left]
    rw [htake, hfront _ (Nat.lt_succ_self _), if_pos rfl]

/-- The bytes are the records of these operations, which can be read. -/
structure HoldsRecords (S : Serde) (cipher : Option Cipher) (fileGeneration : Nat)
    (ops : List WalOperation) (bytes : List UInt8) : Prop where
  file : bytes = (recordsFrom 1 ops).flatMap (recordFrame S cipher fileGeneration)
  readable : ∀ record ∈ recordsFrom 1 ops, Readable S cipher fileGeneration record

theorem HoldsRecords.append {S : Serde} {cipher : Option Cipher} {w : WriteAheadLog}
    {ops : List WalOperation} (h : HoldsRecords S cipher w.fileGeneration ops w.file)
    (hnext : w.nextSeq = ops.length + 1) {operation : WalOperation}
    (hreadable : Readable S cipher w.fileGeneration ⟨w.nextSeq, operation, w.nextSeq⟩) :
    HoldsRecords S cipher (w.append S cipher operation).1.fileGeneration (ops ++ [operation])
      (w.append S cipher operation).1.file := by
  have hrecords : recordsFrom 1 (ops ++ [operation]) =
      recordsFrom 1 ops ++ [⟨w.nextSeq, operation, w.nextSeq⟩] := by
    rw [recordsFrom_append, hnext, Nat.add_comm]
    rfl
  rw [append_fileGeneration]
  constructor
  · simp [append_file, h.file, hrecords]
  · rw [hrecords]
    intro record hrecord
    obtain hrecord | hrecord := mem_append.mp hrecord
    · exact h.readable record hrecord
    · exact mem_singleton.mp hrecord ▸ hreadable

/-- **Recovery may be repeated.** Whatever bytes are in the file, what an opening leaves of it is
opened as the same log, and a replay returns what the opening has read and only syncs the log. -/
theorem openWithOptions_openWithOptions (file : List UInt8) :
    openWithOptions S cipher policy (openWithOptions S cipher policy file fileGeneration).file fileGeneration =
        openWithOptions S cipher policy file fileGeneration ∧
      (openWithOptions S cipher policy file fileGeneration).replay S cipher =
        ((replayDir S cipher file).1,
          (openWithOptions S cipher policy file fileGeneration).sync) := by
  have hagain := replayDir_replayDir S cipher file
  constructor
  · simp only [openWithOptions, hagain]
  · simp only [replay, sync, flush, resetCounters, openWithOptions, hagain]

end Nexora

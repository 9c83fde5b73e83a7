import Nexora.Wal.CodecRoundTrip
import Nexora.Wal.Log

/-!
# Reading back what was appended

`append` writes payloads of any size and narrows their length to 32 bits; `read_record` refuses
payloads of more than 100 MiB, and a record it refuses takes every later one with it. A log is
therefore read back after each of its appends exactly when every record is `Readable`.
-/

namespace Nexora
open Lib List WriteAheadLog Nat

/-! ### Readable records -/

/-- A record the reader takes: its stored payload is within the reader's limit and decodes to the
record. -/
def Readable (S : Serde) (cipher : Option Cipher) (fileGeneration : Nat) (record : WalRecord) :
    Prop :=
  (storedPayload S cipher fileGeneration record).1.length ≤ maxRecordLen ∧
    decodeFrame S cipher ⟨walMagicFb, (storedPayload S cipher fileGeneration record).2 % 2 ^ 32,
      (storedPayload S cipher fileGeneration record).1⟩ = .ok record

variable (S : Serde) (cipher : Option Cipher) (fileGeneration : Nat)
variable {record : WalRecord} {rest : List UInt8}

theorem Readable.reads {S : Serde} {cipher : Option Cipher} {fileGeneration : Nat}
    (h : Readable S cipher fileGeneration record) :
    (walReader S cipher).Reads (recordFrame S cipher fileGeneration) record := by
  have hframe := readFrame_frame _ (storedPayload S cipher fileGeneration record).2 h.1 []
  rw [append_nil] at hframe
  exact (walReader_read_eq_record_iff S cipher _ _ _).mpr
    ((readRecord_eq_ok_iff S cipher _ _ _).mpr ⟨_, hframe, h.2⟩)

theorem payload_length_of_readFrame {payload : List UInt8} {originalLen : Nat} {f : RawFrame}
    (h : readFrame (frame payload originalLen) = .ok (f, rest)) :
    f.payload.length = payload.length % 2 ^ 32 := by
  obtain ⟨b⟩ := frameBytes_of_readFrame h
  have hmagicLen : f.magic.length = 2 := by
    obtain h | h := b.magic <;> rw [h] <;> rfl
  have hfields := (append_inj b.bytes_eq (by rw [hmagicLen]; rfl)).2
  have hlength := (append_inj hfields (by rw [length_toBe, b.length_lengthBytes])).1
  rw [← b.ofBe_lengthBytes, ← hlength]
  exact ofBe_toBe 4 payload.length

theorem readable_of_read (hrest : rest.length < 2)
    (h : (walReader S cipher).read (recordFrame S cipher fileGeneration record) = .record record rest) :
    Readable S cipher fileGeneration record := by
  obtain ⟨f, hf, hd⟩ := (readRecord_eq_ok_iff S cipher _ _ _).mp ((walReader_read_eq_record_iff S cipher _ _ _).mp h)
  have hmod := payload_length_of_readFrame hf
  obtain ⟨hle, hlen⟩ := length_of_readFrame hf
  rw [recordFrame, length_frame] at hlen
  have hshort : (storedPayload S cipher fileGeneration record).1.length < 2 ^ 32 := by
    have : maxRecordLen + 2 < 2 ^ 32 := by decide
    omega
  rw [mod_eq_of_lt hshort] at hmod
  have hfits : (storedPayload S cipher fileGeneration record).1.length ≤ maxRecordLen := by omega
  have hframe := readFrame_frame _ (storedPayload S cipher fileGeneration record).2 hfits []
  rw [append_nil, ← recordFrame, hf] at hframe
  cases hframe
  exact ⟨hfits, hd⟩

/-! ### Consecutive records -/

def recordsFrom : Nat → List WalOperation → List WalRecord
  | _, [] => []
  | seq, op :: rest => ⟨seq, op, seq⟩ :: recordsFrom (seq + 1) rest

variable (seq : Nat)

@[simp] theorem length_recordsFrom (ops : List WalOperation) :
    (recordsFrom seq ops).length = ops.length := by
  induction ops generalizing seq with
  | nil => rfl
  | cons op rest ih => simp [recordsFrom, ih]

section
variable (ops : List WalOperation)

theorem recordsFrom_append (more : List WalOperation) :
    recordsFrom seq (ops ++ more) = recordsFrom seq ops ++ recordsFrom (seq + ops.length) more := by
  induction ops generalizing seq with
  | nil => rfl
  | cons op rest ih =>
    have hseq : seq + 1 + rest.length = seq + (op :: rest).length := by
      rw [length_cons]
      omega
    simp [recordsFrom, ih, hseq]

theorem take_recordsFrom (seq k : Nat) (ops : List WalOperation) :
    (recordsFrom seq ops).take k = recordsFrom seq (ops.take k) := by
  induction ops generalizing seq k with
  | nil => simp [recordsFrom]
  | cons op rest ih =>
    cases k with
    | zero => rfl
    | succ k => rw [recordsFrom, take_succ_cons, ih, take_succ_cons, recordsFrom]

theorem le_seqNo_of_mem_recordsFrom {seq : Nat} {ops : List WalOperation} {record : WalRecord}
    (h : record ∈ recordsFrom seq ops) : seq ≤ record.seqNo := by
  induction ops generalizing seq with
  | nil => cases h
  | cons op rest ih =>
    rw [recordsFrom, mem_cons] at h
    obtain rfl | h := h
    · exact le_refl _
    · exact le_of_succ_le (ih h)

theorem sortBySeq_recordsFrom : sortBySeq (recordsFrom seq ops) = recordsFrom seq ops := by
  refine mergeSort_of_pairwise ?_
  induction ops generalizing seq with
  | nil => exact List.Pairwise.nil
  | cons op rest ih =>
    rw [recordsFrom, pairwise_cons]
    refine ⟨fun record hrecord => ?_, ih _⟩
    have hle := le_seqNo_of_mem_recordsFrom hrecord
    exact decide_eq_true (le_of_succ_le hle)

theorem dedup_recordsFrom (prevSeq : Nat) (ops : List WalOperation) :
    dedup (some prevSeq) (recordsFrom (prevSeq + 1) ops) = ⟨recordsFrom (prevSeq + 1) ops, false, []⟩ := by
  induction ops generalizing prevSeq with
  | nil => rfl
  | cons op rest ih =>
    simp [recordsFrom, dedup, ih]

theorem dedup_sortBySeq_recordsFrom :
    dedup none (sortBySeq (recordsFrom seq ops)) = ⟨recordsFrom seq ops, false, []⟩ := by
  rw [sortBySeq_recordsFrom]
  cases ops with
  | nil => rfl
  | cons op rest => simp [recordsFrom, dedup, dedup_recordsFrom]

end

theorem dedup_records_of_no_duplicates (last : Option Nat) (records : List WalRecord)
    (h : (dedup last records).hadDuplicates = false) : (dedup last records).records = records := by
  induction records generalizing last with
  | nil => cases last <;> rfl
  | cons record rest ih =>
    cases last with
    | none =>
      simp only [dedup] at h ⊢
      rw [ih _ h]
    | some prevSeq =>
      simp only [dedup] at h ⊢
      split at h
      · cases h
      next hne =>
      rw [if_neg hne]
      simp [ih _ h]

/-! ### Appending -/

namespace WriteAheadLog
variable (w : WriteAheadLog)

@[simp] theorem sync_file : w.sync.file = w.file := rfl

theorem applyPolicy_frame (seq : Nat) :
    (w.applyPolicy seq).file = w.file ∧ (w.applyPolicy seq).nextSeq = w.nextSeq ∧
      (w.applyPolicy seq).fileGeneration = w.fileGeneration := by
  unfold applyPolicy
  repeat' split
  all_goals exact ⟨rfl, rfl, rfl⟩

theorem append_file (op : WalOperation) :
    (w.append S cipher op).1.file = w.file ++ recordFrame S cipher w.fileGeneration ⟨w.nextSeq, op, w.nextSeq⟩ :=
  (applyPolicy_frame _ _).1

theorem append_nextSeq (op : WalOperation) : (w.append S cipher op).1.nextSeq = w.nextSeq + 1 :=
  (applyPolicy_frame _ _).2.1

theorem append_fileGeneration (op : WalOperation) :
    (w.append S cipher op).1.fileGeneration = w.fileGeneration :=
  (applyPolicy_frame _ _).2.2

def appendAll (ops : List WalOperation) : WriteAheadLog :=
  ops.foldl (fun w op => (w.append S cipher op).1) w

theorem appendAll_file (ops : List WalOperation) : (w.appendAll S cipher ops).file =
      w.file ++ (recordsFrom w.nextSeq ops).flatMap (recordFrame S cipher w.fileGeneration) := by
  induction ops generalizing w with
  | nil => simp [appendAll, recordsFrom]
  | cons op rest ih =>
    have hstep := ih (w.append S cipher op).1
    rw [append_file, append_nextSeq, append_fileGeneration] at hstep
    rw [appendAll, foldl_cons, ← appendAll, hstep, recordsFrom, flatMap_cons, append_assoc]

end WriteAheadLog

/-! ### Replaying -/

section
variable (records : List WalRecord) (h : ∀ record ∈ records, Readable S cipher fileGeneration record)
include h

theorem replayDir_frames {tail : List UInt8} (htail : (walReader S cipher).Stops tail) :
    replayDir S cipher (records.flatMap (recordFrame S cipher fileGeneration) ++ tail) =
      (dedup none (sortBySeq records), if tail.length < 2 then
        records.flatMap (recordFrame S cipher fileGeneration) ++ tail
        else records.flatMap (recordFrame S cipher fileGeneration)) := by
  have hreads : ∀ record ∈ records, (walReader S cipher).Reads (recordFrame S cipher fileGeneration) record :=
    fun record hrecord => (h record hrecord).reads
  have hlen := (walReader S cipher).length_le_flatMap records hreads
  have hfuel : records.length < (records.flatMap (recordFrame S cipher fileGeneration) ++ tail).length + 1 := by
    rw [length_append]
    omega
  have hscan := (walReader S cipher).scan_flatMap_stops records hreads htail hfuel
  have hheader : (walReader S cipher).header = 2 := rfl
  rw [hheader] at hscan
  simp only [replayDir, hscan, decide_eq_true_eq]
  simp

theorem replayDir_records :
    replayDir S cipher (records.flatMap (recordFrame S cipher fileGeneration)) =
      (dedup none (sortBySeq records), records.flatMap (recordFrame S cipher fileGeneration)) := by
  have hnil := replayDir_frames S cipher fileGeneration records h (walReader S cipher).stops_nil
  simpa using hnil

end

theorem replayDir_nil : replayDir S cipher [] = (⟨[], false, []⟩, []) :=
  (replayDir_records S cipher 0 [] (by simp)).trans (congrArg (·, []) (dedup_sortBySeq_recordsFrom 1 []))

variable (policy : WalSyncPolicy)

theorem openWithOptions_nil_nextSeq :
    (WriteAheadLog.openWithOptions S cipher policy [] fileGeneration).nextSeq = 1 := by
  simp [openWithOptions, replayDir_nil, findMaxSeq]

def freshLog (ops : List WalOperation) : WriteAheadLog :=
  (WriteAheadLog.openWithOptions S cipher policy [] fileGeneration).appendAll S cipher ops

section
variable (ops : List WalOperation)

theorem freshLog_file : (freshLog S cipher fileGeneration policy ops).file =
      (recordsFrom 1 ops).flatMap (recordFrame S cipher fileGeneration) := by
  rw [freshLog, appendAll_file]
  simp [openWithOptions, replayDir_nil, findMaxSeq]

/-- `replay` gives back exactly the appended records, reports nothing odd and leaves the file as it
was. -/
def ReadsBack (ops : List WalOperation) : Prop :=
  ((freshLog S cipher fileGeneration policy ops).replay S cipher).1 = ⟨recordsFrom 1 ops, false, []⟩ ∧
    ((freshLog S cipher fileGeneration policy ops).replay S cipher).2.file =
      (freshLog S cipher fileGeneration policy ops).file

theorem readsBack_of_readable
    (h : ∀ record ∈ recordsFrom 1 ops, Readable S cipher fileGeneration record) :
    ReadsBack S cipher fileGeneration policy ops := by
  have hreplay := replayDir_records S cipher fileGeneration _ h
  rw [← freshLog_file S cipher fileGeneration policy] at hreplay
  simp [ReadsBack, replay, sync_file, hreplay, dedup_sortBySeq_recordsFrom]

theorem readable_of_readsBack (op : WalOperation)
    (h : ∀ record ∈ recordsFrom 1 ops, Readable S cipher fileGeneration record)
    (hback : ReadsBack S cipher fileGeneration policy (ops ++ [op])) :
    Readable S cipher fileGeneration ⟨1 + ops.length, op, 1 + ops.length⟩ := by
  set record : WalRecord := ⟨1 + ops.length, op, 1 + ops.length⟩ with hrecord
  set F := recordFrame S cipher fileGeneration with hF
  have hrecords : recordsFrom 1 (ops ++ [op]) = recordsFrom 1 ops ++ [record] :=
    recordsFrom_append 1 ops [op]
  have hfile : (freshLog S cipher fileGeneration policy (ops ++ [op])).file =
      (recordsFrom 1 ops).flatMap F ++ F record := by
    rw [freshLog_file, hrecords, flatMap_append, flatMap_singleton]
  have hreads : ∀ r ∈ recordsFrom 1 ops, (walReader S cipher).Reads F r :=
    fun r hr => (h r hr).reads
  have hlen := (walReader S cipher).length_le_flatMap _ hreads
  have hframe : (F record).length = 15 + (storedPayload S cipher fileGeneration record).1.length :=
    length_frame _ _
  obtain ⟨extra, hextra⟩ : ∃ extra, ((recordsFrom 1 ops).flatMap F ++ F record).length + 1 =
      (recordsFrom 1 ops).length + (extra + 2) := by
    rw [length_append]
    exact ⟨((recordsFrom 1 ops).flatMap F).length + (F record).length + 1 - (recordsFrom 1 ops).length - 2, by omega⟩
  have hscan := (walReader S cipher).scan_flatMap _ hreads (F record) (extra + 2)
  simp only [ReadsBack, replay, sync_file, hfile, replayDir, hextra, hscan] at hback
  obtain ⟨hresult, hkept⟩ := hback
  have hsorted : sortBySeq (recordsFrom 1 ops ++ ((walReader S cipher).scan (extra + 2) (F record)).records) =
      recordsFrom 1 (ops ++ [op]) := by
    have hall := dedup_records_of_no_duplicates none
      (sortBySeq (recordsFrom 1 ops ++ ((walReader S cipher).scan (extra + 2) (F record)).records)) (by rw [hresult])
    rw [hresult] at hall
    exact hall.symm
  have hone : ((walReader S cipher).scan (extra + 2) (F record)).records = [record] := by
    have hperm := (mergeSort_perm _ _).symm.trans (List.Perm.of_eq hsorted)
    rw [hrecords, perm_append_left_iff] at hperm
    exact perm_singleton.mp hperm
  have hclean : ((walReader S cipher).scan (extra + 2) (F record)).clean = true ∨
      ((walReader S cipher).scan (extra + 2) (F record)).rest = [] := by
    split at hkept
    · next hclean => exact Or.inl hclean
    · have hlength := congrArg length hkept
      rw [length_take, length_append] at hlength
      exact Or.inr (length_eq_zero_iff.mp (by omega))
  obtain ⟨rest, hread, hrest⟩ := (walReader S cipher).read_of_scan_singleton (by omega) hone hclean
  exact readable_of_read S cipher fileGeneration hrest hread

end

/-- **Append and replay.** A log is read back after every one of its appends exactly when each of
its records is within the reader's limit and decodes to itself. -/
theorem readsBack_take_iff_readable (policy : WalSyncPolicy) (ops : List WalOperation) :
    (∀ k, ReadsBack S cipher fileGeneration policy (ops.take k)) ↔
      ∀ record ∈ recordsFrom 1 ops, Readable S cipher fileGeneration record := by
  constructor
  · intro hback
    induction ops using reverseRecOn with
    | nil => simp [recordsFrom]
    | append_singleton ops op ih =>
      have hinit := ih fun k => by
        have hk := hback (min k ops.length)
        rwa [take_append_of_le_length (min_le_right _ _), ← take_take, take_length] at hk
      have hlast := hback (ops ++ [op]).length
      rw [take_length] at hlast
      rw [recordsFrom_append]
      intro record hrecord
      obtain hrecord | hrecord := mem_append.mp hrecord
      · exact hinit record hrecord
      · rw [recordsFrom, recordsFrom, mem_singleton] at hrecord
        rw [hrecord]
        exact readable_of_readsBack S cipher fileGeneration policy ops op hinit hlast
  · intro h k
    refine readsBack_of_readable S cipher fileGeneration policy _ fun record hrecord => h record ?_
    rw [← take_recordsFrom] at hrecord
    exact mem_of_mem_take hrecord

theorem stops_of_too_large {record : WalRecord}
    (hlarge : maxRecordLen < (storedPayload S cipher fileGeneration record).1.length)
    (hfield : (storedPayload S cipher fileGeneration record).1.length < 2 ^ 32) :
    (walReader S cipher).Stops (recordFrame S cipher fileGeneration record) := by
  intro other rest hread
  obtain ⟨f, hf, -⟩ := (readRecord_eq_ok_iff S cipher _ _ _).mp ((walReader_read_eq_record_iff S cipher _ _ _).mp hread)
  have hmod := payload_length_of_readFrame hf
  have hle := (length_of_readFrame hf).1
  rw [mod_eq_of_lt hfield] at hmod
  omega

def longText : String := String.ofList (List.replicate 104857601 'a')

def longBatch : WalOperation := propertyBatch (.string longText)

def longLibraries : Serde := sampleLibraries [propertyDocument (.obj [("String", .str longText)])]

theorem length_render_propertyDocument (text : String) :
    ((propertyDocument (.obj [("String", .str text)])).render fun _ => "1.5").length = 143 + text.toList.length := by
  have hone : (Int.repr 1).toList.length = 1 := by decide
  have hfive : (Int.repr 5).toList.length = 1 := by decide
  simp [propertyDocument, Json.render, Json.renderFields, Json.renderItems, Json.ascii, hone, hfive]
  omega

/-- `append` accepts the batch, and `replay` finds nothing and empties the file. -/
theorem longBatch_not_read_back :
    ((freshLog longLibraries none 0 .always [longBatch]).replay longLibraries none).1.records = [] ∧
      ((freshLog longLibraries none 0 .always [longBatch]).replay longLibraries none).2.file = [] ∧
      ¬ ReadsBack longLibraries none 0 .always [longBatch] := by
  have hlength : (storedPayload longLibraries none 0 ⟨1, longBatch, 1⟩).1.length = 104857744 := by
    have htext : longText.toList.length = 104857601 :=
      (congrArg length String.toList_ofList).trans length_replicate
    exact (length_render_propertyDocument longText).trans (congrArg (143 + ·) htext)
  have hstops : (walReader longLibraries none).Stops (recordFrame longLibraries none 0 ⟨1, longBatch, 1⟩) :=
    stops_of_too_large _ _ _ (by rw [hlength]; decide) (by rw [hlength]; decide)
  have hfile : (freshLog longLibraries none 0 .always [longBatch]).file =
      recordFrame longLibraries none 0 ⟨1, longBatch, 1⟩ := by
    rw [freshLog_file, recordsFrom, recordsFrom, flatMap_singleton]
  have hreplay := replayDir_frames longLibraries none 0 [] (by simp) hstops
  rw [if_neg (by rw [recordFrame, length_frame]; omega), flatMap_nil, nil_append, ← hfile] at hreplay
  have hnil : dedup none (sortBySeq []) = ⟨[], false, []⟩ := dedup_sortBySeq_recordsFrom 1 []
  rw [hnil] at hreplay
  refine ⟨?_, ?_, ?_⟩
  · simp [replay, sync_file, hreplay]
  · simp [replay, sync_file, hreplay]
  · intro hback
    have hrecords := hback.1
    simp only [replay, sync_file, hreplay, recordsFrom] at hrecords
    injection hrecords with hrecords
    cases hrecords

/-! ### Normalising what was read -/

/-- The first of the numbers that are missing between two that are there. -/
def FirstMissing (numbers : List Nat) (gap : Nat) : Prop :=
  gap ∉ numbers ∧ (∃ n ∈ numbers, gap = n + 1) ∧ ∃ n ∈ numbers, gap < n

structure Normalised (records : List WalRecord) (result : WalReplayResult) : Prop where
  rising : result.records.Pairwise (·.seqNo < ·.seqNo)
  first : ∀ n, result.records.find? (·.seqNo = n) = records.find? (·.seqNo = n)
  duplicates : result.hadDuplicates = true ↔ ¬ (records.map WalRecord.seqNo).Nodup
  gaps : ∀ gap, gap ∈ result.gaps ↔ FirstMissing (records.map WalRecord.seqNo) gap
  gaps_rising : result.gaps.Pairwise (· < ·)

theorem normalised_dedup {record : WalRecord} {rest : List WalRecord}
    (hsorted : (record :: rest).Pairwise (·.seqNo ≤ ·.seqNo)) :
    Normalised (record :: rest) (dedup none (record :: rest)) := by
  induction rest generalizing record with
  | nil =>
    refine ⟨?_, ?_, ?_, ?_, ?_⟩ <;> simp [dedup, FirstMissing]
    omega
  | cons next rest ih =>
    rw [pairwise_cons, pairwise_cons] at hsorted
    obtain ⟨hrecord, hnext, hrest⟩ := hsorted
    have hle := hrecord next mem_cons_self
    by_cases heq : next.seqNo = record.seqNo
    · obtain ⟨hrising, hfirst, -, hgaps, hgapsRising⟩ := ih (pairwise_cons.mpr ⟨fun r hr => heq ▸ hnext r hr, hrest⟩)
      simp only [dedup, if_pos heq] at hrising hfirst hgaps hgapsRising ⊢
      refine ⟨hrising, fun n => ?_, ?_, fun gap => ?_, hgapsRising⟩
      · rw [hfirst]
        grind
      · simp [heq]
      · simp [hgaps, FirstMissing, heq]
    · obtain ⟨hrising, hfirst, hduplicates, hgaps, hgapsRising⟩ := ih (pairwise_cons.mpr ⟨hnext, hrest⟩)
      have hlt : ∀ r ∈ next :: rest, record.seqNo < r.seqNo := by
        grind
      have hmissing : ∀ gap, FirstMissing ((record :: next :: rest).map WalRecord.seqNo) gap ↔
          gap = record.seqNo + 1 ∧ record.seqNo + 1 < next.seqNo ∨
            FirstMissing ((next :: rest).map WalRecord.seqNo) gap := by
        simp only [FirstMissing, mem_map]
        grind
      have hlater : ∀ gap, FirstMissing ((next :: rest).map WalRecord.seqNo) gap → record.seqNo + 1 < gap := by
        simp only [FirstMissing, mem_map]
        grind
      simp only [dedup, if_neg heq] at hrising hfirst hduplicates hgaps hgapsRising ⊢
      refine ⟨pairwise_cons.mpr ⟨?_, hrising⟩, fun n => ?_, ?_, fun gap => ?_, ?_⟩
      · have hbehind := (pairwise_cons.mp hrising).1
        grind
      · simp only [find?_cons (a := record), hfirst]
      · rw [hduplicates, map_cons (a := record), nodup_cons]
        grind
      · rw [hmissing, ← hgaps]
        grind
      · split
        · exact pairwise_cons.mpr ⟨fun gap hgap => hlater gap ((hgaps gap).mp hgap), hgapsRising⟩
        · exact hgapsRising

theorem find?_sortBySeq (records : List WalRecord) (n : Nat) :
    (sortBySeq records).find? (·.seqNo = n) = records.find? (·.seqNo = n) := by
  have hsublist : records.filter (·.seqNo = n) <+ sortBySeq records := by
    refine sublist_mergeSort (by grind) (by grind) (Pairwise.imp_of_mem ?_ (pairwise_of_forall fun _ _ => trivial)) filter_sublist
    grind
  have hfilter := hsublist.filter (·.seqNo = n)
  simp only [filter_filter, Bool.and_self] at hfilter
  rw [← head?_filter, ← head?_filter, ← hfilter.eq_of_length ((mergeSort_perm _ _).filter _).length_eq.symm]

/-- **Replay normalises what it has read**: of each number the first record, in their order, with
what is missing between them. -/
theorem normalised_dedup_sortBySeq (records : List WalRecord) :
    Normalised records (dedup none (sortBySeq records)) := by
  have hsorted : (sortBySeq records).Pairwise (·.seqNo ≤ ·.seqNo) :=
    (pairwise_mergeSort (by grind) (by grind) records).imp of_decide_eq_true
  have hperm : (sortBySeq records).map WalRecord.seqNo ~ records.map WalRecord.seqNo :=
    (mergeSort_perm _ _).map _
  have hnormalised : Normalised (sortBySeq records) (dedup none (sortBySeq records)) := by
    cases hcases : sortBySeq records with
    | nil => refine ⟨?_, ?_, ?_, ?_, ?_⟩ <;> simp [dedup, FirstMissing]
    | cons record rest => exact normalised_dedup (hcases ▸ hsorted)
  obtain ⟨hrising, hfirst, hduplicates, hgaps, hgapsRising⟩ := hnormalised
  refine ⟨hrising, fun n => (hfirst n).trans (find?_sortBySeq records n), ?_, fun gap => ?_, hgapsRising⟩
  · rw [hduplicates, hperm.nodup_iff]
  · simp only [hgaps, FirstMissing, hperm.mem_iff]

end Nexora

import Nexora.Wal.Codec
import Nexora.Lib.Framed
import Mathlib.Data.List.Sort

/-!
# The write-ahead log

`wal/log.rs`: how a record is framed and read back, how a directory is replayed, and the log with
its sync policies, its watermark and its truncation. The file is the list of the bytes that were
written, the first `synced` of them on stable storage. Failing system calls are not modelled.
-/

namespace Nexora
open Lib List

/-! ### Payload encryption -/

structure Cipher where
  encrypt : List UInt8 → List UInt8 → List UInt8
  decrypt : List UInt8 → List UInt8 → Option (List UInt8)

/-- The file generation in four bytes, then the sequence number in eight. -/
def nonceBytes (fileGeneration seqNo : Nat) : List UInt8 := toBe 4 fileGeneration ++ toBe 8 seqNo

def encryptPayload (cipher : Cipher) (plaintext : List UInt8) (fileGeneration seqNo : Nat) :
    List UInt8 :=
  nonceBytes fileGeneration seqNo ++ cipher.encrypt (nonceBytes fileGeneration seqNo) plaintext

def decryptPayload (cipher : Cipher) (encrypted : List UInt8) : Except String (List UInt8) :=
  if encrypted.length < 12 + 16 then
    .error ("encrypted payload too short: " ++ toString encrypted.length ++ " bytes (need at least 28)")
  else
    match cipher.decrypt (encrypted.take 12) (encrypted.drop 12) with
    | some plaintext => .ok plaintext
    | none => .error "decryption failed (wrong key or corrupted data): aead::Error"

/-! ### Frames -/

/-- The bytes `append` writes for a payload. Both lengths are narrowed to 32 bits. -/
def frame (payload : List UInt8) (originalLen : Nat) : List UInt8 :=
  walMagicFb ++ (toBe 4 payload.length ++ (toBe 4 originalLen ++ (payload ++
    (toBe 4 (crc32 payload).toNat ++ [walStopMarker]))))

variable (S : Serde)

/-- The payload of a record and the length stored beside it, zero for a payload that is not
encrypted. -/
def storedPayload (cipher : Option Cipher) (fileGeneration : Nat) (record : WalRecord) :
    List UInt8 × Nat :=
  let fbData := encodeWalRecordFb S record
  match cipher with
  | some c => (encryptPayload c fbData fileGeneration record.seqNo, fbData.length)
  | none => (fbData, 0)

def recordFrame (cipher : Option Cipher) (fileGeneration : Nat) (record : WalRecord) : List UInt8 :=
  frame (storedPayload S cipher fileGeneration record).1 (storedPayload S cipher fileGeneration record).2

inductive WalReadError where
  | eof
  | crcMismatch (expected actual : UInt32)
  | truncated
  | io
  | invalidData (message : String)
deriving DecidableEq

def maxRecordLen : Nat := 100 * 1024 * 1024

def prettyBytes (bytes : List UInt8) : String :=
  "[\n" ++ String.join (bytes.map fun b => "    0x" ++ hexByte b ++ ",\n") ++ "]"

structure RawFrame where
  magic : List UInt8
  originalLen : Nat
  payload : List UInt8
deriving DecidableEq

/-- The first half of `read_record`: everything up to the stop marker. -/
def readFrame (bytes : List UInt8) : Except WalReadError (RawFrame × List UInt8) :=
  match readExact 2 bytes with
  | none => .error .eof
  | some (magic, bytes) =>
    if magic ≠ walMagicJson ∧ magic ≠ walMagicFb then .error (.invalidData ("Bad magic: " ++ prettyBytes magic))
    else match readExact 4 bytes with
    | none => .error .io
    | some (lengthBytes, bytes) =>
      if ofBe lengthBytes > maxRecordLen then
        .error (.invalidData ("Record too large: " ++ toString (ofBe lengthBytes) ++ " bytes"))
      else match readExact 4 bytes with
      | none => .error .io
      | some (originalLenBytes, bytes) =>
        match readExact (ofBe lengthBytes) bytes with
        | none => .error .truncated
        | some (payload, bytes) =>
          match readExact 4 bytes with
          | none => .error .truncated
          | some (crcBytes, bytes) =>
            if UInt32.ofNat (ofBe crcBytes) ≠ crc32 payload then
              .error (.crcMismatch (UInt32.ofNat (ofBe crcBytes)) (crc32 payload))
            else match readExact 1 bytes with
            | none => .error .io
            | some (stop, bytes) =>
              if stop ≠ [walStopMarker] then
                .error (.invalidData ("Bad stop marker: 0x" ++ String.join (stop.map hexByte)))
              else .ok (⟨magic, ofBe originalLenBytes, payload⟩, bytes)

/-- A stored original length says that the payload is encrypted. -/
def openPayload (cipher : Option Cipher) (f : RawFrame) : Except String (List UInt8) :=
  match cipher with
  | some c => if f.originalLen > 0 then decryptPayload c f.payload else .ok f.payload
  | none => .ok f.payload

/-- The second half of `read_record`: decryption and decoding. -/
def decodeFrame (cipher : Option Cipher) (f : RawFrame) : Except WalReadError WalRecord :=
  match openPayload cipher f with
  | .error e => .error (.invalidData ("Decryption failed: " ++ e))
  | .ok payload =>
    match decodeWalRecordAuto S f.magic payload 0 with
    | .error e => .error (.invalidData e)
    | .ok record => .ok record

def readRecord (cipher : Option Cipher) (bytes : List UInt8) :
    Except WalReadError (WalRecord × List UInt8) :=
  match readFrame bytes with
  | .error e => .error e
  | .ok (f, rest) =>
    match decodeFrame S cipher f with
    | .error e => .error e
    | .ok record => .ok (record, rest)

/-! ### Which bytes are a frame -/

theorem readFrame_eq_eof_iff (bytes : List UInt8) :
    readFrame bytes = .error .eof ↔ bytes.length < 2 := by
  rw [← readExact_eq_none_iff]
  unfold readFrame
  constructor
  · intro h
    repeat' split at h
    all_goals first | assumption | cases h
  · intro h
    rw [h]

/-- The bytes of a frame, field by field, with what the reader checks of them. -/
structure FrameBytes (bytes : List UInt8) (f : RawFrame) (rest : List UInt8) where
  lengthBytes : List UInt8
  originalLenBytes : List UInt8
  crcBytes : List UInt8
  length_lengthBytes : lengthBytes.length = 4
  length_originalLenBytes : originalLenBytes.length = 4
  length_crcBytes : crcBytes.length = 4
  magic : f.magic = walMagicJson ∨ f.magic = walMagicFb
  length_le : f.payload.length ≤ maxRecordLen
  ofBe_lengthBytes : ofBe lengthBytes = f.payload.length
  ofBe_originalLenBytes : ofBe originalLenBytes = f.originalLen
  ofBe_crcBytes : UInt32.ofNat (ofBe crcBytes) = crc32 f.payload
  bytes_eq : bytes = f.magic ++ (lengthBytes ++ (originalLenBytes ++ (f.payload ++
    (crcBytes ++ ([walStopMarker] ++ rest)))))

variable {bytes : List UInt8} {rest : List UInt8} {f : RawFrame}

theorem readFrame_of_frameBytes (h : FrameBytes bytes f rest) :
    readFrame bytes = .ok (f, rest) := by
  obtain ⟨lengthBytes, originalLenBytes, crcBytes, hl, ho, hc, hmagic, hle, hlen, horig, hcrc, rfl⟩ := h
  have hmagicLen : f.magic.length = 2 := by
    obtain h | h := hmagic <;> rw [h] <;> rfl
  have hmagicOk : ¬ (f.magic ≠ walMagicJson ∧ f.magic ≠ walMagicFb) := by tauto
  have hfits : ¬ f.payload.length > maxRecordLen := by omega
  have hstop : readExact 1 ([walStopMarker] ++ rest) = some ([walStopMarker], rest) :=
    readExact_append [walStopMarker] rest
  simp only [readFrame, readExact_append_of_length hmagicLen, if_neg hmagicOk, readExact_append_of_length hl, hlen,
    if_neg hfits, readExact_append_of_length ho, readExact_append_of_length (rfl : f.payload.length = _),
    readExact_append_of_length hc, hcrc, ne_eq, not_true, if_false, horig, hstop]

section
variable (h : readFrame bytes = .ok (f, rest))
include h

theorem frameBytes_of_readFrame : Nonempty (FrameBytes bytes f rest) := by
  unfold readFrame at h
  split at h
  · cases h
  next magic b1 h1 =>
  split at h
  · cases h
  next hmagic =>
  split at h
  · cases h
  next lengthBytes b2 h2 =>
  split at h
  · cases h
  next hfits =>
  split at h
  · cases h
  next originalLenBytes b3 h3 =>
  split at h
  · cases h
  next payload b4 h4 =>
  split at h
  · cases h
  next crcBytes b5 h5 =>
  split at h
  · cases h
  next hcrc =>
  split at h
  · cases h
  next stop b6 h6 =>
  split at h
  · cases h
  next hstop =>
  cases h
  obtain ⟨rfl, -⟩ := readExact_eq_some h1
  obtain ⟨rfl, hl⟩ := readExact_eq_some h2
  obtain ⟨rfl, ho⟩ := readExact_eq_some h3
  obtain ⟨rfl, hp⟩ := readExact_eq_some h4
  obtain ⟨rfl, hc⟩ := readExact_eq_some h5
  obtain ⟨rfl, -⟩ := readExact_eq_some h6
  have hstop' : stop = [walStopMarker] := not_not.mp hstop
  refine ⟨⟨lengthBytes, originalLenBytes, crcBytes, hl, ho, hc, ?_, ?_, hp.symm, rfl, not_not.mp hcrc, ?_⟩⟩
  · tauto
  · change payload.length ≤ maxRecordLen
    omega
  · rw [hstop']

theorem readFrame_extend (more : List UInt8) :
    readFrame (bytes ++ more) = .ok (f, rest ++ more) := by
  obtain ⟨b⟩ := frameBytes_of_readFrame h
  refine readFrame_of_frameBytes { b with bytes_eq := ?_ }
  simp [congrArg (· ++ more) b.bytes_eq]

theorem length_of_readFrame :
    f.payload.length ≤ maxRecordLen ∧ bytes.length = 15 + f.payload.length + rest.length := by
  obtain ⟨b⟩ := frameBytes_of_readFrame h
  have hmagicLen : f.magic.length = 2 := by
    obtain h | h := b.magic <;> rw [h] <;> rfl
  have hlen := congrArg length b.bytes_eq
  simp only [length_append, hmagicLen, b.length_lengthBytes, b.length_originalLenBytes, b.length_crcBytes,
    length_singleton] at hlen
  exact ⟨b.length_le, by omega⟩

end

theorem length_frame (payload : List UInt8) (originalLen : Nat) :
    (frame payload originalLen).length = 15 + payload.length := by
  simp only [frame, walMagicFb, length_append, length_cons, length_nil, length_toBe]
  omega

theorem readFrame_frame (payload : List UInt8) (originalLen : Nat)
    (h : payload.length ≤ maxRecordLen) (tail : List UInt8) :
    readFrame (frame payload originalLen ++ tail) = .ok (⟨walMagicFb, originalLen % 2 ^ 32, payload⟩, tail) := by
  refine readFrame_of_frameBytes
    ⟨toBe 4 payload.length, toBe 4 originalLen, toBe 4 (crc32 payload).toNat, length_toBe _ _, length_toBe _ _,
      length_toBe _ _, Or.inr rfl, h, ?_, ?_, ?_, ?_⟩
  · rw [ofBe_toBe]
    exact Nat.mod_eq_of_lt (lt_of_le_of_lt h (by decide))
  · exact ofBe_toBe 4 originalLen
  · simp [ofBe_toBe]
  · simp [frame]

/-! ### Records as items of a framed log -/

variable (S : Serde)

theorem decodeFrame_ne_eof (cipher : Option Cipher) (f : RawFrame) :
    decodeFrame S cipher f ≠ .error .eof := by
  intro h
  unfold decodeFrame at h
  split at h
  · cases h
  · split at h <;> cases h

section
variable (cipher : Option Cipher) (bytes : List UInt8)

theorem readRecord_eq_ok_iff (record : WalRecord) (rest : List UInt8) :
    readRecord S cipher bytes = .ok (record, rest) ↔
      ∃ f, readFrame bytes = .ok (f, rest) ∧ decodeFrame S cipher f = .ok record := by
  unfold readRecord
  constructor
  · intro h
    split at h
    · cases h
    next f rest' hf =>
    split at h
    · cases h
    next record' hd =>
    cases h
    exact ⟨f, hf, hd⟩
  · rintro ⟨f, hf, hd⟩
    rw [hf]
    simp [hd]

theorem readRecord_eq_eof_iff : readRecord S cipher bytes = .error .eof ↔ bytes.length < 2 := by
  rw [← readFrame_eq_eof_iff]
  unfold readRecord
  constructor
  · intro h
    split at h
    · next e he =>
      cases h
      exact he
    next f rest hf =>
    split at h
    · next e he =>
      cases h
      exact absurd he (decodeFrame_ne_eof S cipher f)
    · cases h
  · intro h
    rw [h]

/-- `read_record` as the reader of a framed log: every error but `Eof` makes the replay cut the
file. -/
def walReader (cipher : Option Cipher) : Reader WalRecord UInt8 where
  read := fun bytes =>
    match readRecord S cipher bytes with
    | .ok (record, rest) => .record record rest
    | .error .eof => .eof
    | .error _ => .bad
  header := 2
  header_pos := by decide
  extend := by
    intro bytes more record rest h
    have hok : readRecord S cipher bytes = .ok (record, rest) := by
      split at h
      · next record' rest' heq =>
        cases h
        exact heq
      · cases h
      · cases h
    obtain ⟨f, hf, hd⟩ := (readRecord_eq_ok_iff S cipher bytes record rest).mp hok
    have hmore := (readRecord_eq_ok_iff S cipher (bytes ++ more) record (rest ++ more)).mpr
      ⟨f, readFrame_extend hf more, hd⟩
    rw [hmore]
  eof_iff := by
    intro bytes
    rw [← readRecord_eq_eof_iff S cipher]
    constructor
    · intro h
      split at h
      · cases h
      · assumption
      · cases h
    · intro h
      rw [h]

theorem walReader_read_eq_record_iff (record : WalRecord) (rest : List UInt8) :
    (walReader S cipher).read bytes = .record record rest ↔ readRecord S cipher bytes = .ok (record, rest) := by
  constructor
  · intro h
    simp only [walReader] at h
    split at h
    · next record' rest' heq =>
      cases h
      exact heq
    · cases h
    · cases h
  · intro h
    simp [walReader, h]

end

/-! ### Replaying a directory -/

structure WalReplayResult where
  records : List WalRecord
  hadDuplicates : Bool
  gaps : List Nat

/-- The loop over the sorted records: the sequence number of the last one that was kept is carried
along. -/
def dedup : Option Nat → List WalRecord → WalReplayResult
  | _, [] => ⟨[], false, []⟩
  | none, record :: rest =>
      let result := dedup (some record.seqNo) rest
      ⟨record :: result.records, result.hadDuplicates, result.gaps⟩
  | some prevSeq, record :: rest =>
      if record.seqNo = prevSeq then
        let result := dedup (some prevSeq) rest
        ⟨result.records, true, result.gaps⟩
      else
        let result := dedup (some record.seqNo) rest
        ⟨record :: result.records, result.hadDuplicates,
          if record.seqNo > prevSeq + 1 then (prevSeq + 1) :: result.gaps else result.gaps⟩

def sortBySeq (records : List WalRecord) : List WalRecord :=
  records.mergeSort fun a b => decide (a.seqNo ≤ b.seqNo)

/-- `replay_dir_with_key`: the records of the file, and the file itself, cut behind the last record
that could be read unless the reader took its end for the end of the file. A file that does not
exist is an empty one. -/
def replayDir (cipher : Option Cipher) (file : List UInt8) : WalReplayResult × List UInt8 :=
  let scan := (walReader S cipher).scan (file.length + 1) file
  (dedup none (sortBySeq scan.records), if scan.clean then file else file.take (file.length - scan.rest.length))

def findMaxSeq (result : WalReplayResult) : Nat := (result.records.map WalRecord.seqNo).max?.getD 0

/-! ### The log -/

/-- A `tokio::sync::watch` channel: its value and how many receivers are subscribed. -/
structure WatchChannel where
  value : Nat
  receivers : Nat
deriving DecidableEq

namespace WatchChannel

/-- `watch::channel(0)` whose first receiver is dropped at once. -/
def new : WatchChannel := ⟨0, 0⟩

variable (c : WatchChannel)

/-- `send` fails, and leaves the value, when nobody is subscribed. -/
def send (value : Nat) : WatchChannel := if c.receivers = 0 then c else { c with value := value }

def subscribe : WatchChannel := { c with receivers := c.receivers + 1 }

def unsubscribe : WatchChannel := { c with receivers := c.receivers - 1 }

end WatchChannel

inductive WalSyncPolicy where
  | always
  | everyN (n : Nat)
  | never
  | group (maxOps : Nat) (maxBytes : Option Nat)
deriving DecidableEq

structure WriteAheadLog where
  file : List UInt8
  synced : Nat
  nextSeq : Nat
  syncPolicy : WalSyncPolicy
  opsSinceSync : Nat
  bytesSinceSync : Nat
  fileGeneration : Nat
  group : Option WatchChannel
deriving DecidableEq

def makeGroup : WalSyncPolicy → Option WatchChannel
  | .group _ _ => some .new
  | _ => none

namespace WriteAheadLog
variable (S : Serde)

/-- `open_with_options` on a directory with this log file and this generation beside it. Nothing is
synced by it. -/
def openWithOptions (cipher : Option Cipher) (policy : WalSyncPolicy) (file : List UInt8)
    (fileGeneration : Nat) : WriteAheadLog where
  file := (replayDir S cipher file).2
  synced := 0
  nextSeq := findMaxSeq (replayDir S cipher file).1 + 1
  syncPolicy := policy
  opsSinceSync := 0
  bytesSinceSync := 0
  fileGeneration := fileGeneration
  group := makeGroup policy

variable (w : WriteAheadLog)

def flush : WriteAheadLog := { w with synced := w.file.length }

def resetCounters : WriteAheadLog := { w with opsSinceSync := 0, bytesSinceSync := 0 }

def sync : WriteAheadLog := w.flush.resetCounters

def lastSeq : Nat := w.nextSeq - 1

def publish (seq : Nat) : WriteAheadLog := { w with group := w.group.map (·.send seq) }

def write (cipher : Option Cipher) (w : WriteAheadLog) (operation : WalOperation) : WriteAheadLog :=
  let record : WalRecord := ⟨w.nextSeq, operation, w.nextSeq⟩
  { w with
    file := w.file ++ recordFrame S cipher w.fileGeneration record
    nextSeq := w.nextSeq + 1
    opsSinceSync := w.opsSinceSync + 1
    bytesSinceSync := w.bytesSinceSync + (15 + (storedPayload S cipher w.fileGeneration record).1.length) }

def overBudget (maxOps : Nat) (maxBytes : Option Nat) : Bool :=
  w.opsSinceSync ≥ maxOps || maxBytes.any (w.bytesSinceSync ≥ ·)

def applyPolicy (seq : Nat) : WriteAheadLog :=
  match w.syncPolicy with
  | .always => w.flush
  | .everyN n => if w.opsSinceSync ≥ n then w.sync else w
  | .never => w
  | .group maxOps maxBytes => if w.overBudget maxOps maxBytes then w.sync.publish seq else w

/-- `append`: the log afterwards and the sequence number of the record. -/
def append (cipher : Option Cipher) (w : WriteAheadLog) (operation : WalOperation) :
    WriteAheadLog × Nat :=
  ((w.write S cipher operation).applyPolicy w.nextSeq, w.nextSeq)

/-- `durable_receiver`: the committer subscribes to the watermark. -/
def durableReceiver : WriteAheadLog := { w with group := w.group.map (·.subscribe) }

def flusherTick : WriteAheadLog :=
  if w.opsSinceSync > 0 then w.sync.publish w.lastSeq else w

def replay (cipher : Option Cipher) (w : WriteAheadLog) : WalReplayResult × WriteAheadLog :=
  ((replayDir S cipher w.sync.file).1,
    { w.sync with file := (replayDir S cipher w.sync.file).2, synced := (replayDir S cipher w.sync.file).2.length })

def removeFile : WriteAheadLog := { w with file := [], synced := 0 }

def bumpGeneration : WriteAheadLog :=
  { w with fileGeneration := (w.fileGeneration + 1) % 2 ^ 32 }

def reopenFile : WriteAheadLog := { w with nextSeq := 1 }

/-- `truncate`: the file is removed and created anew, the generation goes up and the sequence
numbers start again. The counters and the watermark stay as they are. -/
def truncate : WriteAheadLog := w.removeFile.bumpGeneration.reopenFile

end WriteAheadLog
end Nexora

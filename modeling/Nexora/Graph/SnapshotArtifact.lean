import Nexora.Lib.Numeral
import Nexora.Graph.Shard
import Nexora.Wal.CodecRoundTrip

/-!
# The bytes of a node snapshot

`serialize_snapshot` writes MessagePack behind a magic byte and, behind a newline, a manifest with
its length and checksum (`snapshot_manifest.rs`). The reader looks for the last newline, and takes
bytes without a manifest as they are. A torn artifact is refused because MessagePack says in front
how much follows.
-/

namespace Nexora
open Lib List

inductive ChecksumKind where
  | crc32
  | blake3

inductive SnapshotKind where
  | node
  | shard
  | streamCheckpoint
  | databaseBackup

structure SnapshotManifest where
  formatVersion : Nat
  kind : SnapshotKind
  lastTxId : Nat
  createdAtMs : Nat
  payloadLen : Nat
  checksumKind : ChecksumKind
  checksum : String

/-- The libraries: `rmp-serde` and `serde_json` on the `SnapshotData` of a state, `serde_json` on
manifests, and the digits of a `blake3` hash. `msgpackDepth` is the nesting that the reader of
`rmp-serde` counts. -/
structure SnapshotSerde where
  msgpackWrite : NodeState → Except String (List UInt8)
  msgpackFromSlice : List UInt8 → Except String NodeState
  msgpackDepth : NodeState → Nat
  jsonFromSlice : List UInt8 → Except String NodeState
  manifestToString : SnapshotManifest → List UInt8
  manifestFromSlice : List UInt8 → Option SnapshotManifest
  blake3Hex : List UInt8 → String

variable (S : SnapshotSerde)

def computeChecksum (payload : List UInt8) : ChecksumKind → String
  | .crc32 => String.ofList ((fixedNumeral 16 8 (crc32 payload).toNat).map fun digit => Char.ofNat digit.toNat)
  | .blake3 => S.blake3Hex payload

namespace SnapshotManifest

def forPayload (now : Nat) (snapshotKind : SnapshotKind) (lastTxId : Nat) (payload : List UInt8)
    (checksumKind : ChecksumKind) : SnapshotManifest where
  formatVersion := 1
  kind := snapshotKind
  lastTxId := lastTxId
  createdAtMs := now
  payloadLen := payload.length
  checksumKind := checksumKind
  checksum := computeChecksum S payload checksumKind

def verify (manifest : SnapshotManifest) (payload : List UInt8) : Except String Unit :=
  if payload.length ≠ manifest.payloadLen then
    .error ("snapshot payload length mismatch: manifest=" ++ toString manifest.payloadLen ++ ", actual=" ++
      toString payload.length)
  else
    let actual := computeChecksum S payload manifest.checksumKind
    if actual ≠ manifest.checksum then
      .error ("snapshot checksum mismatch: manifest=" ++ manifest.checksum ++ ", actual=" ++ actual)
    else .ok ()

end SnapshotManifest

def snapshotMagicMsgpack : UInt8 := 0xF5

def newline : UInt8 := 0x0A

def nodeManifest (now : Nat) (payload : List UInt8) : SnapshotManifest :=
  .forPayload S now .node 0 payload .crc32

def serializeSnapshot (now : Nat) (state : NodeState) : Except String (List UInt8) :=
  match S.msgpackWrite state with
  | .error e => .error ("msgpack encode error: " ++ e)
  | .ok data =>
    let payload := snapshotMagicMsgpack :: data
    .ok (payload ++ newline :: S.manifestToString (nodeManifest S now payload))

def rposition (b : UInt8) (data : List UInt8) : Option Nat :=
  (data.reverse.findIdx? (· == b)).map fun i => data.length - 1 - i

def splitManifest (data : List UInt8) : List UInt8 × Option SnapshotManifest :=
  match rposition newline data with
  | some pos =>
    match S.manifestFromSlice (data.drop (pos + 1)) with
    | some manifest => (data.take pos, some manifest)
    | none => (data, none)
  | none => (data, none)

def decodePayload (payload : List UInt8) : Except String NodeState :=
  if payload.head? = some snapshotMagicMsgpack then
    (S.msgpackFromSlice payload.tail).mapError ("msgpack decode error: " ++ ·)
  else (S.jsonFromSlice payload).mapError ("json decode error: " ++ ·)

def deserializeSnapshot (data : List UInt8) : Except String NodeState :=
  match splitManifest S data with
  | (payload, some manifest) =>
    match manifest.verify S payload with
    | .error e => .error ("snapshot integrity check failed: " ++ e)
    | .ok () => decodePayload S payload
  | (payload, none) => decodePayload S payload

def artifactCodec (now : Nat) : SnapshotCodec := ⟨serializeSnapshot S now, deserializeSnapshot S⟩

/-- What the libraries promise about a state that is written as `data` at the time `now`.
`rmp-serde` reads what it wrote, up to its nesting limit and whatever follows; it asks for every
byte that it wrote. `serde_json` reads the manifest back and writes it on one line; an empty text is
no JSON. -/
structure SnapshotSerde.Documented (now : Nat) (state : NodeState) (data : List UInt8) : Prop where
  written : S.msgpackWrite state = .ok data
  shallow : S.msgpackDepth state < msgpackDepthLimit → ∀ rest, S.msgpackFromSlice (data ++ rest) = .ok state
  deep : ¬ S.msgpackDepth state < msgpackDepthLimit → ∀ rest, ∃ e, S.msgpackFromSlice (data ++ rest) = .error e
  short : ∀ part, part <+: data → part ≠ data → ∃ e, S.msgpackFromSlice part = .error e
  manifest : S.manifestFromSlice (S.manifestToString (nodeManifest S now (snapshotMagicMsgpack :: data))) =
    some (nodeManifest S now (snapshotMagicMsgpack :: data))
  oneLine : newline ∉ S.manifestToString (nodeManifest S now (snapshotMagicMsgpack :: data))
  noJson : ∃ e, S.jsonFromSlice [] = .error e

def StateOrError (state : NodeState) (result : Except String NodeState) : Prop :=
  result = .ok state ∨ ∃ e, result = .error e

theorem StateOrError.mapError {state : NodeState} {result : Except String NodeState}
    (f : String → String) (h : StateOrError state result) :
    StateOrError state (result.mapError f) := by
  obtain rfl | ⟨e, rfl⟩ := h
  · exact Or.inl rfl
  · exact Or.inr ⟨f e, rfl⟩

theorem rposition_of_notMem {b : UInt8} (front : List UInt8) {back : List UInt8} (h : b ∉ back) :
    rposition b (front ++ b :: back) = some front.length := by
  have hback : back.reverse.findIdx? (· == b) = none := by
    rw [findIdx?_eq_none_iff]
    intro c hc
    have hne : c ≠ b := fun heq => h (heq ▸ mem_reverse.mp hc)
    exact beq_eq_false_iff_ne.mpr hne
  simp [rposition, findIdx?_append, hback, findIdx?_cons]

theorem deserializeSnapshot_cases (data : List UInt8) :
    (∃ e, deserializeSnapshot S data = .error e) ∨
      ∃ payload, payload <+: data ∧ deserializeSnapshot S data = decodePayload S payload := by
  have hfront : (splitManifest S data).1 <+: data := by
    unfold splitManifest
    split
    · split
      · exact take_prefix _ data
      · exact prefix_rfl
    · exact prefix_rfl
  unfold deserializeSnapshot
  generalize splitManifest S data = split at hfront ⊢
  obtain ⟨payload, _ | manifest⟩ := split
  · exact Or.inr ⟨payload, hfront, rfl⟩
  · dsimp only
    cases manifest.verify S payload with
    | error e => exact Or.inl ⟨_, rfl⟩
    | ok u => exact Or.inr ⟨payload, hfront, rfl⟩

section Artifact
variable {S} {now : Nat} {state : NodeState} {data : List UInt8}
section
variable (hS : S.Documented now state data)
include hS

theorem serializeSnapshot_eq : serializeSnapshot S now state =
    .ok (snapshotMagicMsgpack :: data ++ newline :: S.manifestToString (nodeManifest S now (snapshotMagicMsgpack :: data))) := by
  simp only [serializeSnapshot, hS.written]

theorem deserializeSnapshot_eq : deserializeSnapshot S
      (snapshotMagicMsgpack :: data ++ newline :: S.manifestToString (nodeManifest S now (snapshotMagicMsgpack :: data))) =
    (S.msgpackFromSlice data).mapError ("msgpack decode error: " ++ ·) := by
  have hsplit := rposition_of_notMem (snapshotMagicMsgpack :: data) hS.oneLine
  have hback := hS.manifest
  generalize S.manifestToString (nodeManifest S now (snapshotMagicMsgpack :: data)) = text at hsplit hback ⊢
  have hdrop : (snapshotMagicMsgpack :: data ++ newline :: text).drop ((snapshotMagicMsgpack :: data).length + 1) = text := by
    rw [append_cons]
    exact drop_left' (by simp)
  have hverify : (nodeManifest S now (snapshotMagicMsgpack :: data)).verify S (snapshotMagicMsgpack :: data) = .ok () := by
    simp [nodeManifest, SnapshotManifest.verify, SnapshotManifest.forPayload]
  simp only [deserializeSnapshot, splitManifest, hsplit, hdrop, hback, take_left, hverify]
  rfl

variable {part rest : List UInt8}

/-- Of what `rmp-serde` wrote it reads the whole or nothing. -/
theorem msgpackFromSlice_part (h : part <+: data ++ rest) :
    StateOrError state (S.msgpackFromSlice part) := by
  obtain hshort | ⟨extra, rfl⟩ := prefix_or_prefix_of_prefix h (prefix_append data rest)
  · by_cases heq : part = data
    · have hwhole : S.msgpackFromSlice part = S.msgpackFromSlice (data ++ []) := by rw [heq, append_nil]
      rw [hwhole]
      by_cases hdepth : S.msgpackDepth state < msgpackDepthLimit
      · exact Or.inl (hS.shallow hdepth [])
      · exact Or.inr (hS.deep hdepth [])
    · exact Or.inr (hS.short part hshort heq)
  · by_cases hdepth : S.msgpackDepth state < msgpackDepthLimit
    · exact Or.inl (hS.shallow hdepth extra)
    · exact Or.inr (hS.deep hdepth extra)

theorem decodePayload_part (h : part <+: snapshotMagicMsgpack :: data ++ rest) :
    StateOrError state (decodePayload S part) := by
  cases part with
  | nil =>
    obtain ⟨e, he⟩ := hS.noJson
    refine Or.inr ⟨"json decode error: " ++ e, ?_⟩
    simp [decodePayload, he, Except.mapError]
  | cons b part =>
    obtain ⟨rfl, hpart⟩ := cons_prefix_cons.mp h
    rw [decodePayload, if_pos (head?_cons ..)]
    exact (msgpackFromSlice_part hS hpart).mapError _

theorem deserializeSnapshot_part (h : part <+: snapshotMagicMsgpack :: data ++ rest) :
    StateOrError state (deserializeSnapshot S part) := by
  obtain herror | ⟨payload, hpayload, heq⟩ := deserializeSnapshot_cases S part
  · exact Or.inr herror
  · rw [heq]
    exact decodePayload_part hS (hpayload.trans h)

end
end Artifact

/-- **A node's snapshot is read back exactly when its values are nested less deeply than `rmp-serde`
reads; whatever part of it a torn write leaves is refused or decodes to the same state.** -/
theorem deserializeSnapshot_iff_and_torn (now : Nat) (state : NodeState) (data : List UInt8)
    (hS : S.Documented now state data) :
    ∃ bytes, (artifactCodec S now).serialize state = .ok bytes ∧
      ((artifactCodec S now).deserialize bytes = .ok state ↔ S.msgpackDepth state < msgpackDepthLimit) ∧
      ∀ part, part <+: bytes → part ≠ bytes → StateOrError state ((artifactCodec S now).deserialize part) := by
  refine ⟨_, serializeSnapshot_eq hS, ?_, fun part hpart _ => deserializeSnapshot_part hS hpart⟩
  show deserializeSnapshot S _ = _ ↔ _
  rw [deserializeSnapshot_eq hS, ← append_nil data]
  by_cases hdepth : S.msgpackDepth state < msgpackDepthLimit
  · rw [hS.shallow hdepth []]
    exact iff_of_true rfl hdepth
  · obtain ⟨e, he⟩ := hS.deep hdepth []
    rw [he]
    exact iff_of_false (by simp [Except.mapError]) hdepth

/-! ### Nested lists -/

def nestedList : Nat → PropertyValue
  | 0 => .null
  | n + 1 => .list [nestedList n]

def nestedState (n : Nat) : NodeState :=
  { NodeState.empty with properties := Finmap.singleton "k" (nestedList n) }

/-- Stands for the libraries on the state with `n` lists inside one another: the array of the fields
and the map of the properties are two more levels. -/
def nestedSerde (n : Nat) : SnapshotSerde where
  msgpackWrite _ := .ok [0x96]
  msgpackFromSlice bytes :=
    if bytes.head? = some 0x96 then
      if n + 2 < msgpackDepthLimit then .ok (nestedState n) else .error "depth limit exceeded"
    else .error "failed to fill whole buffer"
  msgpackDepth _ := n + 2
  jsonFromSlice _ := .error "EOF while parsing a value at line 1 column 0"
  manifestToString manifest := numeral 10 manifest.createdAtMs
  manifestFromSlice bytes := if bytes = numeral 10 7 then some ⟨1, .node, 0, 7, 2, .crc32, "317e3176"⟩ else none
  blake3Hex _ := ""

theorem nestedSerde_documented (n : Nat) : (nestedSerde n).Documented 7 (nestedState n) [0x96] where
  written := rfl
  shallow hdepth rest := if_pos hdepth
  deep hdepth rest := ⟨_, if_neg hdepth⟩
  short part hpart hne := by
    cases part with
    | nil => exact ⟨_, rfl⟩
    | cons b part =>
      obtain ⟨rfl, hrest⟩ := cons_prefix_cons.mp hpart
      exact absurd (congrArg _ (prefix_nil.mp hrest)) hne
  manifest := by
    have hchecksum : computeChecksum (nestedSerde n) [snapshotMagicMsgpack, 0x96] .crc32 = "317e3176" := by
      show String.ofList _ = _
      decide +kernel
    rw [nodeManifest, SnapshotManifest.forPayload, hchecksum]
    show (if numeral 10 7 = numeral 10 7 then some _ else none) = some _
    exact if_pos rfl
  oneLine := by
    show newline ∉ numeral 10 7
    decide +kernel
  noJson := ⟨_, rfl⟩

theorem deserialize_nestedState_three_and_torn : ∃ bytes,
    (artifactCodec (nestedSerde 3) 7).serialize (nestedState 3) = .ok bytes ∧
      ((artifactCodec (nestedSerde 3) 7).deserialize bytes = .ok (nestedState 3) ↔ 5 < msgpackDepthLimit) ∧
      ∀ part, part <+: bytes → part ≠ bytes → StateOrError (nestedState 3)
      ((artifactCodec (nestedSerde 3) 7).deserialize part) :=
  deserializeSnapshot_iff_and_torn (nestedSerde 3) 7 (nestedState 3) [0x96] (nestedSerde_documented 3)

theorem deserialize_nestedState_of_deep {n : Nat} (h : ¬ n + 2 < msgpackDepthLimit) : ∃ bytes,
    (artifactCodec (nestedSerde n) 7).serialize (nestedState n) = .ok bytes ∧
      (artifactCodec (nestedSerde n) 7).deserialize bytes = .error "msgpack decode error: depth limit exceeded" := by
  have hread : (nestedSerde n).msgpackFromSlice [0x96] = .error "depth limit exceeded" := if_neg h
  refine ⟨_, serializeSnapshot_eq (nestedSerde_documented n), ?_⟩
  dsimp only [artifactCodec]
  rw [deserializeSnapshot_eq (nestedSerde_documented n), hread]
  rfl

/-- A node with 1024 lists inside one another is put to sleep and cannot be woken. -/
theorem deserialize_nestedState_depth_limit : ∃ bytes,
    (artifactCodec (nestedSerde 1024) 7).serialize (nestedState 1024) = .ok bytes ∧
      (artifactCodec (nestedSerde 1024) 7).deserialize bytes = .error "msgpack decode error: depth limit exceeded" :=
  deserialize_nestedState_of_deep (by decide)

end Nexora

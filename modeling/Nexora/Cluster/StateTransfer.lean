import Nexora.Cluster.TransactionCoordinator
import Nexora.Lib.JsonText

/-!
# Catching up from a snapshot

A node that has missed too much of a shard fetches a snapshot and sends its properties and edges to
itself (`nexora-zenoh/src/state_transfer.rs`). Its progress is saved as positions in the snapshot,
and the next run goes on from there in the snapshot that it fetches itself.
-/

namespace Nexora.Transfer
open Lib Nexora.Cluster List Nat

/-! ### Snapshots -/

structure NodeEntry where
  qidHex : String
  properties : List (String × Json)

structure EdgeEntry where
  sourceHex : String
  edgeType : String
  direction : String
  targetHex : String
deriving DecidableEq

/-- The nodes and edges of a shard. Its epoch and the time of the export are not looked at. -/
structure ShardSnapshot where
  shardId : Nat
  nodes : List NodeEntry
  edges : List EdgeEntry

/-! ### Identifiers in hexadecimal -/

def hexValue (byte : UInt8) (index : Nat) : Except String Nat :=
  match digitValue 16 byte with
  | some value => .ok value
  | none =>
    .error ("Invalid character '" ++ String.singleton (Char.ofNat byte.toNat) ++ "' at position " ++ toString index)

def hexPairs (index : Nat) : List UInt8 → Except String (List UInt8)
  | high :: low :: rest => do
    let h ← hexValue high index
    let l ← hexValue low (index + 1)
    let bytes ← hexPairs (index + 2) rest
    .ok (UInt8.ofNat (h * 16 + l) :: bytes)
  | _ => .ok []

def fromHex (text : String) : Except String NexoraId :=
  let digits := Json.utf8 text
  if digits.length % 2 = 0 then (hexPairs 0 digits).map NexoraId.mk else .error "Odd number of digits"

theorem hexPairs_of_bytes (index : Nat) (bytes : List UInt8) :
    hexPairs index (bytes.flatMap fun byte => fixedNumeral 16 2 byte.toNat) = .ok bytes := by
  induction bytes generalizing index with
  | nil => rfl
  | cons byte bytes ih =>
    have hbyte := byte.toNat_lt
    have hdigit : ∀ d < 16, ∀ i, hexValue (digitByte d) i = .ok d := by
      intro d hd i
      rw [hexValue, digitValue_digitByte (by decide) hd]
    have hnumeral : fixedNumeral 16 2 byte.toNat = [digitByte (byte.toNat / 16), digitByte (byte.toNat % 16)] := by
      have hhigh : byte.toNat / 16 % 16 = byte.toNat / 16 := mod_eq_of_lt (by omega)
      simp only [fixedNumeral, hhigh, nil_append, cons_append]
    have hjoin : UInt8.ofNat (byte.toNat / 16 * 16 + byte.toNat % 16) = byte := by
      rw [div_add_mod' byte.toNat 16, UInt8.ofNat_toNat]
    rw [flatMap_cons, hnumeral, cons_append, cons_append, nil_append, hexPairs,
      hdigit _ (by omega), hdigit _ (by omega), ih]
    show Except.ok (UInt8.ofNat (byte.toNat / 16 * 16 + byte.toNat % 16) :: bytes) = _
    rw [hjoin]

/-- **An identifier is read back** from its digits. -/
theorem fromHex_toHex (qid : NexoraId) : fromHex (toHex qid) = .ok qid := by
  have hascii : ∀ d < 16, String.utf8EncodeChar (Char.ofNat (digitByte d).toNat) = [digitByte d] := by decide
  have hutf8 : Json.utf8 (toHex qid) = qid.bytes.flatMap fun byte => fixedNumeral 16 2 byte.toNat := by
    unfold Json.utf8 toHex
    rw [String.toList_ofList, flatMap_map]
    refine (flatMap_congr fun digit hdigit => ?_).trans (flatMap_singleton' _)
    obtain ⟨byte, -, hbyte⟩ := mem_flatMap.mp hdigit
    obtain ⟨d, hd, rfl⟩ := mem_fixedNumeral (by decide) hbyte
    exact hascii d hd
  have heven : (qid.bytes.flatMap fun byte => fixedNumeral 16 2 byte.toNat).length % 2 = 0 := by
    rw [length_flatMap]
    simp [length_fixedNumeral]
  unfold fromHex
  rw [hutf8]
  simp only [heven, if_true, hexPairs_of_bytes]
  rfl

/-! ### Errors and results -/

inductive StateTransferError where
  | sourceUnreachable (source error : String)
  | badExport (source : String)
  | decode (error : String)
  | apply (kind qid reason : String)
  | timeout (shardId : Nat) (source : String)
  | checkpoint (error : String)
deriving DecidableEq

def StateTransferError.text : StateTransferError → String
  | .sourceUnreachable source error => "source " ++ source ++ " unreachable: " ++ error
  | .badExport source => "export from " ++ source ++ " returned an unexpected result shape"
  | .decode error => "failed to decode snapshot: " ++ error
  | .apply kind qid reason => "failed to apply " ++ kind ++ " for " ++ qid ++ ": " ++ reason
  | .timeout shardId source => "state transfer timed out fetching shard " ++ toString shardId ++ " from " ++ source
  | .checkpoint error => "checkpoint error: " ++ error

structure CatchUpResult where
  shardId : Nat
  nodesApplied : Nat
  edgesApplied : Nat
  sourceNode : String
  incremental : Bool
  opsApplied : Nat
deriving DecidableEq

structure TransferCheckpoint where
  shardId : Nat
  nodesApplied : Nat
  edgesApplied : Nat
  lastNodeIdx : Nat
  lastEdgeIdx : Nat
deriving DecidableEq

def TransferCheckpoint.new (shardId : Nat) : TransferCheckpoint := ⟨shardId, 0, 0, 0, 0⟩

/-! ### Nodes and edges as operations -/

structure ItemKind (α : Type) where
  ops : α → Except StateTransferError (List GraphOperation)
  failure : α → String → StateTransferError
  lastIdx : TransferCheckpoint → Nat
  applied : TransferCheckpoint → Nat
  advance : TransferCheckpoint → Nat → TransferCheckpoint

def nodeItem : ItemKind NodeEntry where
  ops node :=
    match fromHex node.qidHex with
    | .ok qid => .ok (node.properties.map fun entry => .setProperty qid entry.1 entry.2)
    | .error e => .error (.decode ("bad node qid " ++ node.qidHex ++ ": " ++ e))
  failure node reason := .apply "property" node.qidHex reason
  lastIdx := TransferCheckpoint.lastNodeIdx
  applied := TransferCheckpoint.nodesApplied
  advance ckpt idx := { ckpt with nodesApplied := ckpt.nodesApplied + 1, lastNodeIdx := idx + 1 }

def edgeItem : ItemKind EdgeEntry where
  ops edge :=
    match fromHex edge.sourceHex, fromHex edge.targetHex with
    | .ok source, .ok target => .ok [.addEdge source edge.edgeType target edge.direction]
    | .error e, _ => .error (.decode ("bad edge source " ++ edge.sourceHex ++ ": " ++ e))
    | .ok _, .error e => .error (.decode ("bad edge target " ++ edge.targetHex ++ ": " ++ e))
  failure edge reason := .apply "edge" (edge.sourceHex ++ "->" ++ edge.targetHex) reason
  lastIdx := TransferCheckpoint.lastEdgeIdx
  applied := TransferCheckpoint.edgesApplied
  advance ckpt idx := { ckpt with edgesApplied := ckpt.edgesApplied + 1, lastEdgeIdx := idx + 1 }

/-! ### A run -/

/-- What becomes of an operation that is sent: it is executed and answered, not executed, or
executed without an answer. -/
inductive CallOutcome where
  | done
  | refused (error : String)
  | lost (error : String)

/-- What a run meets: the answer of the source, whether the directory can be made, what becomes of
its operations and of the writes of its checkpoint, one after the other, and whether the checkpoint
is removed in the end. A run that is cut off is one whose next operation is not answered, or which
does not get to remove the checkpoint. -/
structure TransferRun where
  fetched : Except StateTransferError ShardSnapshot
  createDir : Except String Unit
  call : Nat → CallOutcome
  save : Nat → Bool
  remove : Bool

structure ShardTransfer (T : Type) where
  target : T
  file : Option TransferCheckpoint
  ckpt : TransferCheckpoint
  calls : Nat
  saves : Nat

def checkpointInterval : Nat := 10000

section
variable {T : Type} (exec : T → GraphOperation → T) (run : TransferRun)

namespace ShardTransfer

def execute (t : ShardTransfer T) (op : GraphOperation) : ShardTransfer T × Except String Unit :=
  let sent := { t with calls := t.calls + 1 }
  match run.call t.calls with
  | .done => ({ sent with target := exec t.target op }, .ok ())
  | .refused error => (sent, .error error)
  | .lost error => ({ sent with target := exec t.target op }, .error error)

def executeAll (t : ShardTransfer T) (failure : String → StateTransferError) :
    List GraphOperation → ShardTransfer T × Except StateTransferError Unit
  | [] => (t, .ok ())
  | op :: ops =>
    match t.execute exec run op with
    | (t, .error error) => (t, .error (failure error))
    | (t, .ok _) => executeAll t failure ops

/-- A checkpoint that cannot be written is only logged. -/
def save (t : ShardTransfer T) : ShardTransfer T :=
  { t with file := if run.save t.saves then some t.ckpt else t.file, saves := t.saves + 1 }

end ShardTransfer

/-- The loop over the items of one kind: those before the position of the checkpoint are skipped. -/
def transferItems {α : Type} (dir : Bool) (kind : ItemKind α) :
    Nat → List α → ShardTransfer T → ShardTransfer T × Except StateTransferError Unit
  | _, [], t => (t, .ok ())
  | idx, item :: items, t =>
    if idx < kind.lastIdx t.ckpt then transferItems dir kind (idx + 1) items t
    else
      match kind.ops item with
      | .error e => (t, .error e)
      | .ok ops =>
        match t.executeAll exec run (kind.failure item) ops with
        | (t, .error e) => (t, .error e)
        | (t, .ok _) =>
          let t := { t with ckpt := kind.advance t.ckpt idx }
          transferItems dir kind (idx + 1) items
            (if dir ∧ kind.applied t.ckpt % checkpointInterval = 0 then t.save run else t)

def replaySnapshot (dir : Bool) (snapshot : ShardSnapshot) (t : ShardTransfer T) :
    ShardTransfer T × Except StateTransferError Unit :=
  match transferItems exec run dir nodeItem 0 snapshot.nodes t with
  | (t, .error e) => (t, .error e)
  | (t, .ok _) => transferItems exec run dir edgeItem 0 snapshot.edges t

/-- `dir` says whether there is a directory for checkpoints. -/
def catchUpShard (dir : Bool) (sourceNode : String) (shardId : Nat) (target : T)
    (file : Option TransferCheckpoint) :
    (T × Option TransferCheckpoint) × Except StateTransferError CatchUpResult :=
  match run.fetched with
  | .error e => ((target, file), .error e)
  | .ok snapshot =>
    match if dir then run.createDir else .ok () with
    | .error e => ((target, file), .error (.checkpoint ("create dir: " ++ e)))
    | .ok _ =>
      let ckpt := (if dir then file else none).getD (.new shardId)
      match replaySnapshot exec run dir snapshot ⟨target, file, ckpt, 0, 0⟩ with
      | (t, .error e) => ((t.target, t.file), .error e)
      | (t, .ok _) =>
        ((t.target, if dir ∧ run.remove then none else t.file),
          .ok ⟨shardId, t.ckpt.nodesApplied, t.ckpt.edgesApplied, sourceNode, false, 0⟩)

end
section
variable {T : Type} {exec : T → GraphOperation → T} {run : TransferRun} {dir : Bool}

theorem catchUpShard_of_fetched {snapshot : ShardSnapshot} (hfetched : run.fetched = .ok snapshot)
    (hdir : (if dir then run.createDir else .ok ()) = .ok ()) {shardId : Nat}
    {file : Option TransferCheckpoint} {ckpt : TransferCheckpoint}
    (hckpt : (if dir then file else none).getD (.new shardId) = ckpt) (sourceNode : String)
    (target : T) :
    catchUpShard exec run dir sourceNode shardId target file =
      match replaySnapshot exec run dir snapshot ⟨target, file, ckpt, 0, 0⟩ with
      | (t, .error e) => ((t.target, t.file), .error e)
      | (t, .ok _) =>
        ((t.target, if dir ∧ run.remove then none else t.file),
          .ok ⟨shardId, t.ckpt.nodesApplied, t.ckpt.edgesApplied, sourceNode, false, 0⟩) := by
  unfold catchUpShard
  rw [hfetched]
  dsimp only
  rw [hdir, hckpt]

theorem transferItems_of_counted {α : Type} {kind : ItemKind α} {items : List α} {idx : Nat}
    {t : ShardTransfer T} (h : idx + items.length ≤ kind.lastIdx t.ckpt) :
    transferItems exec run dir kind idx items t = (t, .ok ()) := by
  induction items generalizing idx with
  | nil => rfl
  | cons item items ih =>
    rw [length_cons] at h
    unfold transferItems
    rw [if_pos (by omega)]
    exact ih (by omega)

variable {P : T → Prop}
section
variable (hexec : ∀ target op, P target → P (exec target op))
include hexec

theorem executeAll_keeps (t : ShardTransfer T)
    (failure : String → StateTransferError) (ops : List GraphOperation) (h : P t.target) :
    P (t.executeAll exec run failure ops).1.target := by
  induction ops generalizing t with
  | nil => exact h
  | cons op ops ih =>
    unfold ShardTransfer.executeAll ShardTransfer.execute
    cases run.call t.calls with
    | refused error => exact h
    | lost error => exact hexec _ op h
    | done => exact ih _ (hexec _ op h)

theorem transferItems_keeps {α : Type} (kind : ItemKind α) (idx : Nat) (items : List α)
    (t : ShardTransfer T) (h : P t.target) :
    P (transferItems exec run dir kind idx items t).1.target := by
  induction items generalizing idx t with
  | nil => exact h
  | cons item items ih =>
    unfold transferItems
    split
    · exact ih _ t h
    cases kind.ops item with
    | error e => exact h
    | ok ops =>
      have hkept := @executeAll_keeps _ exec run P hexec t (kind.failure item) ops h
      dsimp only
      generalize t.executeAll exec run (kind.failure item) ops = sent at hkept
      obtain ⟨t', result⟩ := sent
      cases result with
      | error e => exact hkept
      | ok u =>
        refine ih _ _ ?_
        split
        · exact hkept
        · exact hkept

theorem catchUpShard_keeps (sourceNode : String) (shardId : Nat) (target : T)
    (file : Option TransferCheckpoint) (h : P target) :
    P (catchUpShard exec run dir sourceNode shardId target file).1.1 := by
  unfold catchUpShard
  cases run.fetched with
  | error e => exact h
  | ok snapshot =>
    cases (if dir then run.createDir else .ok ()) with
    | error e => exact h
    | ok u =>
      dsimp only
      have hnodes := @transferItems_keeps _ exec run dir P hexec _ nodeItem 0 snapshot.nodes
        ⟨target, file, (if dir then file else none).getD (.new shardId), 0, 0⟩ h
      unfold replaySnapshot
      generalize transferItems exec run dir nodeItem 0 snapshot.nodes _ = sent at hnodes
      obtain ⟨t, result⟩ := sent
      cases result with
      | error e => exact hnodes
      | ok u =>
        have hedges := @transferItems_keeps _ exec run dir P hexec _ edgeItem 0 snapshot.edges t hnodes
        dsimp only
        generalize transferItems exec run dir edgeItem 0 snapshot.edges t = sent at hedges
        obtain ⟨t', result⟩ := sent
        cases result with
        | error | ok => exact hedges

end
end

/-! ### What a run has executed -/

def record (applied : List GraphOperation) (op : GraphOperation) : List GraphOperation :=
  applied ++ [op]

def ItemKind.Applied {α : Type} (kind : ItemKind α) (applied : List GraphOperation) (item : α) :
    Prop :=
  ∃ ops, kind.ops item = .ok ops ∧ ∀ op ∈ ops, op ∈ applied

/-- What the checkpoint counts as done in this snapshot has been done. -/
structure Reached (snapshot : ShardSnapshot) (ckpt : TransferCheckpoint)
    (applied : List GraphOperation) : Prop where
  nodes : ∀ node ∈ snapshot.nodes.take ckpt.lastNodeIdx, nodeItem.Applied applied node
  edges : ∀ edge ∈ snapshot.edges.take ckpt.lastEdgeIdx, edgeItem.Applied applied edge

theorem ItemKind.Applied.mono {α : Type} {kind : ItemKind α}
    {applied applied' : List GraphOperation} {item : α} (h : kind.Applied applied item)
    (hsub : applied ⊆ applied') : kind.Applied applied' item := by
  obtain ⟨ops, hops, hmem⟩ := h
  exact ⟨ops, hops, fun op hop => hsub (hmem op hop)⟩

namespace Reached
variable {snapshot : ShardSnapshot} {ckpt : TransferCheckpoint}
    {applied applied' : List GraphOperation}

theorem new (snapshot : ShardSnapshot) (shardId : Nat) (applied : List GraphOperation) :
    Reached snapshot (.new shardId) applied :=
  ⟨fun _ hnode => absurd hnode not_mem_nil, fun _ hedge => absurd hedge not_mem_nil⟩

theorem mono (h : Reached snapshot ckpt applied) (hsub : applied ⊆ applied') :
    Reached snapshot ckpt applied' :=
  ⟨fun node hnode => (h.nodes node hnode).mono hsub, fun edge hedge => (h.edges edge hedge).mono hsub⟩

end Reached

structure Counts {α : Type} (kind : ItemKind α) (snapshot : ShardSnapshot) (all : List α) :
    Prop where
  lastIdx_advance : ∀ ckpt idx, kind.lastIdx (kind.advance ckpt idx) = idx + 1
  reached_advance : ∀ ckpt idx item applied, Reached snapshot ckpt applied →
    kind.lastIdx ckpt = idx → all[idx]? = some item →
    kind.Applied applied item → Reached snapshot (kind.advance ckpt idx) applied

theorem forall_mem_take_succ {α : Type} {P : α → Prop} {all : List α} {idx : Nat} {item : α}
    (hitem : all[idx]? = some item) (h : ∀ x ∈ all.take idx, P x) (hnew : P item) :
    ∀ x ∈ all.take (idx + 1), P x := by
  intro x hx
  rw [take_add_one, hitem] at hx
  obtain hold | hself := mem_append.mp hx
  · exact h x hold
  · rw [mem_singleton.mp hself]
    exact hnew

theorem counts_nodes (snapshot : ShardSnapshot) : Counts nodeItem snapshot snapshot.nodes where
  lastIdx_advance _ _ := rfl
  reached_advance ckpt idx node applied h hidx hnode happlied := by
    refine ⟨forall_mem_take_succ hnode ?_ happlied, h.edges⟩
    rw [← hidx]
    exact h.nodes

theorem counts_edges (snapshot : ShardSnapshot) : Counts edgeItem snapshot snapshot.edges where
  lastIdx_advance _ _ := rfl
  reached_advance ckpt idx edge applied h hidx hedge happlied := by
    refine ⟨h.nodes, forall_mem_take_succ hedge ?_ happlied⟩
    rw [← hidx]
    exact h.edges

section
variable {run : TransferRun} {dir : Bool}

theorem executeAll_record (t : ShardTransfer (List GraphOperation))
    (failure : String → StateTransferError) (ops : List GraphOperation) :
    let sent := t.executeAll record run failure ops
    t.target ⊆ sent.1.target ∧ sent.1.file = t.file ∧ sent.1.ckpt = t.ckpt ∧
      (sent.2 = .ok () → ∀ op ∈ ops, op ∈ sent.1.target) := by
  induction ops generalizing t with
  | nil => exact ⟨Subset.refl _, rfl, rfl, fun _ _ hop => absurd hop not_mem_nil⟩
  | cons op ops ih =>
    unfold ShardTransfer.executeAll ShardTransfer.execute
    cases run.call t.calls with
    | refused error => exact ⟨Subset.refl _, rfl, rfl, fun h => nomatch h⟩
    | lost error => exact ⟨subset_append_left _ _, rfl, rfl, fun h => nomatch h⟩
    | done =>
      obtain ⟨hsub, hfile, hckpt, hall⟩ := ih { t with calls := t.calls + 1, target := record t.target op }
      refine ⟨Subset.trans (subset_append_left _ _) hsub, hfile, hckpt, fun hok => ?_⟩
      rw [forall_mem_cons]
      exact ⟨hsub (mem_append_right _ (mem_singleton_self op)), hall hok⟩

variable {snapshot : ShardSnapshot}

/-- What the loop over the items keeps: both checkpoints count what has been executed. When it comes
to its end, the one in memory counts all items. -/
theorem transferItems_reached {α : Type} {kind : ItemKind α} {all : List α}
    (hcounts : Counts kind snapshot all) {idx : Nat} {items : List α}
    (t : ShardTransfer (List GraphOperation)) (hitems : items = all.drop idx)
    (hidx : idx ≤ kind.lastIdx t.ckpt) (hckpt : Reached snapshot t.ckpt t.target)
    (hfile : dir = true → ∀ ckpt ∈ t.file, Reached snapshot ckpt t.target) :
    let result := transferItems record run dir kind idx items t
    t.target ⊆ result.1.target ∧ Reached snapshot result.1.ckpt result.1.target ∧
      (dir = true → ∀ ckpt ∈ result.1.file, Reached snapshot ckpt result.1.target) ∧
      (result.2 = .ok () → all.length ≤ kind.lastIdx result.1.ckpt) := by
  induction items generalizing idx t with
  | nil =>
    refine ⟨Subset.refl _, hckpt, hfile, fun _ => le_trans ?_ hidx⟩
    exact drop_eq_nil_iff.mp hitems.symm
  | cons item items ih =>
    have hrest : items = all.drop (idx + 1) := by rw [← drop_drop, ← hitems, drop_one, tail_cons]
    have hitem : all[idx]? = some item := by rw [← head?_drop, ← hitems, head?_cons]
    unfold transferItems
    by_cases hskip : idx < kind.lastIdx t.ckpt
    · rw [if_pos hskip]
      exact ih t hrest hskip hckpt hfile
    rw [if_neg hskip]
    have hlast : kind.lastIdx t.ckpt = idx := le_antisymm (not_lt.mp hskip) hidx
    cases hops : kind.ops item with
    | error e => exact ⟨Subset.refl _, hckpt, hfile, fun h => nomatch h⟩
    | ok ops =>
      obtain ⟨hsub, hsameFile, hsameCkpt, hall⟩ := @executeAll_record run t (kind.failure item) ops
      dsimp only
      generalize hsent : t.executeAll record run (kind.failure item) ops = sent at hsub hsameFile hsameCkpt hall
      obtain ⟨t', result⟩ := sent
      have hckpt' : Reached snapshot t'.ckpt t'.target := hsameCkpt ▸ hckpt.mono hsub
      have hfile' : dir = true → ∀ ckpt ∈ t'.file, Reached snapshot ckpt t'.target :=
        fun hdir ckpt hmem => (hfile hdir ckpt (hsameFile ▸ hmem)).mono hsub
      cases result with
      | error e => exact ⟨hsub, hckpt', hfile', fun h => nomatch h⟩
      | ok u =>
        have hadvance : Reached snapshot (kind.advance t'.ckpt idx) t'.target :=
          hcounts.reached_advance _ idx item _ hckpt' (hsameCkpt ▸ hlast) hitem ⟨ops, hops, hall rfl⟩
        have hidx' : idx + 1 ≤ kind.lastIdx (kind.advance t'.ckpt idx) := (hcounts.lastIdx_advance _ idx).ge
        dsimp only
        split
        · refine And.imp_left (List.Subset.trans hsub) (ih (ShardTransfer.save run { t' with ckpt := kind.advance t'.ckpt idx }) hrest
            hidx' hadvance fun hdir ckpt hmem => ?_)
          unfold ShardTransfer.save at hmem
          dsimp only at hmem
          split at hmem
          · cases hmem
            exact hadvance
          · exact hfile' hdir ckpt hmem
        · exact And.imp_left (Subset.trans hsub) (ih { t' with ckpt := kind.advance t'.ckpt idx } hrest hidx' hadvance hfile')

theorem replaySnapshot_reached (t : ShardTransfer (List GraphOperation))
    (hckpt : Reached snapshot t.ckpt t.target)
    (hfile : dir = true → ∀ ckpt ∈ t.file, Reached snapshot ckpt t.target) :
    let result := replaySnapshot record run dir snapshot t
    (dir = true → ∀ ckpt ∈ result.1.file, Reached snapshot ckpt result.1.target) ∧
      (result.2 = .ok () → (∀ node ∈ snapshot.nodes, nodeItem.Applied result.1.target node) ∧
        ∀ edge ∈ snapshot.edges, edgeItem.Applied result.1.target edge) := by
  obtain ⟨-, hckpt₁, hfile₁, hnodes⟩ :=
    @transferItems_reached run dir _ _ _ _ (counts_nodes snapshot) 0 snapshot.nodes t rfl (zero_le _) hckpt hfile
  unfold replaySnapshot
  generalize transferItems record run dir nodeItem 0 snapshot.nodes t = first at hckpt₁ hfile₁ hnodes ⊢
  obtain ⟨t₁, result⟩ := first
  cases result with
  | error e => exact ⟨hfile₁, fun h => nomatch h⟩
  | ok u =>
    obtain ⟨hsub, hckpt₂, hfile₂, hedges⟩ :=
      @transferItems_reached run dir _ _ _ _ (counts_edges snapshot) 0 snapshot.edges t₁ rfl (zero_le _) hckpt₁ hfile₁
    refine ⟨hfile₂, fun hok => ⟨fun node hnode => ?_, fun edge hedge => ?_⟩⟩
    · have hall : snapshot.nodes.take t₁.ckpt.lastNodeIdx = snapshot.nodes := take_of_length_le (hnodes rfl)
      exact (hckpt₁.nodes node (hall.symm ▸ hnode)).mono hsub
    · exact hckpt₂.edges edge ((take_of_length_le (hedges hok)).symm ▸ hedge)

theorem catchUpShard_reached (hfetched : run.fetched = .ok snapshot) {sourceNode : String}
    {shardId : Nat} {applied : List GraphOperation} {file : Option TransferCheckpoint}
    (hfile : dir = true → ∀ ckpt ∈ file, Reached snapshot ckpt applied) :
    let result := catchUpShard record run dir sourceNode shardId applied file
    (dir = true → ∀ ckpt ∈ result.1.2, Reached snapshot ckpt result.1.1) ∧
      ∀ answer, result.2 = .ok answer →
        (∀ node ∈ snapshot.nodes, nodeItem.Applied result.1.1 node) ∧ ∀ edge ∈ snapshot.edges,
          edgeItem.Applied result.1.1 edge := by
  have hloaded : Reached snapshot ((if dir then file else none).getD (.new shardId)) applied := by
    cases hckpt : (if dir then file else none) with
    | none => exact .new snapshot shardId applied
    | some ckpt =>
      split at hckpt
      · next hdir => exact hfile hdir ckpt hckpt
      · cases hckpt
  obtain ⟨hfile', hall⟩ := @replaySnapshot_reached run dir snapshot
    ⟨applied, file, (if dir then file else none).getD (.new shardId), 0, 0⟩ hloaded hfile
  unfold catchUpShard
  rw [hfetched]
  dsimp only
  split
  · exact ⟨hfile, fun _ hanswer => nomatch hanswer⟩
  · generalize replaySnapshot record run dir snapshot
      ⟨applied, file, (if dir then file else none).getD (.new shardId), 0, 0⟩ = replayed at hfile' hall ⊢
    obtain ⟨t, result⟩ := replayed
    cases result with
    | error e => exact ⟨hfile', fun _ hanswer => nomatch hanswer⟩
    | ok u =>
      refine ⟨fun hdir ckpt hmem => ?_, fun _ _ => hall rfl⟩
      dsimp only at hmem
      split at hmem
      · cases hmem
      · exact hfile' hdir ckpt hmem

end

/-! ### Runs, one after the other -/

/-- A node that catches up on a shard, with the checkpoint on its disk and the snapshot it has
fetched last. -/
structure TransferTarget where
  applied : List GraphOperation
  checkpoint : Option TransferCheckpoint
  fetched : Option ShardSnapshot

namespace TransferTarget
variable (dir : Bool) (sourceNode : String) (shardId : Nat)

def step (s : TransferTarget) (run : TransferRun) : TransferTarget :=
  let result := catchUpShard record run dir sourceNode shardId s.applied s.checkpoint
  { applied := result.1.1
    checkpoint := result.1.2
    fetched :=
      match run.fetched with
      | .ok snapshot => some snapshot
      | .error _ => s.fetched }

/-- The snapshot agrees with the one fetched before, as far as the checkpoint reaches. -/
def Resumes (s : TransferTarget) (run : TransferRun) : Prop :=
  dir = true → ∀ ckpt ∈ s.checkpoint, ∀ old ∈ s.fetched, ∀ new, run.fetched = .ok new →
    new.nodes.take ckpt.lastNodeIdx = old.nodes.take ckpt.lastNodeIdx ∧
      new.edges.take ckpt.lastEdgeIdx = old.edges.take ckpt.lastEdgeIdx

def Inv (s : TransferTarget) : Prop :=
  dir = true → ∀ ckpt ∈ s.checkpoint, ∃ old ∈ s.fetched, Reached old ckpt s.applied

variable {dir sourceNode shardId} {s : TransferTarget} {run : TransferRun}

theorem Inv.reached (h : s.Inv dir) (hrun : s.Resumes dir run) {snapshot : ShardSnapshot}
    (hfetched : run.fetched = .ok snapshot) (hdir : dir = true) :
    ∀ ckpt ∈ s.checkpoint, Reached snapshot ckpt s.applied := by
  intro ckpt hckpt
  obtain ⟨old, hold, hreached⟩ := h hdir ckpt hckpt
  obtain ⟨hnodes, hedges⟩ := hrun hdir ckpt hckpt old hold snapshot hfetched
  exact ⟨hnodes ▸ hreached.nodes, hedges ▸ hreached.edges⟩

theorem Inv.step (h : s.Inv dir) (hrun : s.Resumes dir run) :
    (s.step dir sourceNode shardId run).Inv dir := by
  intro hdir ckpt hckpt
  cases hfetched : run.fetched with
  | ok snapshot =>
    refine ⟨snapshot, ?_, ?_⟩
    · show (match run.fetched with | .ok snapshot => some snapshot | .error _ => s.fetched) = some snapshot
      rw [hfetched]
    · exact (catchUpShard_reached hfetched (h.reached hrun hfetched)).1 hdir ckpt hckpt
  | error e =>
    have hsame : s.step dir sourceNode shardId run = s := by
      unfold TransferTarget.step catchUpShard
      rw [hfetched]
    rw [hsame] at hckpt ⊢
    exact h hdir ckpt hckpt

/-- **Catching up after interrupted runs.** Where each snapshot agrees with the one before it as far
as the checkpoint reaches, a run that returns has left every property and every edge of its snapshot
on the target. -/
theorem applied_of_along (hstart : s.checkpoint = none) {earlier : List TransferRun}
    (h : Along (step dir sourceNode shardId) (Resumes dir) s (earlier ++ [run]))
    {snapshot : ShardSnapshot} (hfetched : run.fetched = .ok snapshot) {answer : CatchUpResult}
    (hok : (catchUpShard record run dir sourceNode shardId (Lib.run (step dir sourceNode shardId) s earlier).applied
      (Lib.run (step dir sourceNode shardId) s earlier).checkpoint).2 = .ok answer) :
    (∀ node ∈ snapshot.nodes,
        nodeItem.Applied (Lib.run (step dir sourceNode shardId) s (earlier ++ [run])).applied node) ∧
      ∀ edge ∈ snapshot.edges,
        edgeItem.Applied (Lib.run (step dir sourceNode shardId) s (earlier ++ [run])).applied edge := by
  obtain ⟨hearlier, hlast, -⟩ := along_append.mp h
  have hinv : (Lib.run (step dir sourceNode shardId) s earlier).Inv dir :=
    run_invariant (fun _ _ hs hcond => hs.step hcond) (fun _ ckpt hckpt => by rw [hstart] at hckpt; cases hckpt) hearlier
  rw [run_append]
  exact (catchUpShard_reached hfetched (hinv.reached hlast hfetched)).2 answer hok

end TransferTarget

/-! ### Runs whose operations are all answered -/

section
variable {T : Type} {exec : T → GraphOperation → T} {run : TransferRun} {dir : Bool}

theorem executeAll_of_done (t : ShardTransfer T) (failure : String → StateTransferError)
    (ops : List GraphOperation) (h : ∀ i < ops.length, run.call (t.calls + i) = .done) :
    t.executeAll exec run failure ops = ({ t with target := ops.foldl exec t.target, calls := t.calls + ops.length }, .ok ()) := by
  induction ops generalizing t with
  | nil => rfl
  | cons op ops ih =>
    have hfirst : run.call t.calls = .done := h 0 (succ_pos _)
    unfold ShardTransfer.executeAll ShardTransfer.execute
    rw [hfirst]
    dsimp only
    rw [ih]
    · simp only [foldl_cons, length_cons, add_assoc, add_comm 1]
    · intro i hi
      have hnext := h (i + 1) (succ_lt_succ hi)
      rwa [add_comm i 1, ← add_assoc] at hnext

theorem transferItems_of_done {α : Type} {kind : ItemKind α} {opsOf : α → List GraphOperation}
    {items : List α} (hops : ∀ item ∈ items, kind.ops item = .ok (opsOf item)) {idx : Nat}
    (t : ShardTransfer T) (hlast : kind.lastIdx t.ckpt = idx)
    (hadvance : ∀ ckpt i, kind.lastIdx (kind.advance ckpt i) = i + 1)
    (happlied : ∀ ckpt i, kind.applied (kind.advance ckpt i) = kind.applied ckpt + 1)
    (hcalls : ∀ i < (items.flatMap opsOf).length, run.call (t.calls + i) = .done) :
    ∃ t', transferItems exec run dir kind idx items t = (t', .ok ()) ∧
      t'.target = (items.flatMap opsOf).foldl exec t.target ∧
      t'.calls = t.calls + (items.flatMap opsOf).length ∧ kind.lastIdx t'.ckpt = idx + items.length ∧
      kind.applied t'.ckpt = kind.applied t.ckpt + items.length ∧
      (∀ f : TransferCheckpoint → Nat, (∀ ckpt i, f (kind.advance ckpt i) = f ckpt) → f t'.ckpt = f t.ckpt) ∧
      (dir = true → (∀ i, run.save i = true) → kind.applied t'.ckpt % checkpointInterval = 0 →
        t'.file = if items = [] then t.file else some t'.ckpt) := by
  induction items generalizing idx t with
  | nil => exact ⟨t, rfl, rfl, rfl, hlast, rfl, fun _ _ => rfl, fun _ _ _ => rfl⟩
  | cons item items ih =>
    obtain ⟨hitem, hrest⟩ := forall_mem_cons.mp hops
    have hcalls' : ∀ i < (opsOf item).length + (items.flatMap opsOf).length, run.call (t.calls + i) = .done := by
      intro i hi
      exact hcalls i (by rwa [flatMap_cons, length_append])
    unfold transferItems
    rw [if_neg (not_lt.mpr hlast.le), hitem]
    dsimp only
    rw [executeAll_of_done _ _ _ fun i hi => hcalls' i (Nat.lt_add_right _ hi)]
    dsimp only
    generalize hnext : (if dir ∧ kind.applied (kind.advance t.ckpt idx) % checkpointInterval = 0 then
      ShardTransfer.save run ⟨(opsOf item).foldl exec t.target, t.file, kind.advance t.ckpt idx,
        t.calls + (opsOf item).length,
        t.saves⟩ else _) = next
    have hfields : next.target = (opsOf item).foldl exec t.target ∧ next.ckpt = kind.advance t.ckpt idx ∧
        next.calls = t.calls + (opsOf item).length := by
      rw [← hnext]
      split <;> exact ⟨rfl, rfl, rfl⟩
    obtain ⟨htarget, hckpt, hcount⟩ := hfields
    obtain ⟨t', hrun, htarget', hcount', hlast', happlied', hframe, hfile⟩ := ih hrest next (by rw [hckpt, hadvance])
      (fun i hi => by rw [hcount, Nat.add_assoc]; exact hcalls' _ (Nat.add_lt_add_left hi _))
    refine ⟨t', hrun, ?_, ?_, ?_, ?_, ?_, ?_⟩
    · rw [htarget', htarget, flatMap_cons, foldl_append]
    · rw [hcount', hcount, flatMap_cons, length_append, add_assoc]
    · rw [hlast', length_cons, add_assoc, add_comm 1]
    · rw [happlied', hckpt, happlied, length_cons, add_assoc, add_comm 1]
    · intro f hf
      rw [hframe f hf, hckpt, hf]
    · intro hdir hsave hround
      rw [hfile hdir hsave hround, if_neg (cons_ne_nil _ _)]
      split
      · next hnil =>
        -- The item is the last one, and what it leaves behind has just been saved.
        subst hnil
        rw [transferItems] at hrun
        cases hrun
        rw [hckpt] at hround
        rw [hckpt, ← hnext, if_pos ⟨hdir, hround⟩]
        exact if_pos (hsave t.saves)
      · rfl

theorem catchUpShard_of_done {snapshot : ShardSnapshot} (hfetched : run.fetched = .ok snapshot)
    (hdir : (if dir then run.createDir else .ok ()) = .ok ()) (hcall : ∀ i, run.call i = .done)
    {nodeOps : NodeEntry → List GraphOperation}
    (hnodes : ∀ node ∈ snapshot.nodes, nodeItem.ops node = .ok (nodeOps node))
    {edgeOps : EdgeEntry → List GraphOperation}
    (hedges : ∀ edge ∈ snapshot.edges, edgeItem.ops edge = .ok (edgeOps edge)) (sourceNode : String)
    (shardId : Nat) (target : T) :
    (catchUpShard exec run dir sourceNode shardId target none).1.1 =
        (snapshot.nodes.flatMap nodeOps ++ snapshot.edges.flatMap edgeOps).foldl exec target ∧
      (catchUpShard exec run dir sourceNode shardId target none).2 =
        .ok ⟨shardId, snapshot.nodes.length, snapshot.edges.length, sourceNode, false, 0⟩ := by
  obtain ⟨t, hrun, htarget, -, -, happlied, hframe, -⟩ :=
    @transferItems_of_done _ exec run dir _ nodeItem nodeOps snapshot.nodes hnodes 0 ⟨target, none, .new shardId, 0, 0⟩ rfl
      (fun _ _ => rfl) (fun _ _ => rfl) fun _ _ => hcall _
  obtain ⟨t', hrun', htarget', -, -, happlied', hframe', -⟩ :=
    @transferItems_of_done _ exec run dir _ edgeItem edgeOps snapshot.edges hedges 0 t
      (hframe TransferCheckpoint.lastEdgeIdx fun _ _ => rfl) (fun _ _ => rfl) (fun _ _ => rfl) fun _ _ => hcall _
  have hcountNodes : t'.ckpt.nodesApplied = snapshot.nodes.length :=
    (hframe' TransferCheckpoint.nodesApplied fun _ _ => rfl).trans (happlied.trans (zero_add _))
  have hcountEdges : t'.ckpt.edgesApplied = snapshot.edges.length :=
    happlied'.trans (by
      rw [show edgeItem.applied t.ckpt = 0 from hframe TransferCheckpoint.edgesApplied fun _ _ => rfl, zero_add])
  have hckpt : (if dir then none else none).getD (TransferCheckpoint.new shardId) = .new shardId := by rw [ite_self]; rfl
  have hresult := @catchUpShard_of_fetched _ exec run dir _ hfetched hdir _ _ _ hckpt sourceNode target
  unfold replaySnapshot at hresult
  rw [hrun] at hresult
  dsimp only at hresult
  rw [hrun'] at hresult
  rw [hresult]
  refine ⟨?_, ?_⟩
  · rw [foldl_append, ← htarget]
    exact htarget'
  · rw [← hcountNodes, ← hcountEdges]

end

/-! ### Positions in another snapshot -/

def paint (qid : NexoraId) (value : Bool) : GraphOperation := .setProperty qid "color" (.bool value)

def painted (count : Nat) : ShardSnapshot where
  shardId := 0
  nodes := (range count).map fun i => ⟨toHex ⟨toBe 2 i⟩, [("color", .bool true)]⟩
  edges := [⟨toHex ⟨[1]⟩, "knows", "out", toHex ⟨[2]⟩⟩]

def repainted : ShardSnapshot := ⟨0, [⟨toHex ⟨[1]⟩, [("color", .bool false)]⟩], []⟩

def cutOff (count : Nat) : TransferRun :=
  ⟨.ok (painted count), .ok (), fun i => if i < count then .done else .refused "timeout", fun _ => true, true⟩

def complete (snapshot : ShardSnapshot) : TransferRun :=
  ⟨.ok snapshot, .ok (), fun _ => .done, fun _ => true, true⟩

def untouched : TransferTarget := ⟨[], none, none⟩

theorem foldl_record (applied ops : List GraphOperation) :
    ops.foldl record applied = applied ++ ops := by
  induction ops generalizing applied with
  | nil => exact (append_nil applied).symm
  | cons op ops ih => rw [foldl_cons, ih, record, append_assoc, singleton_append]

theorem ops_painted (qid : NexoraId) (value : Bool) :
    nodeItem.ops ⟨toHex qid, [("color", .bool value)]⟩ = .ok [paint qid value] := by
  unfold nodeItem
  simp only [fromHex_toHex]
  rfl

theorem ops_edge (source target : NexoraId) (edgeType direction : String) :
    edgeItem.ops ⟨toHex source, edgeType, direction, toHex target⟩ = .ok [.addEdge source edgeType target direction] := by
  unfold edgeItem
  simp only [fromHex_toHex]

variable {count : Nat}

theorem step_cutOff (hne : count ≠ 0) (hround : count % checkpointInterval = 0) :
    untouched.step true "c" 0 (cutOff count) =
      ⟨(range count).map fun i => paint ⟨toBe 2 i⟩ true, some ⟨0, count, 0, count, 0⟩, some (painted count)⟩ := by
  let opsOf : NodeEntry → List GraphOperation := fun node => (nodeItem.ops node).toOption.getD []
  have hnode (i : Nat) :
      opsOf ⟨toHex ⟨toBe 2 i⟩, [("color", .bool true)]⟩ = [paint ⟨toBe 2 i⟩ true] := by
    simp only [opsOf, ops_painted]
    rfl
  have hops : ∀ node ∈ (painted count).nodes, nodeItem.ops node = .ok (opsOf node) := by
    intro node hmem
    obtain ⟨i, -, rfl⟩ := mem_map.mp hmem
    rw [hnode, ops_painted]
  have hflat : (painted count).nodes.flatMap opsOf = (range count).map fun i => paint ⟨toBe 2 i⟩ true := by
    rw [painted, flatMap_map, map_eq_flatMap]
    exact flatMap_congr fun i _ => hnode i
  have hlength : (painted count).nodes.length = count := by rw [painted, length_map, length_range]
  obtain ⟨t, hrun, htarget, hcount, hlast, happlied, hframe, hfile⟩ :=
    @transferItems_of_done _ record (cutOff count) true _ nodeItem opsOf
      (painted count).nodes hops 0 ⟨[], none, .new 0, 0, 0⟩ rfl
      (fun _ _ => rfl) (fun _ _ => rfl) fun i hi => by
        rw [hflat, length_map, length_range] at hi
        rw [zero_add]
        exact if_pos hi
  rw [hflat, foldl_record, nil_append] at htarget
  rw [hflat, length_map, length_range, zero_add] at hcount
  rw [hlength, zero_add] at hlast
  have happlied' : t.ckpt.nodesApplied = count :=
    happlied.trans (by rw [hlength]; exact zero_add count)
  have hckpt : t.ckpt = ⟨0, count, 0, count, 0⟩ := by
    have hshard := hframe TransferCheckpoint.shardId fun _ _ => rfl
    have hedges := hframe TransferCheckpoint.edgesApplied fun _ _ => rfl
    have hedge := hframe TransferCheckpoint.lastEdgeIdx fun _ _ => rfl
    cases hc : t.ckpt
    rw [hc] at hshard hedges hedge hlast happlied'
    cases hshard
    cases hedges
    cases hedge
    cases happlied'
    cases hlast
    rfl
  have hnonempty : (painted count).nodes ≠ [] := fun hnil => hne (by rw [← hlength, hnil]; rfl)
  have hsaved := hfile rfl (fun _ => rfl) (by show t.ckpt.nodesApplied % _ = 0; rw [happlied']; exact hround)
  rw [if_neg hnonempty, hckpt] at hsaved
  have hreplay : replaySnapshot record (cutOff count) true (painted count) ⟨[], none, .new 0, 0, 0⟩ =
      ({ t with calls := t.calls + 1 },
        .error (edgeItem.failure ⟨toHex ⟨[1]⟩, "knows", "out", toHex ⟨[2]⟩⟩ "timeout")) := by
    have hcall : (cutOff count).call t.calls = .refused "timeout" := if_neg (by rw [hcount]; exact lt_irrefl count)
    have hstart : ¬ 0 < edgeItem.lastIdx t.ckpt := by rw [hckpt]; exact lt_irrefl 0
    unfold replaySnapshot
    rw [hrun]
    show transferItems record (cutOff count) true edgeItem 0 [⟨toHex ⟨[1]⟩, "knows", "out", toHex ⟨[2]⟩⟩] t = _
    unfold transferItems
    rw [if_neg hstart, ops_edge]
    dsimp only
    unfold ShardTransfer.executeAll ShardTransfer.execute
    rw [hcall]
  have hcut := @catchUpShard_of_fetched _ record (cutOff count) true _ rfl rfl 0 none (.new 0) rfl "c" []
  rw [hreplay] at hcut
  show (⟨(catchUpShard record (cutOff count) true "c" 0 [] none).1.1, (catchUpShard record (cutOff count) true "c" 0 [] none).1.2,
    some (painted count)⟩ : TransferTarget) = _
  rw [hcut, htarget, hsaved]

theorem catchUpShard_painted (count : Nat) (applied : List GraphOperation) :
    (catchUpShard record (complete (painted count)) true "c" 0 applied (some ⟨0, count, 0, count, 0⟩)).2 =
      .ok ⟨0, count, 1, "c", false, 0⟩ := by
  have hlength : (painted count).nodes.length = count := by rw [painted, length_map, length_range]
  obtain ⟨t, hrun, -, -, -, happlied, hframe, -⟩ :=
    @transferItems_of_done _ record (complete (painted count)) true _ edgeItem
      (fun _ => [.addEdge ⟨[1]⟩ "knows" ⟨[2]⟩ "out"])
      (painted count).edges (fun edge hedge => by rw [mem_singleton.mp hedge]; exact ops_edge _ _ _ _) 0
      ⟨applied, some ⟨0, count, 0, count, 0⟩, ⟨0, count, 0, count, 0⟩, 0, 0⟩ rfl (fun _ _ => rfl)
        (fun _ _ => rfl) fun _ _ => rfl
  have hnodes : t.ckpt.nodesApplied = count := hframe TransferCheckpoint.nodesApplied fun _ _ => rfl
  have hedges : t.ckpt.edgesApplied = 1 := happlied
  rw [@catchUpShard_of_fetched _ record (complete (painted count)) true _ rfl rfl 0 _ ⟨0, count, 0, count, 0⟩ rfl]
  unfold replaySnapshot
  rw [transferItems_of_counted (by rw [hlength, zero_add]; exact le_refl count)]
  dsimp only
  rw [hrun]
  dsimp only
  rw [hnodes, hedges]

theorem catchUpShard_repainted (hne : count ≠ 0) (applied : List GraphOperation) :
    catchUpShard record (complete repainted) true "c" 0 applied (some ⟨0, count, 0, count, 0⟩) =
      ((applied, none), .ok ⟨0, count, 0, "c", false, 0⟩) := by
  have hnodes : 0 + repainted.nodes.length ≤ count := pos_of_ne_zero hne
  rw [@catchUpShard_of_fetched _ record (complete repainted) true _ rfl rfl 0 _ ⟨0, count, 0, count, 0⟩ rfl]
  unfold replaySnapshot
  rw [transferItems_of_counted hnodes]
  rfl

/-- The same snapshot once more: a run that goes on after the nodes has still left all of them
behind. -/
theorem applied_of_cutOff :
    let s := run (TransferTarget.step true "c" 0) untouched [cutOff checkpointInterval]
    let again := complete (painted checkpointInterval)
    (catchUpShard record again true "c" 0 s.applied s.checkpoint).2 =
        .ok ⟨0, checkpointInterval, 1, "c", false, 0⟩ ∧
      ∀ node ∈ (painted checkpointInterval).nodes, nodeItem.Applied
        (run (TransferTarget.step true "c" 0) untouched
          ([cutOff checkpointInterval] ++ [again])).applied node := by
  intro s again
  have hfirst : s = _ := @step_cutOff checkpointInterval (by decide) (by decide)
  have halong : Along (TransferTarget.step true "c" 0) (TransferTarget.Resumes true) untouched
      ([cutOff checkpointInterval] ++ [again]) := by
    refine ⟨?_, ?_, trivial⟩
    · intro _ ckpt hckpt
      cases hckpt
    · intro _ ckpt _ old hold new hnew
      cases hnew
      have hsame : old = painted checkpointInterval := by
        have hfetched := (congrArg TransferTarget.fetched hfirst).symm.trans hold
        exact (Option.some.inj hfetched).symm
      rw [hsame]
      exact ⟨rfl, rfl⟩
  refine (and_iff_left_of_imp fun hresult =>
    (TransferTarget.applied_of_along rfl halong rfl hresult).1).mpr ?_
  show (catchUpShard record again true "c" 0 s.applied s.checkpoint).2 = _
  rw [hfirst]
  exact catchUpShard_painted checkpointInterval _

theorem step_repainted (hne : count ≠ 0) (applied : List GraphOperation)
    (fetched : Option ShardSnapshot) :
    (TransferTarget.step true "c" 0 ⟨applied, some ⟨0, count, 0, count, 0⟩, fetched⟩ (complete repainted)).applied = applied :=
  congrArg (fun result => result.1.1) (catchUpShard_repainted hne applied)

theorem not_applied_repainted (count : Nat) {node : NodeEntry} (hnode : node ∈ repainted.nodes) :
    ¬ nodeItem.Applied ((range count).map fun i => paint ⟨toBe 2 i⟩ true) node := by
  rintro ⟨ops, hops, hmem⟩
  rw [mem_singleton.mp hnode, ops_painted] at hops
  cases hops
  obtain ⟨i, -, hi⟩ := mem_map.mp (hmem _ (mem_singleton.mpr rfl))
  simp [paint] at hi

/-- **Another snapshot.** What stands at the positions that have been counted is taken for done, and
the run returns. -/
theorem not_applied_other_snapshot :
    let s := run (TransferTarget.step true "c" 0) untouched [cutOff checkpointInterval]
    (catchUpShard record (complete repainted) true "c" 0 s.applied s.checkpoint).2 =
        .ok ⟨0, checkpointInterval, 0, "c", false, 0⟩ ∧
      ¬ ∀ node ∈ repainted.nodes,
        nodeItem.Applied (s.step true "c" 0 (complete repainted)).applied node := by
  intro s
  have hfirst : s = _ := @step_cutOff checkpointInterval (by decide) (by decide)
  rw [hfirst]
  refine ⟨congrArg Prod.snd (catchUpShard_repainted (by decide) _), fun h => ?_⟩
  have hnode := h _ (mem_singleton.mpr rfl)
  rw [step_repainted (by decide)] at hnode
  exact not_applied_repainted _ (mem_singleton.mpr rfl) hnode

end Nexora.Transfer

import Nexora.Cluster.CatchUp
import Nexora.Cluster.TransactionCoordinator
import Nexora.Lib.JsonText
import Nexora.Wal.Codec

/-!
# The digest of a shard's replication log

Replicas compare hashes of the numbers and JSON texts of the operations in their logs
(`nexora-zenoh/src/anti_entropy.rs`). The text of an operation tells where it ends, so the input of
the hash is read in one way only. A log whose first entry has been evicted has the digest of an
empty one.
-/

namespace Nexora.Cluster
open Lib List Option

/-- The hash function, and the zero digest that stands for an empty log. -/
structure Blake3 (H : Type) where
  hash : List UInt8 → H
  zeros : H

/-- Different inputs have different hashes, and none of them is zero. -/
structure Blake3.CollisionFree {H : Type} (blake3 : Blake3 H) : Prop where
  injective : Function.Injective blake3.hash
  ne_zeros : ∀ bytes, blake3.hash bytes ≠ blake3.zeros

structure ShardDigest (H : Type) where
  shardId : Fin (2 ^ 32)
  seqRange : ReplicationSeq × ReplicationSeq
  rootHash : H
deriving DecidableEq

/-! ### The text of an operation -/

def tagged (name : String) (fields : List (String × Json)) : Json := .obj [(name, .obj fields)]

def GraphOperation.toJson : GraphOperation → Json
  | .getProperty qid key => tagged "GetProperty" [("qid", qid.toJson), ("key", .str key)]
  | .setProperty qid key value => tagged "SetProperty" [("qid", qid.toJson), ("key", .str key), ("value", value)]
  | .addEdge source edgeType target direction =>
    tagged "AddEdge" [("source", source.toJson), ("edge_type", .str edgeType), ("target", target.toJson),
      ("direction", .str direction)]
  | .getEdges qid edgeType => tagged "GetEdges" [("qid", qid.toJson), ("edge_type", optionToJson .str edgeType)]
  | .getAllProperties qid => tagged "GetAllProperties" [("qid", qid.toJson)]
  | .executeCypher query => tagged "ExecuteCypher" [("query", .str query)]
  | .ping => .str "Ping"
  | .fencedWrite shardId epoch seq inner =>
    tagged "FencedWrite" [("shard_id", .int shardId), ("epoch", .int epoch), ("seq", .int seq), ("inner", inner.toJson)]
  | .exportShard shardId totalShards =>
    tagged "ExportShard" [("shard_id", .int shardId), ("total_shards", .int totalShards)]
  | .exportDelta shardId fromSeq => tagged "ExportDelta" [("shard_id", .int shardId), ("from_seq", .int fromSeq)]
  | .exportDigest shardId => tagged "ExportDigest" [("shard_id", .int shardId)]
  | .scanEventTable table => tagged "ScanEventTable" [("table", .str table)]
  | .applyOntology pkgJson => tagged "ApplyOntology" [("pkg_json", .str pkgJson)]
  | .removeOntology domain => tagged "RemoveOntology" [("domain", .str domain)]

theorem GraphOperation.isEnclosed_toJson (op : GraphOperation) : op.toJson.IsEnclosed := by
  cases op <;> trivial

def GraphOperation.toVec (floats : FloatText) (op : GraphOperation) : List UInt8 :=
  op.toJson.text floats

/-! ### The digest -/

/-- A digest names its shard by 32 bits. -/
def asShardId (shardId : Fin (2 ^ 32)) : ShardId := shardId.castLE (by decide)

def seqToLeBytes (seq : ReplicationSeq) : List UInt8 := (toBe 8 seq.val).reverse

def digestInput (floats : FloatText) (entries : List (ReplicationSeq × GraphOperation)) :
    List UInt8 :=
  entries.flatMap fun entry => seqToLeBytes entry.1 ++ entry.2.toVec floats

namespace ShardReplicationLog
variable {H : Type} (blake3 : Blake3 H) (floats : FloatText)

def digestEntries (log : ShardReplicationLog GraphOperation) (shard : ShardId) :
    List (ReplicationSeq × GraphOperation) :=
  match log.since shard 0 with
  | .incremental entries => entries
  | .upToDate | .tooOld => []

def computeShardDigest (log : ShardReplicationLog GraphOperation) (shardId : Fin (2 ^ 32)) :
    ShardDigest H :=
  let entries := log.digestEntries (asShardId shardId)
  match entries.head?, entries.getLast? with
  | some first, some last => ⟨shardId, (first.1, last.1), blake3.hash (digestInput floats entries)⟩
  | _, _ => ⟨shardId, (0, 0), blake3.zeros⟩

end ShardReplicationLog

/-! ### The input of the hash -/

variable {floats : FloatText}

theorem length_seqToLeBytes (seq : ReplicationSeq) : (seqToLeBytes seq).length = 8 := by
  rw [seqToLeBytes, length_reverse, length_toBe]

theorem seqToLeBytes_injective {seq seq' : ReplicationSeq}
    (h : seqToLeBytes seq = seqToLeBytes seq') : seq = seq' := by
  have hbytes : toBe 8 seq.val = toBe 8 seq'.val := reverse_injective h
  exact Fin.ext (toBe_injOn seq.isLt seq'.isLt hbytes)

section
variable (entry : ReplicationSeq × GraphOperation) (entries : List (ReplicationSeq × GraphOperation))

theorem digestInput_cons : digestInput floats (entry :: entries) =
      seqToLeBytes entry.1 ++ (entry.2.toVec floats ++ digestInput floats entries) := by
  rw [digestInput, flatMap_cons, append_assoc]
  rfl

theorem digestInput_cons_ne_nil : digestInput floats (entry :: entries) ≠ [] := by
  intro hnil
  have hlength := congrArg length hnil
  rw [digestInput_cons, length_append, length_seqToLeBytes] at hlength
  simp at hlength

end

/-- **The input can be read in one way only**, where different operations have different texts. -/
theorem digestInput_injective {xs ys : List (ReplicationSeq × GraphOperation)}
    (hjson : ∀ x ∈ xs, ∀ y ∈ ys, x.2.toVec floats = y.2.toVec floats → x.2 = y.2)
    (h : digestInput floats xs = digestInput floats ys) : xs = ys := by
  induction xs generalizing ys with
  | nil =>
    cases ys with
    | nil => rfl
    | cons y ys => exact absurd h.symm (digestInput_cons_ne_nil y ys)
  | cons x xs ih =>
    cases ys with
    | nil => exact absurd h (digestInput_cons_ne_nil x xs)
    | cons y ys =>
      rw [digestInput_cons, digestInput_cons] at h
      obtain ⟨hseq, hrest⟩ := append_inj h (by rw [length_seqToLeBytes, length_seqToLeBytes])
      obtain ⟨htext, hrest⟩ := Json.text_append_inj x.2.isEnclosed_toJson y.2.isEnclosed_toJson hrest
      have hop : x.2 = y.2 := hjson x mem_cons_self y mem_cons_self htext
      have htail : xs = ys :=
        ih (fun x' hx' y' hy' => hjson x' (mem_cons_of_mem _ hx') y' (mem_cons_of_mem _ hy')) hrest
      rw [htail, Prod.ext (seqToLeBytes_injective hseq) hop]

/-! ### Logs with rising numbers -/

structure ShardLog.Rising {Op : Type} (log : ShardLog Op) : Prop where
  sorted : log.entries.Pairwise fun a b => a.1 < b.1
  pos : ∀ entry ∈ log.entries, 0 < entry.1
  last : ∀ entry ∈ log.entries.getLast?, entry.1 = log.highWater
  empty : log.entries = [] → log.highWater = 0

/-- The first number is one: nothing has been evicted. -/
def ShardLog.BeginsAtOne {Op : Type} (log : ShardLog Op) : Prop :=
  log.entries.head?.map Prod.fst = some 1

instance {Op : Type} (log : ShardLog Op) :
    Decidable log.BeginsAtOne := by unfold ShardLog.BeginsAtOne; infer_instance

namespace ShardLog
variable {Op : Type} {log : ShardLog Op} {maxEntries : Nat}

theorem rising_new : (new : ShardLog Op).Rising :=
  ⟨List.Pairwise.nil, fun _ hentry => absurd hentry not_mem_nil, fun _ hentry => absurd hentry (not_mem_none _),
    fun _ => rfl⟩

theorem Rising.le_highWater (h : log.Rising) {entry : ReplicationSeq × Op}
    (hentry : entry ∈ log.entries) :
    entry.1 ≤ log.highWater := by
  have hne : log.entries ≠ [] := ne_nil_of_mem hentry
  have hlast := getLast?_eq_some_getLast hne
  rw [← h.last _ hlast]
  obtain ⟨front, hfront⟩ : ∃ front, log.entries = front ++ [log.entries.getLast hne] :=
    ⟨_, (dropLast_append_getLast hne).symm⟩
  have hsorted := h.sorted
  rw [hfront] at hsorted hentry
  obtain hmem | hself := mem_append.mp hentry
  · exact ((pairwise_append.mp hsorted).2.2 entry hmem _ (mem_singleton_self _)).le
  · rw [mem_singleton.mp hself]

theorem Rising.push (h : log.Rising) (hpos : 0 < maxEntries) {seq : ReplicationSeq}
    (hseq : log.highWater < seq) (op : Op) :
    (log.push maxEntries seq op).Rising where
  sorted := by
    refine List.Pairwise.sublist (drop_sublist _ _) (pairwise_append.mpr ⟨h.sorted, pairwise_singleton _ _, ?_⟩)
    intro entry hentry new hnew
    rw [mem_singleton.mp hnew]
    exact lt_of_le_of_lt (h.le_highWater hentry) hseq
  pos := by
    intro entry hentry
    obtain hold | hself := mem_append.mp (mem_of_mem_drop hentry)
    · exact h.pos entry hold
    · rw [mem_singleton.mp hself]
      exact lt_of_le_of_lt (Fin.zero_le _) hseq
  last := by
    intro entry hentry
    rw [getLast?_push hpos] at hentry
    cases hentry
    rfl
  empty := by
    intro hempty
    have hlast := @getLast?_push _ _ log hpos seq op
    rw [hempty] at hlast
    cases hlast

end ShardLog

namespace ShardReplicationLog
variable {Op : Type} {log : ShardReplicationLog Op} {shard : ShardId}

/-- The owner does not number a write of the shard behind the largest number. -/
def LeavesRoom (shard : ShardId) (log : ShardReplicationLog Op) : LogCall Op → Prop
  | .recordOwner shard' _ => shard' = shard → (log.highWater shard).val + 1 < 2 ^ 64
  | .recordReplica _ _ _ => True

theorem rising_step (h : (log.shardLog shard).Rising) {call : LogCall Op}
    (hcall : log.LeavesRoom shard call) :
    ((log.step call).shardLog shard).Rising := by
  rw [step, shardLog_record]
  split
  · next heq =>
    cases hentry : (log.shardLog shard).accepts call with
    | none => exact h
    | some entry =>
      refine h.push log.maxEntries_pos ?_ entry.2
      cases call with
      | recordOwner shard' op =>
        cases hentry
        have hroom : (log.shardLog shard).highWater.val + 1 < 2 ^ 64 := hcall heq
        rw [Fin.lt_def, Fin.val_add]
        show _ < (_ + 1) % 2 ^ 64
        rw [Nat.mod_eq_of_lt hroom]
        exact Nat.lt_succ_self _
      | recordReplica shard' seq op =>
        by_cases hlt : (log.shardLog shard).highWater < seq
        · rw [ShardLog.accepts, if_pos hlt] at hentry
          cases hentry
          exact hlt
        · rw [ShardLog.accepts, if_neg hlt] at hentry
          cases hentry
  · exact h

theorem rising_of_along (hempty : log.inner = .empty) {calls : List (LogCall Op)}
    (h : Along step (LeavesRoom shard) log calls) :
    ((run step log calls).shardLog shard).Rising := by
  have hnew : log.shardLog shard = .new := by rw [shardLog, hempty]; rfl
  exact @run_invariant _ _ step (LeavesRoom shard) (fun log => (log.shardLog shard).Rising)
    (fun log call hlog hcall => rising_step hlog hcall) log (hnew ▸ ShardLog.rising_new) calls h

theorem since_of_beginsAtOne (h : (log.shardLog shard).BeginsAtOne) {fromSeq : ReplicationSeq}
    (hfrom : fromSeq < log.highWater shard) :
    log.since shard fromSeq = .incremental ((log.shardLog shard).entries.filter fun entry => fromSeq < entry.1) := by
  unfold since
  cases hfind : log.inner.find? shard with
  | none =>
    have hnew : log.shardLog shard = .new := by rw [shardLog, hfind]; rfl
    rw [highWater, hnew] at hfrom
    exact absurd hfrom (Fin.not_lt_zero _)
  | some found =>
    have hshard : log.shardLog shard = found := by rw [shardLog, hfind, getD_some]
    rw [highWater, hshard] at hfrom
    rw [hshard] at h ⊢
    dsimp only
    rw [if_neg (not_le.mpr hfrom), h, getD_some, if_neg]
    rw [not_lt, Fin.le_def, Fin.val_add]
    have hlt := Fin.lt_def.mp hfrom
    have hmax := found.highWater.isLt
    show 1 ≤ (fromSeq.val + 1) % 2 ^ 64
    rw [Nat.mod_eq_of_lt (by omega)]
    omega

end ShardReplicationLog

/-! ### Digests of rising logs -/

namespace ShardReplicationLog
variable {H : Type} {blake3 : Blake3 H} {log : ShardReplicationLog GraphOperation} {shard : ShardId}

theorem digestEntries_eq (h : (log.shardLog shard).Rising) :
    log.digestEntries shard = if (log.shardLog shard).BeginsAtOne then (log.shardLog shard).entries else [] := by
  have hall : ((log.shardLog shard).entries.filter fun entry => 0 < entry.1) = (log.shardLog shard).entries :=
    filter_eq_self.mpr fun entry hentry => decide_eq_true (h.pos entry hentry)
  split
  · next hone =>
    obtain ⟨first, hfirst, -⟩ := map_eq_some_iff.mp hone
    have hmem := mem_of_head? hfirst
    have hhigh : 0 < log.highWater shard := lt_of_lt_of_le (h.pos first hmem) (h.le_highWater hmem)
    rw [digestEntries, since_of_beginsAtOne hone hhigh, hall]
  · next hnot =>
    unfold digestEntries
    split
    · next entries hsince =>
      obtain ⟨-, hle, rfl⟩ := since_eq_incremental hsince
      rw [hall]
      cases hentries : (log.shardLog shard).entries with
      | nil => rfl
      | cons first rest =>
        have hfirst : (log.shardLog shard).entries.head? = some first := by rw [hentries, head?_cons]
        have hone : first.1 = 1 := by
          apply Fin.ext
          have hpos := Fin.lt_def.mp (h.pos first (mem_of_head? hfirst))
          exact Nat.le_antisymm (hle first hfirst) hpos
        refine absurd ?_ hnot
        rw [ShardLog.BeginsAtOne, hfirst, map_some, hone]
    · rfl
    · rfl

theorem digestEntries_of_whole (hrising : (log.shardLog shard).Rising)
    (hone : (log.shardLog shard).entries ≠ [] → (log.shardLog shard).BeginsAtOne) :
    log.digestEntries shard = (log.shardLog shard).entries := by
  rw [digestEntries_eq hrising]
  split
  · rfl
  · next hnot =>
    by_contra hne
    exact hnot (hone (Ne.symm hne))

variable {shardId : Fin (2 ^ 32)}

theorem rootHash_of_nil (blake3 : Blake3 H) (floats : FloatText)
    (h : log.digestEntries (asShardId shardId) = []) :
    (log.computeShardDigest blake3 floats shardId).rootHash = blake3.zeros := by
  unfold computeShardDigest
  rw [h]
  rfl

theorem rootHash_of_ne_nil (blake3 : Blake3 H) (floats : FloatText)
    (h : log.digestEntries (asShardId shardId) ≠ []) :
    (log.computeShardDigest blake3 floats shardId).rootHash =
      blake3.hash (digestInput floats (log.digestEntries (asShardId shardId))) := by
  unfold computeShardDigest
  dsimp only
  cases hentries : log.digestEntries (asShardId shardId) with
  | nil => exact absurd hentries h
  | cons first rest => rw [head?_cons, getLast?_eq_some_getLast (cons_ne_nil _ _)]

theorem rootHash_eq_iff (hblake : blake3.CollisionFree) {a b : ShardReplicationLog GraphOperation}
    (hjson : ∀ x ∈ a.digestEntries (asShardId shardId), ∀ y ∈ b.digestEntries (asShardId shardId),
      x.2.toVec floats = y.2.toVec floats → x.2 = y.2) :
    (a.computeShardDigest blake3 floats shardId).rootHash = (b.computeShardDigest blake3 floats shardId).rootHash ↔
      a.digestEntries (asShardId shardId) = b.digestEntries (asShardId shardId) := by
  by_cases ha : a.digestEntries (asShardId shardId) = []
  · rw [rootHash_of_nil blake3 floats ha, ha]
    by_cases hb : b.digestEntries (asShardId shardId) = []
    · rw [rootHash_of_nil blake3 floats hb, hb]
      exact iff_of_true rfl rfl
    · rw [rootHash_of_ne_nil blake3 floats hb]
      exact iff_of_false (hblake.ne_zeros _).symm (Ne.symm hb)
  · rw [rootHash_of_ne_nil blake3 floats ha]
    by_cases hb : b.digestEntries (asShardId shardId) = []
    · rw [rootHash_of_nil blake3 floats hb, hb]
      exact iff_of_false (hblake.ne_zeros _) ha
    · rw [rootHash_of_ne_nil blake3 floats hb, hblake.injective.eq_iff]
      exact ⟨digestInput_injective hjson, congrArg _⟩

/-- **Equal digests mean equal logs** exactly where the logs are equal anyway, or one of them still
has its first entry. -/
theorem retained_eq_of_rootHash_eq_iff (hblake : blake3.CollisionFree)
    {a b : ShardReplicationLog GraphOperation}
    {shardId : Fin (2 ^ 32)} (ha : (a.shardLog (asShardId shardId)).Rising)
    (hb : (b.shardLog (asShardId shardId)).Rising)
    (hjson : ∀ x ∈ (a.shardLog (asShardId shardId)).entries, ∀ y ∈ (b.shardLog (asShardId shardId)).entries,
      x.2.toVec floats = y.2.toVec floats → x.2 = y.2) :
    ((a.computeShardDigest blake3 floats shardId).rootHash = (b.computeShardDigest blake3 floats shardId).rootHash →
        (a.shardLog (asShardId shardId)).entries = (b.shardLog (asShardId shardId)).entries) ↔
      (a.shardLog (asShardId shardId)).entries = (b.shardLog (asShardId shardId)).entries ∨
        (a.shardLog (asShardId shardId)).BeginsAtOne ∨ (b.shardLog (asShardId shardId)).BeginsAtOne := by
  have hshown : ∀ {log : ShardReplicationLog GraphOperation}, (log.shardLog (asShardId shardId)).Rising →
      ∀ x ∈ log.digestEntries (asShardId shardId), x ∈ (log.shardLog (asShardId shardId)).entries := by
    intro log hlog x hx
    rw [digestEntries_eq hlog] at hx
    split at hx
    · exact hx
    · exact absurd hx not_mem_nil
  rw [rootHash_eq_iff hblake fun x hx y hy => hjson x (hshown ha x hx) y (hshown hb y hy), digestEntries_eq ha,
    digestEntries_eq hb]
  -- A log that shows its entries shows at least one.
  have hne : ∀ {log : ShardLog GraphOperation}, log.BeginsAtOne → log.entries ≠ [] := by
    intro log hone hnil
    rw [ShardLog.BeginsAtOne, hnil] at hone
    cases hone
  by_cases hone : (a.shardLog (asShardId shardId)).BeginsAtOne
  · rw [if_pos hone]
    refine iff_of_true (fun heq => ?_) (.inr (.inl hone))
    split at heq
    · exact heq
    · exact absurd heq (hne hone)
  · rw [if_neg hone]
    by_cases hone' : (b.shardLog (asShardId shardId)).BeginsAtOne
    · rw [if_pos hone']
      exact iff_of_true (fun heq => absurd heq.symm (hne hone')) (.inr (.inr hone'))
    · rw [if_neg hone']
      exact ⟨fun h => .inl (h rfl), fun h _ => h.resolve_right (not_or.mpr ⟨hone, hone'⟩)⟩

/-! ### Two writes of one property -/

def plainHash : Blake3 (Option (List UInt8)) := ⟨some, none⟩

theorem collisionFree_plainHash : plainHash.CollisionFree :=
  ⟨some_injective _, fun _ => some_ne_none _⟩

def bitsText : FloatText where
  text x := fixedNumeral 16 16 x.bits.toNat
  plain := by
    intro x b hb
    obtain ⟨digit, hdigit, rfl⟩ := mem_fixedNumeral (by decide) hb
    exact Json.not_structural_digitByte digit hdigit

def write (value : Bool) : GraphOperation := .setProperty ⟨[1]⟩ "color" (.bool value)

def afterWrites (maxEntries : Fin (2 ^ 64)) (values : List Bool) :
    ShardReplicationLog GraphOperation :=
  run step (new maxEntries) (values.map fun value => .recordOwner 0 (write value))

/-- The digest tells a log with one write from one with two. -/
theorem rootHash_one_write_ne :
    ((afterWrites 4 [true]).computeShardDigest plainHash bitsText 0).rootHash ≠
      ((afterWrites 4 [true, false]).computeShardDigest plainHash bitsText 0).rootHash := by
  have hone : ((afterWrites 4 [true]).shardLog (asShardId 0)).Rising :=
    rising_of_along rfl ⟨fun _ => by decide, trivial⟩
  have htwo : ((afterWrites 4 [true, false]).shardLog (asShardId 0)).Rising :=
    rising_of_along rfl ⟨fun _ => by decide, fun _ => by decide, trivial⟩
  have hjson : ∀ x ∈ [((1 : ReplicationSeq), write true)], ∀ y ∈ [((1 : ReplicationSeq), write true), (2, write false)],
      x.2.toVec bitsText = y.2.toVec bitsText → x.2 = y.2 := by
    intro x hx y hy htext
    obtain rfl := mem_singleton.mp hx
    obtain rfl | hy := mem_cons.mp hy
    · rfl
    · obtain rfl := mem_singleton.mp hy
      exact absurd htext (by decide)
  intro heq
  have hentries := (retained_eq_of_rootHash_eq_iff collisionFree_plainHash hone htwo hjson).mpr (.inr (.inl rfl)) heq
  exact absurd (congrArg length hentries) (by decide)

/-- **What is evicted is not compared.** Logs that keep one write each, and not the same, have the
same digest. -/
theorem rootHash_of_evicted :
    ((afterWrites 1 [true, true]).computeShardDigest plainHash bitsText 0).rootHash =
        ((afterWrites 1 [true, false]).computeShardDigest plainHash bitsText 0).rootHash ∧
      ((afterWrites 1 [true, true]).shardLog 0).entries ≠ ((afterWrites 1 [true, false]).shardLog 0).entries := by
  constructor
  · rfl
  · intro heq
    cases heq

end ShardReplicationLog
end Nexora.Cluster

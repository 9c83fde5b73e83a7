import Nexora.Wal.CodecRoundTrip

/-!
# Packing and unpacking

What `pack` writes, `unpack` reads back, and on all other bytes it comes to an end as well. But
memory for the given length is reserved first, which panics for a length that no buffer can have. A
packed payload that is as long as the original is decoded as it is.
-/

namespace Nexora
open List Nat PackedCodec

namespace PackedCodec

/-! ### Packing -/

/-- The tag of a word, of which the bytes before the given place are in the tag already. -/
def wordTag (tag : UInt8) : Nat → List UInt8 → UInt8
  | _, [] => tag
  | i, byte :: rest => wordTag (if byte ≠ 0 then tag ||| (1 <<< UInt8.ofNat i) else tag) (i + 1) rest

def taggedBytes (tag : UInt8) : Nat → List UInt8 → List UInt8
  | _, [] => []
  | i, byte :: rest =>
    if tag &&& (1 <<< UInt8.ofNat i) ≠ 0 then byte :: taggedBytes tag (i + 1) rest else taggedBytes tag (i + 1) rest

def packBody (tag : UInt8) (word : List UInt8) : List UInt8 :=
  if tag = 0 then [] else if tag = 0xFF ∧ word.length = 8 then word else taggedBytes tag 0 word

/-- The loop over words. There are no more words than bytes. -/
def packWords : Nat → List UInt8 → List UInt8
  | 0, _ => []
  | fuel + 1, data =>
    if data = [] then []
    else wordTag 0 0 (data.take 8) :: (packBody (wordTag 0 0 (data.take 8)) (data.take 8) ++ packWords fuel (data.drop 8))

def pack (data : List UInt8) : List UInt8 := packWords data.length data

private theorem bit_or_iff (tag : UInt8) {i k : Nat} (hi : i < 8) (hk : k < 8) :
    (tag ||| (1 <<< UInt8.ofNat i)) &&& (1 <<< UInt8.ofNat k) ≠ 0 ↔
    tag &&& (1 <<< UInt8.ofNat k) ≠ 0 ∨ i = k := by
  have hsingle : ∀ i k : Fin 8, ((1 : UInt8) <<< UInt8.ofNat i) &&& (1 <<< UInt8.ofNat k) = 0 ↔
      i ≠ k := by decide +kernel
  have hdistrib : ∀ a b c : UInt8, (a ||| b) &&& c = (a &&& c) ||| (b &&& c) := by
    intro a b c
    apply UInt8.eq_of_toBitVec_eq
    ext j
    simp [Bool.and_or_distrib_right]
  have hik := hsingle ⟨i, hi⟩ ⟨k, hk⟩
  rw [hdistrib, ne_eq, UInt8.or_eq_zero_iff, hik, not_and_or, not_not, Fin.mk.injEq]

theorem bit_wordTag_iff (tag : UInt8) {i k : Nat} {word : List UInt8} (hword : i + word.length ≤ 8)
    (hk : k < 8) :
    wordTag tag i word &&& (1 <<< UInt8.ofNat k) ≠ 0 ↔
      tag &&& (1 <<< UInt8.ofNat k) ≠ 0 ∨ ∃ j byte, word[j]? = some byte ∧ byte ≠ 0 ∧ i + j = k := by
  induction word generalizing tag i with
  | nil => simp [wordTag]
  | cons byte word ih =>
    rw [length_cons] at hword
    have hfirst : (if byte ≠ 0 then tag ||| (1 <<< UInt8.ofNat i) else tag) &&& (1 <<< UInt8.ofNat k) ≠ 0 ↔
        tag &&& (1 <<< UInt8.ofNat k) ≠ 0 ∨ byte ≠ 0 ∧ i = k := by
      split
      · next hbyte => rw [bit_or_iff tag (by omega) hk, and_iff_right hbyte]
      · next hbyte => rw [or_iff_left fun h => hbyte h.1]
    rw [wordTag, ih _ (by omega), hfirst, or_assoc]
    refine or_congr Iff.rfl ⟨?_, ?_⟩
    · rintro (⟨hbyte, rfl⟩ | ⟨j, b, hj, hb, rfl⟩)
      · exact ⟨0, byte, rfl, hbyte, rfl⟩
      · exact ⟨j + 1, b, hj, hb, by omega⟩
    · rintro ⟨j, b, hj, hb, rfl⟩
      cases j with
      | zero => exact Or.inl ⟨Option.some.inj hj ▸ hb, rfl⟩
      | succ j => exact Or.inr ⟨j, b, hj, hb, by omega⟩

theorem bit_iff {word : List UInt8} (hword : word.length ≤ 8) {k : Nat} (hk : k < 8) :
    wordTag 0 0 word &&& (1 <<< UInt8.ofNat k) ≠ 0 ↔ ∃ byte, word[k]? = some byte ∧ byte ≠ 0 := by
  rw [bit_wordTag_iff 0 (by omega) hk]
  simp

/-! ### What is packed is unpacked -/

theorem unpackMixed_taggedBytes {tag : UInt8} {originalLen i : Nat} {word output : List UInt8}
    (more : List UInt8) (hword : i + word.length ≤ 8)
    (hbits : ∀ j byte, word[j]? = some byte → (tag &&& (1 <<< UInt8.ofNat (i + j)) ≠ 0 ↔ byte ≠ 0))
    (hroom : output.length + word.length ≤ originalLen)
    (hlast : i + word.length < 8 → output.length + word.length = originalLen) :
    unpackMixed tag originalLen (range' i (8 - i))
    (taggedBytes tag i word ++ more) output = .ok (more, output ++ word) := by
  induction word generalizing i output with
  | nil =>
    rw [append_nil]
    by_cases hi : i = 8
    · subst hi
      rfl
    · obtain ⟨n, hn⟩ : ∃ n, 8 - i = n + 1 := ⟨7 - i, by rw [length_nil] at hword; omega⟩
      have hfull : output.length ≥ originalLen := (hlast (by rw [length_nil] at hword ⊢; omega)).ge
      rw [hn, range'_succ, unpackMixed.eq_def]
      exact if_pos hfull
  | cons byte word ih =>
    rw [length_cons] at hword hroom hlast
    obtain ⟨n, hn⟩ : ∃ n, 8 - i = n + 1 := ⟨7 - i, by omega⟩
    have hrest : 8 - (i + 1) = n := by omega
    have hbit := hbits 0 byte rfl
    have htail : ∀ j b, word[j]? = some b → (tag &&& (1 <<< UInt8.ofNat (i + 1 + j)) ≠ 0 ↔ b ≠ 0) := by
      intro j b hj
      rw [add_right_comm]
      exact hbits (j + 1) b hj
    have hnext := @ih (i + 1) (output ++ [byte]) (by omega) htail (by simp; omega) (by simp; omega)
    rw [hrest, append_assoc, singleton_append] at hnext
    rw [hn, range'_succ, unpackMixed.eq_def, taggedBytes]
    dsimp only
    rw [if_neg (by omega : ¬ output.length ≥ originalLen)]
    by_cases hzero : byte = 0
    · have hunset : ¬ tag &&& (1 <<< UInt8.ofNat i) ≠ 0 := fun h => hbit.mp h hzero
      rw [if_neg hunset, if_neg hunset, ← hzero]
      exact hnext
    · have hset : tag &&& (1 <<< UInt8.ofNat i) ≠ 0 := hbit.mpr hzero
      rw [if_pos hset, if_pos hset]
      exact hnext

theorem unpackWord_packBody {word output : List UInt8} {originalLen : Nat} (more : List UInt8)
    (hword : word.length ≤ 8) (hroom : output.length + word.length ≤ originalLen)
    (hlast : word.length < 8 → output.length + word.length = originalLen) :
    unpackWord (wordTag 0 0 word) originalLen (packBody (wordTag 0 0 word) word ++ more) output =
      .ok (more, output ++ word) := by
  have hbits : ∀ j byte, word[j]? = some byte → (wordTag 0 0 word &&& (1 <<< UInt8.ofNat j) ≠ 0 ↔ byte ≠ 0) := by
    intro j byte hj
    have hlt : j < word.length := (List.getElem?_eq_some_iff.mp hj).1
    rw [bit_iff hword (by omega), hj]
    simp
  by_cases hzero : wordTag 0 0 word = 0
  · have hzeros : word = replicate word.length 0 := by
      refine eq_replicate_iff.mpr ⟨rfl, fun byte hbyte => ?_⟩
      obtain ⟨j, hj⟩ := mem_iff_getElem?.mp hbyte
      by_contra hne
      exact (hbits j byte hj).mpr hne (by rw [hzero]; exact UInt8.zero_and)
    have hmin : min 8 (originalLen - output.length) = word.length := by omega
    rw [unpackWord, packBody, if_pos hzero, if_pos hzero, hmin, ← hzeros]
    rfl
  · by_cases hfull : wordTag 0 0 word = 0xFF
    · have height : word.length = 8 := by
        have hbit : wordTag 0 0 word &&& (1 <<< UInt8.ofNat 7) ≠ 0 := by rw [hfull]; decide
        obtain ⟨byte, hbyte, -⟩ := (bit_iff hword (by decide)).mp hbit
        have hlt := (List.getElem?_eq_some_iff.mp hbyte).1
        omega
      have hcount : min (min 8 (word ++ more).length) (originalLen - output.length) = word.length := by
        rw [length_append]
        omega
      rw [packBody, if_neg hzero, if_pos ⟨hfull, height⟩, unpackWord, if_neg hzero, if_pos hfull]
      dsimp only
      rw [hcount, if_neg (by omega), take_left, drop_left]
    · rw [unpackWord, packBody, if_neg hzero, if_neg hzero, if_neg hfull, if_neg fun h => hfull h.1, range_eq_range']
      exact unpackMixed_taggedBytes more (by omega) (by simpa using hbits) hroom fun h => hlast (by omega)

theorem unpackWords_nil (originalLen fuel : Nat) (output : List UInt8) :
    unpackWords originalLen fuel [] output = .ok ([], output) := by
  cases fuel with
  | zero => rfl
  | succ fuel =>
    rw [unpackWords]
    split <;> rfl

theorem unpackWords_packWords {n fuel originalLen : Nat} {data output : List UInt8}
    (hn : data.length ≤ n) (hfuel : (packWords n data).length ≤ fuel)
    (hlength : output.length + data.length = originalLen) :
    unpackWords originalLen fuel (packWords n data) output = .ok ([], output ++ data) := by
  induction n generalizing data output fuel with
  | zero =>
    have hnil : data = [] := length_eq_zero_iff.mp (le_zero.mp hn)
    simp [hnil, packWords, unpackWords_nil]
  | succ n ih =>
    rw [packWords] at hfuel ⊢
    split at hfuel
    · next hnil =>
      simp [hnil, unpackWords_nil]
    · next hne =>
      have hpos : 0 < data.length := length_pos_iff.mpr hne
      rw [length_cons, length_append] at hfuel
      obtain ⟨fuel, rfl⟩ : ∃ m, fuel = m + 1 := ⟨fuel - 1, by omega⟩
      have htake : (data.take 8).length = min 8 data.length := length_take
      have hdrop : (data.drop 8).length = data.length - 8 := length_drop
      have hword := unpackWord_packBody (packWords n (data.drop 8)) (by omega : (data.take 8).length ≤ 8)
        (by omega : output.length + (data.take 8).length ≤ originalLen) fun h => by omega
      have hrest := @ih fuel (data.drop 8) (output ++ data.take 8) (by omega) (by omega) (by rw [length_append]; omega)
      rw [if_neg hne, unpackWords, if_pos (by omega)]
      simp only [hword]
      rw [append_assoc, take_append_drop] at hrest
      exact hrest

theorem unpack_pack (data : List UInt8) : unpack (pack data) data.length = .ok data := by
  have hwords := @unpackWords_packWords data.length (pack data).length data.length data [] le_rfl le_rfl (zero_add _)
  rw [nil_append] at hwords
  rw [unpack]
  change (unpackWords data.length (pack data).length (pack data) [] >>= fun result => _) = _
  rw [show unpackWords data.length (pack data).length (pack data) [] = .ok ([], data) from hwords]
  change (if data.length ≠ data.length then _ else if ([] : List UInt8) ≠ [] then _ else _) = _
  simp

/-! ### Unpacking with positions

The function itself holds a position in the packed bytes. What a read beyond them would do, and what the reservation of too much
memory does, is a panic. -/

inductive UnpackStop where
  | unpacking (message : String)
  | outOfBounds
  | capacityOverflow
  | outOfFuel
deriving DecidableEq

/-- `isize::MAX`, which is also the largest capacity of a vector of bytes. -/
def isizeMax : Nat := 2 ^ 63 - 1

def byteAt (packed : List UInt8) (pos : Nat) : Except UnpackStop UInt8 :=
  match packed[pos]? with
  | some byte => .ok byte
  | none => .error .outOfBounds

def sliceAt (packed : List UInt8) (start stop : Nat) : Except UnpackStop (List UInt8) :=
  if start ≤ stop ∧ stop ≤ packed.length then .ok ((packed.drop start).take (stop - start)) else .error .outOfBounds

def mixedAt (packed : List UInt8) (tag : UInt8) (originalLen : Nat) :
    List Nat → Nat → List UInt8 → Except UnpackStop (Nat × List UInt8)
  | [], pos, output => .ok (pos, output)
  | i :: rest, pos, output =>
    if output.length ≥ originalLen then .ok (pos, output)
    else if tag &&& (1 <<< UInt8.ofNat i) ≠ 0 then
      if pos ≥ packed.length then .error (.unpacking "Unexpected end of packed data")
      else do
        let byte ← byteAt packed pos
        mixedAt packed tag originalLen rest (pos + 1) (output ++ [byte])
    else mixedAt packed tag originalLen rest pos (output ++ [0])

def wordAt (packed : List UInt8) (tag : UInt8) (originalLen pos : Nat) (output : List UInt8) :
    Except UnpackStop (Nat × List UInt8) :=
  if tag = 0 then .ok (pos, output ++ replicate (min 8 (originalLen - output.length)) 0)
  else if tag = 0xFF then
    let count := min (min 8 (packed.length - pos)) (originalLen - output.length)
    if count < 8 ∧ output.length + 8 ≤ originalLen then
      .error (.unpacking "Unexpected end of packed data for 0xFF tag")
    else do
      let word ← sliceAt packed pos (pos + count)
      .ok (pos + count, output ++ word)
  else mixedAt packed tag originalLen (range 8) pos output

def wordsAt (packed : List UInt8) (originalLen : Nat) :
    Nat → Nat → List UInt8 → Except UnpackStop (Nat × List UInt8)
  | 0, _, _ => .error .outOfFuel
  | fuel + 1, pos, output =>
    if pos < packed.length ∧ output.length < originalLen then do
      let tag ← byteAt packed pos
      let (pos', output') ← wordAt packed tag originalLen (pos + 1) output
      wordsAt packed originalLen fuel pos' output'
    else .ok (pos, output)

/-- A call of `unpack`, with the panics that it can come to. -/
def unpackCall (packed : List UInt8) (originalLen : Nat) : Except UnpackStop (List UInt8) :=
  if originalLen > isizeMax then .error .capacityOverflow
  else do
    let (pos, output) ← wordsAt packed originalLen (packed.length + 1) 0 []
    if output.length ≠ originalLen then
      .error (.unpacking ("packed data ended after " ++ toString output.length ++ " of " ++ toString originalLen ++
        " output bytes"))
    else if pos ≠ packed.length then .error (.unpacking "packed data contains trailing bytes")
    else .ok (output.take originalLen)

/-- The two loops have come to the same point, at or after the given position. -/
inductive SamePoint (packed : List UInt8) (start : Nat) :
    Except UnpackStop (Nat × List UInt8) → Except String (List UInt8 × List UInt8) → Prop
  | ok {pos : Nat} {output : List UInt8} (hstart : start ≤ pos) (hpos : pos ≤ packed.length) :
    SamePoint packed start (.ok (pos, output)) (.ok (packed.drop pos, output))
  | error (message : String) : SamePoint packed start (.error (.unpacking message)) (.error message)

section Positions
variable {packed output : List UInt8} {tag : UInt8} {originalLen pos : Nat}
variable {result' : Except String (List UInt8 × List UInt8)} {result : Except UnpackStop (Nat × List UInt8)}

theorem SamePoint.mono {start start' : Nat} (h : SamePoint packed start result result')
    (hle : start' ≤ start) :
    SamePoint packed start' result result' := by
  cases h with
  | ok hstart hpos => exact .ok (hle.trans hstart) hpos
  | error message => exact .error message

theorem SamePoint.bind {start : Nat} {next : Nat × List UInt8 → Except UnpackStop (Nat × List UInt8)}
    {next' : List UInt8 × List UInt8 → Except String (List UInt8 × List UInt8)}
    (h : SamePoint packed start result result')
    (hnext : ∀ pos output, start ≤ pos → pos ≤ packed.length →
      SamePoint packed pos (next (pos, output)) (next' (packed.drop pos, output))) :
    SamePoint packed start (result >>= next) (result' >>= next') := by
  cases h with
  | ok hstart hpos => exact (hnext _ _ hstart hpos).mono hstart
  | error message => exact .error message

theorem byteAt_of_lt (hpos : pos < packed.length) : byteAt packed pos = .ok packed[pos] := by
  rw [byteAt, getElem?_eq_getElem hpos]

private theorem samePoint_mixedAt {bits : List Nat} (hpos : pos ≤ packed.length) :
    SamePoint packed pos (mixedAt packed tag originalLen bits pos output)
      (unpackMixed tag originalLen bits (packed.drop pos) output) := by
  induction bits generalizing pos output with
  | nil => exact .ok le_rfl hpos
  | cons i bits ih =>
    rw [mixedAt, unpackMixed.eq_def]
    dsimp only
    split_ifs with hfull hbit hend
    · exact .ok le_rfl hpos
    · rw [drop_eq_nil_of_le hend]
      exact .error _
    · rw [byteAt_of_lt (by omega), drop_eq_getElem_cons (by omega : pos < packed.length)]
      exact (ih (by omega)).mono (le_succ pos)
    · exact ih hpos

private theorem samePoint_wordAt (hpos : pos ≤ packed.length) :
    SamePoint packed pos (wordAt packed tag originalLen pos output)
      (unpackWord tag originalLen (packed.drop pos) output) := by
  rw [wordAt, unpackWord, length_drop]
  dsimp only
  generalize hcount : min (min 8 (packed.length - pos)) (originalLen - output.length) = count
  split_ifs with hzero hfull hshort
  · exact .ok le_rfl hpos
  · exact .error _
  · have hle : pos + count ≤ packed.length := by omega
    rw [sliceAt, if_pos ⟨by omega, hle⟩, drop_drop, Nat.add_sub_cancel_left]
    exact .ok (by omega) hle
  · exact samePoint_mixedAt hpos

/-- Every round takes a tag, so that as many rounds as there are bytes are enough. -/
theorem samePoint_wordsAt {fuel fuel' : Nat} (hpos : pos ≤ packed.length)
    (hfuel : packed.length - pos < fuel) (hfuel' : packed.length - pos ≤ fuel') :
    SamePoint packed pos (wordsAt packed originalLen fuel pos output)
      (unpackWords originalLen fuel' (packed.drop pos) output) := by
  induction fuel generalizing pos output fuel' with
  | zero => omega
  | succ fuel ih =>
    rw [wordsAt]
    by_cases hnext : pos < packed.length
    · obtain ⟨fuel', rfl⟩ : ∃ m, fuel' = m + 1 := ⟨fuel' - 1, by omega⟩
      rw [unpackWords.eq_def, byteAt_of_lt hnext, drop_eq_getElem_cons hnext]
      dsimp only
      by_cases hroom : output.length < originalLen
      · rw [if_pos ⟨hnext, hroom⟩, if_pos hroom]
        refine SamePoint.mono (SamePoint.bind (samePoint_wordAt hnext) ?_) (le_succ pos)
        intro pos' output' hstart hpos'
        exact ih hpos' (by omega) (by omega)
      · rw [if_neg fun h => hroom h.2, if_neg hroom, ← drop_eq_getElem_cons hnext]
        exact .ok le_rfl hpos
    · have hend : pos = packed.length := by omega
      subst hend
      rw [if_neg fun h => hnext h.1, drop_length, unpackWords_nil, ← packed.drop_length]
      exact .ok le_rfl le_rfl

/-- **The call computes what the lists say**, if memory for so many bytes can be reserved at all. -/
theorem unpackCall_eq (packed : List UInt8) (originalLen : Nat) :
    unpackCall packed originalLen = if originalLen > isizeMax then .error .capacityOverflow
      else (unpack packed originalLen).mapError .unpacking := by
  rw [unpackCall, unpack]
  split_ifs with hlarge
  · rfl
  · have hwords := @samePoint_wordsAt packed [] originalLen 0 (packed.length + 1) packed.length (zero_le _)
      (lt_succ_self _) (sub_le _ _)
    rw [drop_zero] at hwords
    generalize wordsAt packed originalLen (packed.length + 1) 0 [] = result at hwords ⊢
    generalize unpackWords originalLen packed.length packed [] = result' at hwords ⊢
    cases hwords with
    | error message => rfl
    | @ok pos output hstart hpos =>
      have hrest : packed.drop pos ≠ [] ↔ pos ≠ packed.length := by
        rw [ne_eq, drop_eq_nil_iff]
        omega
      change (if output.length ≠ originalLen then _ else if pos ≠ packed.length then _ else _) =
        Except.mapError _ (if output.length ≠ originalLen then _ else if packed.drop pos ≠ [] then _ else _)
      rw [apply_ite (Except.mapError _), apply_ite (Except.mapError _)]
      simp only [hrest]
      rfl

end Positions

def Answers : Except UnpackStop (List UInt8) → Prop
  | .ok _ | .error (.unpacking _) => True
  | .error _ => False

/-- **What is packed is unpacked**, and a call on any bytes comes to an end within them, with an
answer. The length that is asked for must be one that a buffer can have. -/
theorem unpackCall_pack_and_answers_iff (data packed : List UInt8) (originalLen : Nat) :
    unpackCall (pack data) data.length = (if data.length > isizeMax then .error .capacityOverflow else .ok data) ∧
      (Answers (unpackCall packed originalLen) ↔ originalLen ≤ isizeMax) := by
  constructor
  · rw [unpackCall_eq, unpack_pack]
    rfl
  · rw [unpackCall_eq]
    split_ifs with hlarge
    · exact iff_of_false id hlarge.not_ge
    · refine iff_of_true ?_ (not_lt.mp hlarge)
      cases unpack packed originalLen <;> exact trivial

/-- No bytes, and the largest length that can be asked for. -/
theorem unpackCall_capacityOverflow : unpackCall [] (2 ^ 64 - 1) = .error .capacityOverflow := rfl

end PackedCodec

/-! ### Packed records -/

/-- A JSON text is left as it is. -/
def encodeWalRecordFbPacked (S : Serde) (record : WalRecord) : List UInt8 × Nat :=
  let fbData := encodeWalRecordFb S record
  if fbData.head? = some 0x7B then (fbData, fbData.length) else (pack fbData, fbData.length)

def LengthsTie (fbData : List UInt8) : Prop :=
  fbData.head? ≠ some 0x7B ∧ (pack fbData).length = fbData.length

instance (fbData : List UInt8) : Decidable (LengthsTie fbData) := instDecidableAnd

theorem decodeWalRecordAuto_of_eq (S : Serde) {data : List UInt8} {originalLen : Nat}
    (h : originalLen = 0 ∨ originalLen = data.length) :
    decodeWalRecordAuto S walMagicFb data originalLen = decodeWalRecordAuto S walMagicFb data 0 := by
  have hraw : ¬ (originalLen > 0 ∧ originalLen ≠ data.length) := by omega
  have hzero : ¬ (0 > 0 ∧ 0 ≠ data.length) := by omega
  rw [decodeWalRecordAuto, decodeWalRecordAuto]
  simp only [if_neg hraw, if_neg hzero]

/-- The decoder unpacks unless the lengths are the same. -/
theorem decodeWalRecordAuto_packed (S : Serde) (record : WalRecord) :
    decodeWalRecordAuto S walMagicFb (encodeWalRecordFbPacked S record).1 (encodeWalRecordFbPacked S record).2 =
      decodeWalRecordAuto S walMagicFb
        (if LengthsTie (encodeWalRecordFb S record) then pack (encodeWalRecordFb S record)
          else encodeWalRecordFb S record) 0 := by
  unfold encodeWalRecordFbPacked
  generalize encodeWalRecordFb S record = data
  dsimp only
  by_cases hjson : data.head? = some 0x7B
  · rw [if_pos hjson, if_neg fun h => h.1 hjson]
    exact decodeWalRecordAuto_of_eq S (.inr rfl)
  · rw [if_neg hjson]
    by_cases htie : (pack data).length = data.length
    · rw [if_pos ⟨hjson, htie⟩]
      exact decodeWalRecordAuto_of_eq S (.inr htie.symm)
    · rw [if_neg fun h => htie h.2]
      by_cases hempty : data = []
      · subst hempty
        exact absurd rfl htie
      · have hpos : data.length > 0 := length_pos_iff.mpr hempty
        rw [decodeWalRecordAuto_fb, decodeWalRecordAuto, if_neg (by decide), if_pos rfl, if_pos ⟨hpos, Ne.symm htie⟩]
        exact unpack_pack data ▸ rfl

/-- **What the packed form carries.** Where the packed buffer is not as long as the buffer, what is
read back is what the codec carries unpacked, with the sequence number for the version of a buffer.
Where it is as long, it is decoded without being unpacked. -/
theorem decodeWalRecordAuto_encodeWalRecordFbPacked_iff (S : Serde) (seq version : Nat)
    (op : WalOperation) (hseq : seq < 2 ^ 64) (hversion : version < 2 ^ 64) (hop : op.WellFormed)
    (hS : S.Documented ⟨seq, op, version⟩) :
    let buffer := encodeWalRecordFb S ⟨seq, op, version⟩
    let packed := encodeWalRecordFbPacked S ⟨seq, op, version⟩
    (¬ LengthsTie buffer → (decodeWalRecordAuto S walMagicFb packed.1 packed.2 = .ok ⟨seq, op, version⟩ ↔
      op.Survives S seq ∧ ((operationToFb S op).isSome → version = seq))) ∧
    (LengthsTie buffer → decodeWalRecordAuto S walMagicFb packed.1 packed.2 =
      decodeWalRecordAuto S walMagicFb (pack buffer) 0) := by
  intro buffer packed
  rw [decodeWalRecordAuto_packed]
  refine ⟨fun htie => ?_, fun htie => by rw [if_pos htie]⟩
  rw [if_neg htie]
  exact decodeWalRecordAuto_eq_ok_iff S op hseq hversion hop hS

/-- The checkpoint of a node whose identifier are so many bytes, and its buffer, which is without
padding for these lengths. -/
def longCheckpoint (n : Nat) : WalOperation := .snapshotCheckpoint ⟨replicate n 1⟩ 5

def longCheckpointBuffer (n : Nat) : List UInt8 :=
  [20, 0, 0, 0, 0, 0, 0, 0, 0, 0, 10, 0, 20, 0, 12, 0, 7, 0, 8, 0, 10, 0, 0, 0, 0, 0, 0, 4, 20, 0,
    0, 0, 1, 0, 0, 0, 0, 0, 0, 0,
    8, 0, 16, 0, 4, 0, 8, 0, 8, 0, 0, 0, 12, 0, 0, 0, 5, 0, 0, 0, 0, 0, 0, 0] ++
    ([UInt8.ofNat (n % 256), UInt8.ofNat (n / 256), 0, 0] ++ replicate n 1)

def longCheckpointLibraries (n : Nat) : Serde :=
  { sampleLibraries [] with
    jsonError := fun _ => "expected value at line 1 column 1"
    fbFinish := fun _ => longCheckpointBuffer n
    fbRoot := fun data => if data = longCheckpointBuffer n then
      some ⟨asI64 1, .snapshotCheckpoint (createByteVector (replicate n 1)) (asI64 5)⟩ else none }

theorem encodeWalRecordFb_longCheckpoint (n version : Nat) :
    encodeWalRecordFb (longCheckpointLibraries n) ⟨1, longCheckpoint n, version⟩ = longCheckpointBuffer n := rfl

private theorem decodeWalRecordFb_longCheckpoint {n : Nat} {data : List UInt8}
    (h : data ≠ longCheckpointBuffer n) :
    decodeWalRecordFb (longCheckpointLibraries n) data = none := by
  have hroot : (longCheckpointLibraries n).fbRoot data = none := if_neg h
  rw [decodeWalRecordFb, hroot]
  rfl

theorem longCheckpointLibraries_documented (n version : Nat) :
    (longCheckpointLibraries n).Documented ⟨1, longCheckpoint n, version⟩ where
  json := fun h => by cases h
  jsonNoBuffer := fun h => by cases h
  buffer := fun operation h => by
    cases h
    exact if_pos rfl
  bufferNoJson := fun _ _ => rfl
  msgpack := fun _ h => by cases h

/-- The checkpoint of a node with a short identifier. -/
theorem decode_packed_longCheckpoint_four :
    let packed := encodeWalRecordFbPacked (longCheckpointLibraries 4) ⟨1, longCheckpoint 4, 1⟩
    ¬ LengthsTie (longCheckpointBuffer 4) ∧
      decodeWalRecordAuto (longCheckpointLibraries 4) walMagicFb packed.1 packed.2 = .ok ⟨1, longCheckpoint 4, 1⟩ := by
  have htie : ¬ LengthsTie (longCheckpointBuffer 4) := by decide +kernel
  have hiff := decodeWalRecordAuto_encodeWalRecordFbPacked_iff _ 1 1 (longCheckpoint 4) (by decide) (by decide) trivial
    (longCheckpointLibraries_documented 4 1)
  exact ⟨htie, (hiff.1 htie).mpr ⟨trivial, fun _ => rfl⟩⟩

/-- The buffer of 392 bytes has 49 zeros, one for each tag. The packed buffer is no buffer. And a
version that is not the sequence number is replaced by it. -/
theorem not_decode_packed_tie_not_decode_packed_version :
    let tied := encodeWalRecordFbPacked (longCheckpointLibraries 324) ⟨1, longCheckpoint 324, 1⟩
    let packed := encodeWalRecordFbPacked (longCheckpointLibraries 4) ⟨1, longCheckpoint 4, 2⟩
    (longCheckpointLibraries 324).Documented ⟨1, longCheckpoint 324, 1⟩ ∧
      decodeWalRecordAuto (longCheckpointLibraries 324) walMagicFb tied.1 tied.2 =
        .error "FlatBuffer/JSON decode error: expected value at line 1 column 1" ∧
      (longCheckpointLibraries 4).Documented ⟨1, longCheckpoint 4, 2⟩ ∧
      decodeWalRecordAuto (longCheckpointLibraries 4) walMagicFb packed.1 packed.2 = .ok ⟨1, longCheckpoint 4, 1⟩ := by
  refine ⟨longCheckpointLibraries_documented 324 1, ?_, longCheckpointLibraries_documented 4 2, ?_⟩
  · have htie : LengthsTie (longCheckpointBuffer 324) := by decide +kernel
    have hbytes : pack (longCheckpointBuffer 324) ≠ longCheckpointBuffer 324 := by decide +kernel
    rw [decodeWalRecordAuto_packed, encodeWalRecordFb_longCheckpoint, if_pos htie, decodeWalRecordAuto_fb,
      decodeWalRecordFb_longCheckpoint hbytes]
    rfl
  · have htie : ¬ LengthsTie (longCheckpointBuffer 4) := by decide +kernel
    rw [decodeWalRecordAuto_packed, encodeWalRecordFb_longCheckpoint, if_neg htie, decodeWalRecordAuto_fb]
    rfl

end Nexora

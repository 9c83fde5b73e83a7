import Mathlib.Data.List.Basic

/-!
# Packed payloads

`PackedCodec` of `nexora-serialization`: words of eight bytes, each behind a tag whose bits say
which of its bytes are not zero. The reader is given the length of the unpacked data.
-/

namespace Nexora

namespace PackedCodec

/-- The inner loop for a word with zero and non-zero bytes: one round for each remaining bit
index. -/
def unpackMixed (tag : UInt8) (originalLen : Nat) :
    List Nat → List UInt8 → List UInt8 → Except String (List UInt8 × List UInt8)
  | [], packed, output => .ok (packed, output)
  | i :: rest, packed, output =>
      if output.length ≥ originalLen then .ok (packed, output)
      else if tag &&& (1 <<< UInt8.ofNat i) ≠ 0 then
        match packed with
        | [] => .error "Unexpected end of packed data"
        | b :: packed' => unpackMixed tag originalLen rest packed' (output ++ [b])
      else unpackMixed tag originalLen rest packed (output ++ [0])

def unpackWord (tag : UInt8) (originalLen : Nat) (packed output : List UInt8) :
    Except String (List UInt8 × List UInt8) :=
  if tag = 0 then .ok (packed, output ++ List.replicate (min 8 (originalLen - output.length)) 0)
  else if tag = 0xFF then
    let count := min (min 8 packed.length) (originalLen - output.length)
    if count < 8 ∧ output.length + 8 ≤ originalLen then .error "Unexpected end of packed data for 0xFF tag"
    else .ok (packed.drop count, output ++ packed.take count)
  else unpackMixed tag originalLen (List.range 8) packed output

/-- The loop over words. Every round takes a tag off the packed data, so its length bounds the
rounds. -/
def unpackWords (originalLen : Nat) :
    Nat → List UInt8 → List UInt8 → Except String (List UInt8 × List UInt8)
  | 0, packed, output => .ok (packed, output)
  | fuel + 1, packed, output =>
      if output.length < originalLen then
        match packed with
        | [] => .ok (packed, output)
        | tag :: packed' => do
            let (packed'', output') ← unpackWord tag originalLen packed' output
            unpackWords originalLen fuel packed'' output'
      else .ok (packed, output)

def unpack (packed : List UInt8) (originalLen : Nat) : Except String (List UInt8) := do
  let (rest, output) ← unpackWords originalLen packed.length packed []
  if output.length ≠ originalLen then
    .error ("packed data ended after " ++ toString output.length ++ " of " ++ toString originalLen ++ " output bytes")
  else if rest ≠ [] then .error "packed data contains trailing bytes"
  else .ok (output.take originalLen)

end PackedCodec
end Nexora

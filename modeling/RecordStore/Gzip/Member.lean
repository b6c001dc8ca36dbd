import RecordStore.Gzip.Checksum
import RecordStore.Gzip.Inflate

/-!
# Gzip streams

Data is wrapped in stored blocks, and any deflated data is unwrapped. A stream whose header is
damaged, or whose checksum or length does not match its data, is refused.
-/

namespace RecordStore.Gzip

def littleEndianBytes (value : Nat) : (count : Nat) → List UInt8
  | 0 => []
  | count + 1 => UInt8.ofNat value :: littleEndianBytes (value / 256) count

/-- The most bytes of one stored block. -/
def blockSize : Nat := 65535

/-- The data as stored blocks; `bound` is at least the number of blocks after the first. -/
def storedBlocks (bytes : List UInt8) : (bound : Nat) → List UInt8
  | 0 => storedBlock 1 bytes
  | bound + 1 =>
    if bytes.length ≤ blockSize then storedBlock 1 bytes
    else storedBlock 0 (bytes.take blockSize) ++ storedBlocks (bytes.drop blockSize) bound
where
  storedBlock (last : UInt8) (bytes : List UInt8) : List UInt8 :=
    last :: littleEndianBytes bytes.length 2 ++
      littleEndianBytes (0xffff - bytes.length) 2 ++ bytes

def compress (bytes : List UInt8) : List UInt8 :=
  [0x1f, 0x8b, 8, 0, 0, 0, 0, 0, 0, 255] ++ storedBlocks bytes (bytes.length / blockSize) ++
    littleEndianBytes (checksum bytes).toNat 4 ++ littleEndianBytes bytes.length 4

/-- The most bytes of a text in a header. -/
def headerTextLimit : Nat := 65535

/-- What follows a text that ends with a zero byte. -/
def dropText? (bytes : List UInt8) : Option (List UInt8) :=
  match bytes.dropWhile (· ≠ 0) with
  | [] => none
  | _ :: rest => if bytes.length - (rest.length + 1) ≤ headerTextLimit then some rest else none

/-- What follows a part that starts with its length. -/
def dropExtra? (bytes : List UInt8) : Option (List UInt8) :=
  match bytes with
  | a :: b :: rest =>
    if littleEndian [a, b] ≤ rest.length then some (rest.drop (littleEndian [a, b])) else none
  | _ => none

/-- What follows the low half of the checksum of the header before it. -/
def dropHeaderChecksum? (header bytes : List UInt8) : Option (List UInt8) :=
  match bytes with
  | a :: b :: rest =>
    if littleEndian [a, b] = (checksum header).toNat % 65536 then some rest else none
  | _ => none

/-- What follows the header, whose flags announce optional parts; the three highest have no
meaning and must not be set. -/
def dropHeader? (bytes : List UInt8) : Option (List UInt8) :=
  match bytes with
  | 0x1f :: 0x8b :: 8 :: flags :: _ :: _ :: _ :: _ :: _ :: _ :: rest => do
    if flags &&& 0xe0 ≠ 0 then none
    let rest ← if flags &&& 4 = 0 then some rest else dropExtra? rest
    let rest ← if flags &&& 8 = 0 then some rest else dropText? rest
    let rest ← if flags &&& 16 = 0 then some rest else dropText? rest
    if flags &&& 2 = 0 then some rest
    else dropHeaderChecksum? (bytes.take (bytes.length - rest.length)) rest
  | _ => none

/-- The data of the first stream; bytes after it are ignored. -/
def decompress? (bytes : List UInt8) : Option (List UInt8) := do
  let bytes ← dropHeader? bytes
  let (data, trailer) ← inflate? bytes
  if trailer.length ≥ 8 ∧ littleEndian (trailer.take 4) = (checksum data).toNat ∧
      littleEndian ((trailer.drop 4).take 4) = data.length % UInt32.size then
    some data
  else none

end RecordStore.Gzip

/-!
# Deflated data

A deflated stream is a sequence of blocks, each one stored, or coded by a fixed or by its own
prefix code. Bits are taken from the low end of each byte.
-/

namespace RecordStore.Gzip

/-- Where reading stands: how many bits of the first byte are used up, and the bytes. -/
structure BitReader where
  offset : Nat
  bytes : List UInt8

namespace BitReader

def bit? (reader : BitReader) : Option (Nat × BitReader) :=
  match reader.bytes with
  | [] => none
  | byte :: rest =>
    let bit := byte.toNat / Nat.pow 2 reader.offset % 2
    if reader.offset < 7 then some (bit, ⟨reader.offset + 1, byte :: rest⟩)
    else some (bit, ⟨0, rest⟩)

/-- A number of `count` bits, the lowest bit first. -/
def number? (reader : BitReader) : (count : Nat) → Option (Nat × BitReader)
  | 0 => some (0, reader)
  | count + 1 => do
    let (bit, reader) ← reader.bit?
    let (value, reader) ← reader.number? count
    some (bit + 2 * value, reader)

/-- The bytes from the next whole byte on. -/
def aligned (reader : BitReader) : List UInt8 :=
  if reader.offset = 0 then reader.bytes else reader.bytes.tail

end BitReader

/-- A canonical prefix code: how many codes there are of each length from one bit on, and the
symbols in the order of their codes. -/
structure PrefixCode where
  counts : List Nat
  symbols : Array Nat

namespace PrefixCode

def ofLengths (lengths : List Nat) : PrefixCode :=
  let numbered := lengths.zipIdx
  let ofLength (length : Nat) := numbered.filterMap fun (held, symbol) =>
    if held = length then some symbol else none
  let groups := (List.range 15).map fun index => ofLength (index + 1)
  { counts := groups.map List.length
    symbols := groups.flatten.toArray }

/-- How many bit strings of fifteen bits start with no code, none when one starts with two. -/
def unused? (code : PrefixCode) : Option Nat :=
  code.counts.foldlM
    (fun left count => if 2 * left < count then none else some (2 * left - count)) 1

/-- Whether every bit string starts with exactly one code. -/
def isComplete (code : PrefixCode) : Bool :=
  code.unused? == some 0

/-- Whether the code may stand for data: one that leaves bit strings unused has no symbol, or a
single one of one bit. -/
def isUsable (code : PrefixCode) : Bool :=
  code.isComplete || code.symbols.isEmpty || (code.symbols.size == 1 && code.counts.head? == some 1)

/-- Reads one more bit for each code length until the code is one of that length. -/
def decode? (symbols : Array Nat) (reader : BitReader) (value first index : Nat) :
    (counts : List Nat) → Option (Nat × BitReader)
  | [] => none
  | count :: counts => do
    let (bit, reader) ← reader.bit?
    let value := value + bit
    if value < first + count then
      let symbol ← symbols[index + (value - first)]?
      some (symbol, reader)
    else
      decode? symbols reader (2 * value) (2 * (first + count)) (index + count) counts

def symbol? (code : PrefixCode) (reader : BitReader) : Option (Nat × BitReader) :=
  decode? code.symbols reader 0 0 0 code.counts

end PrefixCode

/-! ### Coded blocks -/

/-- Base values and extra bits of the length symbols from 257 on. -/
def lengthTable : List (Nat × Nat) :=
  [(3, 0), (4, 0), (5, 0), (6, 0), (7, 0), (8, 0), (9, 0), (10, 0), (11, 1), (13, 1), (15, 1),
    (17, 1), (19, 2), (23, 2), (27, 2), (31, 2), (35, 3), (43, 3), (51, 3), (59, 3), (67, 4),
    (83, 4), (99, 4), (115, 4), (131, 5), (163, 5), (195, 5), (227, 5), (258, 0)]

/-- Base values and extra bits of the distance symbols. -/
def distanceTable : List (Nat × Nat) :=
  [(1, 0), (2, 0), (3, 0), (4, 0), (5, 1), (7, 1), (9, 2), (13, 2), (17, 3), (25, 3), (33, 4),
    (49, 4), (65, 5), (97, 5), (129, 6), (193, 6), (257, 7), (385, 7), (513, 8), (769, 8),
    (1025, 9), (1537, 9), (2049, 10), (3073, 10), (4097, 11), (6145, 11), (8193, 12), (12289, 12),
    (16385, 13), (24577, 13)]

def extended? (table : List (Nat × Nat)) (symbol : Nat) (reader : BitReader) :
    Option (Nat × BitReader) := do
  let (base, extra) ← table[symbol]?
  let (value, reader) ← reader.number? extra
  some (base + value, reader)

/-- The byte `distance` places before the end of the output, before whose start all is zero. -/
def byteBack (output : Array UInt8) (distance : Nat) : UInt8 :=
  if distance ≤ output.size then output.getD (output.size - distance) 0 else 0

/-- Repeats output from `distance` bytes back, one byte at a time. -/
def repeatBack (output : Array UInt8) (distance : Nat) : (length : Nat) → Array UInt8
  | 0 => output
  | length + 1 => repeatBack (output.push (byteBack output distance)) distance length

/-- The symbols of a block up to its end mark; every symbol takes at least one bit. -/
def inflateSymbols (literals distances : PrefixCode) (output : Array UInt8) (reader : BitReader) :
    (bound : Nat) → Option (Array UInt8 × BitReader)
  | 0 => none
  | bound + 1 => do
    let (symbol, reader) ← literals.symbol? reader
    if symbol < 256 then
      inflateSymbols literals distances (output.push (UInt8.ofNat symbol)) reader bound
    else if symbol = 256 then some (output, reader)
    else
      let (length, reader) ← extended? lengthTable (symbol - 257) reader
      let (symbol, reader) ← distances.symbol? reader
      let (distance, reader) ← extended? distanceTable symbol reader
      inflateSymbols literals distances (repeatBack output distance length) reader bound

def fixedLiterals : PrefixCode :=
  .ofLengths (List.replicate 144 8 ++ List.replicate 112 9 ++ List.replicate 24 7 ++
    List.replicate 8 8)

def fixedDistances : PrefixCode :=
  .ofLengths (List.replicate 30 5)

/-- The order in which the lengths of the code for code lengths are given. -/
def lengthOrder : List Nat :=
  [16, 17, 18, 0, 8, 7, 9, 6, 10, 5, 11, 4, 12, 3, 13, 2, 14, 1, 15]

def readLengths? (reader : BitReader) : (count : Nat) → Option (List Nat × BitReader)
  | 0 => some ([], reader)
  | count + 1 => do
    let (length, reader) ← reader.number? 3
    let (lengths, reader) ← readLengths? reader count
    some (length :: lengths, reader)

/-- Code lengths, in which runs are written as a repetition; `lengths` is held last first. -/
def expandLengths (code : PrefixCode) (total : Nat) (lengths : List Nat) (reader : BitReader) :
    (bound : Nat) → Option (List Nat × BitReader)
  | 0 => none
  | bound + 1 => do
    if lengths.length = total then some (lengths.reverse, reader)
    else if lengths.length > total then none
    else
      let (symbol, reader) ← code.symbol? reader
      let repeated (value extra least : Nat) : Option (List Nat × BitReader) := do
        let (more, reader) ← reader.number? extra
        expandLengths code total (List.replicate (least + more) value ++ lengths) reader bound
      match symbol with
      | 16 => do repeated (← lengths.head?) 2 3
      | 17 => repeated 0 3 3
      | 18 => repeated 0 7 11
      | length => expandLengths code total (length :: lengths) reader bound

/-- The most literal and length symbols that a block may declare. -/
def literalLimit : Nat := 286

/-- The most distance symbols that a block may declare. -/
def distanceLimit : Nat := 30

/-- The codes that a block brings along for its literals and lengths and for its distances. -/
def readCodes? (reader : BitReader) : Option (PrefixCode × PrefixCode × BitReader) := do
  let (literalCount, reader) ← reader.number? 5
  let (distanceCount, reader) ← reader.number? 5
  let literalCount := literalCount + 257
  let distanceCount := distanceCount + 1
  if literalCount > literalLimit ∨ distanceCount > distanceLimit then none
  let (lengthCount, reader) ← reader.number? 4
  let (lengths, reader) ← readLengths? reader (lengthCount + 4)
  let code := PrefixCode.ofLengths ((List.range 19).map fun symbol =>
    (((lengthOrder.zip lengths).find? fun entry => entry.1 = symbol).map Prod.snd).getD 0)
  if ¬ code.isComplete then none
  let total := literalCount + distanceCount
  let (lengths, reader) ← expandLengths code total [] reader (total + 1)
  let literals := PrefixCode.ofLengths (lengths.take literalCount)
  let distances := PrefixCode.ofLengths (lengths.drop literalCount)
  if literals.isUsable ∧ distances.isUsable then some (literals, distances, reader) else none

/-! ### Blocks -/

def littleEndian (bytes : List UInt8) : Nat :=
  bytes.foldr (fun byte value => byte.toNat + 256 * value) 0

/-- A stored block: its length, the complement of its length, and that many bytes. -/
def inflateStored (output : Array UInt8) (bytes : List UInt8) :
    Option (Array UInt8 × List UInt8) :=
  match bytes with
  | a :: b :: c :: d :: rest =>
    let length := littleEndian [a, b]
    if littleEndian [c, d] + length = 0xffff ∧ length ≤ rest.length then
      some (output ++ (rest.take length).toArray, rest.drop length)
    else none
  | _ => none

/-- The blocks up to the last one, and the bytes after it; every block takes at least a byte of
its own or ends the stream. -/
def inflateBlocks (output : Array UInt8) (reader : BitReader) :
    (bound : Nat) → Option (Array UInt8 × List UInt8)
  | 0 => none
  | bound + 1 => do
    let (last, reader) ← reader.bit?
    let (method, reader) ← reader.number? 2
    let (output, reader) ← match method with
      | 0 => do
        let (output, rest) ← inflateStored output reader.aligned
        some (output, (⟨0, rest⟩ : BitReader))
      | 1 => inflateSymbols fixedLiterals fixedDistances output reader (8 * reader.bytes.length + 1)
      | 2 => do
        let (literals, distances, reader) ← readCodes? reader
        inflateSymbols literals distances output reader (8 * reader.bytes.length + 1)
      | _ => none
    if last = 1 then some (output, reader.aligned) else inflateBlocks output reader bound

/-- The inflated bytes and what follows the deflated data. -/
def inflate? (bytes : List UInt8) : Option (List UInt8 × List UInt8) :=
  (inflateBlocks #[] ⟨0, bytes⟩ (8 * bytes.length)).map fun (output, rest) => (output.toList, rest)

end RecordStore.Gzip

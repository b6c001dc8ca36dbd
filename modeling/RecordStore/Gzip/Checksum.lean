/-!
# The checksum of a gzip stream

The cyclic redundancy check with the reversed polynomial `0xedb88320`.
-/

namespace RecordStore.Gzip

def checksumBit (register : UInt32) : UInt32 :=
  if register &&& 1 = 1 then (register >>> 1) ^^^ 0xedb88320 else register >>> 1

def checksumByte (register : UInt32) (byte : UInt8) : UInt32 :=
  (List.range 8).foldl (fun register _ => checksumBit register) (register ^^^ byte.toUInt32)

def checksum (bytes : List UInt8) : UInt32 :=
  ~~~ (bytes.foldl checksumByte 0xffffffff)

end RecordStore.Gzip

import ShieldedLedger.Bytes.Integer
import ShieldedLedger.Encoding.Reader

/-!
# Counts

A count is written in one, three, five or nine bytes, the shortest form that holds it
(`encodeCount`), and read back only from that form and up to `maxCount` (`readCount`). Lists are a
count followed by the items (`encodeList`, `readList`), and an optional value is a flag byte
followed by the value if there is one (`encodeOptional`).
-/

namespace ShieldedLedger

/-- The shortest form of a count. -/
def encodeCount (n : Nat) : List UInt8 :=
  if n < 253 then littleEndian 1 n
  else if n < 0x10000 then 253 :: littleEndian 2 n
  else if n < 0x100000000 then 254 :: littleEndian 4 n
  else 255 :: littleEndian 8 n

/-- The largest count a reader accepts. -/
def maxCount : Nat := 0x02000000

/-- Reads the `width` bytes of a count that must not be below `least`. -/
def readWideCount (width least : Nat) : Reader Nat :=
  Reader.bind (Reader.take width) fun bytes =>
    let n := ofLittleEndian bytes.toList
    if n < least then Reader.fail .looseCount else Reader.pure n

/-- Reads a count of any size in its shortest form. -/
def readAnyCount : Reader Nat :=
  Reader.bind Reader.byte fun flag =>
    if flag < 253 then Reader.pure flag.toNat
    else if flag = 253 then readWideCount 2 253
    else if flag = 254 then readWideCount 4 0x10000
    else readWideCount 8 0x100000000

/-- Reads a count. -/
def readCount : Reader Nat :=
  Reader.bind readAnyCount fun n =>
    if n > maxCount then Reader.fail .countTooLarge else Reader.pure n

/-- A count, then the bytes themselves. -/
def encodeBytes (bytes : List UInt8) : List UInt8 := encodeCount bytes.length ++ bytes

/-- A count, then every item. -/
def encodeList {α : Type} (encode : α → List UInt8) (items : List α) : List UInt8 :=
  encodeCount items.length ++ items.flatMap encode

/-- Reads a count, then that many items. -/
def readList {α : Type} (r : Reader α) : Reader (List α) :=
  Reader.bind readCount fun n => Reader.replicate r n

/-- A flag byte, then the value if there is one. -/
def encodeOptional {α : Type} (encode : α → List UInt8) : Option α → List UInt8
  | none => [0]
  | some a => 1 :: encode a

/-- A text as its UTF-8 bytes, after their count. -/
def encodeText (text : String) : List UInt8 := encodeBytes text.toUTF8.toList

end ShieldedLedger

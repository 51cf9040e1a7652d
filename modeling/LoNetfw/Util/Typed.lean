import LoNetfw.Util.Codec

namespace LoNetfw.Util

open Basis

/-!
# `ByteArray` — the typed writers and readers

The `write*` and `read*` members of `serializer.cpp` on top of `write` and `read`.  The
fixed-width members are one definition in the number of bytes, the compressed ones one
definition in the width; each member keeps its own name and type.  `host` is `LON_ENDIAN`,
the byte order of the machine.
-/

namespace ByteArray

variable (host : Endian) (fill : ℕ → ℕ → UInt8)

/-! ### Writers -/

/-- `write(&data, sizeof(data))` without a swap. -/
def writeRaw (n : ℕ) (data : BitVec (8 * n)) : Op Unit := write fill (toMemory host n data)

/-- The fixed-width writers of two, four and eight bytes. -/
def writeFixed (n : ℕ) (data : BitVec (8 * n)) : Op Unit := do
  let b ← get
  writeRaw host fill n (swapFor host b.baEndian data)

def writeFInt8 (data : Int8) : Op Unit := writeRaw host fill 1 data.toBitVec
def writeFUInt8 (data : UInt8) : Op Unit := writeRaw host fill 1 data.toBitVec
def writeFInt16 (data : Int16) : Op Unit := writeFixed host fill 2 data.toBitVec
def writeFUInt16 (data : UInt16) : Op Unit := writeFixed host fill 2 data.toBitVec
def writeFInt32 (data : Int32) : Op Unit := writeFixed host fill 4 data.toBitVec
def writeFUInt32 (data : UInt32) : Op Unit := writeFixed host fill 4 data.toBitVec
def writeFInt64 (data : Int64) : Op Unit := writeFixed host fill 8 data.toBitVec
def writeFUInt64 (data : UInt64) : Op Unit := writeFixed host fill 8 data.toBitVec

/-- `writeUInt32`, with its `uint8_t buf[5]`. -/
def writeUInt32 (data : UInt32) : Op Unit := do
  let buf ← liftExcept (Varint.encodeInto 5 data.toBitVec)
  write fill buf

def writeInt32 (data : Int32) : Op Unit := writeUInt32 fill ⟨ZigZag.encode data.toBitVec⟩

/-- `writeUInt64`, with its `uint8_t buf[10]`. -/
def writeUInt64 (data : UInt64) : Op Unit := do
  let buf ← liftExcept (Varint.encodeInto 10 data.toBitVec)
  write fill buf

def writeInt64 (data : Int64) : Op Unit := writeUInt64 fill ⟨ZigZag.encode data.toBitVec⟩

/-- `writeFloat`: the argument of `writeFUInt32` is the value converted to an integer, not
    its bit pattern.  Out of range the conversion is undefined; `undef` stands for it. -/
def writeFloat (bits : UInt32) (undef : UInt32) : Op Unit :=
  writeFUInt32 host fill
    (match truncIeee 8 23 bits.toNat with
    | some v => if v < 2 ^ 32 then UInt32.ofNat v else undef
    | none => undef)

/-- `writeDouble`, converting in the same way. -/
def writeDouble (bits : UInt64) (undef : UInt64) : Op Unit :=
  writeFUInt64 host fill
    (match truncIeee 11 52 bits.toNat with
    | some v => if v < 2 ^ 64 then UInt64.ofNat v else undef
    | none => undef)

def writeString (data : List UInt8) : Op Unit := write fill data

def writeStringFInt16 (data : List UInt8) : Op Unit := do
  writeFUInt16 host fill (UInt16.ofNat data.length)
  write fill data

def writeStringFInt32 (data : List UInt8) : Op Unit := do
  writeFUInt32 host fill (UInt32.ofNat data.length)
  write fill data

def writeStringFInt64 (data : List UInt8) : Op Unit := do
  writeFUInt64 host fill (UInt64.ofNat data.length)
  write fill data

def writeStringVInt (data : List UInt8) : Op Unit := do
  writeUInt64 fill (UInt64.ofNat data.length)
  write fill data

/-! ### Readers -/

/-- `read(&data, sizeof(data))` without a swap. -/
def readRaw (n : ℕ) : Op (BitVec (8 * n)) := do
  let bytes ← read n
  return ofMemory host n bytes

/-- The fixed-width readers of two, four and eight bytes. -/
def readFixed (n : ℕ) : Op (BitVec (8 * n)) := do
  let data ← readRaw host n
  let b ← get
  return swapFor host b.baEndian data

def readFInt8 : Op Int8 := do return ⟨⟨← readRaw host 1⟩⟩
def readFUInt8 : Op UInt8 := do return ⟨← readRaw host 1⟩
def readFInt16 : Op Int16 := do return ⟨⟨← readFixed host 2⟩⟩
def readFUInt16 : Op UInt16 := do return ⟨← readFixed host 2⟩
def readFInt32 : Op Int32 := do return ⟨⟨← readFixed host 4⟩⟩
def readFUInt32 : Op UInt32 := do return ⟨← readFixed host 4⟩
def readFInt64 : Op Int64 := do return ⟨⟨← readFixed host 8⟩⟩
def readFUInt64 : Op UInt64 := do return ⟨← readFixed host 8⟩

/-- The values of `cnt` in `for (uint8_t cnt = 0; cnt < w; cnt += 7)`. -/
def varintShifts (w : ℕ) : List ℕ := List.range' 0 ((w + 6) / 7) 7

/-- The loop of `readUInt32` and `readUInt64`. -/
def readVarintLoop (w : ℕ) : List ℕ → BitVec w → Op (BitVec w)
  | [], data => return data
  | cnt :: cnts, data => do
    let tmp ← readFUInt8 host
    if tmp < 0b10000000 then return data ||| (BitVec.ofNat w tmp.toNat <<< cnt)
    else readVarintLoop w cnts (data ||| (BitVec.ofNat w (tmp &&& 0b01111111).toNat <<< cnt))

def readUInt32 : Op UInt32 := do return ⟨← readVarintLoop host 32 (varintShifts 32) 0⟩
def readInt32 : Op Int32 := do return ⟨⟨ZigZag.decode (← readUInt32 host).toBitVec⟩⟩
def readUInt64 : Op UInt64 := do return ⟨← readVarintLoop host 64 (varintShifts 64) 0⟩
def readInt64 : Op Int64 := do return ⟨⟨ZigZag.decode (← readUInt64 host).toBitVec⟩⟩

/-- `readFloat`: the bit pattern of the value. -/
def readFloat : Op UInt32 := readFUInt32 host

/-- `readDouble`: the bit pattern of the value. -/
def readDouble : Op UInt64 := readFUInt64 host

/-- `std::string::max_size()` on a 64-bit target. -/
def stringMaxSize : ℕ := 2 ^ 63 - 1

/-- `res.resize(len); read(&res[0], len); return res;` -/
def readStringBody (len : ℕ) : Op (List UInt8) := do
  if len > stringMaxSize then throw .lengthError
  read len

def readStringFInt16 : Op (List UInt8) := do readStringBody (← readFUInt16 host).toNat
def readStringFInt32 : Op (List UInt8) := do readStringBody (← readFUInt32 host).toNat
def readStringFInt64 : Op (List UInt8) := do readStringBody (← readFUInt64 host).toNat
def readStringVInt : Op (List UInt8) := do readStringBody (← readUInt64 host).toNat

end ByteArray

end LoNetfw.Util

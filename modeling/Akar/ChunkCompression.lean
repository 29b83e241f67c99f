import Akar.Compression

namespace Akar

open ByteCodec

structure CompressedChunk where
  compression : CompressionType
  data : Bytes
  numValues : Nat

def packValues (valueSize : Nat) : Nat → Bytes → Option Bytes
  | 0, _ => some []
  | n + 1, data =>
    if data.length < valueSize then some []
    else
      match compressIntegerImpl (data.take valueSize), packValues valueSize n (data.drop valueSize) with
      | some packed, some rest => some (packed ++ rest)
      | _, _ => none

def chunkHeader (numValues valueSize : Nat) : Bytes := UInt8.ofNat valueSize :: toLe 4 numValues

def compressIntegerBitpacking (data : Bytes) (numValues valueSize : Nat) : Option CompressedChunk :=
  (packValues valueSize numValues data).map fun packed =>
    ⟨.integerBitpacking, chunkHeader numValues valueSize ++ packed, numValues⟩

def unpackValues (valueSize : Nat) : Nat → Bytes → Bytes
  | 0, _ => []
  | _ + 1, [] => []
  | n + 1, used :: data =>
    let count := min used.toNat valueSize
    if data.length < count then []
    else decompressIntegerImpl (used :: data.take count) valueSize ++
      unpackValues valueSize n (data.drop count)

def decompressIntegerBitpacking (data : Bytes) : Bytes := match data with
  | [] => []
  | valueSize :: rest =>
    if rest.length < 4 then [] else unpackValues valueSize.toNat (ofLe (rest.take 4)) (rest.drop 4)

def readWords (width : Nat) : Nat → Bytes → List Nat
  | 0, _ => []
  | n + 1, data =>
    if data.length < width then [] else ofLe (data.take width) :: readWords width n
    (data.drop width)

def writeWords (width : Nat) (words : List Nat) : Bytes := words.flatMap (toLe width)

def wrappingSub (width v w : Nat) : Nat := (v + 256 ^ width - w) % 256 ^ width

def wrappingAdd (width v w : Nat) : Nat := (v + w) % 256 ^ width

def deltas (width prev : Nat) : List Nat → List Nat
  | [] => []
  | v :: vs => wrappingSub width v prev :: deltas width v vs

def sums (width prev : Nat) : List Nat → List Nat
  | [] => []
  | d :: ds => wrappingAdd width prev d :: sums width (wrappingAdd width prev d) ds

inductive FloatCompressionStrategy where
  | raw | delta | offset
  deriving DecidableEq, Repr

def FloatCompressionStrategy.tag : FloatCompressionStrategy → UInt8
  | raw => 0
  | delta => 1
  | offset => 2

def compressFloatRaw (data : Bytes) (numValues valueSize : Nat) : CompressedChunk :=
  ⟨.float, chunkHeader numValues valueSize ++ FloatCompressionStrategy.raw.tag :: data.take
    (numValues * valueSize), numValues⟩

def compressFloat (data : Bytes) (numValues valueSize : Nat) : Option CompressedChunk :=
  if numValues = 0 ∨ valueSize ≠ 4 ∧ valueSize ≠ 8 then some (compressFloatRaw data numValues valueSize)
  else
    match readWords valueSize numValues data with
    | [] => some (compressFloatRaw data numValues valueSize)
    | first :: others =>
      let words := first :: others
      let minVal := others.foldl min first
      let offsetData := writeWords valueSize (words.map fun v => wrappingSub valueSize v minVal)
      let deltaData := writeWords valueSize (first :: deltas valueSize first others)
      match packValues valueSize words.length offsetData, packValues valueSize words.length deltaData with
      | some offsets, some differences =>
        let rawLen := words.length * valueSize
        let offsetLen := valueSize + offsets.length
        let minLen := min (min rawLen offsetLen) differences.length
        let payload := if minLen = rawLen then FloatCompressionStrategy.raw.tag :: data.take rawLen
          else if minLen = offsetLen then FloatCompressionStrategy.offset.tag ::
            (toLe valueSize minVal ++ offsets)
          else FloatCompressionStrategy.delta.tag :: differences
        some ⟨.float, chunkHeader numValues valueSize ++ payload, numValues⟩
      | _, _ => none

def padded (bytes : Bytes) (expected : Nat) : Bytes :=
  bytes ++ List.replicate (expected - bytes.length) 0

def decompressFloat (data : Bytes) (expectedSize : Nat) : Bytes := match data with
  | [] => []
  | size :: rest =>
    if rest.length < 5 then []
    else
      let valueSize := size.toNat
      let numValues := ofLe (rest.take 4)
      let payload := rest.drop 5
      let expected := max expectedSize (numValues * valueSize)
      let strategy := (rest.drop 4).head?
      if strategy = some FloatCompressionStrategy.raw.tag then padded
        (payload.take (numValues * valueSize)) expected
      else if strategy = some FloatCompressionStrategy.offset.tag then
        if payload.length < valueSize ∨ valueSize ≠ 4 ∧ valueSize ≠ 8 then []
        else
          let minVal := ofLe (payload.take valueSize)
          let unpacked := unpackValues valueSize numValues (payload.drop valueSize)
          padded (writeWords valueSize ((readWords valueSize numValues unpacked).map fun d =>
            wrappingAdd valueSize d minVal))
            expected
      else if strategy = some FloatCompressionStrategy.delta.tag then
        -- every width but 4 is taken as 8 here
        let width := if valueSize = 4 then 4 else 8
        padded (writeWords width
          (sums width 0 (readWords width numValues (unpackValues valueSize numValues payload))))
          expected
      else []

def compressConstant (data : Bytes) (numValues : Nat) : CompressedChunk :=
  let valSize := if data = [] then 0 else data.length / max numValues 1
  ⟨.constant, toLe 4 numValues ++ data.take valSize, numValues⟩

def decompressConstant (data : Bytes) : Bytes :=
  if data.length < 4 then [] else (List.replicate (ofLe (data.take 4)) (data.drop 4)).flatten

def packByte (bits : List Bool) : UInt8 :=
  ((List.range 8).filter fun k => bits[k]?.getD false).foldl (fun acc k =>
    acc ||| (1 <<< UInt8.ofNat k)) 0

def compressBoolean (data : Bytes) (numValues : Nat) : CompressedChunk :=
  let bits := (data.take numValues).map fun b => decide (b ≠ 0)
  ⟨.boolean, (List.range ((numValues + 7) / 8)).map fun j => packByte (bits.drop (8 * j)), numValues⟩

def decompressBoolean (data : Bytes) (numValues : Nat) : Option Bytes :=
  (List.range numValues).mapM fun i => data[i / 8]?.map fun b =>
    if b &&& (1 <<< UInt8.ofNat (i % 8)) ≠ 0 then 1 else 0

def serializeDictionary (strings : List String) : Bytes :=
  toLe 4 strings.length ++ strings.flatMap fun s => toLe 4 (textBytes s).length ++ textBytes s

def readUtf8 : Reader ColumnError String :=
  (Reader.le (.unexpectedEof "data too short for string length") 4).bind fun len =>
    (Reader.exactly (.unexpectedEof "data too short for string content") len).bind fun bytes rest =>
      match String.fromUTF8? ⟨bytes.toArray⟩ with
      | some s => .ok (s, rest)
      | none => .error (.invalidData "invalid utf-8 sequence")

def deserializeDictionary (data : Bytes) : Except ColumnError (List String) :=
  (((Reader.le (.unexpectedEof "data too short for dictionary header") 4).bind fun n =>
    Reader.many readUtf8 n) data).map (·.1)

def compressStringDictionary (data : Bytes) (numValues : Nat) : CompressedChunk :=
  let strings := match deserializeDictionary data with
    | .ok strings => strings
    | .error _ => []
  ⟨.stringDictionary, serializeDictionary strings, numValues⟩

def decompressStringDictionary (data : Bytes) : Bytes := match deserializeDictionary data with
  | .ok strings => serializeDictionary strings
  | .error _ => []

def compress (compression : CompressionType) (data : Bytes) (numValues : Nat) :
    Option CompressedChunk :=
  match compression with
  | .constant => some (compressConstant data numValues)
  | .boolean => some (compressBoolean data numValues)
  | .integerBitpacking | .listDelta =>
    compressIntegerBitpacking data numValues (if numValues = 0 then 8 else data.length / numValues)
  | .float => compressFloat data numValues (if numValues = 0 then 4 else data.length / numValues)
  | .oneValue | .uncompressed => some ⟨compression, data, numValues⟩
  | .stringDictionary => some (compressStringDictionary data numValues)

def decompress (chunk : CompressedChunk) (expectedSize : Nat) : Option Bytes :=
  match chunk.compression with
  | .constant => some (decompressConstant chunk.data)
  | .boolean => decompressBoolean chunk.data expectedSize
  | .integerBitpacking => some (decompressIntegerBitpacking chunk.data)
  | .float => some (decompressFloat chunk.data expectedSize)
  | .stringDictionary => some (decompressStringDictionary chunk.data)
  | .oneValue | .listDelta | .uncompressed => some chunk.data

end Akar

/-
The images of TPL, `tpl.c`: a format is mapped to the places of its fields, the
fields are packed and dumped into an image, and an image is peeked at, loaded
and unpacked.

Formats with arrays or with fixed lengths, `A` and `#`, are not mapped here.
Machines of both byte orders are covered, the one that writes an image and the
one that reads it.
-/
import IdAllocator.Dict
import IdAllocator.Lib.ByteMemory
import IdAllocator.Lib.Codec
import IdAllocator.Lib.Runs

namespace IdAllocator

open Bytes

/-! ### Memory -/

/-- The string that starts with these bytes and ends at the first NUL. -/
def CString.ofBytes (bytes : List UInt8) : CString where
  bytes := bytes.takeWhile fun c => c != 0
  zero_notMem h := absurd (List.all_eq_true.mp List.all_takeWhile 0 h) (by decide)

/-- Memory: bytes, and for the addresses where a `char*` or a `tpl_bin` is
stored, the string or the buffer that it leads to. -/
structure Memory where
  byte : Nat → UInt8
  str : Nat → Option CString
  bin : Nat → List UInt8

/-! ### Formats -/

/-- The types of the nodes below the root. -/
inductive TplType where
  | int32
  | uint32
  | byte
  | str
  | bin
  | double
  | int64
  | uint64
  | int16
  | uint16
deriving Repr, DecidableEq

/-- The sizes in `tpl_types`. -/
def TplType.sz : TplType → Nat
  | .int32 | .uint32 => 4
  | .byte => 1
  | .str => 8
  | .bin => 0
  | .double | .int64 | .uint64 => 8
  | .int16 | .uint16 => 2

/-- The type of an atom that may stand in a structure. -/
def TplType.ofChar : Char → Option TplType
  | 'c' => some .byte
  | 'i' => some .int32
  | 'u' => some .uint32
  | 'j' => some .int16
  | 'v' => some .uint16
  | 'I' => some .int64
  | 'U' => some .uint64
  | 'f' => some .double
  | 's' => some .str
  | _ => none

/-- `tpl_node`, for one field. -/
structure TplNode where
  type : TplType
  addr : Nat
deriving Repr, DecidableEq

/-- The alignment of a field. -/
def TplType.alignSz : TplType → Nat
  | .double | .int64 | .uint64 => 8
  | t => t.sz

/-- `calc_field_addr`; the field before it is the last one that was mapped. -/
def calcFieldAddr (children : List TplNode) (type : TplType) (structAddr ordinal : Nat) : Nat :=
  if ordinal = 1 then structAddr
  else
    match children.getLast? with
    | none => structAddr
    | some prev =>
        let offset := prev.addr - structAddr + prev.type.sz
        structAddr + (offset + type.alignSz - 1) / type.alignSz * type.alignSz

/-- The variables of `tpl_map_va`.  The arguments are those that `va_arg` has not taken yet,
and `last` is `*(c-1)`. -/
structure TplMapState where
  lparenLevel : Nat
  expectLparen : Bool
  inStructure : Nat
  ordinal : Nat
  inNestedStructure : Nat
  structAddr : Nat
  args : List Nat
  children : List TplNode
  last : Char

/-- Before the first character. -/
def TplMapState.start (args : List Nat) : TplMapState :=
  ⟨0, false, 0, 0, 0, 0, args, [], '\x00'⟩

/-- The next argument. -/
def TplMapState.vaArg (s : TplMapState) : Option (Nat × TplMapState) :=
  match s.args with
  | [] => none
  | arg :: args => some (arg, { s with args := args })

/-- Add a node; in a structure the address is calculated, elsewhere it is an argument. -/
def TplMapState.addAtom (s : TplMapState) (type : TplType) : Option TplMapState :=
  if s.expectLparen then none
  else if s.inStructure ≠ 0 then
    let addr := calcFieldAddr s.children type s.structAddr s.ordinal
    some { s with ordinal := s.ordinal + 1, children := s.children ++ [⟨type, addr⟩] }
  else
    s.vaArg.map fun (addr, s) => { s with children := s.children ++ [⟨type, addr⟩] }

/-- The case `B` of the loop in `tpl_map_va`. -/
def TplMapState.addBin (s : TplMapState) : Option TplMapState :=
  if s.expectLparen then none
  else if s.inStructure ≠ 0 then none
  else s.vaArg.map fun (addr, s) => { s with children := s.children ++ [⟨.bin, addr⟩] }

/-- The case `S`. -/
def TplMapState.enterStructure (s : TplMapState) : Option TplMapState :=
  if s.inStructure ≠ 0 then none
  else
    s.vaArg.map fun (addr, s) =>
      { s with
        expectLparen := true
        ordinal := 1
        inStructure := 1 + s.lparenLevel
        structAddr := addr }

/-- The case `$`. -/
def TplMapState.enterNested (s : TplMapState) : Option TplMapState :=
  if s.inStructure = 0 then none
  else some { s with expectLparen := true, inNestedStructure := s.inNestedStructure + 1 }

/-- The case of an opening parenthesis. -/
def TplMapState.openParen (s : TplMapState) : Option TplMapState :=
  if ¬ s.expectLparen then none
  else some { s with expectLparen := false, lparenLevel := s.lparenLevel + 1 }

/-- The case of a closing parenthesis.  One that ends neither a structure nor a nested one
would end an array. -/
def TplMapState.closeParen (s : TplMapState) : Option TplMapState :=
  if s.lparenLevel = 0 then none
  else if s.last = '(' then none
  else
    let s := { s with lparenLevel := s.lparenLevel - 1 }
    if s.inNestedStructure ≠ 0 then
      some { s with inNestedStructure := s.inNestedStructure - 1 }
    else if s.inStructure ≠ 0 ∧ s.inStructure - 1 = s.lparenLevel then
      some { s with inStructure := 0 }
    else none

/-- One round of the loop in `tpl_map_va`. -/
def TplMapState.next (s : TplMapState) (c : UInt8) : Option TplMapState :=
  let s' :=
    match Char.ofUInt8 c with
    | 'B' => s.addBin
    | 'S' => s.enterStructure
    | '$' => s.enterNested
    | '(' => s.openParen
    | ')' => s.closeParen
    | c => (TplType.ofChar c).bind s.addAtom
  s'.map fun s => { s with last := Char.ofUInt8 c }

/-- `tpl_map_va`: the nodes below the root, nothing for a format that is not understood. -/
def tplMapVa (fmt : List UInt8) (args : List Nat) : Option (List TplNode) :=
  (Runs.run TplMapState.next (TplMapState.start args) fmt).bind fun s =>
    if s.lparenLevel = 0 then some s.children else none

/-! ### Packing and dumping -/

/-- The datum of a node. -/
inductive TplDatum where
  | fixed (bytes : List UInt8)
  | str (s : Option CString)
  | bin (bytes : List UInt8)
deriving DecidableEq

/-- `tpl_pack` at one node. -/
def packNode (mem : Memory) (n : TplNode) : TplDatum :=
  match n.type with
  | .str => .str (mem.str n.addr)
  | .bin => .bin (mem.bin n.addr)
  | t => .fixed (ByteMemory.readBytes mem.byte n.addr t.sz)

/-- `tpl_pack(r, 0)`. -/
def tplPack (mem : Memory) (nodes : List TplNode) : List TplDatum :=
  nodes.map (packNode mem)

/-- `TPL_MAGIC`. -/
def TPL_MAGIC : List UInt8 := [116, 112, 108]

def TPL_FL_BIGENDIAN : UInt8 := 1

def TPL_FL_NULLSTRINGS : UInt8 := 2

def TPL_SUPPORTED_BITFLAGS : UInt8 := 3

/-- `strlen(strp)` in the size of a string, nothing for NULL. -/
def strSize : Option CString → Nat
  | some s => s.bytes.length
  | none => 0

/-- The size of a datum in the image. -/
def TplDatum.serSize : TplDatum → Nat
  | .fixed bytes => bytes.length
  | .bin bytes => 4 + bytes.length
  | .str s => 4 + strSize s

/-- `tpl_ser_osz`. -/
def tplSerOsz (fmt : List UInt8) (data : List TplDatum) : Nat :=
  data.foldl (fun sz d => sz + d.serSize) (4 + (fmt.length + 1) + 4)

section

variable (bigendian : Bool)

/-- A `uint32_t` in an image that this machine writes. -/
def tplUint32 (n : Nat) : List UInt8 :=
  wordBytes bigendian (BitVec.ofNat 32 n)

/-- A datum in the image.  The length of a string counts the NUL, which is not written. -/
def TplDatum.image : TplDatum → List UInt8
  | .fixed bytes => bytes
  | .bin bytes => tplUint32 bigendian bytes.length ++ bytes
  | .str none => tplUint32 bigendian 0
  | .str (some s) => tplUint32 bigendian (s.bytes.length + 1) ++ s.bytes

/-- The flags byte of an image. -/
def imageFlags (fmt : List UInt8) : UInt8 :=
  (if bigendian then TPL_FL_BIGENDIAN else 0) |||
    (if fmt.any (fun c => c == 's'.toUInt8) then TPL_FL_NULLSTRINGS else 0)

/-- `tpl_dump_to_mem`. -/
def tplDumpToMem (fmt : List UInt8) (data : List TplDatum) (sz : Nat) : List UInt8 :=
  TPL_MAGIC ++ (imageFlags bigendian fmt :: (tplUint32 bigendian sz ++ (fmt ++ (0 ::
    data.flatMap (TplDatum.image bigendian)))))

/-- `tpl_dump` to a buffer of the caller, nothing when it is too small. -/
def tplDump (fmt : List UInt8) (data : List TplDatum) (paSz : Nat) : Option (List UInt8) :=
  let sz := tplSerOsz fmt data
  if paSz < sz then none else some (tplDumpToMem bigendian fmt data sz)

/-! ### Peeking and loading -/

/-- `tpl_byteswap`. -/
def tplByteswap (word : List UInt8) : List UInt8 :=
  word.reverse

/-- `tpl_needs_endian_swap`. -/
def tplNeedsEndianSwap (img : List UInt8) : Bool :=
  (img.getD 3 0 &&& TPL_FL_BIGENDIAN == 1) != bigendian

/-- Copy a `uint32_t` from an image, and swap it if the image asks for that. -/
def tplWord (xendian : Bool) (text : List UInt8) : Nat :=
  let word := text.take 4
  (readWord bigendian (if xendian then tplByteswap word else word)).toNat

/-- `tpl_peek` on memory: the format. -/
def tplPeek (img : List UInt8) : Option (List UInt8) :=
  if img.length < 9 then none
  else if img.take 3 ≠ TPL_MAGIC then none
  else if tplWord bigendian (tplNeedsEndianSwap bigendian img) (img.drop 4) ≠ img.length then none
  else if (img.drop 8).all (fun c => c != 0) then none
  else some ((img.drop 8).takeWhile fun c => c != 0)

/-- The flags of a root that `tpl_sanity` sets and `tpl_unpack` reads. -/
structure TplFlags where
  xendian : Bool
  oldStringFmt : Bool
deriving Repr, DecidableEq

def ERR_NOT_MINSIZE : Int := -1
def ERR_MAGIC_MISMATCH : Int := -2
def ERR_INCONSISTENT_SZ : Int := -3
def ERR_FMT_INVALID : Int := -4
def ERR_FMT_MISSING_NUL : Int := -5
def ERR_FMT_MISMATCH : Int := -6
def ERR_INCONSISTENT_SZ2 : Int := -8
def ERR_INCONSISTENT_SZ3 : Int := -9
def ERR_UNSUPPORTED_FLAGS : Int := -11

/-- `tpl_fmt_chars`. -/
def tplFmtChars : List UInt8 :=
  ['A', 'S', '(', '$', ')', 'B', 'i', 'u', 'c', 's', 'f', 'I', 'U', 'j', 'v', '#'].map
    Char.toUInt8

/-- The length of a string in the image, as `tpl_serlen` counts it. -/
def strSerlen (flags : TplFlags) (slen : Nat) : Nat :=
  if flags.oldStringFmt then slen
  else if 1 < slen then slen - 1
  else 0

/-- The size of the datum that `text` starts with, nothing when the length in front of it is not
there. -/
def nodeSerlen (flags : TplFlags) (type : TplType) (text : List UInt8) : Option Nat :=
  match type with
  | .bin =>
      if text.length < 4 then none
      else some (4 + tplWord bigendian flags.xendian text)
  | .str =>
      if text.length < 4 then none
      else some (4 + strSerlen flags (tplWord bigendian flags.xendian text))
  | t => some t.sz

/-- `tpl_serlen` below the root: the size of the data, nothing when they go beyond the image. -/
def tplSerlen (flags : TplFlags) : List TplNode → List UInt8 → Option Nat
  | [], _ => some 0
  | n :: nodes, text =>
      (nodeSerlen bigendian flags n.type text).bind fun size =>
        if text.length < size then none
        else (tplSerlen flags nodes (text.drop size)).map fun len => size + len

/-- The flags that `tpl_sanity` finds in an image. -/
def sanityFlags (img : List UInt8) : TplFlags where
  xendian := tplNeedsEndianSwap bigendian img
  oldStringFmt := img.getD 3 0 &&& TPL_FL_NULLSTRINGS == 0

/-- `tpl_sanity` behind the checks of the preamble: the format, and the size of the data. -/
def tplSanityData (nodes : List TplNode) (fmt : List UInt8) (img : List UInt8) : Int :=
  let found := (img.drop 8).takeWhile fun c => c != 0
  let data := img.drop (8 + found.length + 1)
  if ¬ found.all (fun c => tplFmtChars.elem c) then ERR_FMT_INVALID
  else if (img.drop 8).all (fun c => c != 0) then ERR_FMT_MISSING_NUL
  else if fmt ≠ found then ERR_FMT_MISMATCH
  else
    match tplSerlen bigendian (sanityFlags bigendian img) nodes data with
    | none => ERR_INCONSISTENT_SZ2
    | some serlen =>
        if serlen + (8 + found.length + 1) ≠ img.length then ERR_INCONSISTENT_SZ3 else 0

/-- `tpl_sanity`, where the size of the buffer has to be the one in the image. -/
def tplSanity (nodes : List TplNode) (fmt : List UInt8) (img : List UInt8) : Int :=
  if img.length < 9 then ERR_NOT_MINSIZE
  else if img.take 3 ≠ TPL_MAGIC then ERR_MAGIC_MISMATCH
  else if img.getD 3 0 &&& ~~~ TPL_SUPPORTED_BITFLAGS ≠ 0 then ERR_UNSUPPORTED_FLAGS
  else if tplWord bigendian (tplNeedsEndianSwap bigendian img) (img.drop 4) ≠ img.length then
    ERR_INCONSISTENT_SZ
  else tplSanityData bigendian nodes fmt img

/-- The flags that are set when `tpl_sanity` refuses an image. -/
def refusedFlags (img : List UInt8) : TplFlags :=
  if img.length < 9 ∨ img.take 3 ≠ TPL_MAGIC then ⟨false, false⟩
  else if img.getD 3 0 &&& ~~~ TPL_SUPPORTED_BITFLAGS ≠ 0 then
    ⟨tplNeedsEndianSwap bigendian img, false⟩
  else sanityFlags bigendian img

/-- `tpl_load` from memory.  Where the image is accepted the flags of the root are set anew, and
the format of its strings is forgotten. -/
def tplLoad (nodes : List TplNode) (fmt : List UInt8) (img : List UInt8) : Int × TplFlags :=
  if tplSanity bigendian nodes fmt img ≠ 0 then (-1, refusedFlags bigendian img)
  else (0, ⟨tplNeedsEndianSwap bigendian img, false⟩)

/-! ### Unpacking -/

/-- Take that many bytes from an image, nothing when they are not there. -/
def takeBytes (n : Nat) (text : List UInt8) : Option (List UInt8 × List UInt8) :=
  if text.length < n then none else some (text.take n, text.drop n)

/-- The datum of a node, and the rest of the image. -/
def readDatum (flags : TplFlags) (type : TplType) (text : List UInt8) :
    Option (TplDatum × List UInt8) :=
  match type with
  | .bin =>
      (takeBytes 4 text).bind fun (word, text) =>
        (takeBytes (tplWord bigendian flags.xendian word) text).map fun (bytes, text) =>
          (.bin bytes, text)
  | .str =>
      (takeBytes 4 text).bind fun (word, text) =>
        let slen := tplWord bigendian flags.xendian word
        let slen := if flags.oldStringFmt then (slen + 1) % UInt32.size else slen
        if slen = 0 then some (.str none, text)
        else
          (takeBytes (slen - 1) text).map fun (bytes, text) =>
            (.str (some (CString.ofBytes bytes)), text)
  | t =>
      (takeBytes t.sz text).map fun (bytes, text) =>
        (.fixed (if flags.xendian then tplByteswap bytes else bytes), text)

/-- Store a datum where the field is. -/
def storeDatum (mem : Memory) (addr : Nat) : TplDatum → Memory
  | .fixed bytes => { mem with byte := ByteMemory.writeBytes mem.byte addr bytes }
  | .str s => { mem with str := Function.update mem.str addr s }
  | .bin bytes => { mem with bin := Function.update mem.bin addr bytes }

/-- The loop of `tpl_unpack`, nothing when it reads beyond the image. -/
def unpackNodes (flags : TplFlags) : List TplNode → List UInt8 → Memory → Option Memory
  | [], _, mem => some mem
  | n :: nodes, text, mem =>
      (readDatum bigendian flags n.type text).bind fun (datum, text) =>
        unpackNodes flags nodes text (storeDatum mem n.addr datum)

/-- `tpl_find_data_start`. -/
def tplFindDataStart (img : List UInt8) : List UInt8 :=
  (((img.drop 4).drop 4).dropWhile fun c => c != 0).drop 1

/-- `tpl_unpack(r, 0)` after `tpl_load`. -/
def tplUnpack (flags : TplFlags) (nodes : List TplNode) (img : List UInt8) (mem : Memory) :
    Option Memory :=
  unpackNodes bigendian flags nodes (tplFindDataStart img) mem

/-- An image of any format is received: `tpl_map(tpl_peek(..))`, `tpl_load`, whose result is not
looked at, and `tpl_unpack`. -/
def tplReceive (args : List Nat) (img : List UInt8) (mem : Memory) : Option Memory :=
  (tplPeek bigendian img).bind fun fmt =>
    (tplMapVa fmt args).bind fun nodes =>
      tplUnpack bigendian (tplLoad bigendian nodes fmt img).2 nodes img mem

end

end IdAllocator

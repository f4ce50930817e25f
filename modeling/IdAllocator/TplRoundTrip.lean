/-
An image that is dumped on one machine is peeked at, loaded and unpacked on
another one.

The fields come out as they went in, and where the machines have different byte
orders each number is turned around.  What `tpl_load` accepts is unpacked
without reading beyond the image, if its strings are in the format that it
forgets to look at.
-/
import Mathlib.Data.List.TakeWhile
import IdAllocator.TplLayout

namespace IdAllocator

open Bytes

/-! ### Numbers and blocks in an image -/

section

variable {reader writer : Bool}

@[simp]
theorem tplUint32_length (n : Nat) : (tplUint32 writer n).length = 4 :=
  wordBytes_length writer _

/-- A length is read as it was written, whatever the byte orders are. -/
theorem tplWord_tplUint32 {n : Nat} (hn : n < UInt32.size) (rest : List UInt8) :
    tplWord reader (writer != reader) (tplUint32 writer n ++ rest) = n := by
  have htake : (tplUint32 writer n ++ rest).take 4 = tplUint32 writer n :=
    List.take_left' (tplUint32_length n)
  have hvalue : (BitVec.ofNat 32 n).toNat = n := Nat.mod_eq_of_lt hn
  simp only [tplWord, htake]
  split
  · rename_i hswap
    have hwriter : writer = !reader := by
      cases writer <;> cases reader <;> simp_all
    rw [tplByteswap, tplUint32, reverse_wordBytes, hwriter, Bool.not_not, readWord_wordBytes,
      hvalue]
  · rename_i hswap
    have hwriter : writer = reader := by
      cases writer <;> cases reader <;> simp_all
    rw [tplUint32, hwriter, readWord_wordBytes, hvalue]

theorem tplWord_self {n : Nat} (hn : n < UInt32.size) :
    tplWord reader (writer != reader) (tplUint32 writer n) = n := by
  have hword := @tplWord_tplUint32 reader writer n hn []
  rwa [List.append_nil] at hword

theorem takeBytes_append {n : Nat} {block : List UInt8} (hn : block.length = n)
    (rest : List UInt8) : takeBytes n (block ++ rest) = some (block, rest) := by
  rw [takeBytes, if_neg (by rw [List.length_append]; omega), List.take_left' hn,
    List.drop_left' hn]

theorem takeBytes_eq_some {n : Nat} {text : List UInt8} (h : n ≤ text.length) :
    takeBytes n text = some (text.take n, text.drop n) :=
  if_neg (Nat.not_lt.mpr h)

end

/-! ### The data of nodes -/

/-- The types that are copied as they lie in memory. -/
def TplType.isFixed : TplType → Bool
  | .str | .bin => false
  | _ => true

/-- A datum of that type. -/
inductive TplDatum.Fits (type : TplType) : TplDatum → Prop
  | fixed {bytes : List UInt8} (htype : type.isFixed = true) (hlen : bytes.length = type.sz) :
      Fits type (.fixed bytes)
  | str {s : Option CString} (htype : type = .str) : Fits type (.str s)
  | bin {bytes : List UInt8} (htype : type = .bin) : Fits type (.bin bytes)

/-- A datum on the machine that reads it: numbers are turned around if the byte orders differ. -/
def TplDatum.arrived (swap : Bool) : TplDatum → TplDatum
  | .fixed bytes => .fixed (if swap then tplByteswap bytes else bytes)
  | d => d

theorem packNode_fits (mem : Memory) (n : TplNode) : (packNode mem n).Fits n.type := by
  unfold packNode
  cases n.type
  case str => exact .str rfl
  case bin => exact .bin rfl
  all_goals exact .fixed rfl ByteMemory.readBytes_length

/-- Data for nodes, and the same data for other nodes of the same types. -/
theorem tplPack_fits (mem : Memory) {rel : Nat → Nat → Prop} {nodes nodes' : List TplNode}
    (h : List.Forall₂ (SameField rel) nodes nodes') :
    List.Forall₂ (fun n d => d.Fits n.type) nodes' (tplPack mem nodes) := by
  induction h with
  | nil => exact List.Forall₂.nil
  | @cons n n' _ _ hsame _ ih =>
      refine List.Forall₂.cons ?_ ih
      rw [← hsame.1]
      exact packNode_fits mem n

section

variable {reader writer : Bool} {type : TplType}

theorem readDatum_of_isFixed (htype : type.isFixed = true) (flags : TplFlags)
    (text : List UInt8) :
    readDatum reader flags type text = (takeBytes type.sz text).map fun p =>
      (.fixed (if flags.xendian then tplByteswap p.1 else p.1), p.2) := by
  cases type
  case str => cases htype
  case bin => cases htype
  all_goals rfl

theorem CString.ofBytes_bytes (s : CString) : CString.ofBytes s.bytes = s := by
  obtain ⟨bytes, hzero⟩ := s
  simp only [CString.ofBytes, CString.mk.injEq]
  exact List.takeWhile_eq_self_iff.mpr fun c hc => bne_iff_ne.mpr fun heq => hzero (heq ▸ hc)

/-- One datum is read back, and what is behind it is left. -/
theorem readDatum_image {d : TplDatum} (hfits : d.Fits type) (hsize : d.serSize < UInt32.size)
    (rest : List UInt8) :
    readDatum reader ⟨writer != reader, false⟩ type (d.image writer ++ rest) =
      some (d.arrived (writer != reader), rest) := by
  cases hfits with
  | fixed htype hlen =>
      rw [readDatum_of_isFixed htype, TplDatum.image, takeBytes_append hlen]
      rfl
  | @str s htype =>
      subst htype
      cases s with
      | none =>
          simp only [readDatum, TplDatum.image, takeBytes_append (tplUint32_length 0),
            Option.bind_some, tplWord_self (show 0 < UInt32.size by decide), Bool.false_eq_true,
            if_false, if_true, TplDatum.arrived]
      | some s =>
          have hlen : s.bytes.length + 1 < UInt32.size := by
            simp only [TplDatum.serSize, strSize] at hsize
            omega
          simp only [readDatum, TplDatum.image, List.append_assoc,
            takeBytes_append (tplUint32_length _), Option.bind_some, tplWord_self hlen,
            Bool.false_eq_true, if_false, Nat.add_sub_cancel, takeBytes_append (Eq.refl _),
            Option.map_some, CString.ofBytes_bytes, TplDatum.arrived, Nat.succ_ne_zero]
  | @bin bytes htype =>
      subst htype
      have hlen : bytes.length < UInt32.size := by
        simp only [TplDatum.serSize] at hsize
        omega
      simp only [readDatum, TplDatum.image, List.append_assoc,
        takeBytes_append (tplUint32_length _), Option.bind_some, tplWord_self hlen,
        takeBytes_append (Eq.refl _), Option.map_some, TplDatum.arrived]

theorem TplDatum.image_length (d : TplDatum) : (d.image writer).length = d.serSize := by
  cases d with
  | fixed bytes => rfl
  | str s =>
      cases s with
      | none => exact tplUint32_length 0
      | some s =>
          rw [TplDatum.image, List.length_append, tplUint32_length]
          rfl
  | bin bytes =>
      rw [TplDatum.image, List.length_append, tplUint32_length]
      rfl

/-! ### All data -/

/-- Store data at nodes, one after the other. -/
def storeData (mem : Memory) (nodes : List TplNode) (data : List TplDatum) : Memory :=
  (nodes.zip data).foldl (fun mem p => storeDatum mem p.1.addr p.2) mem

theorem unpackNodes_image {nodes : List TplNode} {data : List TplDatum}
    (hfits : List.Forall₂ (fun n d => d.Fits n.type) nodes data)
    (hsize : ∀ d ∈ data, d.serSize < UInt32.size) (mem : Memory) :
    unpackNodes reader ⟨writer != reader, false⟩ nodes (data.flatMap (TplDatum.image writer)) mem =
      some (storeData mem nodes (data.map (TplDatum.arrived (writer != reader)))) := by
  induction hfits generalizing mem with
  | nil => rfl
  | @cons n d nodes data hfit _ ih =>
      rw [List.flatMap_cons, unpackNodes,
        readDatum_image hfit (hsize d List.mem_cons_self), Option.bind_some]
      exact ih (fun d' hd' => hsize d' (List.mem_cons_of_mem d hd')) _

theorem nodeSerlen_of_isFixed (htype : type.isFixed = true) (flags : TplFlags)
    (text : List UInt8) : nodeSerlen reader flags type text = some type.sz := by
  cases type
  case str => cases htype
  case bin => cases htype
  all_goals rfl

theorem nodeSerlen_image {flags : TplFlags} (hxendian : flags.xendian = (writer != reader))
    (hold : flags.oldStringFmt = true → type ≠ .str) {d : TplDatum} (hfits : d.Fits type)
    (hsize : d.serSize < UInt32.size) (rest : List UInt8) :
    nodeSerlen reader flags type (d.image writer ++ rest) = some d.serSize := by
  cases hfits with
  | fixed htype hlen =>
      rw [nodeSerlen_of_isFixed htype, TplDatum.serSize, hlen]
  | @str s htype =>
      subst htype
      have hnew : flags.oldStringFmt = false := by
        by_contra hflag
        exact hold (Bool.eq_true_of_not_eq_false hflag) rfl
      cases s with
      | none =>
          have hshort : ¬ (tplUint32 writer 0 ++ rest).length < 4 := by
            simp
          simp only [nodeSerlen, TplDatum.image, if_neg hshort, hxendian, strSerlen, hnew,
            tplWord_tplUint32 (show 0 < UInt32.size by decide)]
          rfl
      | some s =>
          have hlen : s.bytes.length + 1 < UInt32.size := by
            simp only [TplDatum.serSize, strSize] at hsize
            omega
          have hshort : ¬ (tplUint32 writer (s.bytes.length + 1) ++ (s.bytes ++ rest)).length < 4 := by
            simp
          have hcount : strSerlen flags (s.bytes.length + 1) = s.bytes.length := by
            rw [strSerlen, hnew]
            split
            · contradiction
            · split
              · exact Nat.add_sub_cancel _ _
              · omega
          simp only [nodeSerlen, TplDatum.image, List.append_assoc, if_neg hshort, hxendian,
            tplWord_tplUint32 hlen, hcount]
          rfl
  | @bin bytes htype =>
      subst htype
      have hlen : bytes.length < UInt32.size := by
        simp only [TplDatum.serSize] at hsize
        omega
      have hshort : ¬ (tplUint32 writer bytes.length ++ (bytes ++ rest)).length < 4 := by
        simp
      simp only [nodeSerlen, TplDatum.image, List.append_assoc, if_neg hshort, hxendian,
        tplWord_tplUint32 hlen]
      rfl

/-- The data end where `tpl_serlen` says, if old strings are not asked for or there are no
strings. -/
theorem tplSerlen_image {flags : TplFlags} (hxendian : flags.xendian = (writer != reader))
    {nodes : List TplNode} {data : List TplDatum}
    (hold : flags.oldStringFmt = true → ∀ n ∈ nodes, n.type ≠ .str)
    (hfits : List.Forall₂ (fun n d => d.Fits n.type) nodes data)
    (hsize : ∀ d ∈ data, d.serSize < UInt32.size) :
    tplSerlen reader flags nodes (data.flatMap (TplDatum.image writer)) =
      some (data.flatMap (TplDatum.image writer)).length := by
  induction hfits with
  | nil => rfl
  | @cons n d nodes data hfit _ ih =>
      have hrest := ih (fun h m hm => hold h m (List.mem_cons_of_mem n hm))
        (fun d' hd' => hsize d' (List.mem_cons_of_mem d hd'))
      have hlen : (d.image writer).length = d.serSize := d.image_length
      rw [List.flatMap_cons, tplSerlen,
        nodeSerlen_image hxendian (fun h => hold h n List.mem_cons_self) hfit
          (hsize d List.mem_cons_self), Option.bind_some,
        if_neg (by rw [List.length_append]; omega), List.drop_left' hlen, hrest, Option.map_some,
        List.length_append, hlen]

/-! ### Whole images -/

variable (writer) in
theorem foldl_serSize (init : Nat) (data : List TplDatum) :
    data.foldl (fun sz d => sz + d.serSize) init =
      init + (data.flatMap (TplDatum.image writer)).length := by
  induction data generalizing init with
  | nil => rfl
  | cons d data ih =>
      rw [List.foldl_cons, ih, List.flatMap_cons, List.length_append, TplDatum.image_length]
      omega

/-- `tpl_ser_osz` is the size of what `tpl_dump_to_mem` writes. -/
theorem tplDumpToMem_length (fmt : List UInt8) (data : List TplDatum) (sz : Nat) :
    (tplDumpToMem writer fmt data sz).length = tplSerOsz fmt data := by
  rw [tplSerOsz, foldl_serSize writer]
  simp only [tplDumpToMem, List.length_append, List.length_cons, tplUint32_length]
  have hmagic : TPL_MAGIC.length = 3 := rfl
  omega

theorem serSize_le {fmt : List UInt8} {data : List TplDatum} {d : TplDatum} (hd : d ∈ data) :
    d.serSize ≤ tplSerOsz fmt data := by
  rw [tplSerOsz, foldl_serSize false, ← @TplDatum.image_length false]
  have hle : (d.image false).length ≤ (data.flatMap (TplDatum.image false)).length := by
    rw [List.flatMap_def]
    exact (List.sublist_flatten_of_mem (List.mem_map_of_mem hd)).length_le
  omega

theorem fmt_nonzero {fmt : List UInt8} (hchars : (fmt.all fun c => tplFmtChars.elem c) = true) :
    fmt.all (fun c => c != 0) = true := by
  rw [List.all_eq_true] at hchars ⊢
  intro c hc
  rw [bne_iff_ne]
  rintro rfl
  exact absurd (hchars 0 hc) (by decide)

/-- The format in front of its NUL. -/
theorem takeWhile_fmt {fmt : List UInt8} (hfmt : fmt.all (fun c => c != 0) = true)
    (body : List UInt8) : (fmt ++ 0 :: body).takeWhile (fun c => c != 0) = fmt := by
  rw [List.takeWhile_append_of_pos fun c hc => List.all_eq_true.mp hfmt c hc]
  exact List.append_nil fmt

theorem dropWhile_fmt {fmt : List UInt8} (hfmt : fmt.all (fun c => c != 0) = true)
    (body : List UInt8) : (fmt ++ 0 :: body).dropWhile (fun c => c != 0) = 0 :: body := by
  rw [List.dropWhile_append_of_pos fun c hc => List.all_eq_true.mp hfmt c hc]
  rfl

theorem not_all_nonzero (fmt body : List UInt8) :
    ¬ (fmt ++ 0 :: body).all (fun c => c != 0) = true := by
  simp

/-- The preamble of an image, as a reader sees it. -/
structure Preamble (writer : Bool) (fmt body img : List UInt8) : Prop where
  long : 9 ≤ img.length
  magic : img.take 3 = TPL_MAGIC
  flags : img.getD 3 0 = imageFlags writer fmt
  size : img.drop 4 = tplUint32 writer img.length ++ (fmt ++ 0 :: body)
  text : img.drop 8 = fmt ++ 0 :: body

variable (writer) in
theorem preamble_of_dump (fmt : List UInt8) (data : List TplDatum) :
    Preamble writer fmt (data.flatMap (TplDatum.image writer))
      (tplDumpToMem writer fmt data (tplSerOsz fmt data)) := by
  have hlen := @tplDumpToMem_length writer fmt data (tplSerOsz fmt data)
  have hdrop : (tplDumpToMem writer fmt data (tplSerOsz fmt data)).drop 4 =
      tplUint32 writer (tplSerOsz fmt data) ++
        (fmt ++ 0 :: data.flatMap (TplDatum.image writer)) := rfl
  refine ⟨?_, rfl, rfl, ?_, ?_⟩
  · rw [hlen, tplSerOsz, foldl_serSize writer]
    omega
  · rw [hlen, hdrop]
  · rw [show 8 = 4 + 4 from rfl, ← List.drop_drop, hdrop]
    exact List.drop_left' (tplUint32_length _)

theorem imageFlags_bigendian (fmt : List UInt8) :
    (imageFlags writer fmt &&& TPL_FL_BIGENDIAN == 1) = writer := by
  unfold imageFlags
  cases writer <;> cases fmt.any (fun c => c == 's'.toUInt8) <;> rfl

theorem imageFlags_supported (fmt : List UInt8) :
    imageFlags writer fmt &&& ~~~ TPL_SUPPORTED_BITFLAGS = 0 := by
  unfold imageFlags
  cases writer <;> cases fmt.any (fun c => c == 's'.toUInt8) <;> rfl

theorem imageFlags_nullstrings (fmt : List UInt8) :
    (imageFlags writer fmt &&& TPL_FL_NULLSTRINGS == 0) = !fmt.any (fun c => c == 's'.toUInt8) := by
  unfold imageFlags
  cases writer <;> cases fmt.any (fun c => c == 's'.toUInt8) <;> rfl

namespace Preamble

variable {fmt body img : List UInt8}

theorem needsEndianSwap (h : Preamble writer fmt body img) :
    tplNeedsEndianSwap reader img = (writer != reader) := by
  rw [tplNeedsEndianSwap, h.flags, imageFlags_bigendian]

theorem word (h : Preamble writer fmt body img) (hsize : img.length < UInt32.size) :
    tplWord reader (tplNeedsEndianSwap reader img) (img.drop 4) = img.length := by
  rw [h.needsEndianSwap, h.size, tplWord_tplUint32 hsize]

theorem peek (h : Preamble writer fmt body img) (hsize : img.length < UInt32.size)
    (hfmt : fmt.all (fun c => c != 0) = true) : tplPeek reader img = some fmt := by
  rw [tplPeek, if_neg (Nat.not_lt.mpr h.long), if_neg (not_not.mpr h.magic),
    if_neg (not_not.mpr (h.word hsize)), h.text, if_neg (not_all_nonzero fmt body),
    takeWhile_fmt hfmt]

theorem findDataStart (h : Preamble writer fmt body img)
    (hfmt : fmt.all (fun c => c != 0) = true) : tplFindDataStart img = body := by
  rw [tplFindDataStart, List.drop_drop, h.text, dropWhile_fmt hfmt]
  rfl

theorem length_eq (h : Preamble writer fmt body img) :
    img.length = 8 + fmt.length + 1 + body.length := by
  have hlen := congrArg List.length h.text
  rw [List.length_drop, List.length_append, List.length_cons] at hlen
  have hlong := h.long
  omega

end Preamble

/-- `tpl_sanity` finds nothing to complain about. -/
theorem tplSanity_dump {fmt : List UInt8} {args : List Nat} {nodes : List TplNode}
    (hmap : tplMapVa fmt args = some nodes) {data : List TplDatum}
    (hfits : List.Forall₂ (fun n d => d.Fits n.type) nodes data) {img : List UInt8}
    (h : Preamble writer fmt (data.flatMap (TplDatum.image writer)) img)
    (hsize : img.length < UInt32.size) (hdata : ∀ d ∈ data, d.serSize < UInt32.size) :
    tplSanity reader nodes fmt img = 0 := by
  obtain ⟨hchars, hstr⟩ := fmtChars_of_map hmap
  have hfmt := fmt_nonzero hchars
  have hold : (sanityFlags reader img).oldStringFmt = true → ∀ n ∈ nodes, n.type ≠ .str := by
    intro hflag n hn htype
    have hletter := hstr ⟨n, hn, htype⟩
    rw [sanityFlags, h.flags, imageFlags_nullstrings, hletter] at hflag
    cases hflag
  have hserlen : tplSerlen reader (sanityFlags reader img) nodes _ = some _ :=
    tplSerlen_image h.needsEndianSwap hold hfits hdata
  have hbody : img.drop (8 + fmt.length + 1) = data.flatMap (TplDatum.image writer) := by
    rw [Nat.add_assoc, ← List.drop_drop, h.text, ← List.drop_drop, List.drop_left]
    rfl
  rw [tplSanity, if_neg (Nat.not_lt.mpr h.long), if_neg (not_not.mpr h.magic), h.flags,
    if_neg (not_not.mpr (imageFlags_supported fmt)), if_neg (not_not.mpr (h.word hsize)),
    tplSanityData]
  simp only [h.text, takeWhile_fmt hfmt]
  rw [if_neg (not_not.mpr hchars), if_neg (not_all_nonzero fmt _), if_neg (not_not.mpr rfl),
    hbody, hserlen]
  simp only
  rw [if_neg (not_not.mpr _)]
  rw [h.length_eq]
  omega

theorem tplLoad_dump {fmt : List UInt8} {img : List UInt8} {nodes : List TplNode}
    {body : List UInt8} (h : Preamble writer fmt body img)
    (hsanity : tplSanity reader nodes fmt img = 0) :
    tplLoad reader nodes fmt img = (0, ⟨writer != reader, false⟩) := by
  rw [tplLoad, if_neg (not_not.mpr hsanity), h.needsEndianSwap]

theorem dump_eq_some {fmt : List UInt8} {data : List TplDatum} {paSz : Nat} {img : List UInt8}
    (h : tplDump writer fmt data paSz = some img) :
    img = tplDumpToMem writer fmt data (tplSerOsz fmt data) := by
  rw [tplDump] at h
  split at h
  · cases h
  · exact (Option.some.inj h).symm

theorem dump_of_le {fmt : List UInt8} {data : List TplDatum} {paSz : Nat}
    (h : tplSerOsz fmt data ≤ paSz) : ∃ img, tplDump writer fmt data paSz = some img ∧
      img.length = tplSerOsz fmt data :=
  ⟨_, if_neg (Nat.not_lt.mpr h), tplDumpToMem_length fmt data _⟩

theorem any_place {args args' : List Nat} (h : args.length = args'.length) :
    List.Forall₂ (fun _ _ => True) args args' :=
  List.forall₂_iff_zip.mpr ⟨h, fun _ => trivial⟩

theorem types_eq {rel : Nat → Nat → Prop} {nodes nodes' : List TplNode}
    (h : List.Forall₂ (SameField rel) nodes nodes') :
    nodes'.map TplNode.type = nodes.map TplNode.type := by
  induction h with
  | nil => rfl
  | cons hfield _ ih => rw [List.map_cons, List.map_cons, hfield.1, ih]

end

/-- The image of a dump, at a reader that has mapped the same format. -/
theorem load_unpack_dump (writer reader : Bool) {fmt : List UInt8} {args args' : List Nat}
    {nodes nodes' : List TplNode} (hnodes : tplMapVa fmt args = some nodes)
    (hnodes' : tplMapVa fmt args' = some nodes') {rel : Nat → Nat → Prop}
    (hsame : List.Forall₂ (SameField rel) nodes nodes') (mem mem' : Memory) {paSz : Nat}
    {img : List UInt8} (hdump : tplDump writer fmt (tplPack mem nodes) paSz = some img)
    (hsize : img.length < UInt32.size) :
    tplPeek reader img = some fmt ∧ (tplLoad reader nodes' fmt img).1 = 0 ∧
      tplUnpack reader (tplLoad reader nodes' fmt img).2 nodes' img mem' =
        some (storeData mem' nodes'
          ((tplPack mem nodes).map (TplDatum.arrived (writer != reader)))) := by
  obtain rfl := dump_eq_some hdump
  have hfits := tplPack_fits mem hsame
  have hfmt := fmt_nonzero (fmtChars_of_map hnodes).1
  have hpreamble := preamble_of_dump writer fmt (tplPack mem nodes)
  have hdata : ∀ d ∈ tplPack mem nodes, d.serSize < UInt32.size := by
    intro d hd
    have hle : d.serSize ≤ tplSerOsz fmt (tplPack mem nodes) := serSize_le hd
    rw [tplDumpToMem_length] at hsize
    omega
  have hsanity : tplSanity reader nodes' fmt _ = 0 :=
    tplSanity_dump hnodes' hfits hpreamble hsize hdata
  have hload := tplLoad_dump hpreamble hsanity
  refine ⟨hpreamble.peek hsize hfmt, by rw [hload], ?_⟩
  rw [hload, tplUnpack, hpreamble.findDataStart hfmt, unpackNodes_image hfits hdata]

/-- Memory with its own addresses in it. -/
def countingMemory : Memory :=
  ⟨UInt8.ofNat, fun _ => none, fun _ => []⟩

/-- The byte at `x` belongs to a number of this field. -/
def TplNode.coversByte (n : TplNode) (x : Nat) : Bool :=
  n.type.isFixed && (n.addr ≤ x && x < n.addr + n.type.sz)

/-- A field of that type is at `x`. -/
def TplNode.isAt (n : TplNode) (type : TplType) (x : Nat) : Bool :=
  n.type == type && n.addr == x

section

variable {base base' : Nat} {n n' : TplNode}

theorem storeDatum_byte (h : SameField (SameOffset base base') n n') (mem mem' : Memory)
    (x : Nat) :
    (storeDatum mem' n'.addr (packNode mem n)).byte x =
      if n'.coversByte x then mem.byte (base + (x - base')) else mem'.byte x := by
  obtain ⟨htype, offset, haddr, haddr'⟩ := h
  cases hn : n.type
  case str | bin =>
    simp [packNode, hn, storeDatum, TplNode.coversByte, ← htype, TplType.isFixed]
  all_goals
    simp only [packNode, hn, storeDatum, TplNode.coversByte, ← htype, TplType.isFixed,
      ByteMemory.writeBytes_readBytes, Bool.true_and, Bool.and_eq_true, decide_eq_true_eq]
    split
    · congr 1
      omega
    · rfl

theorem storeDatum_str (h : SameField (SameOffset base base') n n') (mem mem' : Memory)
    (x : Nat) :
    (storeDatum mem' n'.addr (packNode mem n)).str x =
      if n'.isAt .str x then mem.str (base + (x - base')) else mem'.str x := by
  obtain ⟨htype, offset, haddr, haddr'⟩ := h
  cases hn : n.type
  case str =>
    simp only [packNode, hn, storeDatum, TplNode.isAt, ← htype, Function.update_apply,
      Bool.and_eq_true, beq_iff_eq, true_and]
    split
    · rename_i hx
      rw [if_pos hx.symm]
      congr 1
      omega
    · rename_i hx
      rw [if_neg (fun heq => hx heq.symm)]
  all_goals
    simp [packNode, hn, storeDatum, TplNode.isAt, ← htype]

theorem storeDatum_bin (h : SameField (SameOffset base base') n n') (mem mem' : Memory)
    (x : Nat) :
    (storeDatum mem' n'.addr (packNode mem n)).bin x =
      if n'.isAt .bin x then mem.bin (base + (x - base')) else mem'.bin x := by
  obtain ⟨htype, offset, haddr, haddr'⟩ := h
  cases hn : n.type
  case bin =>
    simp only [packNode, hn, storeDatum, TplNode.isAt, ← htype, Function.update_apply,
      Bool.and_eq_true, beq_iff_eq, true_and]
    split
    · rename_i hx
      rw [if_pos hx.symm]
      congr 1
      omega
    · rename_i hx
      rw [if_neg (fun heq => hx heq.symm)]
  all_goals
    simp [packNode, hn, storeDatum, TplNode.isAt, ← htype]

/-- A cell of the memory that one store overwrites with the cell it comes from, or leaves, is
overwritten or left by all of them. -/
theorem storeData_cell {γ : Type} (cell : Memory → γ) (source : γ) (mem : Memory)
    (hits : TplNode → Bool) {nodes nodes' : List TplNode}
    (hstore : ∀ n n' mem', SameField (SameOffset base base') n n' →
      cell (storeDatum mem' n'.addr (packNode mem n)) = if hits n' then source else cell mem')
    (h : List.Forall₂ (SameField (SameOffset base base')) nodes nodes') (mem' : Memory) :
    cell (storeData mem' nodes' (tplPack mem nodes)) =
      if nodes'.any hits then source else cell mem' := by
  induction h generalizing mem' with
  | nil => rfl
  | @cons n n' nodes nodes' hsame _ ih =>
      have hfirst := hstore n n' mem' hsame
      have hrest := ih (storeDatum mem' n'.addr (packNode mem n))
      rw [hfirst] at hrest
      refine hrest.trans ?_
      rw [List.any_cons]
      cases hits n' <;> cases nodes'.any hits <;> rfl

end

theorem arrived_false (data : List TplDatum) : data.map (TplDatum.arrived false) = data := by
  rw [List.map_congr_left (g := id), List.map_id]
  intro d _
  cases d <;> rfl

/-- What the structures, numbers, strings and buffers at one place are is what they become at the
other place, and nothing else changes. -/
theorem tplReceive_transfers (bigendian : Bool) {fmt : List UInt8} {base base' : Nat}
    {args args' : List Nat} {nodes nodes' : List TplNode}
    (hnodes : tplMapVa fmt args = some nodes) (hnodes' : tplMapVa fmt args' = some nodes')
    (hargs : List.Forall₂ (SameOffset base base') args args') (mem mem' : Memory) {paSz : Nat}
    {img : List UInt8} (hdump : tplDump bigendian fmt (tplPack mem nodes) paSz = some img)
    (hsize : img.length < UInt32.size) :
    ∃ after, tplReceive bigendian args' img mem' = some after ∧
      ∀ x,
        after.byte x = (if nodes'.any (fun n => n.coversByte x) then mem.byte (base + (x - base'))
          else mem'.byte x) ∧
        after.str x = (if nodes'.any (fun n => n.isAt .str x) then mem.str (base + (x - base'))
          else mem'.str x) ∧
        after.bin x = (if nodes'.any (fun n => n.isAt .bin x) then mem.bin (base + (x - base'))
          else mem'.bin x) := by
  obtain ⟨mapped, hmapped, hsame⟩ :=
    map_related (translates_sameOffset base base') hargs hnodes
  rw [hnodes', Option.some.injEq] at hmapped
  subst hmapped
  obtain ⟨hpeek, _, hunpack⟩ :=
    load_unpack_dump bigendian bigendian hnodes hnodes' hsame mem mem' hdump hsize
  rw [bne_self_eq_false, arrived_false] at hunpack
  have hreceive : tplReceive bigendian args' img mem' =
      some (storeData mem' nodes' (tplPack mem nodes)) := by
    rw [tplReceive, hpeek, Option.bind_some, hnodes', Option.bind_some, hunpack]
  refine ⟨_, hreceive, fun x => ⟨?_, ?_, ?_⟩⟩
  · exact storeData_cell (fun m => m.byte x) _ mem _
      (fun n n' mem' h => storeDatum_byte h mem mem' x) hsame mem'
  · exact storeData_cell (fun m => m.str x) _ mem _
      (fun n n' mem' h => storeDatum_str h mem mem' x) hsame mem'
  · exact storeData_cell (fun m => m.bin x) _ mem _
      (fun n n' mem' h => storeDatum_bin h mem mem' x) hsame mem'

/-! ### Images from elsewhere -/

section

variable {reader : Bool}

theorem tplWord_take (xendian : Bool) (text : List UInt8) :
    tplWord reader xendian (text.take 4) = tplWord reader xendian text := by
  rw [tplWord, tplWord, List.take_take, Nat.min_self]

/-- What `tpl_serlen` counts for a datum is what unpacking takes, if strings have the format that
is read. -/
theorem readDatum_of_serlen {flags : TplFlags} {type : TplType}
    (hold : flags.oldStringFmt = true → type ≠ .str) {text : List UInt8} {size : Nat}
    (hsize : nodeSerlen reader flags type text = some size) (hle : size ≤ text.length) :
    ∃ d, readDatum reader ⟨flags.xendian, false⟩ type text = some (d, text.drop size) := by
  cases htype : type.isFixed with
  | true =>
      rw [nodeSerlen_of_isFixed htype, Option.some.injEq] at hsize
      subst hsize
      rw [readDatum_of_isFixed htype, takeBytes_eq_some hle]
      exact ⟨_, rfl⟩
  | false =>
      cases type
      case str =>
        have hnew : flags.oldStringFmt = false := by
          by_contra hflag
          exact hold (Bool.eq_true_of_not_eq_false hflag) rfl
        rw [nodeSerlen] at hsize
        split at hsize
        · cases hsize
        · rename_i hshort
          rw [Option.some.injEq] at hsize
          simp only [readDatum, takeBytes_eq_some (Nat.not_lt.mp hshort), Option.bind_some,
            tplWord_take, Bool.false_eq_true, if_false]
          generalize tplWord reader flags.xendian text = slen at hsize ⊢
          rw [strSerlen, hnew] at hsize
          simp only [Bool.false_eq_true, if_false] at hsize
          split
          · rename_i hzero
            rw [if_neg (by omega)] at hsize
            exact ⟨_, by rw [← hsize]⟩
          · rename_i hzero
            have hcount : 4 + (slen - 1) = size := by
              split at hsize <;> omega
            rw [takeBytes_eq_some (by rw [List.length_drop]; omega), Option.map_some,
              List.drop_drop, hcount]
            exact ⟨_, rfl⟩
      case bin =>
        rw [nodeSerlen] at hsize
        split at hsize
        · cases hsize
        · rename_i hshort
          rw [Option.some.injEq] at hsize
          simp only [readDatum, takeBytes_eq_some (Nat.not_lt.mp hshort), Option.bind_some,
            tplWord_take]
          rw [takeBytes_eq_some (by rw [List.length_drop]; omega), Option.map_some,
            List.drop_drop, hsize]
          exact ⟨_, rfl⟩
      all_goals cases htype

theorem unpackNodes_of_serlen {flags : TplFlags} {nodes : List TplNode}
    (hold : flags.oldStringFmt = true → ∀ n ∈ nodes, n.type ≠ .str) {text : List UInt8} {len : Nat}
    (hlen : tplSerlen reader flags nodes text = some len) (mem : Memory) :
    ∃ mem', unpackNodes reader ⟨flags.xendian, false⟩ nodes text mem = some mem' := by
  induction nodes generalizing text len mem with
  | nil => exact ⟨mem, rfl⟩
  | cons n nodes ih =>
      rw [tplSerlen, Option.bind_eq_some_iff] at hlen
      obtain ⟨size, hsize, hrest⟩ := hlen
      split at hrest
      · cases hrest
      · rename_i hle
        obtain ⟨later, hlater, _⟩ := Option.map_eq_some_iff.mp hrest
        obtain ⟨d, hd⟩ := readDatum_of_serlen (fun h => hold h n List.mem_cons_self) hsize
          (Nat.not_lt.mp hle)
        rw [unpackNodes, hd, Option.bind_some]
        exact ih (fun h m hm => hold h m (List.mem_cons_of_mem n hm)) hlater _

theorem tplLoad_accepts {nodes : List TplNode} {fmt img : List UInt8} :
    (tplLoad reader nodes fmt img).1 = 0 ↔ tplSanity reader nodes fmt img = 0 := by
  rw [tplLoad]
  split
  · rename_i hrefused
    exact iff_of_false (show ¬ (-1 : Int) = 0 by decide) hrefused
  · rename_i haccepted
    exact iff_of_true rfl (not_not.mp haccepted)

/-- An image that is accepted has as many data as its nodes take. -/
theorem serlen_of_sanity {nodes : List TplNode} {fmt img : List UInt8}
    (h : tplSanity reader nodes fmt img = 0) :
    ∃ len, tplSerlen reader (sanityFlags reader img) nodes (tplFindDataStart img) = some len := by
  have hstart : tplFindDataStart img =
      img.drop (8 + ((img.drop 8).takeWhile fun c => c != 0).length + 1) := by
    have hsplit := List.takeWhile_append_dropWhile (p := fun c => c != 0) (l := img.drop 8)
    have hdrop : ((img.drop 8).takeWhile (fun c => c != 0) ++
        (img.drop 8).dropWhile fun c => c != 0).drop _ = _ := List.drop_left
    rw [hsplit, List.drop_drop] at hdrop
    rw [tplFindDataStart, List.drop_drop, ← hdrop, List.drop_drop]
  rw [hstart]
  unfold tplSanity at h
  split at h
  · exact absurd h (by decide)
  · split at h
    · exact absurd h (by decide)
    · split at h
      · exact absurd h (by decide)
      · split at h
        · exact absurd h (by decide)
        · unfold tplSanityData at h
          simp only at h
          split at h
          · exact absurd h (by decide)
          · split at h
            · exact absurd h (by decide)
            · split at h
              · exact absurd h (by decide)
              · split at h
                · exact absurd h (by decide)
                · rename_i len hlen
                  exact ⟨len, hlen⟩

end

/-- Without the flag, the lengths of the strings count no NUL: this image is accepted, and read
beyond its end. -/
example : (tplLoad false [⟨.str, 0⟩, ⟨.str, 8⟩] [115, 115]
      [116, 112, 108, 0, 20, 0, 0, 0, 115, 115, 0, 1, 0, 0, 0, 97, 0, 0, 0, 0]).1 = 0 ∧
    (tplUnpack false ⟨false, false⟩ [⟨.str, 0⟩, ⟨.str, 8⟩]
      [116, 112, 108, 0, 20, 0, 0, 0, 115, 115, 0, 1, 0, 0, 0, 97, 0, 0, 0, 0]
      countingMemory).isNone = true := by
  decide +kernel

end IdAllocator

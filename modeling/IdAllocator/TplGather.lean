/-
Images that come in pieces: `tpl_gather_mem` keeps the beginning of an image
until the rest has come, and hands each whole image over.
-/
import IdAllocator.Lib.Framing
import IdAllocator.TplRoundTrip

namespace IdAllocator

open Framing

section

variable {S : Type} (bigendian : Bool) (cb : S → List UInt8 → Option (S × Int))

/-- The loop of `tpl_gather_mem` over `tpl`: the state of the callback, what is left, and the
code that is returned.  Nothing when the callback ends the process, or when the loop has not
come to an end. -/
def tplGatherLoop : Nat → S → List UInt8 → Option (S × List UInt8 × Int)
  | fuel, s, tpl =>
      if tpl.length ≤ 8 then some (s, tpl, 1)
      else if tpl.take 3 ≠ TPL_MAGIC then some (s, tpl, -3)
      else
        let tpllen := tplWord bigendian (tplNeedsEndianSwap bigendian tpl) (tpl.drop 4)
        if tpl.length < tpllen then some (s, tpl, 1)
        else
          match fuel with
          | 0 => none
          | fuel + 1 =>
              (cb s (tpl.take tpllen)).bind fun (s, cbrc) =>
                if cbrc < 0 then some (s, tpl.drop tpllen, -4)
                else tplGatherLoop fuel s (tpl.drop tpllen)

/-- What is kept for the next read: everything when nothing was consumed of a text that begins
with an older part, and else what is left, if there is any. -/
def gatherRest (gs : Option (List UInt8)) (img tpl : List UInt8) : Option (List UInt8) :=
  if tpl.length = img.length ∧ gs.isSome then some tpl
  else if 0 < tpl.length then some tpl
  else none

/-- `tpl_gather_mem`, `gs` being the part of an image that was kept.  Every round of the loop
takes something off the text, or the first one that does not is repeated for ever. -/
def tplGatherMem (gatherMax : Nat) (s : S) (gs : Option (List UInt8)) (buf : List UInt8) :
    Option (S × Option (List UInt8) × Int) :=
  let img := gs.getD [] ++ buf
  if gs.isSome ∧ 0 < gatherMax ∧ gatherMax < img.length then some (s, none, -2)
  else
    (tplGatherLoop bigendian cb img.length s img).map fun (s, tpl, rc) =>
      (s, if rc < 0 then none else gatherRest gs img tpl, rc)

/-- The reads of a connection, one after the other; what they return is not looked at. -/
def gatherReads (gatherMax : Nat) (s : S) (gs : Option (List UInt8)) :
    List (List UInt8) → Option (S × Option (List UInt8))
  | [] => some (s, gs)
  | buf :: bufs =>
      (tplGatherMem bigendian cb gatherMax s gs buf).bind fun (s, gs, _) =>
        gatherReads gatherMax s gs bufs

/-- The callback on one image after the other, as long as it does not ask to stop. -/
def handAll (s : S) : List (List UInt8) → Option S
  | [] => some s
  | img :: imgs => (cb s img).bind fun (s, cbrc) => if cbrc < 0 then none else handAll s imgs

end

/-- The images of TPL as frames. -/
def tplFraming (bigendian : Bool) : Framing UInt8 where
  header := 8
  frameLen text :=
    if text.take 3 = TPL_MAGIC then
      some (tplWord bigendian (tplNeedsEndianSwap bigendian text) (text.drop 4))
    else none
  frameLen_append start rest hlen := by
    have htake : (start ++ rest).take 3 = start.take 3 :=
      List.take_append_of_le_length (by omega)
    have hflags : (start ++ rest).getD 3 0 = start.getD 3 0 := by
      rw [List.getD_append _ _ _ _ (by omega)]
    have hword : ((start ++ rest).drop 4).take 4 = (start.drop 4).take 4 := by
      rw [List.drop_append_of_le_length (by omega)]
      exact List.take_append_of_le_length (by rw [List.length_drop]; omega)
    rw [htake, tplNeedsEndianSwap, hflags, ← tplWord_take, hword, tplWord_take]
    rfl

variable {S : Type} {bigendian : Bool} {cb : S → List UInt8 → Option (S × Int)}

theorem frameLen_eq_some {text : List UInt8} {n : Nat} :
    (tplFraming bigendian).frameLen text = some n ↔ text.take 3 = TPL_MAGIC ∧
      tplWord bigendian (tplNeedsEndianSwap bigendian text) (text.drop 4) = n := by
  simp only [tplFraming]
  split
  · rename_i hmagic
    rw [Option.some.injEq]
    exact ⟨fun h => ⟨hmagic, h⟩, fun h => h.2⟩
  · rename_i hmagic
    exact iff_of_false (fun h => nomatch h) (fun h => hmagic h.1)

theorem handAll_cons {s s' : S} {img : List UInt8} {imgs : List (List UInt8)}
    (h : handAll cb s (img :: imgs) = some s') :
    ∃ mid cbrc, cb s img = some (mid, cbrc) ∧ ¬ cbrc < 0 ∧ handAll cb mid imgs = some s' := by
  rw [handAll, Option.bind_eq_some_iff] at h
  obtain ⟨⟨mid, cbrc⟩, hcb, hrest⟩ := h
  simp only at hrest
  split at hrest
  · cases hrest
  · rename_i hgoes
    exact ⟨mid, cbrc, hcb, hgoes, hrest⟩

/-- The loop takes the frames off a text and hands them over. -/
theorem tplGatherLoop_parses {text part : List UInt8} {frames : List (List UInt8)}
    (h : (tplFraming bigendian).Parses text frames part) {s s' : S}
    (hcb : handAll cb s frames = some s') {fuel : Nat} (hfuel : frames.length ≤ fuel) :
    tplGatherLoop bigendian cb fuel s text = some (s', part, 1) := by
  induction h generalizing s fuel with
  | @stop part hpart =>
      rw [handAll, Option.some.injEq] at hcb
      subst hcb
      rw [tplGatherLoop]
      obtain hshort | ⟨n, hn, hlt⟩ := hpart
      · exact if_pos hshort
      · obtain ⟨hmagic, rfl⟩ := frameLen_eq_some.mp hn
        split
        · rfl
        · rw [if_neg (not_not.mpr hmagic)]
          exact if_pos hlt
  | @frame img rest frames part himg hrest ih =>
      obtain ⟨mid, cbrc, hfirst, hgoes, hlater⟩ := handAll_cons hcb
      obtain ⟨hmagic, hlen⟩ := frameLen_eq_some.mp (himg.frameLen_append rest)
      have hlong : 8 < img.length := himg.1
      obtain ⟨fuel, rfl⟩ : ∃ k, fuel = k + 1 :=
        Nat.exists_eq_succ_of_ne_zero (by rw [List.length_cons] at hfuel; omega)
      have hrounds := ih hlater (Nat.le_of_succ_le_succ hfuel)
      rw [tplGatherLoop, if_neg (by rw [List.length_append]; omega), if_neg (not_not.mpr hmagic)]
      simp only [hlen]
      rw [if_neg (by rw [List.length_append]; omega), List.take_left, List.drop_left, hfirst,
        Option.bind_some]
      simp only [if_neg hgoes]
      exact hrounds

theorem length_le_of_parses {text part : List UInt8} {frames : List (List UInt8)}
    (h : (tplFraming bigendian).Parses text frames part) :
    frames.length + part.length ≤ text.length := by
  induction h with
  | stop _ => exact Nat.le_of_eq (Nat.zero_add _)
  | frame himg _ ih =>
      have hlong : 8 < _ := himg.1
      rw [List.length_cons, List.length_append]
      omega

/-- The part of an image that is kept between two reads. -/
def kept (part : List UInt8) : Option (List UInt8) :=
  if 0 < part.length then some part else none

theorem kept_getD (part : List UInt8) : (kept part).getD [] = part := by
  unfold kept
  split
  · rfl
  · rename_i hempty
    exact (List.eq_nil_of_length_eq_zero (Nat.eq_zero_of_not_pos hempty)).symm

theorem gatherRest_kept (part buf left : List UInt8) :
    gatherRest (kept part) (part ++ buf) left = kept left := by
  rw [gatherRest]
  split
  · rename_i hnothing
    obtain ⟨hlen, hkept⟩ := hnothing
    have hpart : 0 < part.length := by
      by_contra hempty
      rw [kept, if_neg hempty] at hkept
      cases hkept
    rw [kept, if_pos (by rw [hlen, List.length_append]; omega)]
  · rfl

/-- One read: the images that are whole now are handed over, and the beginning of the next one
is kept. -/
theorem tplGatherMem_parses {part buf left : List UInt8} {frames : List (List UInt8)}
    (h : (tplFraming bigendian).Parses (part ++ buf) frames left) {s s' : S}
    (hcb : handAll cb s frames = some s') {gatherMax : Nat}
    (hmax : gatherMax = 0 ∨ (part ++ buf).length ≤ gatherMax) :
    tplGatherMem bigendian cb gatherMax s (kept part) buf = some (s', kept left, 1) := by
  have hfits : ¬ ((kept part).isSome = true ∧ 0 < gatherMax ∧
      gatherMax < (part ++ buf).length) := by
    omega
  have hloop := tplGatherLoop_parses h hcb
    (Nat.le_trans (Nat.le_add_right _ _) (length_le_of_parses h))
  rw [tplGatherMem, kept_getD, if_neg hfits, hloop, Option.map_some]
  simp only [if_neg (show ¬ (1 : Int) < 0 by decide), gatherRest_kept]

theorem handAll_append {s s' : S} {before after : List (List UInt8)}
    (h : handAll cb s (before ++ after) = some s') :
    ∃ mid, handAll cb s before = some mid ∧ handAll cb mid after = some s' := by
  induction before generalizing s with
  | nil => exact ⟨s, rfl, h⟩
  | cons img before ih =>
      obtain ⟨next, cbrc, hfirst, hgoes, hrest⟩ := handAll_cons h
      obtain ⟨mid, hbefore, hafter⟩ := ih hrest
      refine ⟨mid, ?_, hafter⟩
      rw [handAll, hfirst, Option.bind_some]
      simp only [if_neg hgoes]
      exact hbefore

/-- However a stream of images is cut into reads, the images are handed over as they were sent,
and the beginning of the next one is kept. -/
theorem gatherReads_parses {bufs : List (List UInt8)} {part left : List UInt8}
    {frames : List (List UInt8)} (hpart : (tplFraming bigendian).Unfinished part)
    (h : (tplFraming bigendian).Parses (part ++ bufs.flatten) frames left) {s s' : S}
    (hcb : handAll cb s frames = some s') :
    gatherReads bigendian cb 0 s (kept part) bufs = some (s', kept left) := by
  induction bufs generalizing part frames s with
  | nil =>
      rw [List.flatten_nil, List.append_nil] at h
      obtain ⟨rfl, rfl⟩ := hpart.parses h
      rw [handAll, Option.some.injEq] at hcb
      rw [gatherReads, hcb]
  | cons buf bufs ih =>
      rw [List.flatten_cons, ← List.append_assoc] at h
      obtain ⟨before, mid, after, hbefore, hafter, rfl⟩ := h.cut
      obtain ⟨next, hnext, hlater⟩ := handAll_append hcb
      rw [gatherReads, tplGatherMem_parses hbefore hnext (Or.inl rfl), Option.bind_some]
      exact ih hbefore.unfinished hafter hlater

/-- An image that some machine has dumped. -/
def Dumped (img : List UInt8) : Prop :=
  ∃ writer fmt data paSz, tplDump writer fmt data paSz = some img ∧ img.length < UInt32.size

theorem Dumped.isFrame {img : List UInt8} (h : Dumped img) : (tplFraming bigendian).IsFrame img := by
  obtain ⟨writer, fmt, data, paSz, hdump, hsize⟩ := h
  obtain rfl := dump_eq_some hdump
  have hpreamble := preamble_of_dump writer fmt data
  exact ⟨hpreamble.long, frameLen_eq_some.mpr ⟨hpreamble.magic, hpreamble.word hsize⟩⟩

/-- Read any beginning of a stream of images, cut in any way. -/
theorem gatherReads_beginning {imgs bufs : List (List UInt8)} (himgs : ∀ img ∈ imgs, Dumped img)
    (hbufs : bufs.flatten <+: imgs.flatten) {s s' : S} (hcb : handAll cb s imgs = some s') :
    ∃ handed waiting part mid, imgs = handed ++ waiting ∧ bufs.flatten = handed.flatten ++ part ∧
      (∀ img rest, waiting = img :: rest → part.length < img.length) ∧
      handAll cb s handed = some mid ∧
      gatherReads bigendian cb 0 s none bufs = some (mid, kept part) := by
  obtain ⟨more, hmore⟩ := hbufs
  have hparse : (tplFraming bigendian).Parses (bufs.flatten ++ more) imgs [] := by
    rw [hmore, ← List.append_nil imgs.flatten]
    exact parses_flatten (fun img himg => (himgs img himg).isFrame) unfinished_nil
  obtain ⟨handed, part, waiting, hhanded, hwaiting, rfl⟩ := hparse.cut
  obtain ⟨mid, hmid, _⟩ := handAll_append hcb
  refine ⟨handed, waiting, part, mid, rfl, hhanded.text_eq, ?_, hmid, ?_⟩
  · rintro img rest rfl
    exact hhanded.unfinished.length_lt hwaiting
  · have hreads : gatherReads bigendian cb 0 s (kept []) bufs = some (mid, kept part) :=
      gatherReads_parses unfinished_nil hhanded hmid
    exact hreads

end IdAllocator

/-
Streams of frames.  A frame starts with a header that tells how long it is, so
a reader can take the frames off a stream that is cut in the middle of one, and
go on when the rest has come.
-/
import Mathlib.Data.List.Basic

universe u

/-- The length of a frame, read off its first symbols. -/
structure Framing (α : Type u) where
  header : Nat
  frameLen : List α → Option Nat
  frameLen_append : ∀ start rest, header < start.length →
    frameLen (start ++ rest) = frameLen start

namespace Framing

variable {α : Type u} (f : Framing α)

/-- A whole frame: it goes on behind the header, and is as long as it says. -/
def IsFrame (img : List α) : Prop :=
  f.header < img.length ∧ f.frameLen img = some img.length

/-- The beginning of a frame. -/
def Unfinished (part : List α) : Prop :=
  part.length ≤ f.header ∨ ∃ n, f.frameLen part = some n ∧ part.length < n

/-- The text is made of these frames, and of the beginning of another one. -/
inductive Parses : List α → List (List α) → List α → Prop
  | stop {part : List α} (hpart : f.Unfinished part) : Parses part [] part
  | frame {img rest : List α} {frames : List (List α)} {part : List α}
      (himg : f.IsFrame img) (hrest : Parses rest frames part) :
      Parses (img ++ rest) (img :: frames) part

variable {f}

theorem unfinished_nil : f.Unfinished [] :=
  Or.inl (Nat.zero_le _)

theorem IsFrame.ne_nil {img : List α} (h : f.IsFrame img) : img ≠ [] :=
  List.ne_nil_of_length_pos (Nat.zero_lt_of_lt h.1)

theorem IsFrame.frameLen_append {img : List α} (h : f.IsFrame img) (rest : List α) :
    f.frameLen (img ++ rest) = some img.length := by
  rw [f.frameLen_append img rest h.1, h.2]

/-- Cut off within a frame. -/
theorem IsFrame.unfinished {start rest : List α} (h : f.IsFrame (start ++ rest))
    (hrest : rest ≠ []) : f.Unfinished start := by
  by_cases hheader : start.length ≤ f.header
  · exact Or.inl hheader
  · refine Or.inr ⟨(start ++ rest).length, ?_, ?_⟩
    · rw [← f.frameLen_append start rest (Nat.lt_of_not_le hheader)]
      exact h.2
    · rw [List.length_append]
      have hpos := List.length_pos_of_ne_nil hrest
      omega

theorem Unfinished.of_append {start rest : List α} (h : f.Unfinished (start ++ rest)) :
    f.Unfinished start := by
  by_cases hheader : start.length ≤ f.header
  · exact Or.inl hheader
  · rw [Unfinished, f.frameLen_append start rest (Nat.lt_of_not_le hheader),
      List.length_append] at h
    obtain hle | ⟨n, hn, hlt⟩ := h
    · omega
    · exact Or.inr ⟨n, hn, by omega⟩

theorem parses_flatten {frames : List (List α)} {part : List α}
    (hframes : ∀ img ∈ frames, f.IsFrame img) (hpart : f.Unfinished part) :
    f.Parses (frames.flatten ++ part) frames part := by
  induction frames with
  | nil => exact Parses.stop hpart
  | cons img rest ih =>
      rw [List.flatten_cons, List.append_assoc]
      exact Parses.frame (hframes img List.mem_cons_self)
        (ih fun later hlater => hframes later (List.mem_cons_of_mem img hlater))

theorem Parses.text_eq {text : List α} {frames : List (List α)} {part : List α}
    (h : f.Parses text frames part) : text = frames.flatten ++ part := by
  induction h with
  | stop _ => rfl
  | @frame img _ _ _ _ _ ih => rw [List.flatten_cons, List.append_assoc, ← ih]

theorem Parses.unfinished {text : List α} {frames : List (List α)} {part : List α}
    (h : f.Parses text frames part) : f.Unfinished part := by
  induction h with
  | stop hpart => exact hpart
  | frame _ _ ih => exact ih

/-- Nothing can be taken off the beginning of a frame. -/
theorem Unfinished.parses {text part : List α} {frames : List (List α)} (h : f.Unfinished text)
    (hparse : f.Parses text frames part) : frames = [] ∧ part = text := by
  cases hparse with
  | stop _ => exact ⟨rfl, rfl⟩
  | @frame img rest _ _ himg _ =>
      have hlong := himg.1
      have hlen := himg.frameLen_append rest
      rw [Unfinished, hlen, List.length_append] at h
      obtain hle | ⟨n, hn, hlt⟩ := h
      · omega
      · rw [Option.some.injEq] at hn
        omega

/-- The beginning of a frame is shorter than the frame that it becomes. -/
theorem Unfinished.length_lt {start more img : List α} {frames : List (List α)} {part : List α}
    (h : f.Unfinished start) (hparse : f.Parses (start ++ more) (img :: frames) part) :
    start.length < img.length := by
  generalize htext : start ++ more = text at hparse
  cases hparse with
  | @frame _ rest _ _ himg _ =>
      have hlong := himg.1
      obtain hle | ⟨n, hn, hlt⟩ := h
      · omega
      · by_cases hheader : start.length ≤ f.header
        · omega
        · have hlen := himg.frameLen_append rest
          rw [← htext, f.frameLen_append start more (Nat.lt_of_not_le hheader), hn,
            Option.some.injEq] at hlen
          omega

/-- A text that is cut anywhere: what is left of the first part is read again
in front of the second one. -/
theorem Parses.cut {text more : List α} {frames : List (List α)} {part : List α}
    (h : f.Parses (text ++ more) frames part) :
    ∃ before left after, f.Parses text before left ∧ f.Parses (left ++ more) after part ∧
      frames = before ++ after := by
  generalize hwhole : text ++ more = whole at h
  induction h generalizing text with
  | stop hpart =>
      subst hwhole
      exact ⟨[], text, [], Parses.stop hpart.of_append, Parses.stop hpart, rfl⟩
  | @frame img rest frames part himg hrest ih =>
      obtain ⟨text', rfl, hmore⟩ | ⟨missing, rfl, hmore⟩ :=
        List.append_eq_append_iff.mp hwhole.symm
      · -- the first frame is whole in the first part
        obtain ⟨before, left, after, hbefore, hafter, rfl⟩ := ih hmore.symm
        exact ⟨img :: before, left, after, Parses.frame himg hbefore, hafter, rfl⟩
      · -- the cut is in the first frame, or at its end
        cases missing with
        | nil =>
            rw [List.append_nil] at himg
            subst hmore
            refine ⟨[text], [], frames, ?_, hrest, by rw [List.append_nil, List.singleton_append]⟩
            have hparse := Parses.frame himg (Parses.stop unfinished_nil)
            rwa [List.append_nil] at hparse
        | cons x missing =>
            refine ⟨[], text, (text ++ x :: missing) :: frames, ?_, ?_, rfl⟩
            · exact Parses.stop (himg.unfinished (List.cons_ne_nil x missing))
            · rw [hwhole]
              exact Parses.frame himg hrest

end Framing

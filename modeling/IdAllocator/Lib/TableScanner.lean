/-
Scanners that are driven by tables, as Ragel writes them.

A state has keys, sorted characters and then sorted ranges, and a binary search
for a character among them finds the transition.  Where a state has characters
alone and takes no others, the words that can be read from it are listed, and
reading a word is looking it up in the list.
-/
import Mathlib.Data.List.Basic

namespace TableScanner

/-! ### The tables -/

/-- The binary search.  A key is one character or the two ends of a range, `width` numbers, and
`lower` and `upper` move over whole keys. -/
def search (width : Int) (keys : List Int) (c : Int) : Nat → Int → Int → Option Nat
  | 0, _, _ => none
  | fuel + 1, lower, upper =>
      if upper < lower then none
      else
        let mid := lower + (upper - lower) / 2 / width * width
        if c < keys.getD mid.toNat 0 then search width keys c fuel lower (mid - width)
        else if keys.getD (mid + width - 1).toNat 0 < c then
          search width keys c fuel (mid + width) upper
        else some (mid / width).toNat

/-- The tables, and what makes a transition of the place that was found in them. -/
structure Tables where
  keyOffsets : List Nat
  transKeys : List Int
  singleLengths : List Nat
  rangeLengths : List Nat
  indexOffsets : List Nat
  trans : Nat → Nat
  transTargs : List Nat
  transActions : List Nat
  actions : List Nat

namespace Tables

variable (t : Tables)

/-- The keys of a state, and what follows them. -/
def keys (cs : Nat) : List Int :=
  t.transKeys.drop (t.keyOffsets.getD cs 0)

def singles (cs : Nat) : Nat :=
  t.singleLengths.getD cs 0

def ranges (cs : Nat) : Nat :=
  t.rangeLengths.getD cs 0

/-- The place that is found for a character: those of the characters come first, then those of
the ranges, and last the one for all others. -/
def place (cs : Nat) (c : Int) : Nat :=
  let index := t.indexOffsets.getD cs 0
  match search 1 (t.keys cs) c (t.singles cs) 0 (t.singles cs - 1) with
  | some k => index + k
  | none =>
      match search 2 ((t.keys cs).drop (t.singles cs)) c (t.ranges cs) 0
          (2 * t.ranges cs - 2) with
      | some k => index + t.singles cs + k
      | none => index + t.singles cs + t.ranges cs

/-- The actions of a list: their number comes first. -/
def actionList (acts : Nat) : List Nat :=
  (t.actions.drop (acts + 1)).take (t.actions.getD acts 0)

/-- The next state and the actions of a transition. -/
def move (place : Nat) : Nat × List Nat :=
  (t.transTargs.getD (t.trans place) 0, t.actionList (t.transActions.getD (t.trans place) 0))

def next (cs : Nat) (c : Int) : Nat × List Nat :=
  t.move (t.place cs c)

end Tables

/-- A scanner reads characters that are numbered by `code`, and does its actions at a position
and a character.  State 0 is the error. -/
structure Scanner (α σ : Type*) extends Tables where
  code : α → Int
  act : Nat → α → σ → Nat → σ

namespace Scanner

variable {α σ : Type*} (m : Scanner α σ)

def scan : Nat → σ → Nat → List α → Nat × σ
  | cs, r, _, [] => (cs, r)
  | cs, r, p, c :: rest =>
      let next := m.next cs (m.code c)
      let r' := next.2.foldl (m.act p c) r
      if next.1 = 0 then (0, r') else scan next.1 r' (p + 1) rest

/-- A scanner in the error state reads nothing. -/
def exec (cs : Nat) (r : σ) (data : List α) : Nat × σ :=
  if cs = 0 then (0, r) else m.scan cs r 0 data

variable {m} {cs cs' p : Nat} {r r' : σ}

theorem scan_cons {c : α} {acts : List Nat} (h : m.next cs (m.code c) = (cs', acts))
    (rest : List α) : m.scan cs r p (c :: rest) =
      if cs' = 0 then (0, acts.foldl (m.act p c) r)
      else m.scan cs' (acts.foldl (m.act p c) r) (p + 1) rest := by
  rw [scan, h]

/-- One text after the other. -/
theorem scan_append {front : List α} (h : m.scan cs r p front = (cs', r')) (hcs : cs' ≠ 0)
    (rest : List α) : m.scan cs r p (front ++ rest) = m.scan cs' r' (p + front.length) rest := by
  induction front generalizing cs r p with
  | nil =>
      rw [scan, Prod.mk.injEq] at h
      rw [List.nil_append, h.1, h.2]
      rfl
  | cons c front ih =>
      rw [List.cons_append, scan]
      rw [scan] at h
      split at h
      · rw [Prod.mk.injEq] at h
        exact absurd h.1.symm hcs
      · rename_i hnext
        rw [if_neg hnext, ih h, List.length_cons]
        congr 1
        omega

end Scanner

/-! ### The search -/

section Search

variable {keys : List Int} {c lower upper : Int} {fuel : Nat}

theorem search_some {k : Nat} (hlower : 0 ≤ lower)
    (h : search 1 keys c fuel lower upper = some k) :
    keys.getD k 0 = c ∧ lower ≤ k ∧ k ≤ upper := by
  induction fuel generalizing lower upper with
  | zero => cases h
  | succ fuel ih =>
      simp only [search, Int.ediv_one, Int.mul_one, Int.add_sub_cancel] at h
      split at h
      · cases h
      split at h
      · obtain ⟨hkey, hle, hge⟩ := ih hlower h
        exact ⟨hkey, hle, by omega⟩
      split at h
      · obtain ⟨hkey, hle, hge⟩ := ih (by omega) h
        exact ⟨hkey, by omega, hge⟩
      · cases h
        exact ⟨by omega, by omega, by omega⟩

theorem search_none (hsorted : ∀ i j : Nat, i < j → j ≤ upper → keys.getD i 0 < keys.getD j 0)
    (hfuel : upper + 1 - lower ≤ fuel) (hlower : 0 ≤ lower)
    (h : search 1 keys c fuel lower upper = none) {k : Nat} (hle : lower ≤ k) (hge : k ≤ upper) :
    keys.getD k 0 ≠ c := by
  induction fuel generalizing lower upper with
  | zero => omega
  | succ fuel ih =>
      simp only [search, Int.ediv_one, Int.mul_one, Int.add_sub_cancel] at h
      rw [if_neg (by omega)] at h
      obtain ⟨mid, hmid⟩ : ∃ mid : Nat, (mid : Int) = lower + (upper - lower) / 2 :=
        ⟨(lower + (upper - lower) / 2).toNat, by omega⟩
      rw [← hmid, Int.toNat_natCast] at h
      split at h
      · -- the character is smaller than the key in the middle
        rename_i hless
        by_cases hk : k < mid
        · refine ih (fun i j hij hj => hsorted i j hij (by omega)) (by omega) hlower h hle ?_
          omega
        · rcases Nat.eq_or_lt_of_le (Nat.le_of_not_lt hk) with rfl | hgt
          · omega
          · have hlt := hsorted mid k hgt hge
            omega
      split at h
      · -- it is greater
        rename_i hgreater
        by_cases hk : mid < k
        · exact ih hsorted (by omega) (by omega) h (by omega) hge
        · rcases Nat.eq_or_lt_of_le (Nat.le_of_not_lt hk) with rfl | hgt
          · omega
          · have hlt := hsorted k mid hgt (by omega)
            omega
      · cases h

end Search

/-! ### States with characters alone -/

namespace Tables

variable (t : Tables)

/-- What a state does for each of its characters. -/
def edges (cs : Nat) : List (Int × Nat × List Nat) :=
  (List.range (t.singles cs)).map fun k =>
    ((t.keys cs).getD k 0, t.move (t.indexOffsets.getD cs 0 + k))

/-- What a state does for all other characters. -/
def otherwise (cs : Nat) : Nat × List Nat :=
  t.move (t.indexOffsets.getD cs 0 + t.singles cs + t.ranges cs)

/-- The state has no ranges, and its characters are sorted. -/
def Plain (cs : Nat) : Prop :=
  t.ranges cs = 0 ∧ ((t.edges cs).map Prod.fst).Pairwise (· < ·)

instance (cs : Nat) : Decidable (t.Plain cs) :=
  inferInstanceAs (Decidable (_ ∧ _))

variable {t} {cs : Nat}

/-- Where all keys differ, an entry is what its key leads to. -/
theorem lookup_of_mem {K V : Type*} [BEq K] [LawfulBEq K] {entries : List (K × V)} {k : K} {v : V}
    (hnodup : (entries.map Prod.fst).Nodup) (h : (k, v) ∈ entries) :
    entries.lookup k = some v := by
  induction entries with
  | nil => cases h
  | cons entry rest ih =>
      rw [List.map_cons, List.nodup_cons] at hnodup
      rcases List.mem_cons.mp h with rfl | hrest
      · exact List.lookup_cons_self
      · have hne : k ≠ entry.1 := by
          intro heq
          exact hnodup.1 (heq ▸ List.mem_map_of_mem (f := Prod.fst) hrest)
        rw [List.lookup_cons, beq_false_of_ne hne]
        exact ih hnodup.2 hrest

/-- The order of the entries does not matter then. -/
theorem lookup_perm {K V : Type*} [BEq K] [LawfulBEq K] {entries entries' : List (K × V)}
    (hperm : entries.Perm entries') (hnodup : (entries'.map Prod.fst).Nodup) (k : K) :
    entries.lookup k = entries'.lookup k := by
  have hnodup' : (entries.map Prod.fst).Nodup := (hperm.map Prod.fst).nodup_iff.mpr hnodup
  cases hfound : entries.lookup k with
  | some v =>
      obtain ⟨front, back, heq, _⟩ := List.lookup_eq_some_iff.mp hfound
      have hmem : (k, v) ∈ entries := by simp [heq]
      exact (lookup_of_mem hnodup (hperm.mem_iff.mp hmem)).symm
  | none =>
      rw [List.lookup_eq_none_iff] at hfound
      exact (List.lookup_eq_none_iff.mpr fun entry hentry =>
        hfound entry (hperm.mem_iff.mpr hentry)).symm

/-- Keys may be looked up under other names. -/
theorem lookup_map {K L V W : Type*} [BEq K] [LawfulBEq K] [BEq L] [LawfulBEq L]
    {f : K → L} (hf : f.Injective) (g : V → W) (entries : List (K × V)) (k : K) :
    (entries.map fun entry => (f entry.1, g entry.2)).lookup (f k) =
      (entries.lookup k).map g := by
  induction entries with
  | nil => rfl
  | cons entry rest ih =>
      rw [List.map_cons, List.lookup_cons, List.lookup_cons, ih]
      by_cases hk : k = entry.1
      · simp [hk]
      · have hne : f k ≠ f entry.1 := fun heq => hk (hf heq)
        simp [beq_false_of_ne hk, beq_false_of_ne hne]

/-- In a state without ranges the search looks its character up. -/
theorem Plain.next_eq (h : t.Plain cs) (c : Int) :
    t.next cs c = ((t.edges cs).lookup c).getD (t.otherwise cs) := by
  obtain ⟨hranges, hsorted⟩ := h
  have hkeys : ∀ i j : Nat, i < j → (j : Int) ≤ t.singles cs - 1 →
      (t.keys cs).getD i 0 < (t.keys cs).getD j 0 := by
    intro i j hij hj
    rw [List.pairwise_iff_getElem] at hsorted
    have hlt := hsorted i j (by simp [edges]; omega) (by simp [edges]; omega) hij
    simpa [edges] using hlt
  have hnodup := hsorted.imp fun {_ _} hless => Int.ne_of_lt hless
  unfold next place
  cases hsearch : search 1 (t.keys cs) c (t.singles cs) 0 (t.singles cs - 1) with
  | some k =>
      obtain ⟨hkey, _, hle⟩ := search_some (Int.le_refl 0) hsearch
      have hmem : (c, t.move (t.indexOffsets.getD cs 0 + k)) ∈ t.edges cs := by
        refine List.mem_map.mpr ⟨k, List.mem_range.mpr (by omega), ?_⟩
        rw [hkey]
      rw [lookup_of_mem hnodup hmem]
      rfl
  | none =>
      have hmissing : (t.edges cs).lookup c = none := by
        rw [List.lookup_eq_none_iff]
        intro edge hedge
        obtain ⟨k, hk, rfl⟩ := List.mem_map.mp hedge
        rw [List.mem_range] at hk
        have hne := search_none hkeys (by omega) (Int.le_refl 0) hsearch (k := k) (by omega) (by omega)
        exact bne_iff_ne.mpr fun heq => hne heq.symm
      rw [hmissing, hranges]
      simp [search, otherwise, hranges]

/-! ### Words -/

/-- A word with its transition: the next state, and the actions. -/
abbrev Word := List Int × Nat × List Nat

/-- The words that begin with the characters of some edges, where `sub` lists the words behind
them.  A word ends with the character 0, and nothing is done before its end. -/
def spell (sub : Nat → Option (List Word)) : List (Int × Nat × List Nat) → Option (List Word)
  | [] => some []
  | (c, cs', acts) :: rest =>
      if c = 0 then (spell sub rest).map fun later => ([], cs', acts) :: later
      else if acts = [] ∧ cs' ≠ 0 then
        (sub cs').bind fun words => (spell sub rest).map fun later =>
          words.map (fun word => (c :: word.1, word.2)) ++ later
      else none

variable (t) in
/-- All words that can be read from a state, if they have fewer characters than `fuel`. -/
def words : Nat → Nat → Option (List Word)
  | 0, _ => none
  | fuel + 1, cs =>
      if t.Plain cs ∧ t.otherwise cs = (0, []) then spell (words fuel) (t.edges cs) else none

section Spell

variable {sub : Nat → Option (List Word)} {edges : List (Int × Nat × List Nat)} {ws : List Word}
variable {c : Int} {w : List Int}

theorem lookup_map_cons_nil (c : Int) (ws : List Word) :
    (ws.map fun word => (c :: word.1, word.2)).lookup [] = none := by
  induction ws with
  | nil => rfl
  | cons word rest ih =>
      rw [List.map_cons, List.lookup_cons]
      exact ih

theorem lookup_map_cons (c d : Int) (w : List Int) (ws : List Word) :
    (ws.map fun word => (c :: word.1, word.2)).lookup (d :: w) =
      if d = c then ws.lookup w else none := by
  induction ws with
  | nil => simp
  | cons word rest ih =>
      rw [List.map_cons, List.lookup_cons, List.lookup_cons, ih]
      by_cases hdc : d = c
      · by_cases hw : w = word.1 <;> simp [hdc, hw]
      · have hne : (d :: w == c :: word.1) = false := beq_false_of_ne (by simp [hdc])
        simp [hne, hdc]

/-- The empty word. -/
theorem spell_nil (h : spell sub edges = some ws) : ws.lookup [] = edges.lookup 0 := by
  induction edges generalizing ws with
  | nil =>
      cases h
      rfl
  | cons edge rest ih =>
      obtain ⟨c, cs', acts⟩ := edge
      rw [spell] at h
      split at h
      · rename_i hc
        obtain ⟨later, _, rfl⟩ := Option.map_eq_some_iff.mp h
        simp [hc]
      split at h
      · rename_i hc _
        obtain ⟨words, _, h⟩ := Option.bind_eq_some_iff.mp h
        obtain ⟨later, hlater, rfl⟩ := Option.map_eq_some_iff.mp h
        rw [List.lookup_append, lookup_map_cons_nil, Option.none_or, ih hlater, List.lookup_cons,
          beq_false_of_ne fun heq => hc heq.symm]
      · cases h

/-- No word begins with a character that is not among the edges. -/
theorem spell_missing (h : spell sub edges = some ws) (hc : ∀ edge ∈ edges, edge.1 ≠ c) :
    ws.lookup (c :: w) = none := by
  induction edges generalizing ws with
  | nil =>
      cases h
      rfl
  | cons edge rest ih =>
      obtain ⟨d, cs', acts⟩ := edge
      have hrest : ∀ edge ∈ rest, edge.1 ≠ c := fun edge hedge =>
        hc edge (List.mem_cons_of_mem _ hedge)
      have hd : ¬ c = d := fun heq => hc (d, cs', acts) List.mem_cons_self heq.symm
      rw [spell] at h
      split at h
      · obtain ⟨later, hlater, rfl⟩ := Option.map_eq_some_iff.mp h
        rw [List.lookup_cons, beq_false_of_ne (by simp)]
        exact ih hlater hrest
      split at h
      · obtain ⟨words, _, h⟩ := Option.bind_eq_some_iff.mp h
        obtain ⟨later, hlater, rfl⟩ := Option.map_eq_some_iff.mp h
        rw [List.lookup_append, lookup_map_cons, if_neg hd, Option.none_or, ih hlater hrest]
      · cases h

/-- The words that begin with a character are those behind its edge. -/
theorem spell_cons (h : spell sub edges = some ws)
    (hsorted : (edges.map Prod.fst).Pairwise (· < ·)) (hc : c ≠ 0) {cs' : Nat} {acts : List Nat}
    (hedge : edges.lookup c = some (cs', acts)) :
    acts = [] ∧ cs' ≠ 0 ∧ ∃ later, sub cs' = some later ∧
      ∀ w, ws.lookup (c :: w) = later.lookup w := by
  induction edges generalizing ws with
  | nil => cases hedge
  | cons edge rest ih =>
      obtain ⟨d, ds', dacts⟩ := edge
      rw [List.map_cons, List.pairwise_cons] at hsorted
      rw [spell] at h
      by_cases hd : c = d
      · subst hd
        have hrest : ∀ edge ∈ rest, edge.1 ≠ c := by
          intro edge hmem heq
          have hless := hsorted.1 edge.1 (List.mem_map_of_mem hmem)
          omega
        rw [List.lookup_cons_self, Option.some.injEq, Prod.mk.injEq] at hedge
        obtain ⟨rfl, rfl⟩ := hedge
        rw [if_neg hc] at h
        split at h
        · rename_i hsilent
          obtain ⟨words, hwords, h⟩ := Option.bind_eq_some_iff.mp h
          obtain ⟨later, hlater, rfl⟩ := Option.map_eq_some_iff.mp h
          refine ⟨hsilent.1, hsilent.2, words, hwords, ?_⟩
          intro w
          rw [List.lookup_append, lookup_map_cons, if_pos rfl, spell_missing hlater hrest,
            Option.or_none]
        · cases h
      · rw [List.lookup_cons, beq_false_of_ne hd] at hedge
        split at h
        · obtain ⟨later, hlater, rfl⟩ := Option.map_eq_some_iff.mp h
          obtain ⟨hacts, hcs, words, hwords, hlookup⟩ := ih hlater hsorted.2 hedge
          refine ⟨hacts, hcs, words, hwords, ?_⟩
          intro w
          rw [List.lookup_cons, beq_false_of_ne (by simp)]
          exact hlookup w
        split at h
        · obtain ⟨front, _, h⟩ := Option.bind_eq_some_iff.mp h
          obtain ⟨later, hlater, rfl⟩ := Option.map_eq_some_iff.mp h
          obtain ⟨hacts, hcs, words, hwords, hlookup⟩ := ih hlater hsorted.2 hedge
          refine ⟨hacts, hcs, words, hwords, ?_⟩
          intro w
          rw [List.lookup_append, lookup_map_cons, if_neg hd, Option.none_or]
          exact hlookup w
        · cases h

end Spell

end Tables

/-- To read a word from a state is to look it up among its words. -/
theorem Scanner.scan_word {α σ : Type*} {m : Scanner α σ} {fuel cs p : Nat} {r : σ}
    {ws : List Tables.Word} (h : m.words fuel cs = some ws) {w : List α}
    (hw : ∀ c ∈ w, m.code c ≠ 0) {z : α} (hz : m.code z = 0) :
    m.scan cs r p (w ++ [z]) =
      match ws.lookup (w.map m.code) with
      | some (cs', acts) => (cs', acts.foldl (m.act (p + w.length) z) r)
      | none => (0, r) := by
  induction w generalizing fuel cs p ws with
  | nil =>
      cases fuel with
      | zero => cases h
      | succ fuel =>
          rw [Tables.words] at h
          split at h
          · rename_i hstate
            rw [List.nil_append, scan, hz, hstate.1.next_eq, List.map_nil, Tables.spell_nil h,
              hstate.2]
            cases (m.edges cs).lookup 0 with
            | none => rfl
            | some move =>
                obtain ⟨cs', acts⟩ := move
                by_cases hcs : cs' = 0
                · simp [hcs]
                · simp [hcs, scan]
          · cases h
  | cons c rest ih =>
      obtain ⟨hc, hrest⟩ := List.forall_mem_cons.mp hw
      cases fuel with
      | zero => cases h
      | succ fuel =>
          rw [Tables.words] at h
          split at h
          · rename_i hstate
            rw [List.cons_append, scan, hstate.1.next_eq, List.map_cons, hstate.2]
            cases hedge : (m.edges cs).lookup (m.code c) with
            | none =>
                have hmissing : ∀ edge ∈ m.edges cs, edge.1 ≠ m.code c := by
                  intro edge hmem heq
                  have hnone := List.lookup_eq_none_iff.mp hedge edge hmem
                  simp [heq] at hnone
                rw [Tables.spell_missing h hmissing]
                rfl
            | some move =>
                obtain ⟨cs', acts⟩ := move
                obtain ⟨rfl, hcs, later, hlater, hlookup⟩ :=
                  Tables.spell_cons h hstate.1.2 hc hedge
                rw [hlookup, Option.getD_some, if_neg hcs, List.foldl_nil, ih hlater hrest,
                  List.length_cons]
                have hlength : p + 1 + rest.length = p + (rest.length + 1) := by omega
                rw [hlength]
          · cases h

end TableScanner

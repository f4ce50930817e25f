/-
The places that a format maps its fields to.

Mapping the same format to other arguments gives fields of the same types, and a
structure that lies elsewhere has its fields at the same distances.
-/
import Mathlib.Data.List.Forall2
import IdAllocator.Tpl

namespace IdAllocator

variable {rel : Nat → Nat → Prop}

/-! ### The characters of a format -/

theorem toUInt8_ofUInt8 (c : UInt8) : (Char.ofUInt8 c).toUInt8 = c :=
  UInt8.toUInt8_toUInt32 c

theorem eq_of_ofUInt8 {c : UInt8} {l : Char} (h : Char.ofUInt8 c = l) : c = l.toUInt8 := by
  rw [← h, toUInt8_ofUInt8]

/-- The cases of the loop in `tpl_map_va`. -/
inductive MapCase where
  | bin
  | enterStructure
  | enterNested
  | openParen
  | closeParen
  | atom (type : TplType)

def MapCase.ofChar : Char → Option MapCase
  | 'B' => some .bin
  | 'S' => some .enterStructure
  | '$' => some .enterNested
  | '(' => some .openParen
  | ')' => some .closeParen
  | c => (TplType.ofChar c).map .atom

def MapCase.apply (s : TplMapState) : MapCase → Option TplMapState
  | .bin => s.addBin
  | .enterStructure => s.enterStructure
  | .enterNested => s.enterNested
  | .openParen => s.openParen
  | .closeParen => s.closeParen
  | .atom type => s.addAtom type

theorem next_eq_some {s s' : TplMapState} {c : UInt8} : s.next c = some s' ↔
    ∃ case mid, MapCase.ofChar (Char.ofUInt8 c) = some case ∧ case.apply s = some mid ∧
      s' = { mid with last := Char.ofUInt8 c } := by
  have hnext : s.next c = ((MapCase.ofChar (Char.ofUInt8 c)).bind (MapCase.apply s)).map
      fun s => { s with last := Char.ofUInt8 c } := by
    unfold TplMapState.next MapCase.ofChar
    generalize Char.ofUInt8 c = letter
    split
    case h_6 =>
      simp only [Option.map_bind]
      cases TplType.ofChar letter <;> rfl
    all_goals rfl
  rw [hnext, Option.map_eq_some_iff]
  simp only [Option.bind_eq_some_iff]
  constructor
  · rintro ⟨mid, ⟨case, hcase, happly⟩, rfl⟩
    exact ⟨case, mid, hcase, happly, rfl⟩
  · rintro ⟨case, mid, hcase, happly, rfl⟩
    exact ⟨mid, ⟨case, hcase, happly⟩, rfl⟩

/-- The letter of a type. -/
theorem ofChar_eq_some {c : UInt8} {type : TplType}
    (h : TplType.ofChar (Char.ofUInt8 c) = some type) :
    tplFmtChars.elem c = true ∧ (type = .str → c = 's'.toUInt8) := by
  unfold TplType.ofChar at h
  split at h
  all_goals
    first
    | cases h
      rename_i hc
      rw [eq_of_ofUInt8 hc]
      decide
    | cases h

/-- The letter of a case. -/
theorem caseOfChar_eq_some {c : UInt8} {case : MapCase}
    (h : MapCase.ofChar (Char.ofUInt8 c) = some case) :
    tplFmtChars.elem c = true ∧ (case = .atom .str → c = 's'.toUInt8) := by
  unfold MapCase.ofChar at h
  split at h
  case h_6 =>
    obtain ⟨type, htype, rfl⟩ := Option.map_eq_some_iff.mp h
    obtain ⟨helem, hstr⟩ := ofChar_eq_some htype
    exact ⟨helem, fun hcase => hstr (MapCase.atom.inj hcase)⟩
  all_goals
    cases h
    rename_i hc
    rw [eq_of_ofUInt8 hc]
    exact ⟨by decide, fun hcase => nomatch hcase⟩

/-! ### The nodes that a round adds -/

section

variable {s s' : TplMapState}

theorem map_vaArg_eq_some {f : Nat × TplMapState → TplMapState} :
    s.vaArg.map f = some s' ↔
      ∃ addr rest, s.args = addr :: rest ∧ s' = f (addr, { s with args := rest }) := by
  unfold TplMapState.vaArg
  split
  · rename_i hargs
    simp [hargs]
  · rename_i arg rest hargs
    rw [hargs, Option.map_some, Option.some.injEq]
    constructor
    · rintro rfl
      exact ⟨arg, rest, rfl, rfl⟩
    · rintro ⟨addr, rest', heq, rfl⟩
      obtain ⟨rfl, rfl⟩ := List.cons.inj heq
      rfl

theorem addBin_eq_some : s.addBin = some s' ↔
    s.expectLparen = false ∧ s.inStructure = 0 ∧ ∃ addr rest, s.args = addr :: rest ∧
      s' = { s with args := rest, children := s.children ++ [⟨.bin, addr⟩] } := by
  unfold TplMapState.addBin
  split
  · rename_i hparen
    simp [hparen]
  · rename_i hparen
    split
    · rename_i hin
      simp [hin]
    · rename_i hin
      rw [map_vaArg_eq_some]
      simp only [hparen, not_not.mp hin, true_and]

theorem enterStructure_eq_some : s.enterStructure = some s' ↔
    s.inStructure = 0 ∧ ∃ addr rest, s.args = addr :: rest ∧
      s' = { s with
        args := rest
        expectLparen := true
        ordinal := 1
        inStructure := 1 + s.lparenLevel
        structAddr := addr } := by
  unfold TplMapState.enterStructure
  split
  · rename_i hin
    simp [hin]
  · rename_i hin
    rw [map_vaArg_eq_some]
    simp only [not_not.mp hin, true_and]

theorem addAtom_eq_some {type : TplType} : s.addAtom type = some s' ↔
    s.expectLparen = false ∧
      (s.inStructure ≠ 0 ∧
          s' = { s with
            ordinal := s.ordinal + 1
            children := s.children ++
              [⟨type, calcFieldAddr s.children type s.structAddr s.ordinal⟩] } ∨
        s.inStructure = 0 ∧ ∃ addr rest, s.args = addr :: rest ∧
          s' = { s with args := rest, children := s.children ++ [⟨type, addr⟩] }) := by
  unfold TplMapState.addAtom
  split
  · rename_i hparen
    simp [hparen]
  · rename_i hparen
    split
    · rename_i hin
      simp [hparen, hin, eq_comm]
    · rename_i hin
      rw [map_vaArg_eq_some]
      simp [hparen, not_not.mp hin]

theorem enterNested_eq_some : s.enterNested = some s' ↔
    s.inStructure ≠ 0 ∧
      s' = { s with expectLparen := true, inNestedStructure := s.inNestedStructure + 1 } := by
  unfold TplMapState.enterNested
  split
  · rename_i hin
    simp [hin]
  · rename_i hin
    simp [hin, eq_comm]

theorem openParen_eq_some : s.openParen = some s' ↔
    s.expectLparen = true ∧
      s' = { s with expectLparen := false, lparenLevel := s.lparenLevel + 1 } := by
  unfold TplMapState.openParen
  split
  · rename_i hparen
    simp [hparen]
  · rename_i hparen
    simp [not_not.mp hparen, eq_comm]

theorem closeParen_eq_some : s.closeParen = some s' ↔
    s.lparenLevel ≠ 0 ∧ s.last ≠ '(' ∧
      (s.inNestedStructure ≠ 0 ∧
          s' = { s with
            lparenLevel := s.lparenLevel - 1
            inNestedStructure := s.inNestedStructure - 1 } ∨
        s.inNestedStructure = 0 ∧ (s.inStructure ≠ 0 ∧ s.inStructure - 1 = s.lparenLevel - 1) ∧
          s' = { s with lparenLevel := s.lparenLevel - 1, inStructure := 0 }) := by
  unfold TplMapState.closeParen
  split
  · rename_i hlevel
    simp [hlevel]
  · rename_i hlevel
    split
    · rename_i hlast
      simp [hlast]
    · rename_i hlast
      simp only
      split
      · rename_i hnested
        simp [hlevel, hlast, hnested, eq_comm]
      · rename_i hnested
        split
        · rename_i hends
          simp [hlevel, hlast, not_not.mp hnested, hends, eq_comm]
        · rename_i hends
          simp [not_not.mp hnested, hends]

end

/-- A round adds at most one node, and a string only at its letter. -/
theorem MapCase.children {s s' : TplMapState} {case : MapCase} (h : case.apply s = some s') :
    s'.children = s.children ∨
      ∃ n, s'.children = s.children ++ [n] ∧ (n.type = .str → case = .atom .str) := by
  cases case with
  | bin =>
      obtain ⟨_, _, addr, rest, _, rfl⟩ := addBin_eq_some.mp h
      exact Or.inr ⟨⟨.bin, addr⟩, rfl, fun hstr => nomatch hstr⟩
  | enterStructure =>
      obtain ⟨_, addr, rest, _, rfl⟩ := enterStructure_eq_some.mp h
      exact Or.inl rfl
  | enterNested =>
      obtain ⟨_, rfl⟩ := enterNested_eq_some.mp h
      exact Or.inl rfl
  | openParen =>
      obtain ⟨_, rfl⟩ := openParen_eq_some.mp h
      exact Or.inl rfl
  | closeParen =>
      obtain ⟨_, _, ⟨_, rfl⟩ | ⟨_, _, rfl⟩⟩ := closeParen_eq_some.mp h
      · exact Or.inl rfl
      · exact Or.inl rfl
  | atom type =>
      obtain ⟨_, ⟨_, rfl⟩ | ⟨_, addr, rest, _, rfl⟩⟩ := addAtom_eq_some.mp h
      · exact Or.inr ⟨_, rfl, congrArg MapCase.atom⟩
      · exact Or.inr ⟨_, rfl, congrArg MapCase.atom⟩

theorem map_eq_some {fmt : List UInt8} {args : List Nat} {nodes : List TplNode} :
    tplMapVa fmt args = some nodes ↔
      ∃ s, Runs.run TplMapState.next (TplMapState.start args) fmt = some s ∧ s.lparenLevel = 0 ∧
        s.children = nodes := by
  rw [tplMapVa, Option.bind_eq_some_iff]
  constructor
  · rintro ⟨s, hrun, hnodes⟩
    split at hnodes
    · rename_i hlevel
      exact ⟨s, hrun, hlevel, Option.some.inj hnodes⟩
    · cases hnodes
  · rintro ⟨s, hrun, hlevel, rfl⟩
    exact ⟨s, hrun, if_pos hlevel⟩

/-- A format that is mapped is made of format characters, and has the letter of strings if it
has a string. -/
theorem fmtChars_of_map {fmt : List UInt8} {args : List Nat} {nodes : List TplNode}
    (hmap : tplMapVa fmt args = some nodes) :
    (fmt.all fun c => tplFmtChars.elem c) = true ∧
      ((∃ n ∈ nodes, n.type = .str) → (fmt.any fun c => c == 's'.toUInt8) = true) := by
  obtain ⟨s, hrun, _, hchildren⟩ := map_eq_some.mp hmap
  suffices ∀ (cs : List UInt8) (s s' : TplMapState), Runs.run TplMapState.next s cs = some s' →
      (cs.all fun c => tplFmtChars.elem c) = true ∧ ∀ n ∈ s'.children, n ∈ s.children ∨
        (n.type = .str → (cs.any fun c => c == 's'.toUInt8) = true) by
    obtain ⟨hall, hadded⟩ := this fmt _ s hrun
    refine ⟨hall, ?_⟩
    rintro ⟨n, hn, hstr⟩
    obtain hold | hletter := hadded n (hchildren ▸ hn)
    · exact absurd hold List.not_mem_nil
    · exact hletter hstr
  intro cs
  induction cs with
  | nil =>
      intro s s' hrun
      rw [Runs.run, Option.some.injEq] at hrun
      subst hrun
      exact ⟨rfl, fun n hn => Or.inl hn⟩
  | cons c cs ih =>
      intro s s' hrun
      obtain ⟨next, hnext, hrest⟩ := Option.bind_eq_some_iff.mp hrun
      obtain ⟨case, mid, hcase, hstep, rfl⟩ := next_eq_some.mp hnext
      obtain ⟨helem, hletter⟩ := caseOfChar_eq_some hcase
      obtain ⟨hall, hadded⟩ := ih _ s' hrest
      refine ⟨?_, ?_⟩
      · rw [List.all_cons, helem, hall]
        rfl
      · intro n hn
        rw [List.any_cons]
        obtain hin | hlater := hadded n hn
        · obtain hsame | ⟨m, hm, hstr⟩ := MapCase.children hstep
          · exact Or.inl (hsame ▸ hin)
          · rw [show ({ mid with last := Char.ofUInt8 c } : TplMapState).children = _ from hm]
              at hin
            obtain hold | hnew := List.mem_append.mp hin
            · exact Or.inl hold
            · right
              intro htype
              rw [List.mem_singleton.mp hnew] at htype
              rw [hletter (hstr htype)]
              rfl
        · right
          intro htype
          rw [hlater htype, Bool.or_true]

/-! ### The same format at other places -/

/-- Nodes of the same type at related addresses. -/
def SameField (rel : Nat → Nat → Prop) (n m : TplNode) : Prop :=
  n.type = m.type ∧ rel n.addr m.addr

/-- Addresses that are calculated from related ones are related. -/
def Translates (rel : Nat → Nat → Prop) : Prop :=
  ∀ a b p q, rel a b → rel p q → ∀ f : Nat → Nat, rel (a + f (p - a)) (b + f (q - b))

/-- Two states of `tpl_map_va` that differ in the addresses only. -/
structure Alike (rel : Nat → Nat → Prop) (s t : TplMapState) : Prop where
  lparenLevel : s.lparenLevel = t.lparenLevel
  expectLparen : s.expectLparen = t.expectLparen
  inStructure : s.inStructure = t.inStructure
  ordinal : s.ordinal = t.ordinal
  inNestedStructure : s.inNestedStructure = t.inNestedStructure
  structAddr : s.inStructure ≠ 0 → rel s.structAddr t.structAddr
  args : List.Forall₂ rel s.args t.args
  children : List.Forall₂ (SameField rel) s.children t.children
  last : s.last = t.last

theorem getLast?_related {α β : Type} {R : α → β → Prop} {xs : List α} {ys : List β}
    (h : List.Forall₂ R xs ys) : Option.Rel R xs.getLast? ys.getLast? := by
  rw [← List.head?_reverse, ← List.head?_reverse]
  have hreverse := List.forall₂_reverse_iff.mpr h
  generalize xs.reverse = xs' at hreverse
  generalize ys.reverse = ys' at hreverse
  cases hreverse with
  | nil => exact Option.Rel.none
  | cons hxy _ => exact Option.Rel.some hxy

theorem calcFieldAddr_related (hrel : Translates rel) {ns ms : List TplNode}
    (hchildren : List.Forall₂ (SameField rel) ns ms) {a b : Nat} (hab : rel a b)
    (type : TplType) (ordinal : Nat) :
    rel (calcFieldAddr ns type a ordinal) (calcFieldAddr ms type b ordinal) := by
  unfold calcFieldAddr
  split
  · exact hab
  · have hlast := getLast?_related hchildren
    revert hlast
    cases ns.getLast? <;> cases ms.getLast? <;> intro hlast
    · exact hab
    · cases hlast
    · cases hlast
    · rename_i prev prev'
      cases hlast with
      | some hprev =>
          simp only [hprev.1]
          exact hrel a b prev.addr prev'.addr hab hprev.2 fun offset =>
            (offset + prev'.type.sz + type.alignSz - 1) / type.alignSz * type.alignSz

theorem forall₂_concat {α β : Type} {R : α → β → Prop} {xs : List α} {ys : List β} {x : α} {y : β}
    (h : List.Forall₂ R xs ys) (hxy : R x y) : List.Forall₂ R (xs ++ [x]) (ys ++ [y]) :=
  List.rel_append h (List.Forall₂.cons hxy List.Forall₂.nil)

theorem args_related {s t : TplMapState} (h : Alike rel s t) {addr : Nat} {rest : List Nat}
    (hargs : s.args = addr :: rest) :
    ∃ addr' rest', t.args = addr' :: rest' ∧ rel addr addr' ∧ List.Forall₂ rel rest rest' := by
  have hrelated := h.args
  rw [hargs, List.forall₂_cons_left_iff] at hrelated
  obtain ⟨addr', rest', haddr, hrest, htargs⟩ := hrelated
  exact ⟨addr', rest', htargs, haddr, hrest⟩

/-- A round that is possible in one of two states is possible in the other one, and keeps them
alike. -/
theorem Alike.apply (hrel : Translates rel) {s s' t : TplMapState} {case : MapCase}
    (h : Alike rel s t) (hs : case.apply s = some s') :
    ∃ t', case.apply t = some t' ∧ Alike rel s' t' := by
  cases case with
  | bin =>
      obtain ⟨hparen, hin, addr, rest, hargs, rfl⟩ := addBin_eq_some.mp hs
      obtain ⟨addr', rest', htargs, haddr, hrest⟩ := args_related h hargs
      refine ⟨_, addBin_eq_some.mpr ⟨h.expectLparen ▸ hparen, h.inStructure ▸ hin, addr', rest',
        htargs, rfl⟩, ?_⟩
      exact { h with args := hrest, children := forall₂_concat h.children ⟨rfl, haddr⟩ }
  | enterStructure =>
      obtain ⟨hin, addr, rest, hargs, rfl⟩ := enterStructure_eq_some.mp hs
      obtain ⟨addr', rest', htargs, haddr, hrest⟩ := args_related h hargs
      refine ⟨_, enterStructure_eq_some.mpr ⟨h.inStructure ▸ hin, addr', rest', htargs, rfl⟩, ?_⟩
      exact { h with
        args := hrest
        expectLparen := rfl
        ordinal := rfl
        inStructure := congrArg (1 + ·) h.lparenLevel
        structAddr := fun _ => haddr }
  | enterNested =>
      obtain ⟨hin, rfl⟩ := enterNested_eq_some.mp hs
      refine ⟨_, enterNested_eq_some.mpr ⟨h.inStructure ▸ hin, rfl⟩, ?_⟩
      exact { h with
        expectLparen := rfl
        inNestedStructure := congrArg (· + 1) h.inNestedStructure }
  | openParen =>
      obtain ⟨hparen, rfl⟩ := openParen_eq_some.mp hs
      refine ⟨_, openParen_eq_some.mpr ⟨h.expectLparen ▸ hparen, rfl⟩, ?_⟩
      exact { h with expectLparen := rfl, lparenLevel := congrArg (· + 1) h.lparenLevel }
  | closeParen =>
      obtain ⟨hlevel, hlast, ⟨hnested, rfl⟩ | ⟨hnested, hends, rfl⟩⟩ := closeParen_eq_some.mp hs
      · refine ⟨_, closeParen_eq_some.mpr ⟨h.lparenLevel ▸ hlevel, h.last ▸ hlast,
          Or.inl ⟨h.inNestedStructure ▸ hnested, rfl⟩⟩, ?_⟩
        exact { h with
          lparenLevel := congrArg (· - 1) h.lparenLevel
          inNestedStructure := congrArg (· - 1) h.inNestedStructure }
      · refine ⟨_, closeParen_eq_some.mpr ⟨h.lparenLevel ▸ hlevel, h.last ▸ hlast,
          Or.inr ⟨h.inNestedStructure ▸ hnested, ?_, rfl⟩⟩, ?_⟩
        · rwa [← h.inStructure, ← h.lparenLevel]
        · exact { h with
            lparenLevel := congrArg (· - 1) h.lparenLevel
            inStructure := rfl
            structAddr := fun hin => absurd rfl hin }
  | atom type =>
      obtain ⟨hparen, ⟨hin, rfl⟩ | ⟨hin, addr, rest, hargs, rfl⟩⟩ := addAtom_eq_some.mp hs
      · refine ⟨_, addAtom_eq_some.mpr ⟨h.expectLparen ▸ hparen,
          Or.inl ⟨h.inStructure ▸ hin, rfl⟩⟩, ?_⟩
        refine { h with
          ordinal := congrArg (· + 1) h.ordinal
          children := forall₂_concat h.children ⟨rfl, ?_⟩ }
        rw [← h.ordinal]
        exact calcFieldAddr_related hrel h.children (h.structAddr hin) type s.ordinal
      · obtain ⟨addr', rest', htargs, haddr, hrest⟩ := args_related h hargs
        refine ⟨_, addAtom_eq_some.mpr ⟨h.expectLparen ▸ hparen,
          Or.inr ⟨h.inStructure ▸ hin, addr', rest', htargs, rfl⟩⟩, ?_⟩
        exact { h with args := hrest, children := forall₂_concat h.children ⟨rfl, haddr⟩ }

theorem Alike.next (hrel : Translates rel) {s s' t : TplMapState} {c : UInt8}
    (h : Alike rel s t) (hs : s.next c = some s') :
    ∃ t', t.next c = some t' ∧ Alike rel s' t' := by
  obtain ⟨case, mid, hcase, happly, rfl⟩ := next_eq_some.mp hs
  obtain ⟨mid', happly', hmid⟩ := h.apply hrel happly
  exact ⟨_, next_eq_some.mpr ⟨case, mid', hcase, happly', rfl⟩, { hmid with last := rfl }⟩

/-- A format that is mapped to some arguments is mapped to related ones as well: the fields are
of the same types, at related places. -/
theorem map_related (hrel : Translates rel) {fmt : List UInt8} {args args' : List Nat}
    {nodes : List TplNode} (hargs : List.Forall₂ rel args args')
    (h : tplMapVa fmt args = some nodes) :
    ∃ nodes', tplMapVa fmt args' = some nodes' ∧
      List.Forall₂ (SameField rel) nodes nodes' := by
  obtain ⟨s, hs, hlevel, rfl⟩ := map_eq_some.mp h
  have hstart : Alike rel (TplMapState.start args) (TplMapState.start args') :=
    ⟨rfl, rfl, rfl, rfl, rfl, fun hin => absurd rfl hin, hargs, List.Forall₂.nil, rfl⟩
  have hstep : ∀ s s' t c, Alike rel s t → TplMapState.next s c = some s' →
      ∃ t', TplMapState.next t c = some t' ∧ Alike rel s' t' :=
    fun _ _ _ _ halike hnext => halike.next hrel hnext
  obtain ⟨t, ht, halike⟩ := Runs.run_simulated (Alike rel) hstep hstart hs
  exact ⟨t.children, map_eq_some.mpr ⟨t, ht, halike.lparenLevel ▸ hlevel, rfl⟩, halike.children⟩

/-- Any two places. -/
theorem translates_true : Translates fun _ _ => True :=
  fun _ _ _ _ _ _ _ => trivial

/-- The same distances from two addresses. -/
def SameOffset (base base' : Nat) (a b : Nat) : Prop :=
  ∃ offset, a = base + offset ∧ b = base' + offset

theorem translates_sameOffset (base base' : Nat) : Translates (SameOffset base base') := by
  rintro a b p q ⟨i, rfl, rfl⟩ ⟨j, rfl, rfl⟩ f
  refine ⟨i + f (j - i), ?_, ?_⟩
  · rw [Nat.add_sub_add_left, Nat.add_assoc]
  · rw [Nat.add_sub_add_left, Nat.add_assoc]

end IdAllocator

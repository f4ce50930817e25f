/-
The dictionary of `dict.c`, in which the schemas of a database are registered.

The pairs of a bucket are a chain, with the newest one in front.  A key is
looked for with `strncmp` over its own length, so that the keys of a bucket that
start with it are found as well.  The bucket of a key is a parameter: nothing
depends on the hash function.
-/
import Mathlib.Data.List.Infix
import Mathlib.Data.List.FinRange
import IdAllocator.Lib.FiniteMap
import IdAllocator.Lib.Runs

namespace IdAllocator

open FiniteMap

/-! ### Strings -/

/-- A string without its end. -/
structure CString where
  bytes : List UInt8
  zero_notMem : 0 ∉ bytes
deriving Repr, DecidableEq

/-- The sign of `strncmp`, of two strings without their ends. -/
def strncmp : List UInt8 → List UInt8 → Nat → Int
  | _, _, 0 => 0
  | [], [], _ + 1 => 0
  | [], _ :: _, _ + 1 => -1
  | _ :: _, [], _ + 1 => 1
  | a :: as, b :: bs, n + 1 => if a = b then strncmp as bs n else if a < b then -1 else 1

/-- Over the length of the second string, only that many characters are compared. -/
theorem strncmp_length_eq_zero (as bs : List UInt8) :
    strncmp as bs bs.length = 0 ↔ bs <+: as := by
  induction bs generalizing as with
  | nil =>
      rw [List.length_nil, strncmp]
      simp
  | cons b bs ih =>
      cases as with
      | nil =>
          rw [List.length_cons, strncmp]
          simp
      | cons a as =>
          rw [List.length_cons, strncmp, List.cons_prefix_cons]
          by_cases hab : a = b
          · rw [if_pos hab, ih]
            simp [hab]
          · rw [if_neg hab]
            split
            · simp [Ne.symm hab]
            · simp [Ne.symm hab]

/-! ### The dictionary -/

/-- `dict_data_pair_t`. -/
structure DictDataPair (V : Type) where
  key : CString
  val : V
deriving Repr, DecidableEq

/-- `dict_t` with `max_count` buckets. -/
structure Dict (n : Nat) (V : Type) where
  count : UInt32
  memberCount : Fin n → UInt32
  members : Fin n → List (DictDataPair V)

/-- What is handed to the callback that frees a value: the value, or the address of the field
of a pair that holds it. -/
inductive FreeArg (V : Type) where
  | value (val : V)
  | addressOf (pair : DictDataPair V)
deriving Repr, DecidableEq

section Operations

variable {n : Nat} {V : Type} (bucket : CString → Fin n)

/-- `dict_create`. -/
def dictCreate (n : Nat) (V : Type) : Dict n V where
  count := 0
  memberCount _ := 0
  members _ := []

/-- The loop of `dict_find` over a chain, with the pairs before and behind the one it finds.
The last of those before is what `prev` is set to. -/
def dictFindLoop (key : CString) :
    List (DictDataPair V) → Option (List (DictDataPair V) × DictDataPair V ×
      List (DictDataPair V))
  | [] => none
  | cur :: rest =>
      if strncmp cur.key.bytes key.bytes key.bytes.length = 0 then some ([], cur, rest)
      else (dictFindLoop key rest).map fun found => (cur :: found.1, found.2)

/-- `dict_find`. -/
def dictFind (d : Dict n V) (key : CString) :
    Option (List (DictDataPair V) × DictDataPair V × List (DictDataPair V)) :=
  if 0 < d.memberCount (bucket key) then dictFindLoop key (d.members (bucket key)) else none

/-- `dict_put`; the flag is false for the return value NULL. -/
def dictPut (d : Dict n V) (key : CString) (val : V) : Dict n V × Bool :=
  match dictFind bucket d key with
  | some _ => (d, false)
  | none =>
      ({ count := d.count + 1
         memberCount := Function.update d.memberCount (bucket key)
           (d.memberCount (bucket key) + 1)
         members := Function.update d.members (bucket key)
           (⟨key, val⟩ :: d.members (bucket key)) }, true)

/-- `dict_get`. -/
def dictGet (d : Dict n V) (key : CString) : Option V :=
  (dictFind bucket d key).map fun found => found.2.1.val

/-- `dict_del`, with what it hands to the callback; nothing for the return value -1. -/
def dictDel (d : Dict n V) (key : CString) : Dict n V × Option (FreeArg V) :=
  match dictFind bucket d key with
  | some (before, dp, behind) =>
      ({ count := d.count - 1
         memberCount := Function.update d.memberCount (bucket key)
           (d.memberCount (bucket key) - 1)
         members := Function.update d.members (bucket key) (before ++ behind) },
        some (.value dp.val))
  | none => (d, none)

/-- What `dict_deinit` hands to the callback.  A bucket is skipped when its count is 0. -/
def dictDeinit (d : Dict n V) : List (FreeArg V) :=
  (List.finRange n).flatMap fun i =>
    if 0 < d.memberCount i then (d.members i).map FreeArg.addressOf else []

/-- The pairs of a dictionary. -/
def Dict.pairs (d : Dict n V) : List (DictDataPair V) :=
  (List.finRange n).flatMap d.members

/-- The operations of a map, on a dictionary. -/
def dictRun (d : Dict n V) : Op CString V → Dict n V × Result V
  | .put key val => ((dictPut bucket d key val).1, .put (dictPut bucket d key val).2)
  | .get key => (d, .get (dictGet bucket d key))
  | .del key => ((dictDel bucket d key).1, .del (dictDel bucket d key).2.isSome)

/-- A dictionary and the map that it stands for.  A key is put in front of a chain in which no
key starts with it. -/
structure Dict.Refines (d : Dict n V) (m : CString → Option V) : Prop where
  memberCount : ∀ i, d.memberCount i = UInt32.ofNat (d.members i).length
  chains : ∀ i, (d.members i).Pairwise fun pair later => ¬ pair.key.bytes <+: later.key.bytes
  stored : ∀ key val, m key = some val ↔ ⟨key, val⟩ ∈ d.members (bucket key)

/-- No other key of its bucket starts with the key, and the bucket has not so many pairs that
their count overflows. -/
def Dict.Clear (d : Dict n V) (key : CString) : Prop :=
  (∀ pair ∈ d.members (bucket key), key.bytes <+: pair.key.bytes → pair.key = key) ∧
    (d.members (bucket key)).length < UInt32.size

instance decidableClear (d : Dict n V) (key : CString) : Decidable (d.Clear bucket key) :=
  inferInstanceAs (Decidable (_ ∧ _))

end Operations

section Finding

variable {n : Nat} {V : Type} {bucket : CString → Fin n} {d : Dict n V} {m : CString → Option V}
  {key : CString} {before behind : List (DictDataPair V)} {dp : DictDataPair V}

theorem dictFindLoop_some {chain : List (DictDataPair V)}
    (h : dictFindLoop key chain = some (before, dp, behind)) :
    chain = before ++ dp :: behind ∧ key.bytes <+: dp.key.bytes ∧
      ∀ pair ∈ before, ¬ key.bytes <+: pair.key.bytes := by
  induction chain generalizing before with
  | nil => cases h
  | cons cur rest ih =>
      unfold dictFindLoop at h
      split at h
      · rename_i hmatch
        cases h
        exact ⟨rfl, (strncmp_length_eq_zero _ _).mp hmatch, by simp⟩
      · rename_i hother
        obtain ⟨⟨front, found⟩, hfound, heq⟩ := Option.map_eq_some_iff.mp h
        cases heq
        obtain ⟨hchain, hprefix, hfront⟩ := ih hfound
        refine ⟨by rw [hchain, List.cons_append], hprefix, ?_⟩
        intro pair hpair
        rcases List.mem_cons.mp hpair with rfl | hpair
        · exact mt (strncmp_length_eq_zero _ _).mpr hother
        · exact hfront pair hpair

theorem dictFindLoop_none {chain : List (DictDataPair V)} (h : dictFindLoop key chain = none) :
    ∀ pair ∈ chain, ¬ key.bytes <+: pair.key.bytes := by
  induction chain with
  | nil => simp
  | cons cur rest ih =>
      unfold dictFindLoop at h
      split at h
      · cases h
      · rename_i hother
        intro pair hpair
        rcases List.mem_cons.mp hpair with rfl | hpair
        · exact mt (strncmp_length_eq_zero _ _).mpr hother
        · exact ih (Option.map_eq_none_iff.mp h) pair hpair

/-- Where the count of a bucket is 0 only for an empty chain, the chain is looked through. -/
theorem dictFind_eq_loop
    (hcount : d.memberCount (bucket key) = 0 → d.members (bucket key) = []) :
    dictFind bucket d key = dictFindLoop key (d.members (bucket key)) := by
  unfold dictFind
  split
  · rfl
  · rename_i hzero
    have hnone : d.memberCount (bucket key) = 0 := by
      rw [UInt32.lt_iff_toNat_lt, UInt32.toNat_zero, Nat.pos_iff_ne_zero, not_not] at hzero
      exact UInt32.toNat_inj.mp hzero
    rw [hcount hnone]
    rfl

theorem Dict.Refines.dictFind_eq (h : d.Refines bucket m)
    (hlength : (d.members (bucket key)).length < UInt32.size) :
    dictFind bucket d key = dictFindLoop key (d.members (bucket key)) := by
  apply dictFind_eq_loop
  intro hzero
  have hnumber := congrArg UInt32.toNat hzero
  rw [h.memberCount, UInt32.toNat_ofNat', Nat.mod_eq_of_lt hlength] at hnumber
  exact List.length_eq_zero_iff.mp hnumber

/-- A clear key is found exactly where it is stored. -/
theorem Dict.Refines.find_some (h : d.Refines bucket m) (hclear : d.Clear bucket key)
    (hfind : dictFind bucket d key = some (before, dp, behind)) :
    d.members (bucket key) = before ++ dp :: behind ∧ dp.key = key ∧ m key = some dp.val := by
  rw [h.dictFind_eq hclear.2] at hfind
  obtain ⟨hchain, hprefix, _⟩ := dictFindLoop_some hfind
  have hmem : dp ∈ d.members (bucket key) := by
    rw [hchain]
    exact List.mem_append_right _ List.mem_cons_self
  have hkey := hclear.1 dp hmem hprefix
  refine ⟨hchain, hkey, (h.stored key dp.val).mpr ?_⟩
  rw [← hkey] at hmem ⊢
  exact hmem

theorem Dict.Refines.find_none (h : d.Refines bucket m) (hclear : d.Clear bucket key)
    (hfind : dictFind bucket d key = none) :
    (∀ pair ∈ d.members (bucket key), ¬ key.bytes <+: pair.key.bytes) ∧ m key = none := by
  rw [h.dictFind_eq hclear.2] at hfind
  have hnone := dictFindLoop_none hfind
  refine ⟨hnone, ?_⟩
  cases hm : m key with
  | none => rfl
  | some val => exact absurd (List.prefix_refl _) (hnone _ ((h.stored key val).mp hm))

/-- A key that is not clear is found under another key. -/
theorem Dict.Refines.finds_other (h : d.Refines bucket m)
    (hlength : (d.members (bucket key)).length < UInt32.size) (hunclear : ¬ d.Clear bucket key) :
    ∃ before dp behind, dictFind bucket d key = some (before, dp, behind) ∧ dp.key ≠ key := by
  obtain ⟨pair, hpair, hprefix, hother⟩ : ∃ pair ∈ d.members (bucket key),
      key.bytes <+: pair.key.bytes ∧ pair.key ≠ key := by
    by_contra hnone
    refine hunclear ⟨?_, hlength⟩
    intro pair hpair hprefix
    by_contra hother
    exact hnone ⟨pair, hpair, hprefix, hother⟩
  have hfind := h.dictFind_eq hlength
  cases hloop : dictFindLoop key (d.members (bucket key)) with
  | none => exact absurd hprefix (dictFindLoop_none hloop pair hpair)
  | some found =>
      obtain ⟨before, dp, behind⟩ := found
      refine ⟨before, dp, behind, hfind.trans hloop, ?_⟩
      -- were it the pair of the key, the other one would stand behind it in the chain
      intro hkey
      obtain ⟨hchain, _, hbefore⟩ := dictFindLoop_some hloop
      rw [hchain] at hpair
      have horder := h.chains (bucket key)
      rw [hchain, List.pairwise_append, List.pairwise_cons] at horder
      rcases List.mem_append.mp hpair with hfront | hrest
      · exact hbefore pair hfront hprefix
      rcases List.mem_cons.mp hrest with rfl | hback
      · exact hother hkey
      · refine horder.2.1.1 pair hback ?_
        rw [hkey]
        exact hprefix

end Finding

/-! ### Refinement -/

section Refinement

variable {n : Nat} {V : Type} {bucket : CString → Fin n} {d : Dict n V} {m : CString → Option V}
  {key : CString}

theorem dictCreate_refines : (dictCreate n V).Refines bucket fun _ => none := by
  refine ⟨fun _ => rfl, fun _ => List.Pairwise.nil, ?_⟩
  intro key val
  simp [dictCreate]

/-- One key is given another value, or none, by a new chain for its bucket that has the other
keys as they were. -/
theorem Dict.Refines.replace (h : d.Refines bucket m) {count number : UInt32}
    {chain : List (DictDataPair V)} {value : Option V}
    (hnumber : number = UInt32.ofNat chain.length)
    (hchain : chain.Pairwise fun pair later => ¬ pair.key.bytes <+: later.key.bytes)
    (hkey : ∀ val, value = some val ↔ ⟨key, val⟩ ∈ chain)
    (hothers : ∀ pair, pair.key ≠ key → (pair ∈ chain ↔ pair ∈ d.members (bucket key))) :
    Dict.Refines bucket
      { count := count
        memberCount := Function.update d.memberCount (bucket key) number
        members := Function.update d.members (bucket key) chain }
      (Function.update m key value) := by
  refine ⟨?_, ?_, ?_⟩
  · intro i
    by_cases hi : i = bucket key
    · subst hi
      simp only [Function.update_self, hnumber]
    · simp only [Function.update_of_ne hi, h.memberCount i]
  · intro i
    by_cases hi : i = bucket key
    · subst hi
      simp only [Function.update_self, hchain]
    · simp only [Function.update_of_ne hi, h.chains i]
  · intro other val
    by_cases hother : other = key
    · subst hother
      simp only [Function.update_self]
      exact hkey val
    · rw [Function.update_of_ne hother, h.stored]
      by_cases hi : bucket other = bucket key
      · simp only [hi, Function.update_self]
        exact (hothers ⟨other, val⟩ hother).symm
      · simp only [Function.update_of_ne hi]

theorem Dict.Refines.put (h : d.Refines bucket m) (hclear : d.Clear bucket key) (val : V) :
    (dictPut bucket d key val).2 = !(m key).isSome ∧
      (dictPut bucket d key val).1.Refines bucket
        (if (m key).isSome then m else Function.update m key (some val)) := by
  unfold dictPut
  cases hfind : dictFind bucket d key with
  | some found =>
      obtain ⟨before, dp, behind⟩ := found
      obtain ⟨_, _, hm⟩ := h.find_some hclear hfind
      simp [hm, h]
  | none =>
      obtain ⟨hnone, hm⟩ := h.find_none hclear hfind
      simp only [hm, Option.isSome_none, Bool.not_false, Bool.false_eq_true, if_false, true_and]
      apply h.replace
      · rw [h.memberCount, List.length_cons, UInt32.ofNat_add]
        rfl
      · exact List.pairwise_cons.mpr ⟨hnone, h.chains (bucket key)⟩
      · intro value
        have habsent : (⟨key, value⟩ : DictDataPair V) ∉ d.members (bucket key) :=
          fun hmem => hnone _ hmem (List.prefix_refl _)
        simp [habsent, eq_comm]
      · intro pair hpair
        rw [List.mem_cons, or_iff_right]
        rintro rfl
        exact hpair rfl

theorem Dict.Refines.get (h : d.Refines bucket m) (hclear : d.Clear bucket key) :
    dictGet bucket d key = m key := by
  unfold dictGet
  cases hfind : dictFind bucket d key with
  | some found =>
      obtain ⟨before, dp, behind⟩ := found
      rw [(h.find_some hclear hfind).2.2]
      rfl
  | none =>
      rw [(h.find_none hclear hfind).2]
      rfl

theorem Dict.Refines.del (h : d.Refines bucket m) (hclear : d.Clear bucket key) :
    (dictDel bucket d key).2.isSome = (m key).isSome ∧
      (dictDel bucket d key).1.Refines bucket (Function.update m key none) := by
  unfold dictDel
  cases hfind : dictFind bucket d key with
  | some found =>
      obtain ⟨before, dp, behind⟩ := found
      obtain ⟨hchain, hkey, hm⟩ := h.find_some hclear hfind
      have horder := h.chains (bucket key)
      rw [hchain] at horder
      have hfree : ∀ pair ∈ before ++ behind, pair.key ≠ key := by
        rw [List.pairwise_append, List.pairwise_cons] at horder
        intro pair hpair hsame
        rcases List.mem_append.mp hpair with hfront | hback
        · refine horder.2.2 pair hfront dp List.mem_cons_self ?_
          rw [hsame, hkey]
        · refine horder.2.1.1 pair hback ?_
          rw [hsame, hkey]
      refine ⟨by rw [hm]; rfl, ?_⟩
      apply h.replace
      · rw [h.memberCount, hchain, List.length_append, List.length_append, List.length_cons,
          ← Nat.add_assoc, UInt32.ofNat_add]
        exact UInt32.add_sub_cancel _ _
      · exact horder.sublist (List.Sublist.append_left (List.sublist_cons_self dp behind) before)
      · intro value
        constructor
        · intro hnone
          cases hnone
        · intro hmem
          exact absurd rfl (hfree _ hmem)
      · intro pair hpair
        have hne : pair ≠ dp := by
          rintro rfl
          exact hpair hkey
        rw [hchain]
        simp [hne]
  | none =>
      obtain ⟨_, hm⟩ := h.find_none hclear hfind
      refine ⟨by rw [hm]; rfl, ?_⟩
      rw [← hm, Function.update_eq_self]
      exact h

/-- One operation on a clear key. -/
theorem Dict.Refines.run (h : d.Refines bucket m) {op : Op CString V}
    (hclear : d.Clear bucket op.key) :
    (dictRun bucket d op).2 = (op.run m).2 ∧
      (dictRun bucket d op).1.Refines bucket (op.run m).1 := by
  cases op with
  | put key val =>
      have hkey : d.Clear bucket key := hclear
      obtain ⟨hresult, hrefines⟩ := h.put hkey val
      rw [dictRun, Op.run, hresult]
      cases hm : (m key).isSome with
      | true =>
          rw [hm] at hrefines
          exact ⟨rfl, hrefines⟩
      | false =>
          rw [hm] at hrefines
          exact ⟨rfl, hrefines⟩
  | get key =>
      have hkey : d.Clear bucket key := hclear
      rw [dictRun, Op.run, h.get hkey]
      exact ⟨rfl, h⟩
  | del key =>
      have hkey : d.Clear bucket key := hclear
      obtain ⟨hresult, hrefines⟩ := h.del hkey
      rw [dictRun, Op.run, hresult]
      exact ⟨rfl, hrefines⟩

theorem run_refines {ops : List (Op CString V)}
    (hclear : Runs.Meets (Runs.total (dictRun bucket)) (fun d op => d.Clear bucket op.key)
      (dictCreate n V) ops) :
    Runs.results (dictRun bucket) (dictCreate n V) ops = Runs.results Op.run (fun _ => none) ops ∧
      (Runs.final (dictRun bucket) (dictCreate n V) ops).Refines bucket
        (Runs.final Op.run (fun _ => none) ops) := by
  apply Runs.results_eq (Dict.Refines bucket) ?_ dictCreate_refines hclear
  intro d m op h hkey
  exact h.run hkey

/-- In every run in which the keys are clear where they are used, the dictionary answers as the
map does, and holds what the map holds. -/
theorem dict_is_map {ops : List (Op CString V)}
    (hclear : Runs.Meets (Runs.total (dictRun bucket)) (fun d op => d.Clear bucket op.key)
      (dictCreate n V) ops) :
    Runs.results (dictRun bucket) (dictCreate n V) ops = Runs.results Op.run (fun _ => none) ops ∧
      ∀ key val, Runs.final Op.run (fun _ => none) ops key = some val ↔
        ⟨key, val⟩ ∈ (Runs.final (dictRun bucket) (dictCreate n V) ops).members (bucket key) := by
  obtain ⟨hresults, hrefines⟩ := run_refines hclear
  exact ⟨hresults, hrefines.stored⟩

/-- Behind such a run, a key that is not clear is taken for another one. -/
theorem unclear_key_finds_other {ops : List (Op CString V)}
    (hclear : Runs.Meets (Runs.total (dictRun bucket)) (fun d op => d.Clear bucket op.key)
      (dictCreate n V) ops)
    (hlength : ((Runs.final (dictRun bucket) (dictCreate n V) ops).members
      (bucket key)).length < UInt32.size)
    (hunclear : ¬ (Runs.final (dictRun bucket) (dictCreate n V) ops).Clear bucket key) :
    ∃ before dp behind, dictFind bucket (Runs.final (dictRun bucket) (dictCreate n V) ops) key =
      some (before, dp, behind) ∧ dp.key ≠ key :=
  (run_refines hclear).2.finds_other hlength hunclear

end Refinement

/-- Two keys in one bucket, neither of which starts with the other. -/
def twoKeys : List (Op CString Nat) :=
  [.put ⟨[97, 98], by decide⟩ 1, .put ⟨[98], by decide⟩ 2, .put ⟨[98], by decide⟩ 3,
    .del ⟨[98], by decide⟩, .get ⟨[97, 98], by decide⟩]

theorem dict_is_map_twoKeys :
    Runs.results (dictRun fun _ => (0 : Fin 1)) (dictCreate 1 Nat) twoKeys =
      [.put true, .put true, .put false, .del true, .get (some 1)] := by
  have hmap : Runs.results Op.run (fun _ => none) twoKeys =
      [.put true, .put true, .put false, .del true, .get (some 1)] := by
    decide +kernel
  rw [← hmap]
  exact (dict_is_map (by decide +kernel)).1

/-- The key `a` is taken for `ab`. -/
theorem longer_key_found :
    ¬ ∀ (n : Nat) (bucket : CString → Fin n) (ops : List (Op CString Nat)),
      Runs.results (dictRun bucket) (dictCreate n Nat) ops =
        Runs.results Op.run (fun _ => none) ops := by
  intro hclaim
  have hresults := hclaim 1 (fun _ => 0) [.put ⟨[97, 98], by decide⟩ 1, .get ⟨[97], by decide⟩]
  exact absurd hresults (by decide +kernel)

/-! ### Freeing -/

section Freeing

variable {n : Nat} {V : Type}

/-- What `dict_del` hands to the callback for each of the pairs. -/
def Dict.delArgs (d : Dict n V) : List (FreeArg V) :=
  d.pairs.map fun pair => .value pair.val

/-- A call of `dict_del` hands over the value of a pair. -/
theorem dictDel_arg {bucket : CString → Fin n} {d : Dict n V} {key : CString} {arg : FreeArg V}
    (h : (dictDel bucket d key).2 = some arg) : arg ∈ d.delArgs := by
  unfold dictDel at h
  cases hfind : dictFind bucket d key with
  | none =>
      rw [hfind] at h
      cases h
  | some found =>
      obtain ⟨before, dp, behind⟩ := found
      rw [hfind] at h
      cases h
      unfold dictFind at hfind
      split at hfind
      · have hmem : dp ∈ d.members (bucket key) := by
          rw [(dictFindLoop_some hfind).1]
          exact List.mem_append_right _ List.mem_cons_self
        exact List.mem_map_of_mem (List.mem_flatMap.mpr ⟨_, List.mem_finRange _, hmem⟩)
      · cases hfind

theorem mem_dictDeinit {d : Dict n V} {arg : FreeArg V} (h : arg ∈ dictDeinit d) :
    ∃ pair, arg = .addressOf pair := by
  obtain ⟨i, _, hi⟩ := List.mem_flatMap.mp h
  split at hi
  · obtain ⟨pair, _, rfl⟩ := List.mem_map.mp hi
    exact ⟨pair, rfl⟩
  · cases hi

/-- `dict_deinit` hands over the values themselves only where there are none. -/
theorem deinit_frees_values_iff (d : Dict n V) :
    (dictDeinit d).Perm d.delArgs ↔ d.pairs = [] := by
  constructor
  · intro hperm
    cases hpairs : d.pairs with
    | nil => rfl
    | cons pair rest =>
        have hvalue : FreeArg.value pair.val ∈ dictDeinit d := by
          rw [hperm.mem_iff, Dict.delArgs, hpairs]
          exact List.mem_cons_self
        obtain ⟨other, heq⟩ := mem_dictDeinit hvalue
        cases heq
  · intro hnone
    have hempty : ∀ i, d.members i = [] := by
      intro i
      have hmem := List.flatMap_eq_nil_iff.mp hnone
      exact hmem i (List.mem_finRange i)
    have hdeinit : dictDeinit d = [] := by
      rw [dictDeinit, List.flatMap_eq_nil_iff]
      intro i _
      rw [hempty i]
      exact ite_self _
    rw [hdeinit, Dict.delArgs, hnone]
    exact List.Perm.nil

end Freeing

/-- A dictionary with one value. -/
theorem deinit_frees_address :
    ¬ ∀ ops : List (Op CString Nat),
      (dictDeinit (Runs.final (dictRun fun _ => (0 : Fin 1)) (dictCreate 1 Nat) ops)).Perm
        (Runs.final (dictRun fun _ => (0 : Fin 1)) (dictCreate 1 Nat) ops).delArgs := by
  intro hclaim
  have hperm := hclaim [.put ⟨[97], by decide⟩ 1]
  exact absurd hperm (by decide +kernel)

end IdAllocator

/-
The choice of a bucket, `dict_jump_consistent` of `dict.c`.

The loop jumps from one candidate to the next by a factor that is never below 1.
The candidates of a key do not depend on the number of buckets: it only says
which of them is the last one.  The quotient is read as an exact rational.
-/
import Mathlib.Data.Rat.Floor
import IdAllocator.Dict
import IdAllocator.Lib.Loops

namespace IdAllocator

/-! ### The loop -/

def INT64_MIN : Int := -9223372036854775808

def INT64_MAX : Int := 9223372036854775807

/-- `(int64_t)` of a quotient: the fraction is cut off, and there must be room for the rest. -/
def toInt64 (q : ℚ) : Option Int :=
  let i := if 0 ≤ q then ⌊q⌋ else ⌈q⌉
  if INT64_MIN ≤ i ∧ i ≤ INT64_MAX then some i else none

/-- The variables of the loop. -/
structure JumpState where
  key : UInt64
  b : Int
  j : Int
deriving Repr, DecidableEq

/-- Their values in front of it. -/
def jumpStart (key : UInt64) : JumpState where
  key := key
  b := -1
  j := 0

/-- The condition of the loop. -/
def jumpsMore (numBuckets : UInt32) (s : JumpState) : Prop :=
  s.j < numBuckets.toNat

instance decidableJumpsMore (numBuckets : UInt32) : DecidablePred (jumpsMore numBuckets) :=
  fun s => inferInstanceAs (Decidable (s.j < numBuckets.toNat))

/-- Its body. -/
def jumpRound (s : JumpState) : Option JumpState :=
  let b := s.j
  let key := s.key * 2862933555777941757 + 1
  let quotient : ℚ := ((1 <<< 31 : Nat) : ℚ) / (((key >>> 33) + 1).toNat : ℚ)
  (toInt64 (((b + 1 : Int) : ℚ) * quotient)).map fun j => { key := key, b := b, j := j }

/-- What is returned behind it. -/
def jumpValue (s : JumpState) : UInt64 :=
  (UInt32.ofInt (if s.b < 0 then ~~~s.b + 1 else s.b)).toUInt64

/-- `dict_jump_consistent`.  There are no more rounds than buckets. -/
def dictJumpConsistent (key : UInt64) (numBuckets : UInt32) : Option UInt64 :=
  (Loops.run (jumpsMore numBuckets) jumpRound numBuckets.toNat (jumpStart key)).map jumpValue

/-! ### A round -/

theorem toInt64_eq {q : ℚ} {lo hi : Int} (hnonneg : 0 ≤ lo) (hlo : (lo : ℚ) ≤ q)
    (hhi : q ≤ (hi : ℚ)) (hroom : hi ≤ INT64_MAX) : ∃ i, toInt64 q = some i ∧ lo ≤ i := by
  have hq : 0 ≤ q := le_trans (by exact_mod_cast hnonneg) hlo
  have hfloor : lo ≤ ⌊q⌋ := Int.le_floor.mpr hlo
  have hbelow : ⌊q⌋ ≤ hi := by
    have hle := le_trans (Int.floor_le q) hhi
    exact_mod_cast hle
  refine ⟨⌊q⌋, ?_, hfloor⟩
  unfold toInt64
  rw [if_pos hq, if_pos]
  unfold INT64_MIN
  omega

/-- The divisor is between 1 and the dividend. -/
theorem jump_divisor (key : UInt64) :
    1 ≤ ((key >>> 33) + 1).toNat ∧ ((key >>> 33) + 1).toNat ≤ 1 <<< 31 := by
  have hshift : (key >>> 33).toNat = key.toNat / 8589934592 := by
    simp [UInt64.toNat_shiftRight, Nat.shiftRight_eq_div_pow]
  have hkey := key.toNat_lt
  have hsum : ((key >>> 33) + 1).toNat = key.toNat / 8589934592 + 1 := by
    rw [UInt64.toNat_add, hshift, UInt64.toNat_one, Nat.mod_eq_of_lt (by omega)]
  rw [hsum, Nat.shiftLeft_eq]
  omega

/-- A round goes on to the next candidate, which is a greater one. -/
theorem jumpRound_eq {numBuckets : UInt32} {s : JumpState} (hnonneg : 0 ≤ s.j)
    (hmore : jumpsMore numBuckets s) :
    ∃ s', jumpRound s = some s' ∧ s'.b = s.j ∧ s.j < s'.j := by
  have hcount := numBuckets.toNat_lt
  unfold jumpsMore at hmore
  obtain ⟨hone, hle⟩ := jump_divisor (s.key * 2862933555777941757 + 1)
  generalize hdivisor : ((s.key * 2862933555777941757 + 1) >>> 33 + 1).toNat = d at hone hle
  have hpos : (0 : ℚ) < (d : ℚ) := by exact_mod_cast hone
  have hfactor : (1 : ℚ) ≤ ((1 <<< 31 : Nat) : ℚ) / d := by
    rw [one_le_div hpos]
    exact_mod_cast hle
  have hcap : ((1 <<< 31 : Nat) : ℚ) / d ≤ ((1 <<< 31 : Nat) : ℚ) := by
    apply div_le_self
    · positivity
    · exact_mod_cast hone
  have hnext : (0 : ℚ) ≤ ((s.j + 1 : Int) : ℚ) := by
    exact_mod_cast (by omega : (0 : Int) ≤ s.j + 1)
  obtain ⟨j, hj, hlt⟩ := @toInt64_eq (((s.j + 1 : Int) : ℚ) * (((1 <<< 31 : Nat) : ℚ) / d))
    (s.j + 1) ((s.j + 1) * ((1 <<< 31 : Nat) : Int)) (by omega)
    (le_mul_of_one_le_right hnext hfactor)
    (by
      push_cast at hcap hnext ⊢
      exact mul_le_mul_of_nonneg_left hcap hnext)
    (by
      rw [Nat.shiftLeft_eq]
      unfold INT64_MAX
      omega)
  have hgrows : s.j < j := by omega
  refine ⟨{ key := s.key * 2862933555777941757 + 1, b := s.j, j := j }, ?_, rfl, hgrows⟩
  unfold jumpRound
  simp only [hdivisor, hj, Option.map_some]

/-! ### The loop ends -/

/-- The candidates grow, and the one that is kept is below the number of buckets. -/
structure JumpState.Below (numBuckets : UInt32) (s : JumpState) : Prop where
  nonneg : 0 ≤ s.j
  grows : s.b < s.j
  fits : s.b < numBuckets.toNat
  started : s.b = -1 ∧ s.j = 0 ∨ 0 ≤ s.b

theorem below_jumpStart (key : UInt64) (numBuckets : UInt32) :
    (jumpStart key).Below numBuckets :=
  ⟨le_refl (0 : Int), neg_one_lt_zero, lt_of_lt_of_le neg_one_lt_zero (Int.natCast_nonneg _),
    Or.inl ⟨rfl, rfl⟩⟩

theorem JumpState.Below.round {numBuckets : UInt32} {s : JumpState} (h : s.Below numBuckets)
    (hmore : jumpsMore numBuckets s) :
    ∃ s', jumpRound s = some s' ∧ s'.Below numBuckets ∧ s'.b = s.j ∧ s.j < s'.j := by
  obtain ⟨s', hround, hb, hlt⟩ := jumpRound_eq h.nonneg hmore
  have hnonneg := h.nonneg
  unfold jumpsMore at hmore
  refine ⟨s', hround, ⟨?_, ?_, ?_, ?_⟩, hb, hlt⟩
  · omega
  · omega
  · omega
  · omega

theorem exists_jump_rounds (key : UInt64) (numBuckets : UInt32) :
    ∃ r ≤ numBuckets.toNat, ∃ s,
      Loops.Rounds (jumpsMore numBuckets) jumpRound r (jumpStart key) s ∧ s.Below numBuckets := by
  apply Loops.exists_rounds (JumpState.Below numBuckets)
    (fun s => (numBuckets.toNat - s.j).toNat) ?_ (below_jumpStart key numBuckets)
  intro s hs hmore
  obtain ⟨s', hround, hs', _, hlt⟩ := hs.round hmore
  unfold jumpsMore at hmore
  exact ⟨s', hround, hs', by omega⟩

theorem dictJumpConsistent_eq {key : UInt64} {numBuckets : UInt32} {r : Nat} {s : JumpState}
    (h : Loops.Rounds (jumpsMore numBuckets) jumpRound r (jumpStart key) s) :
    dictJumpConsistent key numBuckets = some (jumpValue s) := by
  obtain ⟨n, hn, s', hrounds, _⟩ := exists_jump_rounds key numBuckets
  obtain ⟨rfl, rfl⟩ := h.unique hrounds
  rw [dictJumpConsistent, Loops.run_eq_some_iff.mpr ⟨_, hn, h⟩]
  rfl

/-- Behind the loop, `b` is a bucket. -/
theorem JumpState.Below.jumpValue_toNat {numBuckets : UInt32} {s : JumpState}
    (h : s.Below numBuckets) (hpos : 0 < numBuckets) (hends : ¬ jumpsMore numBuckets s) :
    0 ≤ s.b ∧ ((jumpValue s).toNat : Int) = s.b := by
  have hcount := numBuckets.toNat_lt
  have hfits := h.fits
  have hbucket : 0 < numBuckets.toNat := UInt32.lt_iff_toNat_lt.mp hpos
  unfold jumpsMore at hends
  have hb : 0 ≤ s.b := by
    rcases h.started with ⟨_, hzero⟩ | hb
    · omega
    · exact hb
  refine ⟨hb, ?_⟩
  rw [jumpValue, if_neg (by omega), UInt32.toNat_toUInt64, UInt32.ofInt, UInt32.toNat_ofNat']
  omega

theorem JumpState.Below.jumpValue_lt {numBuckets : UInt32} {s : JumpState}
    (h : s.Below numBuckets) (hpos : 0 < numBuckets) (hends : ¬ jumpsMore numBuckets s) :
    jumpValue s < numBuckets.toUInt64 := by
  obtain ⟨_, hvalue⟩ := h.jumpValue_toNat hpos hends
  have hfits := h.fits
  rw [UInt64.lt_iff_toNat_lt, UInt32.toNat_toUInt64]
  omega

theorem dictJumpConsistent_lt (key : UInt64) {n : UInt32} (hn : 0 < n) :
    ∃ i, dictJumpConsistent key n = some i ∧ i < n.toUInt64 := by
  obtain ⟨r, _, s, hrounds, hs⟩ := exists_jump_rounds key n
  exact ⟨jumpValue s, dictJumpConsistent_eq hrounds, hs.jumpValue_lt hn hrounds.not_cond⟩

/-- With one bucket more, the loop is in the same state when it passes the old number. -/
theorem dictJumpConsistent_succ (key : UInt64) {n m : UInt32} (hm : m.toNat = n.toNat + 1) :
    dictJumpConsistent key m = dictJumpConsistent key n ∨
      dictJumpConsistent key m = some n.toUInt64 := by
  obtain ⟨_, _, s, hrounds, hs⟩ := exists_jump_rounds key n
  obtain ⟨_, _, last, hlonger, hlast⟩ := exists_jump_rounds key m
  have hgoes : ∀ s, jumpsMore n s → jumpsMore m s := by
    intro s hmore
    unfold jumpsMore at hmore ⊢
    omega
  obtain ⟨_, mid, k, hshort, hrest⟩ := hlonger.through hgoes
  obtain ⟨rfl, rfl⟩ := hrounds.unique hshort
  have hstop := hrounds.not_cond
  cases hrest with
  | done _ =>
      left
      rw [dictJumpConsistent_eq hlonger, dictJumpConsistent_eq hrounds]
  | round hmore hround hrest =>
      -- the candidate behind the last one is the new bucket, and the one behind that is greater
      right
      unfold jumpsMore at hstop hmore
      obtain ⟨next, hnext, hb, hlt⟩ := jumpRound_eq hs.nonneg hmore
      obtain rfl := Option.some.inj (hnext.symm.trans hround)
      cases hrest with
      | round hmore' _ _ =>
          unfold jumpsMore at hmore'
          omega
      | done hends =>
          have hpos : 0 < m := by
            rw [UInt32.lt_iff_toNat_lt]
            exact hm ▸ Nat.succ_pos _
          obtain ⟨_, hvalue⟩ := hlast.jumpValue_toNat hpos hends
          rw [dictJumpConsistent_eq hlonger, Option.some.injEq, ← UInt64.toNat_inj,
            UInt32.toNat_toUInt64]
          omega

/-- For every key and every number of buckets the loop ends, and what it returns is a bucket.
With one bucket more, the key stays where it is or goes to the new one. -/
theorem jump_bucket_consistent (key : UInt64) {n : UInt32} (hn : 0 < n) :
    (∃ r s, Loops.Rounds (jumpsMore n) jumpRound r (jumpStart key) s) ∧
      ∃ i, dictJumpConsistent key n = some i ∧ i < n.toUInt64 ∧
        ∀ m : UInt32, m.toNat = n.toNat + 1 →
          dictJumpConsistent key m = some i ∨ dictJumpConsistent key m = some n.toUInt64 := by
  obtain ⟨r, _, s, hrounds, _⟩ := exists_jump_rounds key n
  obtain ⟨i, hi, hlt⟩ := dictJumpConsistent_lt key hn
  refine ⟨⟨r, s, hrounds⟩, i, hi, hlt, ?_⟩
  intro m hm
  rw [← hi]
  exact dictJumpConsistent_succ key hm

theorem jump_bucket_consistent_five :
    ∃ i, dictJumpConsistent 6 5 = some i ∧ i < 5 ∧
      (dictJumpConsistent 6 6 = some i ∨ dictJumpConsistent 6 6 = some 5) := by
  obtain ⟨_, i, hi, hlt, hmore⟩ := @jump_bucket_consistent 6 5 (by decide)
  exact ⟨i, hi, hlt, hmore 6 (by decide)⟩

example : [1, 2, 3, 4, 5, 6, 7].map (dictJumpConsistent 6) =
    [some 0, some 1, some 2, some 2, some 2, some 5, some 5] := by
  decide +kernel

/-! ### The bucket of a key -/

/-- The bucket that `dict_find` looks into. -/
def dictIndex (hashFn : CString → UInt32) (maxCount : UInt32) (hpos : 0 < maxCount)
    (key : CString) : Fin maxCount.toNat :=
  match hindex : dictJumpConsistent (hashFn key).toUInt64 maxCount with
  | some index => ⟨index.toNat, by
      obtain ⟨i, hi, hlt⟩ := dictJumpConsistent_lt (hashFn key).toUInt64 hpos
      rw [hindex, Option.some.injEq] at hi
      rwa [← hi, UInt64.lt_iff_toNat_lt, UInt32.toNat_toUInt64] at hlt⟩
  | none => ⟨0, UInt32.lt_iff_toNat_lt.mp hpos⟩

/-- It is the choice for the hash of the key. -/
theorem dictIndex_eq {hashFn : CString → UInt32} {maxCount : UInt32} (hpos : 0 < maxCount)
    (key : CString) :
    dictJumpConsistent (hashFn key).toUInt64 maxCount =
      some (UInt64.ofNat (dictIndex hashFn maxCount hpos key)) := by
  unfold dictIndex
  split
  · rename_i index hindex
    exact hindex.trans (congrArg some UInt64.ofNat_toNat.symm)
  · rename_i hnone
    obtain ⟨i, hi, _⟩ := dictJumpConsistent_lt (hashFn key).toUInt64 hpos
    rw [hnone] at hi
    cases hi

end IdAllocator
